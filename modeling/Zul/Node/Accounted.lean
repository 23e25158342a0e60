import Zul.Node.Accepted

/-! # Blocks account for what was drained, once

A drained transaction goes to the executor, to the pool or to the bridge. The executor puts its
signature on the dropped list or the transaction in the block, never both; the pool and the bridge
put all of theirs in the block, behind it. Each entry reports the outcome of its own transaction.
-/

namespace Zul

namespace Executor

variable {R : SvmRuntime}

def Checks.countOf (c : Checks) (sig : Signature) : ℕ :=
  (c.batch.map (·.transaction.signature)).count (some sig) + (c.dropped.map Prod.fst).count sig

theorem checkOne_countOf {store : Store} {queue : BlockhashQueue} {c c' : Checks}
    {tx : VersionedTransaction} (hsigned : tx.signature.isSome)
    (h : checkOne R store queue c tx = .ok c') (sig : Signature) :
    c'.countOf sig = c.countOf sig + [tx.signature].count (some sig) := by
  obtain ⟨x, hx⟩ := Option.isSome_iff_exists.mp hsigned
  -- a drop adds the signature to one list, a check to the other
  have hdrop : ∀ (seen : List Signature) (e : TransactionError),
      (Checks.mk seen (c.dropped ++ [(x, e)]) c.batch).countOf sig =
        c.countOf sig + [some x].count (some sig) := by
    intro seen e
    simp [Checks.countOf, Nat.add_assoc, List.count_singleton]
  unfold checkOne at h
  rw [hx] at h ⊢
  dsimp only at h
  split at h
  · cases h
    exact hdrop _ _
  · split at h
    · cases h
    · cases h
      exact hdrop _ _
    · split at h
      · cases h
        exact hdrop _ _
      · rename_i checked hchecked
        have htx := checkTransaction_transaction hchecked
        cases h
        simp only [Checks.countOf, List.map_append, List.map_cons, List.map_nil, htx, hx,
          List.count_append]
        omega

theorem checks_countOf {store : Store} {queue : BlockhashQueue}
    {transactions : List VersionedTransaction} {c c' : Checks}
    (hsigned : ∀ tx ∈ transactions, tx.signature.isSome)
    (h : transactions.foldlM (checkOne R store queue) c = .ok c') (sig : Signature) :
    c'.countOf sig = c.countOf sig + (transactions.map (·.signature)).count (some sig) := by
  induction transactions generalizing c with
  | nil =>
    cases h
    rfl
  | cons tx transactions ih =>
    rw [List.foldlM_cons] at h
    cases hone : checkOne R store queue c tx with
    | error e =>
      rw [hone] at h
      cases h
    | ok c₁ =>
      rw [hone] at h
      obtain ⟨htx, hrest⟩ := List.forall_mem_cons.mp hsigned
      rw [ih hrest h, checkOne_countOf htx hone, List.map_cons, List.count_singleton,
        List.count_cons]
      omega

/-- How often a signature is among the included transactions or on the dropped list. -/
def Collected.countOf (c : Collected) (sig : Signature) : ℕ :=
  (c.included.map (·.1.signature)).count (some sig) + (c.dropped.map Prod.fst).count sig

theorem collectOne_countOf (view : PartialMap Pubkey StoredAccount) (c : Collected)
    (entry : Except TransactionError ProcessedTransaction × CheckedTransaction) (sig : Signature) :
    (collectOne R view c entry).countOf sig =
      c.countOf sig + [entry.2.transaction.signature].count (some sig) := by
  obtain ⟨result, checked⟩ := entry
  rcases result with e | ⟨fee, accounts, e⟩ | executed
  · cases hsig : checked.transaction.signature with
    | none => simp [collectOne, Collected.countOf, hsig]
    | some x => simp [collectOne, Collected.countOf, hsig, Nat.add_assoc, List.count_singleton]
  · simp only [collectOne, Collected.countOf, List.map_append, List.map_cons, List.map_nil,
      List.count_append]
    omega
  · simp only [collectOne, Collected.countOf, List.map_append, List.map_cons, List.map_nil,
      List.count_append]
    omega

theorem collect_countOf (view : PartialMap Pubkey StoredAccount)
    (entries : List (Except TransactionError ProcessedTransaction × CheckedTransaction))
    (c : Collected) (sig : Signature) :
    (entries.foldl (collectOne R view) c).countOf sig =
      c.countOf sig + (entries.map (·.2.transaction.signature)).count (some sig) := by
  induction entries generalizing c with
  | nil => rfl
  | cons entry entries ih =>
    rw [List.foldl_cons, ih, collectOne_countOf, List.map_cons, List.count_singleton,
      List.count_cons]
    omega

theorem executeBlock_countOf (hR : R.OneResultEach) {collector : Pubkey} {store : Store}
    {input : BlockExecutionInput} {out : BlockExecutionOutput}
    (hsigned : ∀ tx ∈ input.transactions, tx.signature.isSome)
    (h : executeBlock R collector store input = .ok out) (sig : Signature) :
    ((out.included.map Prod.fst).map (·.signature)).count (some sig) +
        (out.dropped.map Prod.fst).count sig =
      (input.transactions.map (·.signature)).count (some sig) := by
  unfold executeBlock at h
  cases hc : input.transactions.foldlM (checkOne R store input.queue) ⟨[], [], []⟩ with
  | error e =>
    rw [hc] at h
    cases h
  | ok checks =>
    rw [hc] at h
    cases h
    have hcollected := collect_countOf (R := R) (callback R store input)
      ((R.loadAndExecute (callback R store input) input.slot input.parentBlockhash
        checks.batch).zip checks.batch) ⟨fun _ => none, [], checks.dropped, 0⟩ sig
    have hbatch : ((R.loadAndExecute (callback R store input) input.slot input.parentBlockhash
        checks.batch).zip checks.batch).map (·.2.transaction.signature) =
        checks.batch.map (·.transaction.signature) := by
      conv_rhs => rw [← List.map_snd_zip (hR (callback R store input) input.slot
        input.parentBlockhash checks.batch).ge, List.map_map]
      rfl
    have hchecks := checks_countOf hsigned hc sig
    rw [hbatch] at hcollected
    simp only [Collected.countOf, Checks.countOf, List.map_nil, List.count_nil]
      at hcollected hchecks
    rw [List.map_map]
    show ((_ : List (Option Signature)).count (some sig)) + _ = _
    refine hcollected.trans ?_
    omega

/-- A transaction of the batch and its result: what it leaves of the final accounts, and its entry,
which reports the result and the balances of the message's accounts before and after. -/
def svmEntry (R : SvmRuntime) (view before : PartialMap Pubkey StoredAccount)
    (entry : Except TransactionError ProcessedTransaction × CheckedTransaction) :
    Option (PartialMap Pubkey StoredAccount ×
      Option (VersionedTransaction × ExecutedTransactionMeta)) :=
  let tx := entry.2.transaction
  let after := before.insertAll (collectedAccounts R tx entry.1)
  let balances (accounts : PartialMap Pubkey StoredAccount) :=
    tx.message.staticAccountKeys.map (lamportsOf view accounts)
  some (after, match entry.1 with
    | .error _ => none
    | .ok (.feesOnly fee _ e) =>
      some (tx, ⟨.error e, fee, 0, [], balances before, balances after⟩)
    | .ok (.executed e) =>
      some (tx, ⟨e.status, e.fee, e.executedUnits, e.logMessages.getD [], balances before,
        balances after⟩))

theorem svmEntry_collectOne (view : PartialMap Pubkey StoredAccount) (c : Collected)
    (entry : Except TransactionError ProcessedTransaction × CheckedTransaction) :
    ∃ out, svmEntry R view c.finalAccounts entry =
        some ((collectOne R view c entry).finalAccounts, out) ∧
      (collectOne R view c entry).included = c.included ++ out.toList := by
  obtain ⟨result, checked⟩ := entry
  rcases result with e | ⟨fee, accounts, e⟩ | executed
  · exact ⟨none, rfl, (List.append_nil _).symm⟩
  · exact ⟨_, rfl, rfl⟩
  · exact ⟨_, rfl, rfl⟩

/-- The executor's entries are those of its batch, each with its own result. -/
theorem executeBlock_entries {collector : Pubkey} {store : Store} {input : BlockExecutionInput}
    {out : BlockExecutionOutput} (h : executeBlock R collector store input = .ok out) :
    ∃ (batch : List CheckedTransaction) (final : PartialMap Pubkey StoredAccount),
      (batch.map (·.transaction)).Sublist input.transactions ∧
      ((R.loadAndExecute (callback R store input) input.slot input.parentBlockhash batch).zip
          batch).emit (svmEntry R (callback R store input)) (fun _ => none) =
        some (final, out.included) := by
  unfold executeBlock at h
  cases hc : input.transactions.foldlM (checkOne R store input.queue) ⟨[], [], []⟩ with
  | error e =>
    rw [hc] at h
    cases h
  | ok checks =>
    rw [hc] at h
    cases h
    have hnone : CheckedFrom store [] ⟨[], [], []⟩ := ⟨List.Sublist.refl _, by simp⟩
    obtain ⟨new, hnew, hincluded⟩ := List.emit_of_foldlM _
      (fun c : Collected => c.finalAccounts) (fun c => c.included)
      (fun c entry c' hone => Option.some.inj hone ▸
        svmEntry_collectOne (callback R store input) c entry)
      (List.foldlM_pure : ((R.loadAndExecute (callback R store input) input.slot
        input.parentBlockhash checks.batch).zip checks.batch).foldlM
          (fun c entry => pure (collectOne R (callback R store input) c entry))
          ⟨fun _ => none, [], checks.dropped, 0⟩ = _)
    obtain rfl := hincluded
    exact ⟨checks.batch, _, (checks_spec hnone hc).sublist, hnew⟩

end Executor

namespace Node

open Bridge Executor Privacy

variable {E : Env}

/-! ## The three kinds of transactions -/

def withdrawalsIn (drained : List VersionedTransaction) : List VersionedTransaction :=
  drained.filter fun tx => (parseWithdraw tx).isSome

def poolIn (drained : List VersionedTransaction) : List VersionedTransaction :=
  (drained.filter fun tx => (parseWithdraw tx).isNone).filter fun tx => (tryParsePoolTx tx).isSome

def regularIn (drained : List VersionedTransaction) : List VersionedTransaction :=
  (drained.filter fun tx => (parseWithdraw tx).isNone).filter fun tx => (tryParsePoolTx tx).isNone

theorem partitions_eq (drained : List VersionedTransaction) :
    (partitionWithdraws drained).1.map (·.transaction) = withdrawalsIn drained ∧
      (partition (partitionWithdraws drained).2).1.map (·.transaction) = poolIn drained ∧
      (partition (partitionWithdraws drained).2).2 = regularIn drained :=
  ⟨List.map_filterMap_of_parse (fun _ _ => parseWithdraw_transaction) _,
    List.map_filterMap_of_parse (fun _ _ => tryParsePoolTx_transaction) _, rfl⟩

theorem Drafted.body_eq {choice : BlockChoice} {store : Store} {tip : ChainTip}
    {drained : List VersionedTransaction} {deposits : List DepositEvent} {draft : BlockDraft}
    {output : BlockExecutionOutput} {pool : PoolStage} {depositWrites : AccountWrites}
    {withdrawn : Withdrawn}
    (hd : Drafted E choice store tip drained deposits draft output pool depositWrites withdrawn) :
    draft.included.map Prod.fst =
      output.included.map Prod.fst ++ poolIn drained ++ withdrawalsIn drained := by
  obtain ⟨hwithdrawals, hpool, -⟩ := partitions_eq drained
  rw [hd.included, applyWithdraws_included hd.withdrew, poolStage_included hd.pooled, hwithdrawals,
    hpool]

theorem Drafted.countOf (hsvm : E.svm.OneResultEach) {choice : BlockChoice} {store : Store}
    {tip : ChainTip} {drained : List VersionedTransaction} {deposits : List DepositEvent}
    {draft : BlockDraft} {output : BlockExecutionOutput} {pool : PoolStage}
    {depositWrites : AccountWrites} {withdrawn : Withdrawn}
    (hd : Drafted E choice store tip drained deposits draft output pool depositWrites withdrawn)
    (hsigned : ∀ tx ∈ drained, tx.signature.isSome) (sig : Signature) :
    ((draft.included.map Prod.fst).map (·.signature)).count (some sig) +
        (output.dropped.map Prod.fst).count sig =
      (drained.map (·.signature)).count (some sig) := by
  obtain ⟨hwithdrawals, hpool, hregular⟩ := partitions_eq drained
  have hperm := partitions_perm drained
  rw [hwithdrawals, hpool, hregular] at hperm
  have hexecuted := hd.executed
  rw [hregular] at hexecuted
  have hcount := executeBlock_countOf hsvm (fun tx htx => hsigned tx
    (List.mem_of_mem_filter (List.mem_of_mem_filter htx))) hexecuted sig
  have hall := (hperm.map (·.signature)).count_eq (some sig)
  simp only [List.map_append, List.count_append] at hall
  rw [hd.body_eq]
  simp only [List.map_append, List.count_append, blockInput] at hcount ⊢
  omega

/-! ## Each entry reports its own transaction -/

def reported : Except PoolServiceError Unit → Except String Unit
  | .ok () => .ok ()
  | .error e => .error e.message

/-- A pool transaction applied in its turn, and the status it is reported with. -/
def poolStatus (E : Env) (store : Store) (r : Running) (tx : PoolTx) :
    Option (Running × Option (Except String Unit)) :=
  (PoolService.applyOne E.prims E.verifier E.poolConfig store r tx.feePayer tx.instruction).map
    fun out => (out.1, some (reported out.2))

/-- The entries of a block's pool transactions: each carries the status its own application ended
with, and the payer's balance in the merged writes. -/
def PoolEntries (E : Env) (order : MapOrder) (store : Store) (poolTxs : List PoolTx)
    (before after : AccountWrites)
    (entries : List (VersionedTransaction × ExecutedTransactionMeta)) : Prop :=
  poolTxs = [] ∧ after = before ∧ entries = [] ∨
    ∃ state r result, PoolService.loadState E.prims E.poolConfig store = .ok state ∧
      PoolService.processBlockSeeded E.prims E.verifier E.poolConfig order store
        (poolTxs.map fun pt => (pt.feePayer, pt.instruction)) (seedOf before) =
          some (.ok result) ∧
      poolTxs.emit (poolStatus E store)
          ⟨⟨state, BlockNullifiers.empty⟩, seedOf before, fun _ => none, []⟩ =
        some (r, result.statuses) ∧
      after = result.accountWrites.foldl mergeWrite before ∧
      entries = (poolTxs.zip result.statuses).map (poolEntry after)

/-- A withdrawal burned in its turn, and its entry: that of an accepted one or of a refused one. -/
def withdrawEntry (P : Prims) (store : Store) (gasMint : Option Pubkey) (feeCollector : Pubkey)
    (writes : AccountWrites) (w : WithdrawTx) :
    Option (AccountWrites × Option (VersionedTransaction × ExecutedTransactionMeta)) :=
  (burnWithdrawal P store gasMint w writes).map fun
    | (writes, some post) => (creditFee store feeCollector writes,
        some (w.transaction, poolMeta true none POOL_TX_FEE 0 post
          ["Program log: withdraw " ++ toString w.amount ++ " to L1, nonce " ++ toString w.nonce]))
    | (writes, none) => (writes,
        some (w.transaction, poolMeta false (some "insufficient balance for withdrawal") 0 0 0 []))

/-- The entries of a block's three stages are those of the stage's own transactions and outcomes,
in order. -/
structure Attributed (E : Env) (choice : BlockChoice) (store : Store) (tip : ChainTip)
    (drained : List VersionedTransaction) (deposits : List DepositEvent)
    (output : BlockExecutionOutput)
    (pool withdrawals : List (VersionedTransaction × ExecutedTransactionMeta)) : Prop where
  svm : let input := blockInput choice tip (regularIn drained)
    ∃ (batch : List CheckedTransaction) (final : PartialMap Pubkey StoredAccount),
      (batch.map (·.transaction)).Sublist (regularIn drained) ∧
      ((E.svm.loadAndExecute (callback E.svm store input) input.slot input.parentBlockhash
          batch).zip batch).emit (svmEntry E.svm (callback E.svm store input)) (fun _ => none) =
        some (final, output.included)
  rest : ∃ poolWrites depositWrites credited writes,
    PoolEntries E choice.order store (partition (partitionWithdraws drained).2).1
      output.accountWrites poolWrites pool ∧
    applyDeposits E.prims store E.options.gasMint deposits poolWrites =
      some (depositWrites, credited) ∧
    (partitionWithdraws drained).1.emit
        (withdrawEntry E.prims store E.options.gasMint E.feeCollector) depositWrites =
      some (writes, withdrawals)

theorem poolStatus_applyNext {store : Store} {tx : PoolTx}
    {acc out : Running × List (Except PoolServiceError Unit)}
    (h : PoolService.applyNext E.prims E.verifier E.poolConfig store acc
      (tx.feePayer, tx.instruction) = some out) :
    ∃ status, poolStatus E store acc.1 tx = some (out.1, status) ∧
      out.2.map reported = acc.2.map reported ++ status.toList := by
  simp only [PoolService.applyNext, Option.bind_eq_bind, Option.bind_eq_some_iff] at h
  obtain ⟨⟨r, status⟩, happly, h⟩ := h
  cases h
  exact ⟨some (reported status), by rw [poolStatus, happly]; rfl, List.map_append⟩

theorem poolStage_entries {order : MapOrder} {store : Store} {poolTxs : List PoolTx}
    {writes : AccountWrites} {included : List (VersionedTransaction × ExecutedTransactionMeta)}
    {out : PoolStage} (h : poolStage E order store poolTxs writes included = .ok out) :
    ∃ entries, PoolEntries E order store poolTxs writes out.writes entries ∧
      out.included = included ++ entries := by
  unfold poolStage at h
  split at h
  · rename_i hempty
    cases h
    exact ⟨[], .inl ⟨List.isEmpty_iff.mp hempty, rfl, rfl⟩, (List.append_nil _).symm⟩
  · rename_i hne
    split at h
    · cases h
    · cases h
    · rename_i result hresult
      cases h
      obtain ⟨state, r, statuses, hload, hran, -, -, hstatuses⟩ :=
        PoolService.processBlockSeeded_spec _ _ _ (by simpa using hne) hresult
      rw [List.foldlM_map] at hran
      obtain ⟨new, hnew, hall⟩ := List.emit_of_foldlM (poolStatus E store) Prod.fst
        (fun c => c.2.map reported) (fun _ _ _ => poolStatus_applyNext) hran
      have hreported : result.statuses = new := by
        rw [hstatuses, ← List.nil_append new]
        refine Eq.trans (List.map_congr_left fun status _ => ?_) hall
        cases status <;> rfl
      exact ⟨_, .inr ⟨state, r, result, hload, hresult, hreported ▸ hnew, rfl, rfl⟩, rfl⟩

theorem applyWithdraws_entries {P : Prims} {store : Store} {gasMint : Option Pubkey}
    {feeCollector : Pubkey} {withdraws : List WithdrawTx} {acc out : Withdrawn}
    (h : withdraws.foldlM (applyWithdraw P store gasMint feeCollector) acc = some out) :
    ∃ entries, withdraws.emit (withdrawEntry P store gasMint feeCollector) acc.writes =
        some (out.writes, entries) ∧ out.included = acc.included ++ entries := by
  refine List.emit_of_foldlM _ (fun c : Withdrawn => c.writes) (fun c => c.included)
    (fun c w c' hone => ?_) h
  simp only [applyWithdraw, Option.bind_eq_bind, Option.bind_eq_some_iff] at hone
  obtain ⟨⟨burned, post⟩, hburn, hone⟩ := hone
  cases post <;> cases hone <;> exact ⟨_, by rw [withdrawEntry, hburn]; rfl, rfl⟩

theorem Drafted.attributed {choice : BlockChoice} {store : Store} {tip : ChainTip}
    {drained : List VersionedTransaction} {deposits : List DepositEvent} {draft : BlockDraft}
    {output : BlockExecutionOutput} {pool : PoolStage} {depositWrites : AccountWrites}
    {withdrawn : Withdrawn}
    (hd : Drafted E choice store tip drained deposits draft output pool depositWrites withdrawn) :
    ∃ poolEntries withdrawals, draft.included = output.included ++ poolEntries ++ withdrawals ∧
      Attributed E choice store tip drained deposits output poolEntries withdrawals := by
  have hexecuted := hd.executed
  rw [(partitions_eq drained).2.2] at hexecuted
  obtain ⟨poolEntries, hpool, hpooled⟩ := poolStage_entries hd.pooled
  obtain ⟨withdrawals, hburned, hwithdrew⟩ := applyWithdraws_entries hd.withdrew
  refine ⟨poolEntries, withdrawals, ?_, executeBlock_entries hexecuted, ?_⟩
  · rw [hd.included, hwithdrew, hpooled]
  · exact ⟨pool.writes, depositWrites, draft.credited, withdrawn.writes, hpool, hd.deposited,
      hburned⟩

/-- In a list drawn from transactions with distinct signatures, a transaction and its signature are
counted alike. -/
theorem count_signature_eq {drained l : List VersionedTransaction}
    (hdistinct : (drained.map (·.signature)).Nodup) (hl : l ⊆ drained) {tx : VersionedTransaction}
    (htx : tx ∈ drained) : (l.map (·.signature)).count tx.signature = l.count tx := by
  rw [List.count, List.countP_map, List.count]
  apply List.countP_congr
  intro x hx
  simp only [Function.comp_apply, beq_iff_eq]
  constructor
  · exact List.inj_on_of_nodup_map hdistinct (hl hx) htx
  · exact congrArg _

theorem tryProduceBlock_committed {choice : BlockChoice} {node node' : Node} {slot : UInt64}
    (h : tryProduceBlock E choice node = (node', .ok (some slot))) :
    let drained := (node.mempool.drain E.options.maxBlockTransactions).2
    ∃ draft output pool depositWrites withdrawn block stateUpdate queue store,
      Drafted E choice node.store node.tip drained node.pendingDeposits draft output pool
        depositWrites withdrawn ∧
      node.store.commitBlock E.prims block (draft.included.map Prod.snd)
        (choice.order.toList draft.writes) stateUpdate queue draft.nullifiers = .ok store ∧
      block.transactions = draft.included.map Prod.fst ∧ block.header.slot = slot ∧
      node'.store = { store with withdrawalsRootMeta := node'.store.withdrawalsRootMeta } := by
  unfold tryProduceBlock at h
  dsimp only at h
  split at h
  · split at h
    · rename_i produced hproduce
      cases h
      rw [produce] at hproduce
      split at hproduce
      · cases hproduce
      · rename_i draft hdraft
        obtain ⟨output, pool, depositWrites, withdrawn, hd⟩ := draftBlock_spec hdraft
        unfold commitDraft at hproduce
        dsimp only at hproduce
        split at hproduce
        · cases hproduce
        · rename_i store hcommit
          refine ⟨draft, output, pool, depositWrites, withdrawn, _, _, _, store, hd, hcommit, rfl,
            ?_⟩
          split at hproduce
          · cases hproduce
            exact ⟨rfl, rfl⟩
          · cases hproduce
            exact ⟨rfl, rfl⟩
    · cases h
  · cases h

/-- When a block is committed, each drained transaction is in it or on the dropped list, once; the
block lists what the executor included, the pool transactions and the withdrawals, each in the
order they were drained; and each is stored with a meta that reports the outcome of that very
transaction in its stage. -/
theorem drained_accounted_for (hsvm : E.svm.OneResultEach) {choice : BlockChoice}
    {node node' : Node} {slot : UInt64}
    (hsigned : ∀ tx ∈ (node.mempool.drain E.options.maxBlockTransactions).2, tx.signature.isSome)
    (hdistinct : ((node.mempool.drain E.options.maxBlockTransactions).2.map
      (·.signature)).Nodup)
    (h : tryProduceBlock E choice node = (node', .ok (some slot))) :
    let drained := (node.mempool.drain E.options.maxBlockTransactions).2
    ∃ (output : BlockExecutionOutput) (block : Block)
      (pool withdrawals : List (VersionedTransaction × ExecutedTransactionMeta)),
      let included := output.included ++ pool ++ withdrawals
      executeBlock E.svm E.feeCollector node.store
        (blockInput choice node.tip (regularIn drained)) = .ok output ∧
      node'.store.getBlock slot = some block ∧ block.transactions = included.map Prod.fst ∧
      (∀ tx ∈ drained, ∀ sig, tx.signature = some sig →
        block.transactions.count tx + (output.dropped.map Prod.fst).count sig = 1) ∧
      (∃ svm, svm.Sublist (regularIn drained) ∧
        block.transactions = svm ++ poolIn drained ++ withdrawalsIn drained) ∧
      Attributed E choice node.store node.tip drained node.pendingDeposits output pool
        withdrawals ∧
      ∀ i tx txMeta sig, included[i]? = some (tx, txMeta) → tx.signature = some sig →
        node'.store.txLoc sig = some ⟨slot, UInt32.ofNat i⟩ ∧
          node'.store.txMeta sig = some txMeta := by
  intro drained
  obtain ⟨draft, output, pool, depositWrites, withdrawn, block, stateUpdate, queue, store, hd,
    hcommit, hbody, hslot, hstore⟩ := tryProduceBlock_committed h
  have hexecuted := hd.executed
  rw [(partitions_eq drained).2.2] at hexecuted
  have hsubperm := (draftBlock_included (draftBlock_eq hd)).1
  have hnodup : (block.transactions.map (·.signature)).Nodup := by
    rw [hbody]
    obtain ⟨l, hperm, hsub⟩ := hsubperm
    exact (hperm.map _).nodup_iff.mp (List.Nodup.sublist (hsub.map _) hdistinct)
  obtain ⟨poolEntries, withdrawals, hincluded, hattributed⟩ := hd.attributed
  refine ⟨output, block, poolEntries, withdrawals, hexecuted, ?_, hincluded ▸ hbody, ?_, ?_,
    hattributed, ?_⟩
  · rw [hstore, Store.getBlock, (Store.commitBlock_spec hcommit).blocks, hslot,
      PartialMap.insert_self]
  · intro tx htx sig hsig
    have hcount := hd.countOf hsvm hsigned sig
    have hone : (drained.map (·.signature)).count (some sig) = 1 :=
      List.count_eq_one_of_mem hdistinct (List.mem_map.mpr ⟨tx, htx, hsig⟩)
    rw [hone, ← hbody, ← hsig, count_signature_eq hdistinct (hbody ▸ hsubperm.subset) htx] at hcount
    exact hcount
  · exact ⟨output.included.map Prod.fst, (executeBlock_included hexecuted).1,
      hbody.trans hd.body_eq⟩
  · intro i tx txMeta sig hi hsig
    rw [← hincluded] at hi
    have hzip : (block.transactions.zip (draft.included.map Prod.snd))[i]? = some (tx, txMeta) := by
      have hpairs : draft.included =
          (draft.included.map Prod.fst).zip (draft.included.map Prod.snd) :=
        List.zip_of_prod rfl rfl
      rw [hbody, ← hpairs, hi]
    have hlookup := (Store.commitBlock_lookup hcommit).2 hnodup i tx txMeta hzip sig hsig
    rw [hslot] at hlookup
    rw [hstore]
    exact hlookup

/-- The sample withdrawal, drained on a fresh chain, makes up the first block. -/
theorem withdrawal_accounted_for :
    ∃ (node node' : Node) (choice : BlockChoice) (slot : UInt64) (block : Block),
      tryProduceBlock Sample.env choice node = (node', .ok (some slot)) ∧
      (node.mempool.drain Sample.env.options.maxBlockTransactions).2 = [Sample.replayedTx] ∧
      node'.store.getBlock slot = some block ∧
      ∃ svm, svm.Sublist (regularIn [Sample.replayedTx]) ∧
        block.transactions = svm ++ poolIn [Sample.replayedTx] ++
          withdrawalsIn [Sample.replayedTx] := by
  obtain ⟨order⟩ := MapOrder.nonempty
  obtain ⟨s, -, -, hdrained, -, -, hlatest, hpayer⟩ := Sample.accepted_replayedTx
  have hparse := Sample.parseWithdraw_withdrawTx 9 (Bytes.replicate 32 7) 1000 1
    (Sample.env.genesis.genesisHash Sample.prims)
  obtain ⟨draft, hdraft, hincluded, -, -⟩ := draftBlock_withdrawal (E := Sample.env)
    ⟨0, order⟩ s.node.tip hparse (by decide) hpayer (by decide) (by decide) (by decide) (by decide)
  obtain ⟨node', block, store, hcommit, -⟩ := commitDraft_isOk (E := Sample.env) ⟨0, order⟩
    (drainForBlock Sample.env s.node).1 draft (fun latest h => by cases hlatest.symm.trans h) (by
      intro tx htx
      rw [hincluded, List.mem_singleton] at htx
      rw [htx]
      rfl)
  have hproduce : produce Sample.env ⟨0, order⟩ (drainForBlock Sample.env s.node).1
      [Sample.replayedTx] [] = .ok node' := by
    rw [produce, show draftBlock Sample.env ⟨0, order⟩ (drainForBlock Sample.env s.node).1.store
      (drainForBlock Sample.env s.node).1.tip [Sample.replayedTx] [] = _ from hdraft]
    exact hcommit
  have hcall : tryProduceBlock Sample.env ⟨0, order⟩ s.node =
      (node', .ok (some node'.tip.slot)) := by
    simp only [tryProduceBlock, hdrained, hproduce]
    rfl
  have hbatch : (s.node.mempool.drain Sample.env.options.maxBlockTransactions).2 =
      [Sample.replayedTx] := congrArg Prod.fst hdrained
  have hsvm : Sample.env.svm.OneResultEach := fun _ _ _ _ => List.length_map _
  obtain ⟨output, block, pool, withdrawals, -, hblock, -, -, horder, -⟩ :=
    drained_accounted_for hsvm (by rw [hbatch]; exact List.forall_mem_singleton.mpr rfl)
    (by rw [hbatch]; exact List.nodup_singleton _) hcall
  rw [hbatch] at horder
  exact ⟨s.node, node', ⟨0, order⟩, node'.tip.slot, block, hcall, hbatch, hblock, horder⟩

end Node

end Zul
