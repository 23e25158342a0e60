import Zul.Lib.Lists
import Zul.Node.Produce
import Zul.Store.Commit

/-! # What a block includes

Every transaction of a block was drained for it: the regular ones passed the executor's check
against the store, the pool transactions and withdrawals are taken over as they are. A produced
block is the draft's transactions, committed in one step.
-/

namespace Zul

namespace Executor

variable {R : SvmRuntime}

/-- The batch keeps the order of the input, and none of it is committed yet. -/
structure CheckedFrom (store : Store) (transactions : List VersionedTransaction) (c : Checks) :
    Prop where
  sublist : (c.batch.map (·.transaction)).Sublist transactions
  fresh : ∀ checked ∈ c.batch, ∀ sig, checked.transaction.signature = some sig →
    store.getTransaction sig = .ok none

theorem checkTransaction_transaction {queue : BlockhashQueue} {tx : VersionedTransaction}
    {checked : CheckedTransaction} (h : checkTransaction R queue tx = .ok checked) :
    checked.transaction = tx := by
  unfold checkTransaction at h
  simp only [bind, Except.bind, pure, Except.pure] at h
  repeat' split at h
  all_goals first | cases h; rfl | cases h

theorem checkOne_spec {store : Store} {queue : BlockhashQueue} {done : List VersionedTransaction}
    {c c' : Checks} {tx : VersionedTransaction} (hc : CheckedFrom store done c)
    (h : checkOne R store queue c tx = .ok c') : CheckedFrom store (done ++ [tx]) c' := by
  have hskip : (c.batch.map (·.transaction)).Sublist (done ++ [tx]) :=
    hc.sublist.trans (List.sublist_append_left ..)
  unfold checkOne at h
  split at h
  · cases h; exact ⟨hskip, hc.fresh⟩
  · rename_i sig hsig
    split at h
    · cases h; exact ⟨hskip, hc.fresh⟩
    · dsimp only at h
      split at h
      · cases h
      · cases h; exact ⟨hskip, hc.fresh⟩
      · rename_i hfresh
        split at h
        · cases h; exact ⟨hskip, hc.fresh⟩
        · rename_i checked hchecked
          have htx := checkTransaction_transaction hchecked
          cases h
          constructor
          · simpa [htx] using hc.sublist.append (List.Sublist.refl [tx])
          · intro x hx sig' hsig'
            rcases List.mem_append.mp hx with hx | hx
            · exact hc.fresh x hx sig' hsig'
            · rw [List.mem_singleton.mp hx, htx, hsig] at hsig'
              cases hsig'
              exact hfresh

theorem checks_spec {store : Store} {queue : BlockhashQueue}
    {transactions done : List VersionedTransaction} {c c' : Checks}
    (hc : CheckedFrom store done c)
    (h : transactions.foldlM (checkOne R store queue) c = .ok c') :
    CheckedFrom store (done ++ transactions) c' := by
  induction transactions generalizing done c with
  | nil => cases h; simpa using hc
  | cons tx transactions ih =>
    rw [List.foldlM_cons] at h
    cases hone : checkOne R store queue c tx with
    | error e => rw [hone] at h; cases h
    | ok c₁ =>
      rw [hone] at h
      rw [List.append_cons]
      exact ih (checkOne_spec hc hone) h

theorem collect_included (view : PartialMap Pubkey StoredAccount)
    (entries : List (Except TransactionError ProcessedTransaction × CheckedTransaction))
    (c : Collected) :
    ∃ l, l.Sublist (entries.map (·.2.transaction)) ∧
      ((entries.foldl (collectOne R view) c).included.map Prod.fst) =
        c.included.map Prod.fst ++ l := by
  induction entries generalizing c with
  | nil => exact ⟨[], .slnil, by simp⟩
  | cons e entries ih =>
    obtain ⟨l, hl, heq⟩ := ih (collectOne R view c e)
    rw [List.foldl_cons, heq]
    obtain ⟨result, checked⟩ := e
    rcases result with _ | _ | _
    · exact ⟨l, hl.cons _, by simp [collectOne]⟩
    · exact ⟨checked.transaction :: l, hl.cons_cons _, by simp [collectOne]⟩
    · exact ⟨checked.transaction :: l, hl.cons_cons _, by simp [collectOne]⟩

theorem executeBlock_included {collector : Pubkey} {store : Store} {input : BlockExecutionInput}
    {out : BlockExecutionOutput} (h : executeBlock R collector store input = .ok out) :
    (out.included.map Prod.fst).Sublist input.transactions ∧
    ∀ tx ∈ out.included.map Prod.fst, ∀ sig, tx.signature = some sig →
      store.getTransaction sig = .ok none := by
  unfold executeBlock at h
  cases hc : input.transactions.foldlM (checkOne R store input.queue) ⟨[], [], []⟩ with
  | error e => rw [hc] at h; cases h
  | ok checks =>
    rw [hc] at h
    cases h
    have hnone : CheckedFrom store [] ⟨[], [], []⟩ := ⟨List.Sublist.refl _, by simp⟩
    have hchecks := checks_spec hnone hc
    set entries := (R.loadAndExecute (callback R store input) input.slot input.parentBlockhash
      checks.batch).zip checks.batch with hentries
    obtain ⟨l, hl, heq⟩ := collect_included (R := R) (callback R store input) entries
      ⟨fun _ => none, [], checks.dropped, 0⟩
    have hbatch : (entries.map (·.2.transaction)).Sublist (checks.batch.map (·.transaction)) := by
      have hsnd : entries.map (·.2.transaction) = (entries.map Prod.snd).map (·.transaction) := by
        rw [List.map_map]; rfl
      rw [hsnd]
      exact (List.map_snd_zip_sublist ..).map _
    simp only [List.map_nil, List.nil_append] at heq
    dsimp only
    rw [heq]
    refine ⟨(hl.trans hbatch).trans hchecks.sublist, fun tx htx sig hsig => ?_⟩
    obtain ⟨checked, hmem, rfl⟩ := List.mem_map.mp ((hl.trans hbatch).subset htx)
    exact hchecks.fresh checked hmem sig hsig

theorem executeBlock_nil (R : SvmRuntime) (feeCollector : Pubkey) (store : Store)
    (slot timestampMs : UInt64) (parentBlockhash : H256) (queue : BlockhashQueue) :
    ∃ writes, executeBlock R feeCollector store ⟨slot, timestampMs, parentBlockhash, [], queue⟩ =
        .ok ⟨[], [], writes, 0⟩ ∧
      ∀ k, k ≠ CLOCK_ID → writes k = none := by
  refine ⟨_, by
    simp only [executeBlock, List.foldlM_nil, pure_bind, List.zip_nil_right, List.foldl_nil]
    rfl, fun k hk => ?_⟩
  simp [mergeWrites, creditCollector, blockOverlay, PartialMap.insert_of_ne _ _ hk]

end Executor

namespace Node

open Bridge Executor Privacy

variable {E : Env}

/-- Whether the node handles a transaction outside the executor: a withdrawal or a pool
transaction. -/
def handledNatively (tx : VersionedTransaction) : Bool :=
  (parseWithdraw tx).isSome || (tryParsePoolTx tx).isSome

theorem poolStage_included {order : MapOrder} {store : Store} {poolTxs : List PoolTx}
    {writes : AccountWrites} {included : List (VersionedTransaction × ExecutedTransactionMeta)}
    {out : PoolStage} (h : poolStage E order store poolTxs writes included = .ok out) :
    out.included.map Prod.fst = included.map Prod.fst ++ poolTxs.map (·.transaction) := by
  unfold poolStage at h
  split at h
  · rename_i hempty
    cases h
    rw [List.isEmpty_iff.mp hempty, List.map_nil, List.append_nil]
  · rename_i hne
    split at h
    · cases h
    · cases h
    · rename_i result hresult
      cases h
      obtain ⟨state, r, statuses, -, hran, -, -, hstatuses⟩ :=
        PoolService.processBlockSeeded_spec _ _ _ (by simpa using hne) hresult
      have hlength : poolTxs.length ≤ result.statuses.length := by
        rw [hstatuses, List.length_map, PoolService.length_statuses hran, List.length_map]
        exact (Nat.zero_add _).ge
      have hentries : (poolTxs.zip result.statuses).map (fun e => e.1.transaction) =
          poolTxs.map (·.transaction) := by
        conv_rhs => rw [← List.map_fst_zip hlength, List.map_map]
        rfl
      rw [List.map_append, List.map_map]
      exact congrArg _ hentries

theorem applyWithdraw_included {P : Prims} {store : Store} {gasMint : Option Pubkey}
    {feeCollector : Pubkey} {acc out : Withdrawn} {w : WithdrawTx}
    (h : applyWithdraw P store gasMint feeCollector acc w = some out) :
    out.included.map Prod.fst = acc.included.map Prod.fst ++ [w.transaction] := by
  simp only [applyWithdraw, Option.bind_eq_bind, Option.bind_eq_some_iff] at h
  obtain ⟨⟨writes, post⟩, -, h⟩ := h
  cases post <;> cases h <;> simp

theorem applyWithdraws_included {P : Prims} {store : Store} {gasMint : Option Pubkey}
    {feeCollector : Pubkey} {withdraws : List WithdrawTx} {acc out : Withdrawn}
    (h : withdraws.foldlM (applyWithdraw P store gasMint feeCollector) acc = some out) :
    out.included.map Prod.fst = acc.included.map Prod.fst ++ withdraws.map (·.transaction) := by
  induction withdraws generalizing acc with
  | nil => cases h; simp
  | cons w withdraws ih =>
    rw [List.foldlM_cons, Option.bind_eq_bind, Option.bind_eq_some_iff] at h
    obtain ⟨acc₁, hone, h⟩ := h
    rw [ih h, applyWithdraw_included hone, List.map_cons, List.append_assoc, List.singleton_append]

structure Drafted (E : Env) (choice : BlockChoice) (store : Store) (tip : ChainTip)
    (transactions : List VersionedTransaction) (deposits : List DepositEvent) (draft : BlockDraft)
    (output : BlockExecutionOutput) (pool : PoolStage) (depositWrites : AccountWrites)
    (withdrawn : Withdrawn) : Prop where
  executed : executeBlock E.svm E.feeCollector store
    (blockInput choice tip (partition (partitionWithdraws transactions).2).2) = .ok output
  pooled : poolStage E choice.order store (partition (partitionWithdraws transactions).2).1
    output.accountWrites output.included = .ok pool
  deposited : applyDeposits E.prims store E.options.gasMint deposits pool.writes =
    some (depositWrites, draft.credited)
  withdrew : applyWithdraws E.prims store E.options.gasMint E.feeCollector
    (partitionWithdraws transactions).1 depositWrites pool.included = some withdrawn
  writes : draft.writes = withdrawn.writes
  included : draft.included = withdrawn.included
  nullifiers : draft.nullifiers = pool.nullifiers
  accepted : draft.accepted = withdrawn.accepted

theorem draftBlock_spec {choice : BlockChoice} {store : Store} {tip : ChainTip}
    {transactions : List VersionedTransaction} {deposits : List DepositEvent} {draft : BlockDraft}
    (h : draftBlock E choice store tip transactions deposits = .ok draft) :
    ∃ output pool depositWrites withdrawn,
      Drafted E choice store tip transactions deposits draft output pool depositWrites
        withdrawn := by
  unfold draftBlock at h
  dsimp only at h
  split at h
  · cases h
  · rename_i output hexec
    split at h
    · cases h
    · rename_i pool hpool
      split at h
      · cases h
      · rename_i writes credited hdep
        split at h
        · cases h
        · rename_i withdrawn hw
          cases h
          exact ⟨output, pool, writes, withdrawn, hexec, hpool, hdep, hw, rfl, rfl, rfl, rfl⟩

theorem partitions_perm (transactions : List VersionedTransaction) :
    ((partition (partitionWithdraws transactions).2).2 ++
      (partition (partitionWithdraws transactions).2).1.map (·.transaction) ++
      (partitionWithdraws transactions).1.map (·.transaction)).Perm transactions := by
  have hw := List.parsed_append_rest_perm (g := WithdrawTx.transaction)
    (fun _ _ => parseWithdraw_transaction) transactions
  have hp := List.parsed_append_rest_perm (g := PoolTx.transaction)
    (fun _ _ => tryParsePoolTx_transaction) (partitionWithdraws transactions).2
  refine (List.perm_append_comm.append_right _).trans ?_
  exact (List.perm_append_comm.trans (hp.append_left _)).trans hw

theorem draftBlock_included {choice : BlockChoice} {store : Store} {tip : ChainTip}
    {transactions : List VersionedTransaction} {deposits : List DepositEvent} {draft : BlockDraft}
    (h : draftBlock E choice store tip transactions deposits = .ok draft) :
    (draft.included.map Prod.fst).Subperm transactions ∧
    ∀ tx ∈ draft.included.map Prod.fst, handledNatively tx = false →
      ∀ sig, tx.signature = some sig →
      store.getTransaction sig = .ok none := by
  obtain ⟨output, pool, writes, withdrawn, hd⟩ := draftBlock_spec h
  obtain ⟨hsub, hfresh⟩ := executeBlock_included hd.executed
  rw [hd.included, applyWithdraws_included hd.withdrew, poolStage_included hd.pooled]
  refine ⟨?_, fun tx htx hnative sig hsig => ?_⟩
  · exact ((hsub.append (.refl _)).append (.refl _)).subperm.trans
      (partitions_perm transactions).subperm
  · simp only [handledNatively, Bool.or_eq_false_iff] at hnative
    rcases List.mem_append.mp htx with htx | htx
    · rcases List.mem_append.mp htx with htx | htx
      · exact hfresh tx htx sig hsig
      · obtain ⟨pt, hpt, rfl⟩ := List.mem_map.mp htx
        obtain ⟨tx, -, hparse⟩ := List.mem_filterMap.mp hpt
        rw [tryParsePoolTx_transaction hparse, hparse] at hnative
        cases hnative.2
    · obtain ⟨w, hw, rfl⟩ := List.mem_map.mp htx
      obtain ⟨tx, -, hparse⟩ := List.mem_filterMap.mp hw
      rw [parseWithdraw_transaction hparse, hparse] at hnative
      cases hnative.1

structure Produced (E : Env) (choice : BlockChoice) (node node' : Node) (draft : BlockDraft)
    (block : Block) (store : Store) : Prop where
  committed : Store.Committed node.store block (choice.order.toList draft.writes) store
  transactions : block.transactions = draft.included.map Prod.fst
  slot : block.header.slot = node.tip.slot + 1
  store_eq : node'.store = { store with withdrawalsRootMeta := node'.store.withdrawalsRootMeta }
  tip_slot : node'.tip.slot = node.tip.slot + 1
  tip_queue : node'.tip.queue = node.tip.queue.register block.header.slot
    (block.header.hash E.prims)
  mempool : node'.mempool = node.mempool
  pendingDeposits : node'.pendingDeposits = node.pendingDeposits
  withdrawals : node'.withdrawals = insertLeaves E.prims node.withdrawals draft.accepted

theorem Produced.getAccount {choice : BlockChoice} {node node' : Node} {draft : BlockDraft}
    {block : Block} {store : Store} (hp : Produced E choice node node' draft block store) :
    node'.store.getAccount = draft.writes.applyTo node.store.getAccount := by
  rw [hp.store_eq]
  exact hp.committed.accounts.trans
    (Store.foldl_writeAccount (choice.order.enumerates draft.writes) _)

theorem commitDraft_spec {choice : BlockChoice} {node node' : Node} {draft : BlockDraft}
    (h : commitDraft E choice node draft = .ok node') :
    ∃ block store, Produced E choice node node' draft block store := by
  unfold commitDraft at h
  dsimp only at h
  split at h
  · cases h
  · rename_i store hcommit
    have hc := Store.commitBlock_spec hcommit
    split at h
    · rename_i hempty
      cases h
      refine ⟨_, store, hc, rfl, rfl, rfl, rfl, rfl, rfl, rfl, ?_⟩
      rw [List.isEmpty_iff.mp hempty]
      rfl
    · cases h
      exact ⟨_, store, hc, rfl, rfl, rfl, rfl, rfl, rfl, rfl, rfl⟩

theorem produce_spec {choice : BlockChoice} {node node' : Node}
    {transactions : List VersionedTransaction} {deposits : List DepositEvent}
    (h : produce E choice node transactions deposits = .ok node') :
    ∃ draft block store,
      draftBlock E choice node.store node.tip transactions deposits = .ok draft ∧
      Produced E choice node node' draft block store := by
  unfold produce at h
  split at h
  · cases h
  · rename_i draft hdraft
    obtain ⟨block, store, hp⟩ := commitDraft_spec h
    exact ⟨draft, block, store, hdraft, hp⟩

/-! ## Blocks that are produced -/

theorem commitDraft_isOk (choice : BlockChoice) (node : Node) (draft : BlockDraft)
    (hslot : ∀ latest, node.store.latestSlot = some latest → latest < node.tip.slot + 1)
    (hsig : ∀ tx ∈ draft.included.map Prod.fst, tx.signature.isSome) :
    ∃ node' block store, commitDraft E choice node draft = .ok node' ∧
      Produced E choice node node' draft block store := by
  have hcommit : ∃ node', commitDraft E choice node draft = .ok node' := by
    have hlen : (draft.included.map Prod.snd).length = (draft.included.map Prod.fst).length := by
      simp
    unfold commitDraft
    dsimp only
    split
    · rename_i e herror
      exact absurd herror (Store.commitBlock_ne_error hlen rfl hslot hsig)
    · split <;> exact ⟨_, rfl⟩
  obtain ⟨node', hnode'⟩ := hcommit
  obtain ⟨block, store, hp⟩ := commitDraft_spec hnode'
  exact ⟨node', block, store, hnode', hp⟩

theorem draftBlock_eq {choice : BlockChoice} {store : Store} {tip : ChainTip}
    {transactions : List VersionedTransaction} {deposits : List DepositEvent} {draft : BlockDraft}
    {output : BlockExecutionOutput} {pool : PoolStage} {depositWrites : AccountWrites}
    {withdrawn : Withdrawn}
    (hd : Drafted E choice store tip transactions deposits draft output pool depositWrites
      withdrawn) :
    draftBlock E choice store tip transactions deposits = .ok draft := by
  obtain ⟨hexec, hpool, hdep, hw, h₁, h₂, h₃, h₄⟩ := hd
  simp only [draftBlock, hexec, hpool, hdep, hw, ← h₁, ← h₂, ← h₃, ← h₄]

theorem draftBlock_deposits (E : Env) (choice : BlockChoice) (store : Store) (tip : ChainTip)
    (deposits : List DepositEvent) :
    ∃ writes : AccountWrites, (∀ k, k ≠ CLOCK_ID → writes k = none) ∧
      (∀ writes' credited, applyDeposits E.prims store E.options.gasMint deposits writes =
          some (writes', credited) →
        draftBlock E choice store tip [] deposits = .ok ⟨writes', [], [], credited, []⟩) ∧
      (applyDeposits E.prims store E.options.gasMint deposits writes = none →
        draftBlock E choice store tip [] deposits = .error .panic) := by
  obtain ⟨writes, hexec, hnone⟩ := executeBlock_nil E.svm E.feeCollector store
    (tip.slot + 1) choice.timestampMs tip.blockhash tip.queue
  refine ⟨writes, hnone, fun writes' credited hdep => ?_, fun hpanic => ?_⟩
  · have hd : Drafted E choice store tip [] deposits ⟨writes', [], [], credited, []⟩
        ⟨[], [], writes, 0⟩ ⟨writes, [], []⟩ writes' ⟨writes', [], []⟩ :=
      ⟨hexec, rfl, hdep, rfl, rfl, rfl, rfl, rfl⟩
    exact draftBlock_eq hd
  · have hexec' : executeBlock E.svm E.feeCollector store (blockInput choice tip []) =
        .ok ⟨[], [], writes, 0⟩ := hexec
    simp [draftBlock, partitionWithdraws, partition, hexec', poolStage, hpanic]

theorem executeBlock_regular (choice : BlockChoice) (store : Store) (tip : ChainTip)
    (tx : VersionedTransaction) {sig : Signature} {checked : CheckedTransaction}
    {e : ExecutedTransaction} (hsig : tx.signature = some sig)
    (hfresh : store.getTransaction sig = .ok none)
    (hchecked : checkTransaction E.svm tip.queue tx = .ok checked)
    (hexec : E.svm.loadAndExecute (callback E.svm store (blockInput choice tip [tx]))
      (tip.slot + 1) tip.blockhash [checked] = [.ok (.executed e)]) :
    ∃ output, executeBlock E.svm E.feeCollector store (blockInput choice tip [tx]) = .ok output ∧
      output.included.map Prod.fst = [tx] ∧
      ∀ k, k ≠ E.feeCollector → output.accountWrites k =
        ((PartialMap.insertAll (fun _ => none) (writableAccounts E.svm tx e.accounts)).onto
          (blockOverlay E.svm (blockInput choice tip [tx])) k).map asWrite := by
  have htx : checked.transaction = tx := checkTransaction_transaction hchecked
  have hcheck : [tx].foldlM (checkOne E.svm store tip.queue) ⟨[], [], []⟩ =
      .ok ⟨[sig], [], [checked]⟩ := by
    simp [checkOne, hsig, hfresh, hchecked, pure, Except.pure, bind, Except.bind]
  refine ⟨_, by
    rw [executeBlock, show (blockInput choice tip [tx]).transactions = [tx] from rfl,
      show (blockInput choice tip [tx]).queue = tip.queue from rfl, hcheck]
    rfl, ?_, fun k hk => ?_⟩
  · dsimp only
    rw [show (blockInput choice tip [tx]).slot = tip.slot + 1 from rfl,
      show (blockInput choice tip [tx]).parentBlockhash = tip.blockhash from rfl, hexec]
    simp [collectOne, htx]
  · dsimp only
    rw [show (blockInput choice tip [tx]).slot = tip.slot + 1 from rfl,
      show (blockInput choice tip [tx]).parentBlockhash = tip.blockhash from rfl, hexec]
    simp only [List.zip_cons_cons, List.zip_nil_right, List.foldl_cons, List.foldl_nil, collectOne,
      collectedAccounts, htx, mergeWrites, creditCollector]
    split
    · rw [PartialMap.onto_apply, PartialMap.insert_of_ne _ _ hk]
      rfl
    · rfl

theorem draftBlock_regular (choice : BlockChoice) {store : Store} (tip : ChainTip)
    {tx : VersionedTransaction} {sig : Signature} {checked : CheckedTransaction}
    {e : ExecutedTransaction} (hnative : handledNatively tx = false)
    (hsig : tx.signature = some sig) (hfresh : store.getTransaction sig = .ok none)
    (hchecked : checkTransaction E.svm tip.queue tx = .ok checked)
    (hexec : E.svm.loadAndExecute (callback E.svm store (blockInput choice tip [tx]))
      (tip.slot + 1) tip.blockhash [checked] = [.ok (.executed e)]) :
    ∃ draft, draftBlock E choice store tip [tx] [] = .ok draft ∧
      draft.included.map Prod.fst = [tx] ∧ draft.credited = [] ∧
      ∀ k, k ≠ E.feeCollector → draft.writes k =
        ((PartialMap.insertAll (fun _ => none) (writableAccounts E.svm tx e.accounts)).onto
          (blockOverlay E.svm (blockInput choice tip [tx])) k).map asWrite := by
  simp only [handledNatively, Bool.or_eq_false_iff, Option.isSome_eq_false_iff,
    Option.isNone_iff_eq_none] at hnative
  obtain ⟨hw, hp⟩ := hnative
  have hsplit : partitionWithdraws [tx] = ([], [tx]) := by simp [partitionWithdraws, hw]
  have hsplit' : partition [tx] = ([], [tx]) := by simp [partition, hp]
  obtain ⟨output, hout, hincluded, hwrites⟩ :=
    executeBlock_regular choice _ tip _ hsig hfresh hchecked hexec
  have hd : Drafted E choice store tip [tx] []
      ⟨output.accountWrites, output.included, [], [], []⟩ output
      ⟨output.accountWrites, output.included, []⟩ output.accountWrites
      ⟨output.accountWrites, output.included, []⟩ :=
    ⟨by rw [hsplit, hsplit']; exact hout, by rw [hsplit, hsplit']; rfl, rfl,
      by rw [hsplit]; rfl, rfl, rfl, rfl, rfl⟩
  exact ⟨_, draftBlock_eq hd, hincluded, rfl, hwrites⟩

theorem draftBlock_withdrawal (choice : BlockChoice) {store : Store} (tip : ChainTip)
    {tx : VersionedTransaction} {w : WithdrawTx} {account : StoredAccount}
    (hw : parseWithdraw tx = some w) (hnative : w.isNative E.options.gasMint = true)
    (haccount : store.getAccount w.feePayer = some account) (hclock : w.feePayer ≠ CLOCK_ID)
    (hfunds : w.neededNative E.options.gasMint ≤ account.lamports) (hamount : 0 < w.amount)
    (hcollector : w.feePayer ≠ E.feeCollector) :
    ∃ draft, draftBlock E choice store tip [tx] [] = .ok draft ∧
      draft.included.map Prod.fst = [tx] ∧ draft.accepted = [w] ∧
      draft.writes w.feePayer = some (some
        { account with lamports := account.lamports - w.neededNative E.options.gasMint }) := by
  have hsplit : partitionWithdraws [tx] = ([w], []) := by simp [partitionWithdraws, hw]
  obtain ⟨writes, hexec, hnone⟩ := executeBlock_nil E.svm E.feeCollector store
    (tip.slot + 1) choice.timestampMs tip.blockhash tip.queue
  have hload : loadThrough store writes w.feePayer = some account := by
    simp [loadThrough, hnone _ hclock, haccount]
  let post := account.lamports - w.neededNative E.options.gasMint
  have hburn : burnWithdrawal E.prims store E.options.gasMint w writes =
      some (writes.insert w.feePayer (some { account with lamports := post }), some post) := by
    simp [burnWithdrawal, burnAsset, hload, hfunds, hamount, hnative, post]
  obtain ⟨withdrawn, hwithdrawn, haccepted, hwrites⟩ : ∃ withdrawn,
      applyWithdraws E.prims store E.options.gasMint E.feeCollector [w] writes [] =
        some withdrawn ∧ withdrawn.accepted = [w] ∧
      withdrawn.writes = creditFee store E.feeCollector
        (writes.insert w.feePayer (some { account with lamports := post })) := by
    simp [applyWithdraws, applyWithdraw, hburn]
  have hincluded := applyWithdraws_included hwithdrawn
  have hd : Drafted E choice store tip [tx] []
      ⟨withdrawn.writes, withdrawn.included, [], [], withdrawn.accepted⟩ ⟨[], [], writes, 0⟩
      ⟨writes, [], []⟩ writes withdrawn :=
    ⟨by simpa [hsplit, partition, blockInput] using hexec, by simp [hsplit, partition,
      poolStage], rfl, by rw [hsplit]; exact hwithdrawn, rfl, rfl, rfl, rfl⟩
  refine ⟨_, draftBlock_eq hd, ?_, haccepted, ?_⟩
  · simpa [parseWithdraw_transaction hw] using hincluded
  · dsimp only
    rw [hwrites, creditFee, creditNative, PartialMap.insert_of_ne _ _ hcollector,
      PartialMap.insert_self]

end Node

end Zul
