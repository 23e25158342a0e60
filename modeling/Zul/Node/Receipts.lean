import Zul.Executor.Atomicity
import Zul.Node.Included
import Zul.Node.Run

/-! # Deposit receipts

A deposit is credited when no account stands at its receipt address, and crediting it writes one
there. The receipt holds no lamports, so a regular transaction that merely lists it as writable
deletes it, and the deposit can be credited again. As long as no block's regular transactions
leave the receipt of a credited deposit without lamports, every deposit is credited once.
-/

namespace Zul.Node

open Bridge Executor Privacy WrappedSpl

/-! ## Stages that delete nothing -/

/-- Later writes that keep or overwrite the earlier ones; none of them is a deletion. -/
def Extends (writes writes' : AccountWrites) : Prop :=
  ∀ k, writes' k = writes k ∨ ∃ account, writes' k = some (some account)

theorem Extends.refl (writes : AccountWrites) : Extends writes writes := fun _ => .inl rfl

theorem Extends.trans {w₁ w₂ w₃ : AccountWrites} (h : Extends w₁ w₂) (h' : Extends w₂ w₃) :
    Extends w₁ w₃ := by
  intro k
  rcases h' k with heq | hsome
  · rw [heq]
    exact h k
  · exact .inr hsome

theorem Extends.insert (writes : AccountWrites) (k : Pubkey) (account : StoredAccount) :
    Extends writes (writes.insert k (some account)) := by
  intro j
  by_cases hj : j = k
  · exact .inr ⟨account, by rw [hj, PartialMap.insert_self]⟩
  · exact .inl (PartialMap.insert_of_ne _ _ hj)

theorem Extends.written {writes writes' : AccountWrites} (h : Extends writes writes') {k : Pubkey}
    (hk : ∃ account, writes k = some (some account)) :
    ∃ account, writes' k = some (some account) := by
  rcases h k with heq | hsome
  · rwa [heq]
  · exact hsome

variable {P : Prims} {store : Store} {gasMint : Option Pubkey} {feeCollector : Pubkey}

theorem extends_creditNative (recipient : Pubkey) (amount : UInt64) (writes : AccountWrites) :
    Extends writes (creditNative store recipient amount writes) :=
  Extends.insert _ _ _

theorem extends_creditDeposit {deposit : DepositEvent} {writes writes' : AccountWrites}
    (h : creditDeposit P store gasMint writes deposit = some writes') :
    Extends writes writes' := by
  rcases creditDeposit_cases h with ⟨-, rfl⟩ | ⟨-, mint, token, -, -, rfl⟩
  · exact extends_creditNative _ _ _
  · exact (Extends.insert _ _ _).trans (Extends.insert _ _ _)

theorem extends_applyDeposit {acc out : AccountWrites × List DepositEvent} {d : DepositEvent}
    (h : applyDeposit P store gasMint acc d = some out) : Extends acc.1 out.1 := by
  rcases applyDeposit_cases h with ⟨-, rfl⟩ | ⟨-, writes, hcredit, rfl⟩
  · exact Extends.refl _
  · exact (extends_creditDeposit hcredit).trans (Extends.insert _ _ _)

theorem extends_burnWithdrawal {w : WithdrawTx} {post : UInt64} {writes writes' : AccountWrites}
    (h : burnWithdrawal P store gasMint w writes = some (writes', some post)) :
    Extends writes writes' := by
  obtain ⟨account, burned, -, -, -, hburn, -, rfl⟩ := burnWithdrawal_some h
  refine Extends.trans ?_ (Extends.insert _ _ _)
  rcases burnAsset_spec hburn with ⟨-, rfl⟩ | ⟨-, held, data, -, -, -, rfl | ⟨mint, rfl⟩⟩
  · exact Extends.refl _
  · exact Extends.insert _ _ _
  · exact (Extends.insert _ _ _).trans (Extends.insert _ _ _)

theorem extends_applyWithdraw {acc out : Withdrawn} {w : WithdrawTx}
    (h : applyWithdraw P store gasMint feeCollector acc w = some out) :
    Extends acc.writes out.writes := by
  rcases applyWithdraw_cases h with ⟨heq, -⟩ | ⟨burned, post, hburn, heq, -⟩
  · rw [heq]
    exact Extends.refl _
  · rw [heq]
    exact (extends_burnWithdrawal hburn).trans (extends_creditNative _ _ _)

theorem extends_applyWithdraws {withdraws : List WithdrawTx} {acc out : Withdrawn}
    (h : withdraws.foldlM (applyWithdraw P store gasMint feeCollector) acc = some out) :
    Extends acc.writes out.writes := by
  induction withdraws generalizing acc with
  | nil =>
    cases h
    exact Extends.refl _
  | cons w withdraws ih =>
    rw [List.foldlM_cons, Option.bind_eq_bind, Option.bind_eq_some_iff] at h
    obtain ⟨acc₁, hone, h⟩ := h
    exact (extends_applyWithdraw hone).trans (ih h)

/-! ## Crediting a deposit -/

/-- The deposits credited so far in a block: new to the store, distinct, each with a receipt. -/
structure Credited (P : Prims) (store : Store)
    (acc : AccountWrites × List DepositEvent) : Prop where
  written : ∀ d ∈ acc.2, ∃ account,
    acc.1 (depositReceiptAddress P d.l1Signature) = some (some account)
  fresh : ∀ d ∈ acc.2, store.getAccount (depositReceiptAddress P d.l1Signature) = none
  nodup : (acc.2.map (·.l1Signature)).Nodup

theorem applyDeposit_spec {acc out : AccountWrites × List DepositEvent} {deposit : DepositEvent}
    (hacc : Credited P store acc) (h : applyDeposit P store gasMint acc deposit = some out) :
    Credited P store out := by
  have hext := extends_applyDeposit h
  rcases applyDeposit_cases h with ⟨-, rfl⟩ | ⟨hnew, writes, hcredit, rfl⟩
  · exact hacc
  · simp only [isCredited, Bool.or_eq_false_iff, Option.isSome_eq_false_iff,
      Option.isNone_iff_eq_none] at hnew
    obtain ⟨hnone, hstore⟩ := hnew
    refine ⟨?_, ?_, ?_⟩
    · intro d hd
      rcases List.mem_append.mp hd with hd | hd
      · exact hext.written (hacc.written d hd)
      · rw [List.mem_singleton.mp hd]
        exact ⟨_, PartialMap.insert_self ..⟩
    · intro d hd
      rcases List.mem_append.mp hd with hd | hd
      · exact hacc.fresh d hd
      · rwa [List.mem_singleton.mp hd]
    · rw [List.map_append, List.map_cons, List.map_nil]
      refine List.nodup_append.mpr ⟨hacc.nodup, List.nodup_singleton _, ?_⟩
      rintro sig hsig sig' hsig' rfl
      -- an earlier credit of this signature would have left its receipt
      obtain ⟨d, hd, hsig⟩ := List.mem_map.mp hsig
      obtain ⟨account, haccount⟩ := hacc.written d hd
      rw [hsig, List.mem_singleton.mp hsig', hnone] at haccount
      cases haccount

theorem applyDeposits_spec {deposits : List DepositEvent}
    {acc out : AccountWrites × List DepositEvent} (hacc : Credited P store acc)
    (h : deposits.foldlM (applyDeposit P store gasMint) acc = some out) :
    Credited P store out ∧ Extends acc.1 out.1 := by
  induction deposits generalizing acc with
  | nil =>
    cases h
    exact ⟨hacc, Extends.refl _⟩
  | cons d deposits ih =>
    rw [List.foldlM_cons, Option.bind_eq_bind, Option.bind_eq_some_iff] at h
    obtain ⟨acc₁, hone, h⟩ := h
    obtain ⟨hout, hext⟩ := ih (applyDeposit_spec hacc hone) h
    exact ⟨hout, (extends_applyDeposit hone).trans hext⟩

/-! ## Committed accounts that a block keeps -/

theorem mergeWrite_keeps {writes : AccountWrites} {write : Pubkey × Option StoredAccount}
    {k : Pubkey} (h : write.1 = k → write.2.isSome) :
    mergeWrite writes write k = writes k ∨
      ∃ account, mergeWrite writes write k = some (some account) := by
  by_cases hk : k = write.1
  · right
    subst hk
    have hsome : (mergedWrite (writes write.1) write.2).isSome := by
      rw [mergedWrite_isSome]
      exact h rfl
    obtain ⟨account, haccount⟩ := Option.isSome_iff_exists.mp hsome
    exact ⟨account, by rw [mergeWrite, PartialMap.insert_self, haccount]⟩
  · exact .inl (PartialMap.insert_of_ne _ _ hk)

theorem mergeWrites_keeps {l : List (Pubkey × Option StoredAccount)} (writes : AccountWrites)
    {k : Pubkey} (h : ∀ e ∈ l, e.1 = k → e.2.isSome) :
    l.foldl mergeWrite writes k = writes k ∨
      ∃ account, l.foldl mergeWrite writes k = some (some account) := by
  induction l generalizing writes with
  | nil => exact .inl rfl
  | cons e l ih =>
    rw [List.foldl_cons]
    rcases ih (mergeWrite writes e) fun e' he' => h e' (List.mem_cons_of_mem _ he') with
      heq | hsome
    · rw [heq]
      exact mergeWrite_keeps (h e (List.mem_cons_self ..))
    · exact .inr hsome

variable {E : Env}

theorem poolStage_keeps {order : MapOrder} {poolTxs : List PoolTx} {writes : AccountWrites}
    {included : List (VersionedTransaction × ExecutedTransactionMeta)} {out : PoolStage}
    (h : poolStage E order store poolTxs writes included = .ok out) {k : Pubkey}
    (hk : (store.getAccount k).isSome) :
    out.writes k = writes k ∨ ∃ account, out.writes k = some (some account) := by
  unfold poolStage at h
  split at h
  · cases h
    exact .inl rfl
  · rename_i hne
    split at h
    · cases h
    · cases h
    · rename_i result hresult
      cases h
      obtain ⟨state, r, statuses, -, -, hwrites, -⟩ := PoolService.processBlockSeeded_spec _ _ _
        (by simpa using hne) hresult
      refine mergeWrites_keeps _ fun e he hek => ?_
      subst hek
      rw [hwrites] at he
      simp only [PoolService.assembleWrites, List.mem_append, List.mem_map] at he
      rcases he with (⟨e, -, rfl⟩ | ⟨e, -, rfl⟩) | he
      · obtain ⟨account, haccount⟩ := Option.isSome_iff_exists.mp hk
        simp only [PoolService.lamportWrite, haccount, Option.isSome_some]
      · rfl
      · split at he
        · rw [List.mem_singleton.mp he]
          rfl
        · cases he

theorem executeBlock_keeps {R : SvmRuntime} {collector : Pubkey} {input : BlockExecutionInput}
    {out : BlockExecutionOutput} {entries : List Entry}
    (h : executeBlock R collector store input = .ok out)
    (hentries : batchEntries R store input = .ok entries) {k : Pubkey}
    (hfinal : ∀ account, finalStates (collectedAccounts R) entries k = some account →
      account.lamports ≠ 0) :
    out.accountWrites k ≠ some none := by
  obtain ⟨entries', hentries', hwrites⟩ := executeBlock_spec R h
  rw [hentries] at hentries'
  cases hentries'
  rw [hwrites]
  -- an account in the merge comes from the collector's credit, the results or the clock
  have hlamports : ∀ account, (creditCollector collector (callback R store input) (feesOf entries)
      (finalStates (collectedAccounts R) entries)).onto (blockOverlay R input) k = some account →
      account.lamports ≠ 0 := by
    intro account haccount
    have hrest : (finalStates (collectedAccounts R) entries).onto (blockOverlay R input) k =
        some account → account.lamports ≠ 0 := by
      rw [PartialMap.onto_apply]
      cases hk : finalStates (collectedAccounts R) entries k with
      | some a =>
        rintro ⟨⟩
        exact hfinal _ hk
      | none =>
        rw [Option.none_or, blockOverlay, PartialMap.insert_apply]
        split
        · rintro ⟨⟩
          exact (by decide : (1 : UInt64) ≠ 0)
        · rintro ⟨⟩
    unfold creditCollector at haccount
    split at haccount
    · rename_i hfees
      dsimp only at haccount
      rw [PartialMap.insert_onto] at haccount
      split at haccount
      · cases haccount
        exact UInt64.saturatingAdd_ne_zero hfees
      · exact hrest haccount
    · exact hrest haccount
  unfold mergeWrites
  intro hnone
  obtain ⟨account, haccount, hwrite⟩ := Option.map_eq_some_iff.mp hnone
  unfold asWrite at hwrite
  split at hwrite
  · exact hlamports account haccount ‹_›
  · cases hwrite

/-! ## Runs -/

def creditedDeposits (drafts : List BlockDraft) : List DepositEvent :=
  drafts.flatMap (·.credited)

/-- The block's regular transactions leave no receipt of a credited deposit without lamports. -/
def LeavesReceipts (E : Env) (s : RunState) (drafts : List BlockDraft) : Action → Prop
  | .commit choice => ∀ transactions deposits entries, s.inFlight = some (transactions, deposits) →
      batchEntries E.svm s.node.store
        (blockInput choice s.node.tip (partition (partitionWithdraws transactions).2).2) =
        .ok entries →
      ∀ d ∈ creditedDeposits drafts, ∀ account,
        finalStates (collectedAccounts E.svm) entries
          (depositReceiptAddress E.prims d.l1Signature) = some account →
        account.lamports ≠ 0
  | _ => True

/-- Every credited deposit was credited once and still has its receipt. -/
structure ReceiptsHeld (P : Prims) (store : Store) (credited : List DepositEvent) : Prop where
  nodup : (credited.map (·.l1Signature)).Nodup
  held : ∀ d ∈ credited, (store.getAccount (depositReceiptAddress P d.l1Signature)).isSome

theorem receiptsHeld_commit {choice : BlockChoice} {node node' : Node}
    {transactions : List VersionedTransaction} {deposits : List DepositEvent} {draft : BlockDraft}
    {credited : List DepositEvent} (hheld : ReceiptsHeld E.prims node.store credited)
    (hdraft : draftBlock E choice node.store node.tip transactions deposits = .ok draft)
    (hcommit : commitDraft E choice node draft = .ok node')
    (hleaves : ∀ entries, batchEntries E.svm node.store
        (blockInput choice node.tip (partition (partitionWithdraws transactions).2).2) =
        .ok entries →
      ∀ d ∈ credited, ∀ account,
        finalStates (collectedAccounts E.svm) entries
          (depositReceiptAddress E.prims d.l1Signature) = some account →
        account.lamports ≠ 0) :
    ReceiptsHeld E.prims node'.store (credited ++ draft.credited) := by
  obtain ⟨output, pool, depositWrites, withdrawn, hd⟩ := draftBlock_spec hdraft
  obtain ⟨block, store, hp⟩ := commitDraft_spec hcommit
  have hstart : Credited E.prims node.store (pool.writes, []) := ⟨by simp, by simp, by simp⟩
  obtain ⟨hcredited, hext⟩ := applyDeposits_spec hstart hd.deposited
  have hext' : Extends depositWrites draft.writes := by
    rw [hd.writes]
    exact extends_applyWithdraws hd.withdrew
  have hnew : ∀ d ∈ draft.credited,
      (node'.store.getAccount (depositReceiptAddress E.prims d.l1Signature)).isSome := by
    intro d hd'
    obtain ⟨account, haccount⟩ := hext'.written (hcredited.written d hd')
    rw [hp.getAccount, AccountWrites.applyTo_some haccount]
    rfl
  refine ⟨?_, fun d hd' => ?_⟩
  · rw [List.map_append]
    refine List.nodup_append.mpr ⟨hheld.nodup, hcredited.nodup, ?_⟩
    rintro sig hsig sig' hsig' rfl
    obtain ⟨d, hd₁, rfl⟩ := List.mem_map.mp hsig
    obtain ⟨d', hd₂, heq⟩ := List.mem_map.mp hsig'
    have hsome := hheld.held d hd₁
    have hnone := hcredited.fresh d' hd₂
    rw [heq] at hnone
    rw [hnone] at hsome
    cases hsome
  · rcases List.mem_append.mp hd' with hold | hold
    · -- a receipt of an earlier block survives the four stages
      have hsome := hheld.held d hold
      obtain ⟨entries, hentries, -⟩ := executeBlock_spec E.svm hd.executed
      have hexec := executeBlock_keeps hd.executed hentries (hleaves entries hentries d hold)
      have hchain : draft.writes (depositReceiptAddress E.prims d.l1Signature) ≠ some none := by
        intro hnone
        rcases (hext.trans hext') (depositReceiptAddress E.prims d.l1Signature) with h₁ | ⟨a, h₁⟩
        · rcases poolStage_keeps hd.pooled hsome with h₂ | ⟨a, h₂⟩
          · exact hexec (h₂.symm.trans (h₁.symm.trans hnone))
          · cases h₂.symm.trans (h₁.symm.trans hnone)
        · cases h₁.symm.trans hnone
      rw [hp.getAccount, AccountWrites.applyTo]
      cases hw : draft.writes (depositReceiptAddress E.prims d.l1Signature) with
      | none => exact hsome
      | some w =>
        cases w with
        | none => exact absurd hw hchain
        | some account => rfl
    · exact hnew d hold

theorem receiptsHeld_of_leavesReceipts {s : RunState} {drafts : List BlockDraft}
    (hist : History E (LeavesReceipts E) s drafts) :
    ReceiptsHeld E.prims s.node.store (creditedDeposits drafts) := by
  induction hist with
  | initial _ => exact ⟨List.nodup_nil, by simp [creditedDeposits]⟩
  | commit _ ha hflight _ hdraft hcommit ih =>
    rw [creditedDeposits, List.flatMap_append, List.flatMap_singleton]
    exact receiptsHeld_commit ih hdraft hcommit fun entries hentries =>
      ha _ _ entries hflight hentries
  | step _ _ hother hstep ih =>
    cases hstep with
    | commit _ _ _ => exact absurd rfl (hother _)
    | restart hboot => exact ⟨ih.nodup, fun d hd => boot_accounts hboot (ih.held d hd)⟩
    | _ => exact ih

/-! ## Blocks of deposits -/

theorem applyDeposits_native {P : Prims} {store : Store} {gasMint : Option Pubkey}
    {writes : AccountWrites} {d : DepositEvent} (hnative : creditsNativeGas gasMint d.mint = true)
    (hwrites : writes (depositReceiptAddress P d.l1Signature) = none)
    (hstore : store.getAccount (depositReceiptAddress P d.l1Signature) = none) :
    applyDeposits P store gasMint [d] writes =
      some ((creditNative store d.l2Recipient d.amount writes).insert
        (depositReceiptAddress P d.l1Signature) (some (receiptAccount d)), [d]) := by
  have hnew : isCredited P store writes d = false := by
    rw [isCredited, hwrites, hstore]
    rfl
  simp [applyDeposits, applyDeposit, hnew, creditDeposit, hnative]

/-- What a block of queued deposits leaves; `clock` holds the clock's write only. -/
structure DepositBlock (E : Env) (s : RunState) (deposits : List DepositEvent) (node : Node)
    (draft : BlockDraft) (clock : AccountWrites) : Prop where
  clock_only : ∀ k, k ≠ CLOCK_ID → clock k = none
  applied : applyDeposits E.prims s.node.store E.options.gasMint deposits clock =
    some (draft.writes, draft.credited)
  getAccount : node.store.getAccount = draft.writes.applyTo s.node.store.getAccount
  pendingDeposits : node.pendingDeposits = []
  mempool : node.mempool = s.node.mempool
  slot : node.tip.slot = s.node.tip.slot + 1
  latestSlot : node.store.latestSlot = some (s.node.tip.slot + 1)
  txLoc : ∀ sig, s.node.store.txLoc sig = none → node.store.txLoc sig = none
  queue : ∃ hash, node.tip.queue = s.node.tip.queue.register (s.node.tip.slot + 1) hash

theorem drainForBlock_enqueue {node : Node} (deposits : List DepositEvent)
    (hqueue : node.mempool.queue = []) (hpending : node.pendingDeposits = []) :
    drainForBlock E (enqueueDeposits node deposits) =
      ({ node with pendingDeposits := [] }, [], deposits) := by
  simp only [drainForBlock, enqueueDeposits, Mempool.drain_of_queue_nil hqueue, hpending]
  rfl

theorem History.deposits {allowed : RunState → List BlockDraft → Action → Prop} {s : RunState}
    {drafts : List BlockDraft} {deposits : List DepositEvent} (order : MapOrder)
    (hist : History E allowed s drafts) (hne : deposits ≠ [])
    (hallowed : ∀ s, allowed s drafts (.enqueue deposits) ∧ allowed s drafts .drain ∧
      ∀ choice, allowed s drafts (.commit choice))
    (hidle : s.inFlight = none)
    (hpending : s.node.pendingDeposits = []) (hqueue : s.node.mempool.queue = [])
    (hslot : ∀ latest, s.node.store.latestSlot = some latest → latest < s.node.tip.slot + 1)
    (happly : ∀ clock : AccountWrites, (∀ k, k ≠ CLOCK_ID → clock k = none) →
      (applyDeposits E.prims s.node.store E.options.gasMint deposits clock).isSome) :
    ∃ node draft clock, History E allowed ⟨node, s.admitted, none⟩ (drafts ++ [draft]) ∧
      DepositBlock E s deposits node draft clock := by
  let s₂ : RunState := ⟨{ s.node with pendingDeposits := [] }, s.admitted, some ([], deposits)⟩
  have h₁ := hist.step (hallowed _).1 (by simp) (.enqueue deposits)
  have h₂ : History E allowed s₂ drafts := by
    have h := h₁.step (hallowed _).2.1 (by simp) (.drain hidle)
    rwa [drainForBlock_enqueue deposits hqueue hpending] at h
  obtain ⟨clock, hclock, hdraft, -⟩ := draftBlock_deposits E ⟨0, order⟩ s.node.store s.node.tip
    deposits
  obtain ⟨⟨writes, credited⟩, happlied⟩ := Option.isSome_iff_exists.mp (happly clock hclock)
  let draft : BlockDraft := ⟨writes, [], [], credited, []⟩
  obtain ⟨node, block, store, hcommit, hp⟩ := commitDraft_isOk (E := E) ⟨0, order⟩ s₂.node draft
    hslot (by simp [draft])
  have htransactions : block.transactions = [] := hp.transactions
  have hdue : isDue E 0 s₂.node [] deposits = true := by
    cases deposits with
    | nil => exact absurd rfl hne
    | cons => simp [isDue]
  have h₃ := h₂.commit ((hallowed s₂).2.2 ⟨0, order⟩) rfl hdue (hdraft _ _ happlied) hcommit
  refine ⟨node, draft, clock, h₃, hclock, happlied, hp.getAccount, hp.pendingDeposits, hp.mempool,
    hp.tip_slot, ?_, ?_, block.header.hash E.prims, ?_⟩
  · rw [hp.store_eq]
    exact hp.committed.latestSlot.trans (congrArg some hp.slot)
  · intro sig hsig
    rw [hp.store_eq]
    exact (hp.committed.txLoc_eq_none sig).mpr ⟨hsig, by simp [htransactions]⟩
  · rw [hp.tip_queue, hp.slot]

/-- A block of one new native deposit: the recipient gets its lamports, the receipt is written
and no other account but the clock changes. -/
theorem History.nativeDeposit {allowed : RunState → List BlockDraft → Action → Prop} {s : RunState}
    {drafts : List BlockDraft} {d : DepositEvent} (order : MapOrder)
    (hist : History E allowed s drafts)
    (hallowed : ∀ s, allowed s drafts (.enqueue [d]) ∧ allowed s drafts .drain ∧
      ∀ choice, allowed s drafts (.commit choice))
    (hidle : s.inFlight = none)
    (hpending : s.node.pendingDeposits = []) (hqueue : s.node.mempool.queue = [])
    (hslot : ∀ latest, s.node.store.latestSlot = some latest → latest < s.node.tip.slot + 1)
    (hnative : creditsNativeGas E.options.gasMint d.mint = true)
    (hclock : depositReceiptAddress E.prims d.l1Signature ≠ CLOCK_ID)
    (hreceipt : s.node.store.getAccount (depositReceiptAddress E.prims d.l1Signature) = none) :
    ∃ node draft clock, History E allowed ⟨node, s.admitted, none⟩ (drafts ++ [draft]) ∧
      DepositBlock E s [d] node draft clock ∧ draft.credited = [d] ∧
      node.store.getAccount (depositReceiptAddress E.prims d.l1Signature) =
        some (receiptAccount d) ∧
      (d.l2Recipient ≠ CLOCK_ID → d.l2Recipient ≠ depositReceiptAddress E.prims d.l1Signature →
        s.node.store.getAccount d.l2Recipient = none →
        node.store.getAccount d.l2Recipient = some (StoredAccount.newSystem d.amount)) ∧
      ∀ k, k ≠ CLOCK_ID → k ≠ depositReceiptAddress E.prims d.l1Signature → k ≠ d.l2Recipient →
        node.store.getAccount k = s.node.store.getAccount k := by
  have hne : [d] ≠ [] := List.cons_ne_nil _ _
  have happly : ∀ clock : AccountWrites, (∀ k, k ≠ CLOCK_ID → clock k = none) →
      applyDeposits E.prims s.node.store E.options.gasMint [d] clock = _ :=
    fun clock hnone => applyDeposits_native hnative (hnone _ hclock) hreceipt
  obtain ⟨node, draft, clock, hist', hblock⟩ := hist.deposits order hne hallowed hidle hpending
    hqueue hslot fun clock hnone => Option.isSome_of_mem (happly clock hnone)
  obtain ⟨hwrites, hcredited⟩ := Prod.mk.inj
    (Option.some.inj (hblock.applied.symm.trans (happly clock hblock.clock_only)))
  refine ⟨node, draft, clock, hist', hblock, hcredited, ?_, fun hclock' hother habsent => ?_,
    fun k hclock' hother hrecipient => ?_⟩
  · rw [hblock.getAccount, hwrites]
    exact AccountWrites.applyTo_some (PartialMap.insert_self ..) _
  · rw [hblock.getAccount, hwrites]
    refine AccountWrites.applyTo_some ?_ _
    rw [PartialMap.insert_of_ne _ _ hother, creditNative, PartialMap.insert_self, loadThrough,
      hblock.clock_only _ hclock', habsent]
    have hsum : (0 : UInt64).saturatingAdd d.amount = d.amount := by
      rw [← UInt64.toNat_inj, UInt64.toNat_saturatingAdd_of_lt] <;> simp [d.amount.toNat_lt]
    simp [StoredAccount.newSystem, hsum]
  · rw [hblock.getAccount, hwrites]
    refine AccountWrites.applyTo_none ?_ _
    rw [PartialMap.insert_of_ne _ _ hother, creditNative, PartialMap.insert_of_ne _ _ hrecipient,
      hblock.clock_only _ hclock']

/-! ## A deposit of the sample chain -/

namespace Sample

/-- A deposit of 500 lamports of native SOL. -/
def deposit : DepositEvent := ⟨"3xDeposit", none, 9, 500, Bytes.replicate 32 8⟩

def receipt : Pubkey := depositReceiptAddress prims deposit.l1Signature

/-- The result of a transaction whose programs modify nothing: the payer is charged the fee, and
every other account comes back as it was loaded. -/
def untouched (view : PartialMap Pubkey StoredAccount) (c : CheckedTransaction) :
    ExecutedTransaction where
  fee := c.transactionFee
  accounts := match c.transaction.message.staticAccountKeys.map fun k =>
      (k, (view k).getD (StoredAccount.newSystem 0)) with
    | (payer, account) :: rest =>
      (payer, { account with lamports := account.lamports - c.transactionFee }) :: rest
    | [] => []
  rollbackAccounts := []
  status := .ok ()
  executedUnits := 150
  logMessages := none

/-- The sample chain with a machine for such transactions; the first two keys are writable. -/
def idleEnv : Env :=
  { env with
    svm := { svm with
      isWritable := fun _ i => i < 2
      loadAndExecute := fun view _ _ batch => batch.map fun c =>
        .ok (.executed (untouched view c)) } }

def touchTx (key : Pubkey) : VersionedTransaction where
  signatures := [Bytes.replicate 64 9]
  message := {
    header := ⟨1, 0, 1⟩
    staticAccountKeys := [payer, key, StoredAccount.systemProgramId]
    recentBlockhash := env.genesis.genesisHash prims
    instructions := [⟨2, [1], []⟩] }

theorem credit_deposit {allowed : RunState → List BlockDraft → Action → Prop} {s : RunState}
    {drafts : List BlockDraft} (order : MapOrder) (hist : History idleEnv allowed s drafts)
    (hallowed : ∀ s, allowed s drafts (.enqueue [deposit]) ∧ allowed s drafts .drain ∧
      ∀ choice, allowed s drafts (.commit choice))
    (hidle : s.inFlight = none)
    (hpending : s.node.pendingDeposits = []) (hqueue : s.node.mempool.queue = [])
    (hslot : ∀ latest, s.node.store.latestSlot = some latest → latest < s.node.tip.slot + 1)
    (hreceipt : s.node.store.getAccount receipt = none) :
    ∃ node draft clock, History idleEnv allowed ⟨node, s.admitted, none⟩ (drafts ++ [draft]) ∧
      DepositBlock idleEnv s [deposit] node draft clock ∧ draft.credited = [deposit] ∧
      node.store.getAccount receipt = some (receiptAccount deposit) := by
  obtain ⟨node, draft, clock, hist', hblock, hcredited, hreceipt', -, -⟩ :=
    hist.nativeDeposit order hallowed hidle hpending hqueue hslot rfl (by decide +kernel) hreceipt
  exact ⟨node, draft, clock, hist', hblock, hcredited, hreceipt'⟩

theorem writable_untouched (key : Pubkey) (view : PartialMap Pubkey StoredAccount) :
    writableAccounts idleEnv.svm (touchTx key) (untouched view ⟨touchTx key, 5000, 0⟩).accounts =
      [(payer, { (view payer).getD (StoredAccount.newSystem 0) with
        lamports := ((view payer).getD (StoredAccount.newSystem 0)).lamports - 5000 }),
        (key, (view key).getD (StoredAccount.newSystem 0))] :=
  rfl

theorem checkTransaction_touchTx (key : Pubkey) {queue : BlockhashQueue}
    (hvalid : queue.isValid (env.genesis.genesisHash prims) = true) :
    checkTransaction idleEnv.svm queue (touchTx key) = .ok ⟨touchTx key, 5000, 0⟩ := by
  have hfee : (idleEnv.svm.signatureCount (touchTx key)).saturatingMul LAMPORTS_PER_SIGNATURE =
      5000 := by
    show (1 : UInt64).saturatingMul LAMPORTS_PER_SIGNATURE = 5000
    decide
  simp only [checkTransaction, hfee, hvalid,
    show idleEnv.svm.verifyAndHashMessage (touchTx key) = true from rfl,
    show (touchTx key).message.recentBlockhash = env.genesis.genesisHash prims from rfl]
  rfl

theorem touch_receipt {s : RunState} {drafts : List BlockDraft} (order : MapOrder)
    (hist : History idleEnv (fun _ _ _ => True) s drafts) (hidle : s.inFlight = none)
    (hadmitted : s.admitted = []) (hpending : s.node.pendingDeposits = [])
    (hmem : s.node.mempool = Mempool.new options.mempoolCapacity options.maxPerPayer)
    (hslot : ∀ latest, s.node.store.latestSlot = some latest → latest < s.node.tip.slot + 1)
    (hvalid : s.node.tip.queue.isValid (env.genesis.genesisHash prims) = true)
    (hloc : s.node.store.txLoc (Bytes.replicate 64 9) = none)
    (hreceipt : s.node.store.getAccount receipt = some (receiptAccount deposit)) :
    ∃ node draft, History idleEnv (fun _ _ _ => True) ⟨node, [], none⟩ (drafts ++ [draft]) ∧
      draft.credited = [] ∧ node.store.getAccount receipt = none ∧
      node.pendingDeposits = [] ∧ node.mempool.queue = [] ∧
      node.tip.slot = s.node.tip.slot + 1 ∧
      node.store.latestSlot = some (s.node.tip.slot + 1) := by
  have hfresh : s.node.store.getTransaction (Bytes.replicate 64 9) = .ok none :=
    Store.getTransaction_eq_none_iff.mpr hloc
  have hadmits : admitTx idleEnv s.node (touchTx receipt) = .ok (Bytes.replicate 64 9) := by
    simp only [admitTx, show (touchTx receipt).signature = some (Bytes.replicate 64 9) from rfl,
      show (touchTx receipt).message.recentBlockhash = env.genesis.genesisHash prims from rfl,
        hvalid, hfresh,
      Bool.not_true, Bool.false_eq_true, if_false]
    rfl
  let node₂ := pushTransaction s.node (touchTx receipt)
  let s₃ : RunState := ⟨(drainForBlock idleEnv node₂).1, [], some (drainForBlock idleEnv node₂).2⟩
  have h₁ : History idleEnv (fun _ _ _ => True) ⟨s.node, [touchTx receipt], none⟩ drafts := by
    have h := hist.step trivial (by simp) (.admitTx hadmits)
    rwa [hadmitted, hidle] at h
  have h₂ : History idleEnv (fun _ _ _ => True) ⟨node₂, [], none⟩ drafts :=
    h₁.step trivial (by simp) (.push_singleton rfl)
  have h₃ : History idleEnv (fun _ _ _ => True) s₃ drafts := h₂.step trivial (by simp) (.drain rfl)
  have hflight : s₃.inFlight = some ([touchTx receipt], []) := by
    simp only [s₃, node₂, drainForBlock, pushTransaction, hmem, hpending]
    decide +kernel
  have hqueue : s₃.node.mempool.queue = [] := by
    simp only [s₃, node₂, drainForBlock, pushTransaction, hmem]
    decide
  have hchecked := checkTransaction_touchTx receipt hvalid
  obtain ⟨draft, hdraft, hincluded, hcredited, hwrites⟩ := draftBlock_regular (E := idleEnv)
    ⟨0, order⟩ s.node.tip (by decide) rfl hfresh hchecked rfl
  have hdeleted : draft.writes receipt = some none := by
    have hview : callback idleEnv.svm s.node.store
      (blockInput ⟨0, order⟩ s.node.tip [touchTx receipt])
        receipt = some (receiptAccount deposit) := by
      rw [callback, PartialMap.onto_apply, blockOverlay,
        PartialMap.insert_of_ne _ _ (by decide +kernel), Option.none_or, hreceipt]
    rw [hwrites receipt (by decide +kernel), writable_untouched, hview, PartialMap.onto_apply,
      PartialMap.insertAll_cons, PartialMap.insertAll_cons, PartialMap.insertAll_nil,
      PartialMap.insert_self]
    rfl
  obtain ⟨node, block, store, hcommit, hp⟩ := commitDraft_isOk (E := idleEnv) ⟨0, order⟩ s₃.node
    draft hslot (by rw [hincluded]; decide)
  refine ⟨node, draft, h₃.commit trivial hflight (by simp [isDue]) hdraft hcommit, hcredited, ?_,
    hp.pendingDeposits, ?_, hp.tip_slot, ?_⟩
  · rw [hp.getAccount]
    exact AccountWrites.applyTo_some hdeleted _
  · rw [hp.mempool, hqueue]
  · rw [hp.store_eq]
    exact hp.committed.latestSlot.trans (congrArg some hp.slot)

theorem initial_idleEnv :
    ∃ s, Initial idleEnv s ∧ s.inFlight = none ∧ s.admitted = [] ∧ s.node.pendingDeposits = [] ∧
      s.node.mempool = Mempool.new options.mempoolCapacity options.maxPerPayer ∧
      s.node.store.latestSlot = none ∧ s.node.store.txLoc = (fun _ => none) ∧
      s.node.tip.slot = 0 ∧
      s.node.tip.queue = BlockhashQueue.new.register 0 (env.genesis.genesisHash prims) ∧
      s.node.store.getAccount receipt = none := by
  obtain ⟨node, hboot, haccounts, hloc, hlatest, htip, hmem, hdep, -⟩ := boot_empty idleEnv 0
  refine ⟨⟨node, [], none⟩, ⟨0, node, hboot, rfl⟩, rfl, rfl, hdep, hmem, hlatest, hloc,
    congrArg ChainTip.slot htip, congrArg ChainTip.queue htip, ?_⟩
  rw [Store.getAccount, haccounts]
  decide +kernel

end Sample

/-- In every run whose blocks leave the receipts of credited deposits their lamports, every
deposit is credited at most once and its receipt is never removed. -/
theorem credited_once_of_leavesReceipts {s : RunState} {drafts : List BlockDraft}
    (hist : History E (LeavesReceipts E) s drafts) :
    ((creditedDeposits drafts).map (·.l1Signature)).Nodup ∧
      ∀ d ∈ creditedDeposits drafts,
        (s.node.store.getAccount (depositReceiptAddress E.prims d.l1Signature)).isSome := by
  have hheld := receiptsHeld_of_leavesReceipts hist
  exact ⟨hheld.nodup, hheld.held⟩

/-- The sample deposit is credited in one block. -/
theorem deposit_credited_once :
    ∃ s drafts, History Sample.idleEnv (LeavesReceipts Sample.idleEnv) s drafts ∧
      creditedDeposits drafts = [Sample.deposit] ∧
      (s.node.store.getAccount Sample.receipt).isSome := by
  obtain ⟨order⟩ := MapOrder.nonempty
  obtain ⟨s₀, h₀, hidle, -, hpending, hmem, hlatest, -, -, -, hreceipt⟩ := Sample.initial_idleEnv
  have hallowed : ∀ s choice, LeavesReceipts Sample.idleEnv s [] (.commit choice) := by
    intro s choice
    simp [LeavesReceipts, creditedDeposits]
  obtain ⟨node, draft, -, hist, -, hcredited, -⟩ := Sample.credit_deposit order (.initial h₀)
    (fun s => ⟨trivial, trivial, hallowed s⟩) hidle hpending (by rw [hmem]; rfl)
      (fun latest h => by cases hlatest.symm.trans h) hreceipt
  have hall : creditedDeposits ([] ++ [draft]) = [Sample.deposit] := by
    simp [creditedDeposits, hcredited]
  refine ⟨_, _, hist, hall, ?_⟩
  exact (credited_once_of_leavesReceipts hist).2 Sample.deposit (by rw [hall]; simp)

/-- A transaction that only lists the receipt deletes it, and the watcher's next report of the
deposit is credited again. -/
theorem deposit_credited_twice :
    ∃ s drafts, History Sample.idleEnv (fun _ _ _ => True) s drafts ∧
      creditedDeposits drafts = [Sample.deposit, Sample.deposit] ∧
      ¬ ((creditedDeposits drafts).map (·.l1Signature)).Nodup := by
  obtain ⟨order⟩ := MapOrder.nonempty
  obtain ⟨s₀, h₀, hidle, hadmitted, hpending, hmem, hlatest, hloc, hslot, hqueue, hreceipt⟩ :=
    Sample.initial_idleEnv
  have hist₀ : History Sample.idleEnv (fun _ _ _ => True) s₀ [] := .initial h₀
  obtain ⟨node₁, draft₁, clock, hist₁, hblock, hcredited₁, hreceipt₁⟩ :=
    Sample.credit_deposit order hist₀ (fun _ => ⟨trivial, trivial, fun _ => trivial⟩) hidle
      hpending (by rw [hmem]; rfl) (fun latest h => by cases hlatest.symm.trans h) hreceipt
  obtain ⟨hash, hqueue₁⟩ := hblock.queue
  have hvalid : node₁.tip.queue.isValid (Sample.env.genesis.genesisHash Sample.prims) = true := by
    rw [hqueue₁, hqueue]
    exact BlockhashQueue.isValid_register (by decide) (by decide +kernel) _ _
  obtain ⟨node₂, draft₂, hist₂, hcredited₂, hreceipt₂, hpending₂, hqueue₂, hslot₂, hlatest₂⟩ :=
    Sample.touch_receipt order hist₁ rfl hadmitted hblock.pendingDeposits
      (hblock.mempool.trans hmem)
      (fun latest h => by
        cases hblock.latestSlot.symm.trans h
        rw [show node₁.tip.slot = _ from hblock.slot, hslot]
        decide) hvalid (hblock.txLoc _ (congrFun hloc _)) hreceipt₁
  obtain ⟨node₃, draft₃, -, hist₃, -, hcredited₃, -⟩ := Sample.credit_deposit order hist₂
    (fun _ => ⟨trivial, trivial, fun _ => trivial⟩) rfl hpending₂ hqueue₂
      (fun latest h => by
        cases hlatest₂.symm.trans h
        rw [show node₂.tip.slot = _ from hslot₂, show node₁.tip.slot = _ from hblock.slot, hslot]
        decide) hreceipt₂
  have hall : creditedDeposits ([] ++ [draft₁] ++ [draft₂] ++ [draft₃]) =
      [Sample.deposit, Sample.deposit] := by
    simp [creditedDeposits, hcredited₁, hcredited₂, hcredited₃]
  refine ⟨_, _, hist₃, hall, ?_⟩
  rw [hall]
  decide

end Zul.Node
