import Zul.Node.Included
import Zul.Node.Run

/-! # Replay protection

A regular transaction is checked against the committed ones when its block is executed. A pool
transaction or a withdrawal is checked only when it is admitted, so a client that pushes one
after its signature was drained or committed gets it included again. Runs in which every such
push is either a pending duplicate or of a signature neither in flight nor committed include no
signature twice.
-/

namespace Zul.Node

open Bridge

def OccursAt (store : Store) (sig : Signature) (slot : UInt64) (i : ℕ) : Prop :=
  ∃ block tx, store.blocks slot = some block ∧ block.transactions[i]? = some tx ∧
    tx.signature = some sig

def IncludedOnce (store : Store) : Prop :=
  ∀ sig slot i slot' i', OccursAt store sig slot i → OccursAt store sig slot' i' →
    slot = slot' ∧ i = i'

def NotInFlight (s : RunState) (sig : Signature) : Prop :=
  ∀ batch, s.inFlight = some batch → some sig ∉ batch.1.map (·.signature)

/-- A push of a pool transaction or withdrawal finds its signature pending, or neither in flight
nor committed. -/
def PushFresh (s : RunState) : Action → Prop
  | .push tx => handledNatively tx = true → ∀ sig, tx.signature = some sig →
      sig ∈ s.node.mempool.pending ∨
        (s.node.store.getTransaction sig = .ok none ∧ NotInFlight s sig)
  | _ => True

structure Unreplayed (store : Store) : Prop where
  indexed : ∀ sig slot i, OccursAt store sig slot i → store.txLoc sig ≠ none
  bounded : ∀ slot block, store.blocks slot = some block →
    ∃ latest, store.latestSlot = some latest ∧ slot ≤ latest
  once : IncludedOnce store

structure ReplayInv (s : RunState) : Prop where
  tracked : s.node.mempool.Tracked
  store : Unreplayed s.node.store
  /-- A queued pool transaction or withdrawal is neither committed nor in flight. -/
  queued : ∀ tx ∈ s.node.mempool.queue, handledNatively tx = true → ∀ sig, tx.signature = some sig →
    s.node.store.txLoc sig = none ∧ NotInFlight s sig
  /-- The batch in flight has distinct signatures, and its pool transactions and withdrawals are
  not committed. -/
  flying : ∀ batch, s.inFlight = some batch → (batch.1.map (·.signature)).Nodup ∧
    ∀ tx ∈ batch.1, handledNatively tx = true → ∀ sig, tx.signature = some sig →
      s.node.store.txLoc sig = none

theorem Unreplayed.congr {store store' : Store} (h : Unreplayed store)
    (hb : store'.blocks = store.blocks) (ht : store'.txLoc = store.txLoc)
    (hl : store'.latestSlot = store.latestSlot) : Unreplayed store' := by
  obtain ⟨hi, hbd, ho⟩ := h
  constructor
  · simpa only [OccursAt, hb, ht] using hi
  · simpa only [hb, hl] using hbd
  · simpa only [IncludedOnce, OccursAt, hb] using ho

theorem unreplayed_empty : Unreplayed Store.empty :=
  ⟨fun _ _ _ ⟨_, _, h, _⟩ => by simp [Store.empty] at h,
    fun _ _ h => by simp [Store.empty] at h,
    fun _ _ _ _ _ ⟨_, _, h, _⟩ => by simp [Store.empty] at h⟩

theorem Unreplayed.commit {store store' : Store} {block : Block}
    {writes : List (Pubkey × Option StoredAccount)} (h : Unreplayed store)
    (hc : Store.Committed store block writes store')
    (hnodup : (block.transactions.map (·.signature)).Nodup)
    (hfresh : ∀ tx ∈ block.transactions, ∀ sig, tx.signature = some sig → store.txLoc sig = none) :
    Unreplayed store' := by
  -- an occurrence is in the new block, or was one before
  have hcases : ∀ sig slot i, OccursAt store' sig slot i →
      (slot = block.header.slot ∧ ∃ tx, block.transactions[i]? = some tx ∧
        tx.signature = some sig) ∨
      OccursAt store sig slot i := by
    rintro sig slot i ⟨b, tx, hb, htx, hsig⟩
    rw [hc.blocks, PartialMap.insert_apply] at hb
    split at hb
    · rename_i hslot
      cases hb
      exact .inl ⟨hslot, tx, htx, hsig⟩
    · exact .inr ⟨b, tx, hb, htx, hsig⟩
  refine ⟨fun sig slot i hocc => ?_, hc.bounded h.bounded, fun sig slot i slot' i' ho ho' => ?_⟩
  · rw [ne_eq, hc.txLoc_eq_none, not_and]
    rcases hcases sig slot i hocc with ⟨-, tx, htx, hsig⟩ | hocc
    · exact fun _ hnot => hnot tx (List.mem_of_getElem? htx) hsig
    · exact fun hnone => absurd hnone (h.indexed sig slot i hocc)
  · have hfreshAt : ∀ (i : ℕ) (tx : VersionedTransaction), block.transactions[i]? = some tx →
      tx.signature = some sig →
        ∀ slot j, ¬ OccursAt store sig slot j := fun i tx htx hsig slot j hocc =>
      h.indexed sig slot j hocc (hfresh tx (List.mem_of_getElem? htx) sig hsig)
    rcases hcases sig slot i ho with ⟨hs, tx, htx, hsig⟩ | ho
    · rcases hcases sig slot' i' ho' with ⟨hs', tx', htx', hsig'⟩ | ho'
      · refine ⟨hs.trans hs'.symm, ?_⟩
        have hi : (block.transactions.map (·.signature))[i]? = some (some sig) := by
          rw [List.getElem?_map, htx, Option.map_some, hsig]
        have hi' : (block.transactions.map (·.signature))[i']? = some (some sig) := by
          rw [List.getElem?_map, htx', Option.map_some, hsig']
        exact (List.getElem?_inj (List.getElem?_eq_some_iff.mp hi).1 hnodup).mp (hi.trans hi'.symm)
      · exact absurd ho' (hfreshAt i tx htx hsig slot' i')
    · rcases hcases sig slot' i' ho' with ⟨-, tx', htx', hsig'⟩ | ho'
      · exact absurd ho (hfreshAt i' tx' htx' hsig' slot i)
      · exact h.once sig slot i slot' i' ho ho'

/-! ## The steps -/

theorem replayInv_initial {E : Env} {s : RunState} (h : Initial E s) : ReplayInv s := by
  obtain ⟨nowMs, node, hboot, rfl⟩ := h
  obtain ⟨hb, ht, hl, hm⟩ := boot_store hboot
  refine ⟨?_, unreplayed_empty.congr hb ht hl, ?_, by simp⟩
  · rw [hm]; exact Mempool.tracked_new ..
  · rw [hm]; simp [Mempool.new]

theorem replayInv_push {s : RunState} (hs : ReplayInv s) {tx : VersionedTransaction}
    (hfresh : PushFresh s (.push tx)) (admitted : List VersionedTransaction) :
    ReplayInv { s with node := pushTransaction s.node tx, admitted } := by
  refine ⟨Mempool.tracked_push hs.tracked tx, hs.store, ?_, hs.flying⟩
  rcases Mempool.push_cases s.node.mempool tx with heq | ⟨sig, hsig, hnew, hqueue, -⟩
  · intro t ht
    rw [show (pushTransaction s.node tx).mempool = s.node.mempool from heq] at ht
    exact hs.queued t ht
  · intro t ht hnative sig' hsig'
    simp only [pushTransaction, hqueue, List.mem_append, List.mem_singleton] at ht
    rcases ht with ht | rfl
    · exact hs.queued t ht hnative sig' hsig'
    · rw [hsig] at hsig'
      cases hsig'
      rcases hfresh hnative sig hsig with hpending | ⟨hnone, hflight⟩
      · exact absurd hpending hnew
      · exact ⟨Store.getTransaction_eq_none_iff.mp hnone, hflight⟩

theorem replayInv_drain {E : Env} {s : RunState} (hs : ReplayInv s) :
    ReplayInv { s with
      node := (drainForBlock E s.node).1, inFlight := some (drainForBlock E s.node).2 } := by
  have hq := Mempool.drain_queue s.node.mempool E.options.maxBlockTransactions
  have hnodup := hs.tracked.nodup
  rw [← hq, List.map_append] at hnodup
  obtain ⟨hfly, -, hdisj⟩ := List.nodup_append.mp hnodup
  refine ⟨Mempool.tracked_drain hs.tracked _, hs.store, fun tx htx hnative sig hsig => ?_, ?_⟩
  · have hmem : tx ∈ s.node.mempool.queue := by rw [← hq]; exact List.mem_append_right _ htx
    refine ⟨(hs.queued tx hmem hnative sig hsig).1, ?_⟩
    rintro batch ⟨⟩ hin
    refine hdisj _ hin _ (List.mem_map.mpr ⟨tx, htx, rfl⟩) ?_
    exact hsig.symm
  · rintro batch ⟨⟩
    refine ⟨hfly, fun tx htx hnative sig hsig => ?_⟩
    have hmem : tx ∈ s.node.mempool.queue := by rw [← hq]; exact List.mem_append_left _ htx
    exact (hs.queued tx hmem hnative sig hsig).1

theorem replayInv_commit {E : Env} {s : RunState} (hs : ReplayInv s) {choice : BlockChoice}
    {transactions : List VersionedTransaction} {deposits : List DepositEvent} {node : Node}
    (hflight : s.inFlight = some (transactions, deposits))
    (h : produce E choice s.node transactions deposits = .ok node) :
    ReplayInv { s with node, inFlight := none } := by
  obtain ⟨draft, block, store, hdraft, hp⟩ := produce_spec h
  obtain ⟨hsub, hregular⟩ := draftBlock_included hdraft
  obtain ⟨hnodup, hspecial⟩ := hs.flying _ hflight
  rw [← hp.transactions] at hsub hregular
  have hfresh : ∀ tx ∈ block.transactions, ∀ sig, tx.signature = some sig →
      s.node.store.txLoc sig = none := by
    intro tx htx sig hsig
    cases hnative : handledNatively tx with
    | true => exact hspecial tx (hsub.subset htx) hnative sig hsig
    | false => exact Store.getTransaction_eq_none_iff.mp (hregular tx htx hnative sig hsig)
  obtain ⟨l, hperm, hsublist⟩ := hsub
  have hsigs : (block.transactions.map (·.signature)).Nodup :=
    (hperm.map _).nodup_iff.mp (hnodup.sublist (hsublist.map _))
  have hstore : Unreplayed store := hs.store.commit hp.committed hsigs hfresh
  have hloc : node.store.txLoc = store.txLoc := by rw [hp.store_eq]
  refine ⟨?_, ?_, fun tx htx hnative sig hsig => ?_, by simp⟩
  · rw [hp.mempool]; exact hs.tracked
  · exact hstore.congr (by rw [hp.store_eq]) hloc (by rw [hp.store_eq])
  · -- a queued transaction was not in the batch, so not in the block either
    have hmem : tx ∈ s.node.mempool.queue := by
      have htx' : tx ∈ node.mempool.queue := htx
      rwa [hp.mempool] at htx'
    obtain ⟨hnone, hnot⟩ := hs.queued tx hmem hnative sig hsig
    refine ⟨?_, fun batch hb => by cases hb⟩
    rw [hloc, hp.committed.txLoc_eq_none]
    refine ⟨hnone, fun t ht hts => hnot _ hflight ?_⟩
    exact List.mem_map.mpr ⟨t, hsublist.subset (hperm.mem_iff.mpr ht), hts⟩

theorem replayInv_step {E : Env} {s s' : RunState} {a : Action} (hs : ReplayInv s)
    (hfresh : PushFresh s a) (hstep : Step E s a s') : ReplayInv s' := by
  have hland : ReplayInv { s with inFlight := none } :=
    ⟨hs.tracked, hs.store, fun tx htx hn sig hsig => ⟨(hs.queued tx htx hn sig hsig).1, by
      simp [NotInFlight]⟩, by simp⟩
  cases hstep with
  | admitTx _ => exact ⟨hs.tracked, hs.store, hs.queued, hs.flying⟩
  | push _ => exact replayInv_push hs hfresh _
  | enqueue _ => exact ⟨hs.tracked, hs.store, hs.queued, hs.flying⟩
  | drain _ => exact replayInv_drain hs
  | idle _ _ => exact hland
  | commit hflight _ hproduce => exact replayInv_commit hs hflight hproduce
  | fail _ => exact hland
  | restart hboot =>
    obtain ⟨hb, ht, hl, hm⟩ := boot_store hboot
    refine ⟨by rw [hm]; exact Mempool.tracked_new .., hs.store.congr hb ht hl, ?_, by simp⟩
    rw [hm]
    simp [Mempool.new]

/-! ## A withdrawal pushed by two clients -/

theorem step_commit_withdrawal {E : Env} (choice : BlockChoice) {s : RunState}
    {tx : VersionedTransaction} {w : WithdrawTx} {account : StoredAccount}
    (hflight : s.inFlight = some ([tx], [])) (hsig : tx.signature.isSome)
    (hslot : ∀ latest, s.node.store.latestSlot = some latest → latest < s.node.tip.slot + 1)
    (hw : parseWithdraw tx = some w) (hnative : w.isNative E.options.gasMint = true)
    (haccount : s.node.store.getAccount w.feePayer = some account)
    (hclock : w.feePayer ≠ Executor.CLOCK_ID)
    (hfunds : w.neededNative E.options.gasMint ≤ account.lamports) (hamount : 0 < w.amount)
    (hcollector : w.feePayer ≠ E.feeCollector) :
    ∃ node block, Step E s (.commit choice) { s with node, inFlight := none } ∧
      block.transactions = [tx] ∧
      node.store.blocks = s.node.store.blocks.insert (s.node.tip.slot + 1) block ∧
      node.store.latestSlot = some (s.node.tip.slot + 1) ∧
      node.tip.slot = s.node.tip.slot + 1 ∧
      node.store.getAccount w.feePayer = some
        { account with lamports := account.lamports - w.neededNative E.options.gasMint } ∧
      node.mempool = s.node.mempool ∧ node.pendingDeposits = s.node.pendingDeposits := by
  obtain ⟨draft, hdraft, hincluded, -, hpayer⟩ := draftBlock_withdrawal choice s.node.tip hw hnative
    haccount hclock hfunds hamount hcollector
  obtain ⟨node, block, store, hcommit, hp⟩ := commitDraft_isOk (E := E) choice s.node draft hslot
    (by rw [hincluded]; simpa using hsig)
  have hproduce : produce E choice s.node [tx] [] = .ok node := by
    rw [produce, hdraft]
    exact hcommit
  have hc := hp.committed
  refine ⟨node, block, .commit hflight (by simp [isDue]) hproduce, hp.transactions.trans hincluded,
    ?_, ?_, hp.tip_slot, ?_, hp.mempool, hp.pendingDeposits⟩
  · rw [hp.store_eq, ← hp.slot]; exact hc.blocks
  · rw [hp.store_eq, ← hp.slot]; exact hc.latestSlot
  · rw [hp.getAccount, AccountWrites.applyTo_some hpayer]

/-- The payer withdraws 1000 lamports, signed against the genesis hash. -/
def Sample.replayedTx : VersionedTransaction :=
  withdrawTx 9 (Bytes.replicate 32 7) 1000 1 (env.genesis.genesisHash prims)

theorem Sample.admit_replayedTx {node : Node} (hloc : node.store.txLoc = fun _ => none)
    (hvalid : node.tip.queue.isValid (env.genesis.genesisHash prims) = true) :
    admitTx env node replayedTx = .ok (Bytes.replicate 64 9) := by
  have hnone : node.store.getTransaction (Bytes.replicate 64 9) = .ok none :=
    Store.getTransaction_eq_none_iff.mpr (congrFun hloc _)
  have hsig : replayedTx.signature = some (Bytes.replicate 64 9) := rfl
  have hhash : replayedTx.message.recentBlockhash = env.genesis.genesisHash prims := rfl
  simp only [admitTx, hsig, hhash, hvalid, hnone, Bool.not_true, Bool.false_eq_true, if_false]
  rfl

/-- The sample chain's mempool after the withdrawal was pushed and drained. -/
def Sample.drainedMempool : Mempool :=
  (((Mempool.new options.mempoolCapacity options.maxPerPayer).push replayedTx).1.drain
    options.maxBlockTransactions).1

theorem Sample.commit_replayedTx {s : RunState} {lamports : UInt64} (choice : BlockChoice)
    (hflight : s.inFlight = some ([replayedTx], []))
    (hslot : ∀ latest, s.node.store.latestSlot = some latest → latest < s.node.tip.slot + 1)
    (haccount : s.node.store.getAccount payer = some (StoredAccount.newSystem lamports))
    (hfunds : 1000 + POOL_TX_FEE ≤ lamports) :
    ∃ node block, Step env s (.commit choice) { s with node, inFlight := none } ∧
      block.transactions = [replayedTx] ∧
      node.store.blocks = s.node.store.blocks.insert (s.node.tip.slot + 1) block ∧
      node.store.latestSlot = some (s.node.tip.slot + 1) ∧
      node.tip.slot = s.node.tip.slot + 1 ∧
      node.store.getAccount payer =
        some (StoredAccount.newSystem (lamports - (1000 + POOL_TX_FEE))) ∧
      node.mempool = s.node.mempool ∧ node.pendingDeposits = s.node.pendingDeposits :=
  step_commit_withdrawal (E := env) choice hflight (by decide) hslot
    (parseWithdraw_withdrawTx ..) (by decide) haccount (by decide) hfunds (by decide) (by decide)

theorem Sample.queued_replayedTx :
    ∃ s₀ s, Initial env s₀ ∧ Run env PushFresh s₀ s ∧ s.inFlight = none ∧ s.admitted = [] ∧
      (drainForBlock env s.node).2 = ([replayedTx], []) ∧
      s.node.store.txLoc = (fun _ => none) ∧ s.node.store.latestSlot = none ∧
      s.node.tip.slot = 0 ∧
      s.node.tip.queue.isValid (env.genesis.genesisHash prims) = true ∧
      s.node.store.getAccount payer = some (StoredAccount.newSystem 1000000000) ∧
      (drainForBlock env s.node).1.mempool = drainedMempool := by
  obtain ⟨node₀, hboot, haccounts, hloc, hlatest, htip, hmem, hdep, -⟩ := boot_empty env 0
  have hvalid : node₀.tip.queue.isValid (env.genesis.genesisHash prims) = true := by
    rw [htip]; decide +kernel
  let s₁ : RunState := ⟨node₀, [replayedTx], none⟩
  let s₂ : RunState := ⟨pushTransaction node₀ replayedTx, [], none⟩
  have h₁ : Step env ⟨node₀, [], none⟩ (.admitTx replayedTx) s₁ :=
    .admitTx (admit_replayedTx hloc hvalid)
  have h₂ : Step env s₁ (.push replayedTx) s₂ := .push_singleton rfl
  have hfresh : PushFresh s₁ (.push replayedTx) := fun _ sig _ =>
    .inr ⟨Store.getTransaction_eq_none_iff.mpr (congrFun hloc sig), by simp [NotInFlight, s₁]⟩
  have hrun : Run env PushFresh ⟨node₀, [], none⟩ s₂ :=
    (Relation.ReflTransGen.single ⟨.admitTx replayedTx, trivial, h₁⟩).tail ⟨_, hfresh, h₂⟩
  refine ⟨_, s₂, ⟨0, node₀, hboot, rfl⟩, hrun, rfl, rfl, ?_, hloc, hlatest,
    congrArg ChainTip.slot htip, hvalid, ?_, ?_⟩
  · simp only [s₂, drainForBlock, pushTransaction, hmem, hdep]
    decide +kernel
  · rw [show s₂.node.store.getAccount = node₀.store.accounts from rfl, haccounts]
    decide
  · simp only [s₂, drainForBlock, pushTransaction, hmem, drainedMempool]
    rfl

theorem Sample.flight_replayedTx :
    ∃ s₀ s, Initial env s₀ ∧ Run env PushFresh s₀ s ∧ s.inFlight = some ([replayedTx], []) ∧
      s.admitted = [] ∧ s.node.store.txLoc = (fun _ => none) ∧ s.node.store.latestSlot = none ∧
      s.node.tip.slot = 0 ∧
      s.node.tip.queue.isValid (env.genesis.genesisHash prims) = true ∧
      s.node.store.getAccount payer = some (StoredAccount.newSystem 1000000000) ∧
      s.node.mempool = drainedMempool ∧ s.node.pendingDeposits = [] := by
  obtain ⟨s₀, s, h₀, hrun, hflight, hadmitted, hdrained, hloc, hlatest, hslot, hvalid, hpayer,
    hmem⟩ := Sample.queued_replayedTx
  have hdrain : Step env s .drain _ := .drain hflight
  exact ⟨s₀, _, h₀, hrun.tail ⟨.drain, trivial, hdrain⟩, congrArg some hdrained, hadmitted, hloc,
    hlatest, hslot, hvalid, hpayer, hmem, rfl⟩

/-- In every run whose pushes of pool transactions and withdrawals are pending duplicates or of
signatures neither in flight nor committed, no signature is included twice. -/
theorem included_once_of_pushFresh {E : Env} {s₀ s : RunState} (h₀ : Initial E s₀)
    (hrun : Run E PushFresh s₀ s) : IncludedOnce s.node.store :=
  (hrun.invariant (fun _ _ _ => replayInv_step) (replayInv_initial h₀)).store.once

/-- The withdrawal pushed once is included once. -/
theorem withdrawal_included_once :
    ∃ s₀ s block, Initial Sample.env s₀ ∧ Run Sample.env PushFresh s₀ s ∧
      s.node.store.blocks 1 = some block ∧ block.transactions = [Sample.replayedTx] ∧
      IncludedOnce s.node.store := by
  obtain ⟨order⟩ := Privacy.MapOrder.nonempty
  obtain ⟨s₀, s, h₀, hrun, hflight, -, -, hlatest, hslot, -, hpayer, -, -⟩ :=
    Sample.flight_replayedTx
  obtain ⟨node, block, hstep, htxs, hblocks, -⟩ := Sample.commit_replayedTx ⟨0, order⟩ hflight
    (fun latest h => by cases hlatest.symm.trans h) hpayer (by decide)
  have hrun' := hrun.tail ⟨.commit _, trivial, hstep⟩
  refine ⟨s₀, _, block, h₀, hrun', ?_, htxs, included_once_of_pushFresh h₀ hrun'⟩
  rw [hblocks, hslot]
  exact PartialMap.insert_self ..

/-- A second client has the withdrawal admitted while the first block that includes it is in
flight, and pushes it once that block is committed: it is included and burned twice. -/
theorem withdrawal_included_twice :
    ∃ s₀ s, Initial Sample.env s₀ ∧ Run Sample.env (fun _ _ => True) s₀ s ∧
      ¬ IncludedOnce s.node.store ∧
      (s.node.store.getAccount Sample.payer).map (·.lamports) =
        some (1000000000 - 2 * (1000 + POOL_TX_FEE)) := by
  obtain ⟨order⟩ := Privacy.MapOrder.nonempty
  obtain ⟨s₀, s₃, h₀, hrun, hflight, hadmitted, hloc, hlatest, hslot, hvalid, hpayer, hmem, hdep⟩ :=
    Sample.flight_replayedTx
  let tx := Sample.replayedTx
  let s₄ : RunState := { s₃ with admitted := [tx] }
  have h₄ : Step Sample.env s₃ (.admitTx tx) s₄ := by
    simpa only [hadmitted] using Step.admitTx (E := Sample.env)
      (Sample.admit_replayedTx hloc hvalid)
  obtain ⟨node₅, block₁, h₅, htxs₁, hblocks₁, hlatest₁, hslot₁, hpayer₁, hmem₁, hdep₁⟩ :=
    Sample.commit_replayedTx (s := s₄) ⟨0, order⟩ hflight
      (fun latest h => by cases hlatest.symm.trans h) hpayer (by decide)
  -- push the admitted withdrawal, and produce the next block
  let s₆ : RunState := ⟨pushTransaction node₅ tx, [], none⟩
  let s₇ : RunState := ⟨(drainForBlock Sample.env s₆.node).1, [],
    some (drainForBlock Sample.env s₆.node).2⟩
  have h₆ : Step Sample.env ⟨node₅, [tx], none⟩ (.push tx) s₆ := .push_singleton rfl
  have h₇ : Step Sample.env s₆ .drain s₇ := .drain rfl
  have hflight' : s₇.inFlight = some ([tx], []) := by
    simp only [s₇, s₆, s₄, drainForBlock, pushTransaction, hmem₁, hdep₁, hmem, hdep]
    decide +kernel
  have hslot' : s₇.node.tip.slot = 1 := hslot₁.trans (by rw [hslot]; rfl)
  obtain ⟨node₈, block₂, h₈, htxs₂, hblocks₂, -, -, hpayer₂, -, -⟩ :=
    Sample.commit_replayedTx ⟨0, order⟩ hflight' (fun latest h => by
      cases hlatest₁.symm.trans h
      rw [hslot, hslot']
      decide) hpayer₁ (by decide)
  have hrun' : Run Sample.env (fun _ _ => True) s₀ ⟨node₈, [], none⟩ :=
    (((((hrun.mono fun _ _ _ => trivial).tail ⟨_, trivial, h₄⟩).tail ⟨_, trivial, h₅⟩).tail
      ⟨_, trivial, h₆⟩).tail ⟨_, trivial, h₇⟩).tail ⟨_, trivial, h₈⟩
  refine ⟨s₀, _, h₀, hrun', fun honce => ?_, by rw [hpayer₂]; decide⟩
  have hoccurs₁ : OccursAt node₈.store (Bytes.replicate 64 9) 1 0 := by
    refine ⟨block₁, tx, ?_, by rw [htxs₁]; rfl, rfl⟩
    rw [hblocks₂, PartialMap.insert_of_ne _ _ (by rw [hslot']; decide),
      show s₇.node.store.blocks = node₅.store.blocks from rfl, hblocks₁, hslot]
    exact PartialMap.insert_self ..
  have hoccurs₂ : OccursAt node₈.store (Bytes.replicate 64 9) 2 0 := by
    refine ⟨block₂, tx, ?_, by rw [htxs₂]; rfl, rfl⟩
    rw [hblocks₂, hslot']
    exact PartialMap.insert_self ..
  exact absurd (honce _ _ _ _ _ hoccurs₁ hoccurs₂).1 (by decide)

end Zul.Node
