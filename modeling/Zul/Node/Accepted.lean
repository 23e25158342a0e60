import Zul.Node.ReadFaults

/-! # Accepted transactions

A submission that returned a signature is in the mempool, in the producer's hands, in a
committed block or on a dropped list, as long as no call of the producer fails after draining
something: the producer forgets what it drained.
-/

namespace Zul

open Privacy

namespace Executor

/-- The machine returns one result for each transaction of its batch. -/
def SvmRuntime.OneResultEach (R : SvmRuntime) : Prop :=
  ∀ view slot blockhash batch, (R.loadAndExecute view slot blockhash batch).length = batch.length

variable {R : SvmRuntime}

/-- A signed transaction ends up in the batch or on the dropped list. -/
def Checks.Covers (c : Checks) (tx : VersionedTransaction) : Prop :=
  ∀ sig, tx.signature = some sig →
    tx ∈ c.batch.map (·.transaction) ∨ sig ∈ c.dropped.map Prod.fst

theorem checkOne_covers {store : Store} {queue : BlockhashQueue} {c c' : Checks}
    {tx : VersionedTransaction} (h : checkOne R store queue c tx = .ok c') :
    c'.Covers tx ∧ ∀ tx', c.Covers tx' → c'.Covers tx' := by
  unfold checkOne at h
  cases hsig : tx.signature with
  | none =>
    rw [hsig] at h
    cases h
    exact ⟨fun sig hsome => absurd (hsig.symm.trans hsome) (by simp), fun _ h => h⟩
  | some sig =>
    rw [hsig] at h
    -- a drop adds the signature to the list, a check adds the transaction to the batch
    have hdrop (c₁ : Checks) (e : TransactionError) (hbatch : c₁.batch = c.batch)
        (hdropped : c₁.dropped = c.dropped ++ [(sig, e)]) :
        c₁.Covers tx ∧ ∀ tx', c.Covers tx' → c₁.Covers tx' := by
      constructor
      · intro sig' hsig'
        cases hsig.symm.trans hsig'
        exact .inr (by rw [hdropped]; simp)
      · intro tx' hcovers sig' hsig'
        rcases hcovers sig' hsig' with hmem | hmem
        · exact .inl (by rw [hbatch]; exact hmem)
        · exact .inr (by rw [hdropped, List.map_append]; exact List.mem_append_left _ hmem)
    dsimp only at h
    split at h
    · cases h
      exact hdrop _ _ rfl rfl
    · split at h
      · cases h
      · cases h
        exact hdrop _ _ rfl rfl
      · split at h
        · cases h
          exact hdrop _ _ rfl rfl
        · rename_i checked hchecked
          have htx := checkTransaction_transaction hchecked
          cases h
          constructor
          · intro sig' _
            exact .inl (by simp [htx])
          · intro tx' hcovers sig' hsig'
            rcases hcovers sig' hsig' with hmem | hmem
            · exact .inl (by rw [List.map_append]; exact List.mem_append_left _ hmem)
            · exact .inr hmem

theorem checks_cover {store : Store} {queue : BlockhashQueue}
    {transactions : List VersionedTransaction} {c c' : Checks}
    (h : transactions.foldlM (checkOne R store queue) c = .ok c') :
    (∀ tx ∈ transactions, c'.Covers tx) ∧ ∀ tx, c.Covers tx → c'.Covers tx := by
  induction transactions generalizing c with
  | nil =>
    cases h
    exact ⟨by simp, fun _ h => h⟩
  | cons tx transactions ih =>
    rw [List.foldlM_cons] at h
    cases hone : checkOne R store queue c tx with
    | error e =>
      rw [hone] at h
      cases h
    | ok c₁ =>
      rw [hone] at h
      obtain ⟨htx, hkept⟩ := checkOne_covers hone
      obtain ⟨hrest, hkept'⟩ := ih h
      exact ⟨List.forall_mem_cons.mpr ⟨hkept' _ htx, hrest⟩, fun tx' h' => hkept' _ (hkept _ h')⟩

/-- A signed transaction of a result is included or on the dropped list. -/
def Collected.Covers (c : Collected) (tx : VersionedTransaction) : Prop :=
  ∀ sig, tx.signature = some sig → tx ∈ c.included.map Prod.fst ∨ sig ∈ c.dropped.map Prod.fst

theorem collectOne_covers (view : PartialMap Pubkey StoredAccount) (c : Collected)
    (entry : Except TransactionError ProcessedTransaction × CheckedTransaction) :
    (collectOne R view c entry).Covers entry.2.transaction ∧
      (∀ tx ∈ c.included.map Prod.fst,
        tx ∈ (collectOne R view c entry).included.map Prod.fst) ∧
      ∀ sig ∈ c.dropped.map Prod.fst, sig ∈ (collectOne R view c entry).dropped.map Prod.fst := by
  obtain ⟨result, checked⟩ := entry
  rcases result with e | ⟨fee, accounts, e⟩ | executed
  · refine ⟨fun sig hsig => .inr ?_, fun _ h => h, fun sig hmem => ?_⟩
    · simp [collectOne, hsig]
    · simp only [collectOne, List.map_append]
      exact List.mem_append_left _ hmem
  · refine ⟨fun sig _ => .inl (by simp [collectOne]), fun tx hmem => ?_, fun _ h => h⟩
    simp only [collectOne, List.map_append]
    exact List.mem_append_left _ hmem
  · refine ⟨fun sig _ => .inl (by simp [collectOne]), fun tx hmem => ?_, fun _ h => h⟩
    simp only [collectOne, List.map_append]
    exact List.mem_append_left _ hmem

theorem collect_covers (view : PartialMap Pubkey StoredAccount)
    (entries : List (Except TransactionError ProcessedTransaction × CheckedTransaction))
    (c : Collected) :
    (∀ entry ∈ entries, (entries.foldl (collectOne R view) c).Covers entry.2.transaction) ∧
      (∀ tx ∈ c.included.map Prod.fst,
        tx ∈ (entries.foldl (collectOne R view) c).included.map Prod.fst) ∧
      ∀ sig ∈ c.dropped.map Prod.fst,
        sig ∈ (entries.foldl (collectOne R view) c).dropped.map Prod.fst := by
  induction entries generalizing c with
  | nil => exact ⟨by simp, fun _ h => h, fun _ h => h⟩
  | cons entry entries ih =>
    obtain ⟨hentry, hincluded, hdropped⟩ := collectOne_covers (R := R) view c entry
    obtain ⟨hrest, hincluded', hdropped'⟩ := ih (collectOne R view c entry)
    refine ⟨List.forall_mem_cons.mpr ⟨fun sig hsig => ?_, hrest⟩,
      fun tx h => hincluded' tx (hincluded tx h), fun sig h => hdropped' sig (hdropped sig h)⟩
    exact (hentry sig hsig).imp (hincluded' _) (hdropped' _)

theorem executeBlock_covers (hR : R.OneResultEach) {collector : Pubkey} {store : Store}
    {input : BlockExecutionInput} {out : BlockExecutionOutput}
    (h : executeBlock R collector store input = .ok out) {tx : VersionedTransaction}
    {sig : Signature} (htx : tx ∈ input.transactions) (hsig : tx.signature = some sig) :
    tx ∈ out.included.map Prod.fst ∨ sig ∈ out.dropped.map Prod.fst := by
  unfold executeBlock at h
  cases hc : input.transactions.foldlM (checkOne R store input.queue) ⟨[], [], []⟩ with
  | error e =>
    rw [hc] at h
    cases h
  | ok checks =>
    rw [hc] at h
    cases h
    obtain ⟨hcovers, -, hkept⟩ := collect_covers (R := R) (callback R store input)
      ((R.loadAndExecute (callback R store input) input.slot input.parentBlockhash
        checks.batch).zip checks.batch) ⟨fun _ => none, [], checks.dropped, 0⟩
    rcases (checks_cover hc).1 tx htx sig hsig with hbatch | hdropped
    · obtain ⟨checked, hmem, rfl⟩ := List.mem_map.mp hbatch
      rw [← List.map_snd_zip (hR (callback R store input) input.slot input.parentBlockhash
        checks.batch).ge] at hmem
      obtain ⟨entry, hentry, rfl⟩ := List.mem_map.mp hmem
      exact hcovers entry hentry sig hsig
    · exact .inr (hkept sig hdropped)

end Executor

namespace Node

open Bridge Executor

variable {E : Env}

/-! ## Blocks account for what was drained -/

theorem Drafted.covers (hsvm : E.svm.OneResultEach) {choice : BlockChoice} {store : Store}
    {tip : ChainTip} {transactions : List VersionedTransaction} {deposits : List DepositEvent}
    {draft : BlockDraft} {output : BlockExecutionOutput} {pool : PoolStage}
    {depositWrites : AccountWrites} {withdrawn : Withdrawn}
    (hd : Drafted E choice store tip transactions deposits draft output pool depositWrites
      withdrawn) {tx : VersionedTransaction} {sig : Signature} (htx : tx ∈ transactions)
    (hsig : tx.signature = some sig) :
    tx ∈ draft.included.map Prod.fst ∨ sig ∈ output.dropped.map Prod.fst := by
  have hincluded : draft.included.map Prod.fst = output.included.map Prod.fst ++
      (partition (partitionWithdraws transactions).2).1.map (·.transaction) ++
      (partitionWithdraws transactions).1.map (·.transaction) := by
    rw [hd.included, applyWithdraws_included hd.withdrew, poolStage_included hd.pooled]
  rw [hincluded, List.append_assoc, List.mem_append]
  have hmem := (partitions_perm transactions).mem_iff.mpr htx
  rw [List.append_assoc, List.mem_append] at hmem
  rcases hmem with hregular | hnative
  · exact (executeBlock_covers hsvm hd.executed hregular hsig).imp_left .inl
  · exact .inl (.inr hnative)

/-! ## The mempool and the blocks of a run -/

/-- The mempool knows what it holds, and no block lies beyond the latest slot. -/
structure Ordered (s : RunState) : Prop where
  tracked : s.node.mempool.Tracked
  bounded : ∀ slot block, s.node.store.blocks slot = some block →
    ∃ latest, s.node.store.latestSlot = some latest ∧ slot ≤ latest

theorem ordered_initial {s : RunState} (h : Initial E s) : Ordered s := by
  obtain ⟨nowMs, node, hboot, rfl⟩ := h
  obtain ⟨hblocks, -, -, hmempool⟩ := boot_store hboot
  constructor
  · rw [hmempool]
    exact Mempool.tracked_new _ _
  · intro slot block hblock
    rw [hblocks] at hblock
    cases hblock

theorem ordered_step {s s' : RunState} {a : Action} (hs : Ordered s) (h : Step E s a s') :
    Ordered s' := by
  cases h with
  | admitTx _ => exact ⟨hs.tracked, hs.bounded⟩
  | push _ => exact ⟨Mempool.tracked_push hs.tracked _, hs.bounded⟩
  | enqueue _ => exact ⟨hs.tracked, hs.bounded⟩
  | drain _ => exact ⟨Mempool.tracked_drain hs.tracked _, hs.bounded⟩
  | idle _ _ => exact ⟨hs.tracked, hs.bounded⟩
  | fail _ => exact ⟨hs.tracked, hs.bounded⟩
  | commit _ _ hproduce =>
    obtain ⟨draft, block, store, -, hp⟩ := produce_spec hproduce
    constructor
    · rw [hp.mempool]
      exact hs.tracked
    · rw [hp.store_eq]
      exact hp.committed.bounded hs.bounded
  | restart hboot =>
    obtain ⟨hblocks, -, hlatest, hmempool⟩ := boot_store hboot
    constructor
    · rw [hmempool]
      exact Mempool.tracked_new _ _
    · rw [hblocks, hlatest]
      exact hs.bounded

theorem ordered_run {s₀ s : RunState} (h₀ : Initial E s₀) (hrun : Run E (fun _ _ => True) s₀ s) :
    Ordered s :=
  hrun.invariant (fun _ _ _ hs _ hstep => ordered_step hs hstep) (ordered_initial h₀)

/-! ## One process -/

/-- What `submit_transaction` returns for an admitted transaction of signature `sig`: a
duplicate of a pending one is accepted too. -/
def submitResult (node : Node) (tx : VersionedTransaction) (sig : Signature) :
    Except BackendError Signature :=
  match (node.mempool.push tx).2 with
  | .ok _ => .ok sig
  | .error .duplicate => .ok sig
  | .error .full => .error (.rejected "mempool full")
  | .error .payerLimit => .error (.rejected "fee payer has too many pending transactions")
  | .error .unsigned => .error (.rejected "missing signature")

/-- The actions that neither submit nor end a call of the producer with work. -/
def Action.Quiet : Action → Prop
  | .admitTx _ | .enqueue _ | .drain | .idle _ => True
  | _ => False

/-- A process from a reachable state on, with the signatures it accepted and those its
executions dropped. Calls of the producer fail only where `mayFail` holds, before their
execution or after it. -/
inductive Process (E : Env) (mayFail : RunState → Prop) :
    RunState → List Signature → List Signature → Prop
  | start {s₀ s : RunState} (h₀ : Initial E s₀) (hrun : Run E (fun _ _ => True) s₀ s) :
      Process E mayFail s [] []
  | accept {s : RunState} {accepted dropped : List Signature} {tx : VersionedTransaction}
      {sig : Signature} (h : Process E mayFail s accepted dropped) (htx : tx ∈ s.admitted)
      (hsig : tx.signature = some sig) (hok : submitResult s.node tx sig = .ok sig) :
      Process E mayFail
        { s with node := pushTransaction s.node tx, admitted := s.admitted.erase tx }
        (sig :: accepted) dropped
  | refuse {s : RunState} {accepted dropped : List Signature} {tx : VersionedTransaction}
      {sig : Signature} {e : BackendError} (h : Process E mayFail s accepted dropped)
      (htx : tx ∈ s.admitted) (hno : submitResult s.node tx sig = .error e) :
      Process E mayFail
        { s with node := pushTransaction s.node tx, admitted := s.admitted.erase tx }
        accepted dropped
  | commit {s : RunState} {accepted dropped : List Signature} {choice : BlockChoice}
      {transactions : List VersionedTransaction} {deposits : List DepositEvent}
      {draft : BlockDraft} {output : BlockExecutionOutput} {pool : PoolStage}
      {depositWrites : AccountWrites} {withdrawn : Withdrawn} {node : Node}
      (h : Process E mayFail s accepted dropped)
      (hflight : s.inFlight = some (transactions, deposits))
      (hdue : isDue E choice.timestampMs s.node transactions deposits = true)
      (hdraft : Drafted E choice s.node.store s.node.tip transactions deposits draft output pool
        depositWrites withdrawn)
      (hcommit : commitDraft E choice s.node draft = .ok node) :
      Process E mayFail { s with node, inFlight := none } accepted
        (output.dropped.map Prod.fst ++ dropped)
  | fail {s : RunState} {accepted dropped : List Signature}
      (h : Process E mayFail s accepted dropped) (hflight : s.inFlight.isSome)
      (hmay : mayFail s) : Process E mayFail { s with inFlight := none } accepted dropped
  | failAfter {s : RunState} {accepted dropped : List Signature} {choice : BlockChoice}
      {transactions : List VersionedTransaction} {deposits : List DepositEvent}
      {output : BlockExecutionOutput} (h : Process E mayFail s accepted dropped)
      (hflight : s.inFlight = some (transactions, deposits)) (hmay : mayFail s)
      (hexec : executeBlock E.svm E.feeCollector s.node.store (blockInput choice s.node.tip
        (partition (partitionWithdraws transactions).2).2) = .ok output) :
      Process E mayFail { s with inFlight := none } accepted
        (output.dropped.map Prod.fst ++ dropped)
  | quiet {s s' : RunState} {accepted dropped : List Signature} {a : Action}
      (h : Process E mayFail s accepted dropped) (ha : a.Quiet) (hstep : Step E s a s') :
      Process E mayFail s' accepted dropped

theorem Process.exists_run {mayFail : RunState → Prop} {s : RunState}
    {accepted dropped : List Signature} (h : Process E mayFail s accepted dropped) :
    ∃ s₀, Initial E s₀ ∧ Run E (fun _ _ => True) s₀ s := by
  induction h with
  | start h₀ hrun => exact ⟨_, h₀, hrun⟩
  | accept _ htx _ _ ih =>
    obtain ⟨s₀, h₀, hrun⟩ := ih
    exact ⟨s₀, h₀, hrun.tail ⟨_, trivial, .push htx⟩⟩
  | refuse _ htx _ ih =>
    obtain ⟨s₀, h₀, hrun⟩ := ih
    exact ⟨s₀, h₀, hrun.tail ⟨_, trivial, .push htx⟩⟩
  | commit _ hflight hdue hdraft hcommit ih =>
    obtain ⟨s₀, h₀, hrun⟩ := ih
    refine ⟨s₀, h₀, hrun.tail ⟨_, trivial, .commit hflight hdue ?_⟩⟩
    rw [produce, draftBlock_eq hdraft]
    exact hcommit
  | fail _ hflight _ ih =>
    obtain ⟨s₀, h₀, hrun⟩ := ih
    exact ⟨s₀, h₀, hrun.tail ⟨_, trivial, .fail hflight⟩⟩
  | failAfter _ hflight _ _ ih =>
    obtain ⟨s₀, h₀, hrun⟩ := ih
    exact ⟨s₀, h₀, hrun.tail ⟨_, trivial, .fail (by rw [hflight]; rfl)⟩⟩
  | quiet _ _ hstep ih =>
    obtain ⟨s₀, h₀, hrun⟩ := ih
    exact ⟨s₀, h₀, hrun.tail ⟨_, trivial, hstep⟩⟩

theorem Process.ordered {mayFail : RunState → Prop} {s : RunState}
    {accepted dropped : List Signature} (h : Process E mayFail s accepted dropped) :
    Ordered s := by
  obtain ⟨s₀, h₀, hrun⟩ := h.exists_run
  exact ordered_run h₀ hrun

/-! ## Where an accepted transaction is -/

def Holds (transactions : List VersionedTransaction) (sig : Signature) : Prop :=
  ∃ tx ∈ transactions, tx.signature = some sig

/-- In the mempool, in the producer's hands, in a committed block or dropped. -/
def Located (s : RunState) (dropped : List Signature) (sig : Signature) : Prop :=
  Holds s.node.mempool.queue sig ∨
    (∃ transactions deposits, s.inFlight = some (transactions, deposits) ∧
      Holds transactions sig) ∨
    (∃ slot block, s.node.store.blocks slot = some block ∧ Holds block.transactions sig) ∨
    sig ∈ dropped

theorem holds_of_submitResult {node : Node} {tx : VersionedTransaction} {sig : Signature}
    (htracked : node.mempool.Tracked) (hsig : tx.signature = some sig)
    (hok : submitResult node tx sig = .ok sig) :
    Holds (pushTransaction node tx).mempool.queue sig := by
  have hpush : (∃ sig', (node.mempool.push tx).2 = .ok sig') ∨
      (node.mempool.push tx).2 = .error .duplicate := by
    unfold submitResult at hok
    split at hok
    · rename_i sig' hpushed
      exact .inl ⟨sig', hpushed⟩
    · rename_i hpushed
      exact .inr hpushed
    · cases hok
    · cases hok
    · cases hok
  have hpending := Mempool.mem_pending_push hsig hpush
  obtain ⟨queued, hmem, heq⟩ := List.mem_map.mp
    (((Mempool.tracked_push htracked tx).mem_pending sig).mp hpending)
  exact ⟨queued, hmem, heq⟩

theorem holds_push {node : Node} {tx : VersionedTransaction} {sig : Signature}
    (h : Holds node.mempool.queue sig) : Holds (pushTransaction node tx).mempool.queue sig := by
  obtain ⟨queued, hmem, hsig⟩ := h
  rcases Mempool.push_cases node.mempool tx with heq | ⟨_, -, -, hqueue, -⟩
  · exact ⟨queued, by rw [pushTransaction, heq]; exact hmem, hsig⟩
  · refine ⟨queued, ?_, hsig⟩
    rw [pushTransaction, hqueue]
    exact List.mem_append_left _ hmem

theorem located_push {s : RunState} {dropped : List Signature} {sig : Signature}
    (h : Located s dropped sig) (tx : VersionedTransaction)
    (admitted : List VersionedTransaction) :
    Located { s with node := pushTransaction s.node tx, admitted } dropped sig :=
  h.imp_left holds_push

theorem located_quiet {s s' : RunState} {a : Action} {dropped : List Signature}
    {sig : Signature} (h : Located s dropped sig) (ha : a.Quiet) (hstep : Step E s a s') :
    Located s' dropped sig := by
  cases hstep with
  | admitTx _ => exact h
  | enqueue _ => exact h
  | drain hnone =>
    rcases h with ⟨tx, hmem, hsig⟩ | ⟨_, _, hflight, -⟩ | hrest
    · rw [← Mempool.drain_queue s.node.mempool E.options.maxBlockTransactions] at hmem
      rcases List.mem_append.mp hmem with hmem | hmem
      · exact .inr (.inl ⟨_, _, rfl, tx, hmem, hsig⟩)
      · exact .inl ⟨tx, hmem, hsig⟩
    · cases hnone.symm.trans hflight
    · exact .inr (.inr hrest)
  | idle hflight hdue =>
    refine h.imp_right (Or.rec ?_ .inr)
    rintro ⟨_, _, hflight', tx, hmem, -⟩
    cases hflight.symm.trans hflight'
    simp only [isDue, Bool.or_eq_false_iff, Bool.not_eq_false', Bool.and_eq_true,
      List.isEmpty_iff] at hdue
    rw [hdue.1.1] at hmem
    cases hmem
  | push _ => exact ha.elim
  | commit _ _ _ => exact ha.elim
  | fail _ => exact ha.elim
  | restart _ => exact ha.elim

/-- A committed block includes or drops what was in the producer's hands, and the blocks before
it stay. -/
theorem located_commit (hsvm : E.svm.OneResultEach) {s : RunState} {choice : BlockChoice}
    {transactions : List VersionedTransaction} {deposits : List DepositEvent}
    {draft : BlockDraft} {output : BlockExecutionOutput} {pool : PoolStage}
    {depositWrites : AccountWrites} {withdrawn : Withdrawn} {node : Node}
    {dropped : List Signature} {sig : Signature} (hs : Ordered s)
    (hflight : s.inFlight = some (transactions, deposits))
    (hdraft : Drafted E choice s.node.store s.node.tip transactions deposits draft output pool
      depositWrites withdrawn)
    (hcommit : commitDraft E choice s.node draft = .ok node) (h : Located s dropped sig) :
    Located { s with node, inFlight := none } (output.dropped.map Prod.fst ++ dropped) sig := by
  obtain ⟨block, store, hp⟩ := commitDraft_spec hcommit
  have hblocks : node.store.blocks = s.node.store.blocks.insert block.header.slot block := by
    rw [hp.store_eq]
    exact hp.committed.blocks
  rcases h with ⟨tx, hmem, hsig⟩ | ⟨_, _, hflight', tx, hmem, hsig⟩ | ⟨slot, old, hold, hholds⟩ | h
  · exact .inl ⟨tx, by rw [hp.mempool]; exact hmem, hsig⟩
  · cases hflight.symm.trans hflight'
    rcases hdraft.covers hsvm hmem hsig with hincluded | hdropped
    · refine .inr (.inr (.inl ⟨block.header.slot, block, ?_, tx, ?_, hsig⟩))
      · rw [hblocks, PartialMap.insert_self]
      · rw [hp.transactions]
        exact hincluded
    · exact .inr (.inr (.inr (List.mem_append_left _ hdropped)))
  · refine .inr (.inr (.inl ⟨slot, old, ?_, hholds⟩))
    have hne : slot ≠ block.header.slot := by
      rintro rfl
      obtain ⟨latest, hlatest, hle⟩ := hs.bounded _ _ hold
      exact absurd (hp.committed.slot_gt latest hlatest) (UInt64.not_lt.mpr hle)
    rw [hblocks, PartialMap.insert_of_ne _ _ hne]
    exact hold
  · exact .inr (.inr (.inr (List.mem_append_right _ h)))

def EmptyHanded (s : RunState) : Prop := s.inFlight = some ([], [])

theorem located_fail {s : RunState} {dropped : List Signature} {sig : Signature}
    (hempty : EmptyHanded s) (h : Located s dropped sig) :
    Located { s with inFlight := none } dropped sig := by
  refine h.imp_right (Or.rec ?_ .inr)
  rintro ⟨transactions, deposits, hflight, tx, hmem, -⟩
  cases Eq.symm hempty |>.trans hflight
  cases hmem

theorem Located.mono {s : RunState} {dropped dropped' : List Signature} {sig : Signature}
    (h : Located s dropped sig) (hsub : dropped ⊆ dropped') : Located s dropped' sig :=
  h.imp_right (Or.imp_right (Or.imp_right fun hmem => hsub hmem))

theorem Process.located (hsvm : E.svm.OneResultEach) {s : RunState}
    {accepted dropped : List Signature} (h : Process E EmptyHanded s accepted dropped) :
    ∀ sig ∈ accepted, Located s dropped sig := by
  induction h with
  | start _ _ => simp
  | accept hprocess _ hsig hok ih =>
    intro sig hmem
    rcases List.mem_cons.mp hmem with rfl | hmem
    · exact .inl (holds_of_submitResult hprocess.ordered.tracked hsig hok)
    · exact located_push (ih sig hmem) _ _
  | refuse _ _ _ ih => exact fun sig hmem => located_push (ih sig hmem) _ _
  | commit hprocess hflight _ hdraft hcommit ih =>
    exact fun sig hmem => located_commit hsvm hprocess.ordered hflight hdraft hcommit (ih sig hmem)
  | fail _ _ hempty ih => exact fun sig hmem => located_fail hempty (ih sig hmem)
  | failAfter _ _ hempty _ ih =>
    exact fun sig hmem => (located_fail hempty (ih sig hmem)).mono (List.subset_append_right _ _)
  | quiet _ ha hstep ih => exact fun sig hmem => located_quiet (ih sig hmem) ha hstep

/-! ## Calls that fail -/

theorem requeued_iff {machine : Machine} {may : Query → Prop} {choice : BlockChoice}
    {node node' : Node} {e : Failure} (htracked : node.mempool.Tracked)
    (h : TryProduces E machine may choice node node' (.error e)) :
    ((∀ tx ∈ (drainForBlock E node).2.1, tx ∈ node'.mempool.queue) ∧
        ∀ d ∈ (drainForBlock E node).2.2, d ∈ node'.pendingDeposits) ↔
      (node.mempool.queue = [] ∨ E.options.maxBlockTransactions = 0) ∧
        node.pendingDeposits = [] := by
  cases h with
  | failed hdue h =>
    have hdrained : (drainForBlock E node).2.1 =
        node.mempool.queue.take (min E.options.maxBlockTransactions node.mempool.queue.length) :=
      rfl
    have hdisjoint : (∀ tx ∈ (drainForBlock E node).2.1,
        tx ∈ (drainForBlock E node).1.mempool.queue) ↔ (drainForBlock E node).2.1 = [] := by
      constructor
      · intro hall
        apply List.eq_nil_iff_forall_not_mem.mpr
        intro tx hmem
        have hnodup := htracked.nodup
        rw [← Mempool.drain_queue node.mempool E.options.maxBlockTransactions,
          List.map_append] at hnodup
        exact (List.nodup_append.mp hnodup).2.2 _ (List.mem_map_of_mem hmem) _
          (List.mem_map_of_mem (hall tx hmem)) rfl
      · intro hnil tx hmem
        rw [hnil] at hmem
        cases hmem
    rw [hdisjoint, hdrained, List.take_eq_nil_iff]
    apply and_congr
    · rw [Nat.min_eq_zero_iff, List.length_eq_zero_iff]
      tauto
    · constructor
      · exact fun hall => List.eq_nil_iff_forall_not_mem.mpr fun d hmem =>
          List.not_mem_nil (hall d hmem)
      · intro hnil d hmem
        rw [show (drainForBlock E node).2.2 = [] from hnil] at hmem
        cases hmem

/-- A process whose calls of the producer fail only empty-handed loses no accepted transaction.
A call that fails leaves what it drained queued exactly if it drained nothing. -/
theorem accepted_kept_iff (hsvm : E.svm.OneResultEach) :
    (∀ s accepted dropped, Process E EmptyHanded s accepted dropped →
      ∀ sig ∈ accepted, Located s dropped sig) ∧
    ∀ s₀ s, Initial E s₀ → Run E (fun _ _ => True) s₀ s →
      ∀ (machine : Machine) (may : Query → Prop) (choice : BlockChoice) (node' : Node)
        (e : Failure), TryProduces E machine may choice s.node node' (.error e) →
          (((∀ tx ∈ (drainForBlock E s.node).2.1, tx ∈ node'.mempool.queue) ∧
              ∀ d ∈ (drainForBlock E s.node).2.2, d ∈ node'.pendingDeposits) ↔
            (s.node.mempool.queue = [] ∨ E.options.maxBlockTransactions = 0) ∧
              s.node.pendingDeposits = []) := by
  constructor
  · intro s accepted dropped h
    exact h.located hsvm
  · intro s₀ s h₀ hrun machine may choice node' e h
    exact requeued_iff (ordered_run h₀ hrun).tracked h

theorem Sample.accepted_replayedTx :
    ∃ s, (∀ mayFail, Process env mayFail s [Bytes.replicate 64 9] []) ∧ s.inFlight = none ∧
      (drainForBlock env s.node).2 = ([replayedTx], []) ∧
      (drainForBlock env s.node).1.mempool.queue = [] ∧
      s.node.store.blocks = (fun _ => none) ∧ s.node.store.latestSlot = none ∧
      s.node.store.getAccount payer = some (.newSystem 1000000000) := by
  obtain ⟨node₀, hboot, haccounts, hloc, hlatest, htip, hmem, hdep, -⟩ := boot_empty env 0
  have hblocks := (boot_store hboot).1
  have hvalid : node₀.tip.queue.isValid (env.genesis.genesisHash prims) = true := by
    rw [htip]; decide +kernel
  have hadmit : Step env ⟨node₀, [], none⟩ (.admitTx replayedTx) ⟨node₀, [replayedTx], none⟩ :=
    .admitTx (admit_replayedTx hloc hvalid)
  have hrun : Run env (fun _ _ => True) ⟨node₀, [], none⟩ ⟨node₀, [replayedTx], none⟩ :=
    Relation.ReflTransGen.single ⟨_, trivial, hadmit⟩
  have hok : submitResult node₀ replayedTx (Bytes.replicate 64 9) = .ok (Bytes.replicate 64 9) := by
    rw [submitResult, hmem]
    decide
  refine ⟨_, fun _ => .accept (.start ⟨0, node₀, hboot, rfl⟩ hrun) (List.mem_singleton_self _)
    rfl hok, rfl, ?_, ?_, hblocks, hlatest, ?_⟩
  · simp only [drainForBlock, pushTransaction, hmem, hdep]
    decide +kernel
  · simp only [drainForBlock, pushTransaction, hmem]
    decide
  · rw [show (pushTransaction node₀ replayedTx).store.getAccount = node₀.store.accounts from rfl,
      haccounts]
    decide

/-- The accepted withdrawal waits in the mempool. -/
theorem accepted_kept_waiting :
    ∃ s, Process Sample.env EmptyHanded s [Bytes.replicate 64 9] [] ∧
      Located s [] (Bytes.replicate 64 9) := by
  have hsvm : Sample.env.svm.OneResultEach := fun _ _ _ _ => List.length_map _
  obtain ⟨s, hprocess, -⟩ := Sample.accepted_replayedTx
  have hwaits := (accepted_kept_iff hsvm).1 s _ _ (hprocess _) _ (List.mem_singleton_self _)
  exact ⟨s, hprocess _, hwaits⟩

/-- The state tree's snapshot cannot be read: the call fails after it drained the accepted
withdrawal, which is then in no queue, no block and on no dropped list. -/
theorem failed_call_loses_withdrawal :
    ∃ s s' choice, Process Sample.env EmptyHanded s [Bytes.replicate 64 9] [] ∧
      TryProduces Sample.env Sample.machine (· = .snapshot) choice s.node s'.node
        (.error .read) ∧
      Process Sample.env (fun _ => True) s' [Bytes.replicate 64 9] [] ∧
      ¬ Located s' [] (Bytes.replicate 64 9) := by
  obtain ⟨order⟩ := MapOrder.nonempty
  obtain ⟨s, hprocess, hflight, hdrained, hqueue, hblocks, hlatest, hpayer⟩ :=
    Sample.accepted_replayedTx
  obtain ⟨draft, hdraft, -, -⟩ := returns_paidDraft order hpayer
  have hdue : isDue Sample.env 0 (drainForBlock Sample.env s.node).1
      (drainForBlock Sample.env s.node).2.1 (drainForBlock Sample.env s.node).2.2 = true := by
    rw [hdrained]
    rfl
  have hfails : (Reading.produce Sample.env Sample.machine ⟨0, order⟩
      (drainForBlock Sample.env s.node).1 (drainForBlock Sample.env s.node).2.1
      (drainForBlock Sample.env s.node).2.2).Outcome (answer s.node.store) missed
        (· = .snapshot) (.error .read) := by
    rw [hdrained]
    exact Reads.Outcome.bind_of_run hdraft (.abort rfl rfl)
  -- the same call in the process: it drains, executes nothing and fails
  let drained : RunState := ⟨(drainForBlock Sample.env s.node).1, s.admitted,
    some (drainForBlock Sample.env s.node).2⟩
  have hdrain : Process Sample.env (fun _ => True) drained [Bytes.replicate 64 9] [] :=
    .quiet (a := .drain) (hprocess _) trivial (.drain hflight)
  obtain ⟨writes, hexec, -⟩ := executeBlock_nil Sample.env.svm Sample.env.feeCollector
    s.node.store (s.node.tip.slot + 1) 0 s.node.tip.blockhash s.node.tip.queue
  have hexec' : executeBlock Sample.env.svm Sample.env.feeCollector drained.node.store
      (blockInput ⟨0, order⟩ drained.node.tip
        (partition (partitionWithdraws [Sample.replayedTx]).2).2) = .ok ⟨[], [], writes, 0⟩ := by
    have hparse := Sample.parseWithdraw_withdrawTx 9 (Bytes.replicate 32 7) 1000 1
      (Sample.env.genesis.genesisHash Sample.prims)
    have hsplit : (partitionWithdraws [Sample.replayedTx]).2 = [] := by
      simp [partitionWithdraws, Sample.replayedTx, hparse]
    rw [hsplit]
    exact hexec
  have hlost : Process Sample.env (fun _ => True) ⟨drained.node, s.admitted, none⟩
      [Bytes.replicate 64 9] [] :=
    Process.failAfter hdrain (congrArg some hdrained) trivial hexec'
  refine ⟨s, ⟨drained.node, s.admitted, none⟩, ⟨0, order⟩, hprocess _,
    TryProduces.failed hdue hfails, hlost, ?_⟩
  rintro (⟨tx, hmem, -⟩ | ⟨_, _, hnone, -⟩ | ⟨slot, block, hblock, -⟩ | hmem)
  · rw [show (drainForBlock Sample.env s.node).1.mempool.queue = [] from hqueue] at hmem
    cases hmem
  · cases hnone
  · cases (congrFun hblocks slot).symm.trans hblock
  · cases hmem

end Node

end Zul
