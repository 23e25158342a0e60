import Mathlib.Logic.Relation
import Zul.Node.Produce

/-! # Runs of a node

A run interleaves the separately atomic steps of the node: the two halves of a submission by any
number of clients, the deposit watcher, the two halves of block production, and restarts on the
same store. A failure or panic during production is a step of its own.
-/

namespace Zul.Node

open Bridge

/-- A node, the transactions its clients had admitted and not yet pushed, and what the producer
drained and not yet committed. -/
structure RunState where
  node : Node
  admitted : List VersionedTransaction
  inFlight : Option (List VersionedTransaction × List DepositEvent)

inductive Action
  /-- A client's first half: `admit`. -/
  | admitTx (tx : VersionedTransaction)
  /-- A client's second half: `mempool.push`. -/
  | push (tx : VersionedTransaction)
  /-- The deposit watcher queues deposits. -/
  | enqueue (deposits : List DepositEvent)
  /-- The producer's first half: drain the mempool and the deposit queue. -/
  | drain
  /-- Nothing was drained and no heartbeat is due. -/
  | idle (timestampMs : UInt64)
  /-- The producer's second half: execute and commit under the tip lock. -/
  | commit (choice : BlockChoice)
  /-- Production fails before the commit; what was drained is lost. -/
  | fail
  /-- The process ends and a new one opens the store. -/
  | restart (nowMs : UInt64)

inductive Step (E : Env) : RunState → Action → RunState → Prop
  | admitTx {s : RunState} {tx : VersionedTransaction} {sig : Signature}
      (h : admitTx E s.node tx = .ok sig) :
      Step E s (.admitTx tx) { s with admitted := tx :: s.admitted }
  | push {s : RunState} {tx : VersionedTransaction} (h : tx ∈ s.admitted) :
      Step E s (.push tx)
        { s with node := pushTransaction s.node tx, admitted := s.admitted.erase tx }
  | enqueue {s : RunState} (deposits : List DepositEvent) :
      Step E s (.enqueue deposits) { s with node := enqueueDeposits s.node deposits }
  | drain {s : RunState} (h : s.inFlight = none) :
      Step E s .drain
        { s with node := (drainForBlock E s.node).1, inFlight := some (drainForBlock E s.node).2 }
  | idle {s : RunState} {timestampMs : UInt64} {transactions : List VersionedTransaction}
      {deposits : List DepositEvent} (h : s.inFlight = some (transactions, deposits))
      (hdue : isDue E timestampMs s.node transactions deposits = false) :
      Step E s (.idle timestampMs) { s with inFlight := none }
  | commit {s : RunState} {choice : BlockChoice} {transactions : List VersionedTransaction}
      {deposits : List DepositEvent} {node : Node} (h : s.inFlight = some (transactions, deposits))
      (hdue : isDue E choice.timestampMs s.node transactions deposits = true)
      (hproduce : produce E choice s.node transactions deposits = .ok node) :
      Step E s (.commit choice) { s with node, inFlight := none }
  | fail {s : RunState} (h : s.inFlight.isSome) : Step E s .fail { s with inFlight := none }
  | restart {s : RunState} {nowMs : UInt64} {node : Node}
      (h : boot E s.node.store nowMs = .ok node) :
      Step E s (.restart nowMs) ⟨node, [], none⟩

theorem Step.push_singleton {E : Env} {s : RunState} {tx : VersionedTransaction}
    (h : s.admitted = [tx]) :
    Step E s (.push tx) ⟨pushTransaction s.node tx, [], s.inFlight⟩ := by
  have hstep : Step E s (.push tx)
      { s with node := pushTransaction s.node tx, admitted := s.admitted.erase tx } :=
    .push (by rw [h]; exact List.mem_singleton_self tx)
  simpa [h] using hstep

def Initial (E : Env) (s : RunState) : Prop :=
  ∃ nowMs node, boot E Store.empty nowMs = .ok node ∧ s = ⟨node, [], none⟩

/-- The runs whose every action meets a condition on the state it is taken in. -/
def Run (E : Env) (allowed : RunState → Action → Prop) : RunState → RunState → Prop :=
  Relation.ReflTransGen fun s s' => ∃ a, allowed s a ∧ Step E s a s'

theorem Run.mono {E : Env} {allowed allowed' : RunState → Action → Prop} {s s' : RunState}
    (hrun : Run E allowed s s') (h : ∀ s a, allowed s a → allowed' s a) : Run E allowed' s s' :=
  Relation.ReflTransGen.mono (fun s _ ⟨a, ha, hs⟩ => ⟨a, h s a ha, hs⟩) _ _ hrun

theorem Run.invariant {E : Env} {allowed : RunState → Action → Prop} {p : RunState → Prop}
    (hstep : ∀ s a s', p s → allowed s a → Step E s a s' → p s') {s s' : RunState}
    (hrun : Run E allowed s s') (h : p s) : p s' := by
  induction hrun with
  | refl => exact h
  | tail _ hlast ih =>
    obtain ⟨a, ha, hs⟩ := hlast
    exact hstep _ a _ ih ha hs

/-! ## Histories -/

/-- A run from a fresh node with the drafts it committed, oldest first. -/
inductive History (E : Env) (allowed : RunState → List BlockDraft → Action → Prop) :
    RunState → List BlockDraft → Prop
  | initial {s : RunState} (h : Initial E s) : History E allowed s []
  | commit {s : RunState} {drafts : List BlockDraft} {choice : BlockChoice}
      {transactions : List VersionedTransaction} {deposits : List DepositEvent}
      {draft : BlockDraft} {node : Node} (hist : History E allowed s drafts)
      (ha : allowed s drafts (.commit choice))
      (hflight : s.inFlight = some (transactions, deposits))
      (hdue : isDue E choice.timestampMs s.node transactions deposits = true)
      (hdraft : draftBlock E choice s.node.store s.node.tip transactions deposits = .ok draft)
      (hcommit : commitDraft E choice s.node draft = .ok node) :
      History E allowed { s with node, inFlight := none } (drafts ++ [draft])
  | step {s s' : RunState} {drafts : List BlockDraft} {a : Action}
      (hist : History E allowed s drafts) (ha : allowed s drafts a)
      (hother : ∀ choice, a ≠ .commit choice) (hstep : Step E s a s') : History E allowed s' drafts

theorem History.mono {E : Env} {allowed allowed' : RunState → List BlockDraft → Action → Prop}
    {s : RunState} {drafts : List BlockDraft} (hist : History E allowed s drafts)
    (h : ∀ s drafts a, allowed s drafts a → allowed' s drafts a) : History E allowed' s drafts := by
  induction hist with
  | initial h₀ => exact .initial h₀
  | commit _ ha hflight hdue hdraft hcommit ih =>
    exact .commit ih (h _ _ _ ha) hflight hdue hdraft hcommit
  | step _ ha hother hstep ih => exact .step ih (h _ _ _ ha) hother hstep

theorem exists_history_iff {E : Env} {allowed : RunState → Action → Prop} {s : RunState} :
    (∃ drafts, History E (fun s _ a => allowed s a) s drafts) ↔
      ∃ s₀, Initial E s₀ ∧ Run E allowed s₀ s := by
  constructor
  · rintro ⟨drafts, hist⟩
    induction hist with
    | initial h => exact ⟨_, h, .refl⟩
    | commit _ ha hflight hdue hdraft hcommit ih =>
      obtain ⟨s₀, h₀, hrun⟩ := ih
      refine ⟨s₀, h₀, hrun.tail ⟨_, ha, .commit hflight hdue ?_⟩⟩
      rw [produce, hdraft]
      exact hcommit
    | step _ ha _ hstep ih =>
      obtain ⟨s₀, h₀, hrun⟩ := ih
      exact ⟨s₀, h₀, hrun.tail ⟨_, ha, hstep⟩⟩
  · rintro ⟨s₀, h₀, hrun⟩
    induction hrun with
    | refl => exact ⟨[], .initial h₀⟩
    | tail _ hlast ih =>
      obtain ⟨drafts, hist⟩ := ih
      obtain ⟨a, ha, hstep⟩ := hlast
      cases hstep with
      | commit hflight hdue hproduce =>
        rw [produce] at hproduce
        split at hproduce
        · cases hproduce
        · exact ⟨_, .commit hist ha hflight hdue ‹_› hproduce⟩
      | admitTx h => exact ⟨drafts, .step hist ha (by simp) (.admitTx h)⟩
      | push h => exact ⟨drafts, .step hist ha (by simp) (.push h)⟩
      | enqueue deposits => exact ⟨drafts, .step hist ha (by simp) (.enqueue deposits)⟩
      | drain h => exact ⟨drafts, .step hist ha (by simp) (.drain h)⟩
      | idle h hdue => exact ⟨drafts, .step hist ha (by simp) (.idle h hdue)⟩
      | fail h => exact ⟨drafts, .step hist ha (by simp) (.fail h)⟩
      | restart h => exact ⟨drafts, .step hist ha (by simp) (.restart h)⟩

section Boot

variable {E : Env} {store : Store} {nowMs : UInt64} {node : Node}

theorem boot_store (h : boot E store nowMs = .ok node) :
    node.store.blocks = store.blocks ∧ node.store.txLoc = store.txLoc ∧
      node.store.latestSlot = store.latestSlot ∧
      node.mempool = Mempool.new E.options.mempoolCapacity E.options.maxPerPayer := by
  obtain ⟨store', hgenesis, -, -, hstore, hmempool, -⟩ := boot_cases h
  rw [hstore]
  obtain ⟨-, -, rfl⟩ | ⟨-, nodes, root, rfl⟩ := Store.initializeGenesis_cases hgenesis
  · exact ⟨rfl, rfl, rfl, hmempool⟩
  · exact ⟨rfl, rfl, rfl, hmempool⟩

theorem boot_pendingDeposits (h : boot E store nowMs = .ok node) : node.pendingDeposits = [] := by
  obtain ⟨-, -, -, -, -, -, hpending⟩ := boot_cases h
  exact hpending

theorem boot_accounts (h : boot E store nowMs = .ok node) {k : Pubkey}
    (hk : (store.getAccount k).isSome) : (node.store.getAccount k).isSome := by
  obtain ⟨store', hgenesis, -, -, hstore, -, -⟩ := boot_cases h
  rw [hstore]
  obtain ⟨-, -, rfl⟩ | ⟨-, nodes, root, rfl⟩ := Store.initializeGenesis_cases hgenesis
  · exact hk
  · simp only [Store.getAccount, Store.setWithdrawalsRoot] at hk ⊢
    rw [PartialMap.insertAll_apply, Option.isSome_or, hk, Bool.or_true]

theorem boot_getAccount (h : boot E store nowMs = .ok node) {k : Pubkey}
    (hk : k ∉ (E.genesis.allocations.map
      (fun a => (a.pubkey, StoredAccount.newSystem a.lamports)) ++
      (E.genesisAccounts ++
        [(E.poolConfig.poolState, Privacy.PoolService.genesisPoolAccount E.prims)])).map Prod.fst) :
    node.store.getAccount k = store.getAccount k := by
  obtain ⟨store', hgenesis, -, -, hstore, -, -⟩ := boot_cases h
  rw [hstore]
  obtain ⟨-, -, rfl⟩ | ⟨-, nodes, root, rfl⟩ := Store.initializeGenesis_cases hgenesis
  · rfl
  · simp only [Store.getAccount, Store.setWithdrawalsRoot]
    rw [PartialMap.insertAll_apply, (PartialMap.insertAll_eq_none_iff _ k).mpr hk, Option.none_or]

end Boot

theorem boot_empty (E : Env) (nowMs : UInt64) :
    ∃ node, boot E Store.empty nowMs = .ok node ∧
      node.store.accounts = PartialMap.insertAll (fun _ => none)
        (E.genesis.allocations.map (fun a => (a.pubkey, StoredAccount.newSystem a.lamports)) ++
          (E.genesisAccounts ++
            [(E.poolConfig.poolState, Privacy.PoolService.genesisPoolAccount E.prims)])) ∧
      node.store.txLoc = (fun _ => none) ∧ node.store.latestSlot = none ∧
      node.tip = ⟨BlockhashQueue.new.register 0 (E.genesis.genesisHash E.prims), 0,
        E.genesis.genesisHash E.prims, nowMs⟩ ∧
      node.mempool = Mempool.new E.options.mempoolCapacity E.options.maxPerPayer ∧
      node.pendingDeposits = [] ∧ node.withdrawals = (fun _ => none) :=
  ⟨_, rfl, rfl, rfl, rfl, rfl, rfl, rfl, rfl⟩

end Zul.Node
