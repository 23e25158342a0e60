import Zul.Node.Included

/-! # Crashes and restarts

A block reaches the store in two write transactions: the commit, then the withdrawals root. Each
takes effect as a whole or not at all. The process may fail before the first, lose the second,
or end between them, and a new process opens the store it left.
-/

namespace Zul.Node

open Bridge

variable (E : Env)

def draftUpdate (choice : BlockChoice) (store : Store) (draft : BlockDraft) : Smt.StateUpdate :=
  store.prepareStateUpdate E.prims ((choice.order.toList draft.writes).map fun e =>
    (e.1, e.2.map (·.hash E.prims e.1)))

def sealedBlock (choice : BlockChoice) (store : Store) (tip : ChainTip) (draft : BlockDraft) :
    Block :=
  sealBlock E choice tip (draftUpdate E choice store draft).newRoot draft

def nextTip (choice : BlockChoice) (store : Store) (tip : ChainTip) (draft : BlockDraft) :
    ChainTip :=
  let block := sealedBlock E choice store tip draft
  let blockhash := block.header.hash E.prims
  ⟨tip.queue.register block.header.slot blockhash, block.header.slot, blockhash,
    choice.timestampMs⟩

def commitOnly (choice : BlockChoice) (store : Store) (tip : ChainTip) (draft : BlockDraft) :
    Except StoreError Store :=
  store.commitBlock E.prims (sealedBlock E choice store tip draft) (draft.included.map Prod.snd)
    (choice.order.toList draft.writes) (draftUpdate E choice store draft)
    (nextTip E choice store tip draft).queue draft.nullifiers

/-- The withdrawals root a draft's block leaves to be written, if it accepted withdrawals. -/
def rootToWrite (withdrawals : PartialMap Smt.NodeKey H256) (draft : BlockDraft) : Option H256 :=
  if draft.accepted.isEmpty then none
  else some (WithdrawSmt.root E.prims (insertLeaves E.prims withdrawals draft.accepted))

/-- A running node, with the withdrawals root it has yet to write, or the store a process left
together with the withdrawals tree it had. -/
inductive Life
  | up (node : Node) (pending : Option H256)
  | down (store : Store) (withdrawals : PartialMap Smt.NodeKey H256)

namespace Life

def store : Life → Store
  | up node _ => node.store
  | down store _ => store

def withdrawals : Life → PartialMap Smt.NodeKey H256
  | up node _ => node.withdrawals
  | down _ withdrawals => withdrawals

end Life

structure Commits (choice : BlockChoice) (node : Node) (draft : BlockDraft) (store : Store) :
    Prop where
  drafted : draftBlock E choice node.store node.tip (drainForBlock E node).2.1
    (drainForBlock E node).2.2 = .ok draft
  committed : commitOnly E choice node.store node.tip draft = .ok store

def committed (choice : BlockChoice) (node : Node) (draft : BlockDraft) (store : Store) : Node :=
  { (drainForBlock E node).1 with
    store
    tip := nextTip E choice node.store node.tip draft
    withdrawals := insertLeaves E.prims node.withdrawals draft.accepted }

inductive LifeEvent
  /-- A call of `try_produce_block` commits its block. -/
  | commit (draft : BlockDraft)
  /-- The call goes on to write the withdrawals root. -/
  | setRoot
  /-- The write of the withdrawals root fails, which is only logged. -/
  | rootLost
  /-- A call that is not due, or fails at some step before the commit. -/
  | fail
  /-- Clients and the watcher fill the queues. -/
  | enqueue
  /-- The process ends, possibly between the two write transactions of a block. -/
  | stop
  /-- A new process opens the store. -/
  | boot
  /-- A new process ends after applying genesis. -/
  | bootFail

def LifeEvent.drafts : LifeEvent → List BlockDraft
  | commit draft => [draft]
  | _ => []

inductive LifeStep : Life → LifeEvent → Life → Prop
  | commit {choice : BlockChoice} {node : Node} {draft : BlockDraft} {store : Store}
      (h : Commits E choice node draft store) :
      LifeStep (.up node none) (.commit draft)
        (.up (committed E choice node draft store) (rootToWrite E node.withdrawals draft))
  | setRoot (node : Node) (root : H256) :
      LifeStep (.up node (some root)) .setRoot
        (.up { node with store := node.store.setWithdrawalsRoot root } none)
  | rootLost (node : Node) (root : H256) :
      LifeStep (.up node (some root)) .rootLost (.up node none)
  | fail (node : Node) : LifeStep (.up node none) .fail (.up (drainForBlock E node).1 none)
  | enqueue (node : Node) (pending : Option H256) (mempool : Mempool)
      (pendingDeposits : List DepositEvent) :
      LifeStep (.up node pending) .enqueue (.up { node with mempool, pendingDeposits } pending)
  | stop (node : Node) (pending : Option H256) :
      LifeStep (.up node pending) .stop (.down node.store node.withdrawals)
  | boot {store : Store} {withdrawals : PartialMap Smt.NodeKey H256} {nowMs : UInt64} {node : Node}
      (h : boot E store nowMs = .ok node) :
      LifeStep (.down store withdrawals) .boot (.up node none)
  | bootFail {store store' : Store} {withdrawals : PartialMap Smt.NodeKey H256}
      (h : store.initializeGenesis E.prims E.genesis (E.genesisAccounts ++
        [(E.poolConfig.poolState, Privacy.PoolService.genesisPoolAccount E.prims)]) = .ok store') :
      LifeStep (.down store withdrawals) .bootFail (.down store' withdrawals)

/-- What a database that started empty can come to, with the blocks committed to it. -/
inductive Lived : Life → List BlockDraft → Prop
  | start : Lived (.down Store.empty fun _ => none) []
  | step {life life' : Life} {drafts : List BlockDraft} {event : LifeEvent}
      (lived : Lived life drafts) (h : LifeStep E life event life') :
      Lived life' (drafts ++ event.drafts)

variable {E}

theorem commitOnly_isOk (choice : BlockChoice) (store : Store) (tip : ChainTip) (draft : BlockDraft)
    (hslot : ∀ latest, store.latestSlot = some latest → latest < tip.slot + 1)
    (hsig : ∀ tx ∈ draft.included.map Prod.fst, tx.signature.isSome) :
    ∃ store', commitOnly E choice store tip draft = .ok store' := by
  have hlen : (draft.included.map Prod.snd).length = (draft.included.map Prod.fst).length := by
    simp
  cases h : commitOnly E choice store tip draft with
  | error e => exact absurd h (Store.commitBlock_ne_error hlen rfl hslot hsig)
  | ok store' => exact ⟨store', rfl⟩

theorem commitDraft_cases {choice : BlockChoice} {node node' : Node} {draft : BlockDraft}
    (h : commitDraft E choice (drainForBlock E node).1 draft = .ok node') :
    ∃ store, commitOnly E choice node.store node.tip draft = .ok store ∧
      node' = match rootToWrite E node.withdrawals draft with
        | none => committed E choice node draft store
        | some root =>
          { committed E choice node draft store with store := store.setWithdrawalsRoot root } := by
  unfold commitDraft at h
  dsimp only at h
  split at h
  · cases h
  · rename_i store hcommit
    refine ⟨store, hcommit, ?_⟩
    split at h
    · rename_i hempty
      cases h
      rw [rootToWrite, if_pos hempty, committed, List.isEmpty_iff.mp hempty]
      rfl
    · rename_i hempty
      cases h
      rw [rootToWrite, if_neg hempty]
      rfl

theorem tryProduceBlock_steps (choice : BlockChoice) (node : Node) :
    (∃ event, LifeStep E (.up node none) event (.up (tryProduceBlock E choice node).1 none)) ∨
      ∃ draft life, LifeStep E (.up node none) (.commit draft) life ∧
        LifeStep E life .setRoot (.up (tryProduceBlock E choice node).1 none) := by
  have hfail : LifeStep E (.up node none) .fail (.up (drainForBlock E node).1 none) := .fail node
  unfold tryProduceBlock
  dsimp only
  split
  · split
    · rename_i node' hproduce
      rw [produce] at hproduce
      split at hproduce
      · cases hproduce
      · rename_i draft hdraft
        obtain ⟨store, hcommit, hnode'⟩ := commitDraft_cases hproduce
        have hfirst := LifeStep.commit (E := E) ⟨hdraft, hcommit⟩
        cases hroot : rootToWrite E node.withdrawals draft with
        | none =>
          rw [hroot] at hnode' hfirst
          rw [hnode']
          exact .inl ⟨_, hfirst⟩
        | some root =>
          rw [hroot] at hnode' hfirst
          rw [hnode']
          exact .inr ⟨draft, _, hfirst, .setRoot _ root⟩
    · exact .inl ⟨_, hfail⟩
  · exact .inl ⟨_, hfail⟩

/-- What one step does to the store, the withdrawals tree and the tip: at most a new withdrawals
root, a commit, or a new process. -/
inductive Effect (E : Env) (life : Life) (event : LifeEvent) (life' : Life) : Prop
  | silent {node : Node} {pending root : Option H256} (up : life = .up node pending)
      (drafts : event.drafts = [])
      (store_eq : life'.store = { node.store with withdrawalsRootMeta := root })
      (tree : life'.withdrawals = node.withdrawals)
      (tip : ∀ node' pending', life' = .up node' pending' → node'.tip = node.tip)
  | commit {choice : BlockChoice} {node : Node} {draft : BlockDraft} {store : Store}
      (up : life = .up node none) (event_eq : event = .commit draft)
      (h : Commits E choice node draft store)
      (next : life' =
        .up (committed E choice node draft store) (rootToWrite E node.withdrawals draft))
  | opened {store : Store} {root : Option H256} (drafts : event.drafts = [])
      (h : life.store.initializeGenesis E.prims E.genesis
        (E.genesisAccounts ++ [(E.poolConfig.poolState,
          Privacy.PoolService.genesisPoolAccount E.prims)]) = .ok store)
      (store_eq : life'.store = { store with withdrawalsRootMeta := root })
      (tree : life'.withdrawals = life.withdrawals ∨
        life'.withdrawals = rebuildWithdrawals E.prims store)
      (tip : ∀ node' pending', life' = .up node' pending' →
        ∃ nowMs, restoreTip E store nowMs = .ok node'.tip)

theorem LifeStep.effect {life life' : Life} {event : LifeEvent} (h : LifeStep E life event life') :
    Effect E life event life' := by
  cases h with
  | commit h => exact .commit rfl rfl h rfl
  | setRoot node root => exact .silent rfl rfl rfl rfl fun _ _ h => by cases h; rfl
  | rootLost node root => exact .silent rfl rfl rfl rfl fun _ _ h => by cases h; rfl
  | fail node => exact .silent rfl rfl rfl rfl fun _ _ h => by cases h; rfl
  | enqueue node => exact .silent rfl rfl rfl rfl fun _ _ h => by cases h; rfl
  | stop node => exact .silent rfl rfl rfl rfl fun _ _ h => by cases h
  | @boot _ _ nowMs _ hboot =>
    obtain ⟨store', hgenesis, htip, htree, hstore, -, -⟩ := boot_cases hboot
    refine .opened rfl hgenesis hstore (.inr htree) ?_
    rintro _ _ ⟨⟩
    exact ⟨nowMs, htip⟩
  | bootFail hgenesis => exact .opened rfl hgenesis rfl (.inl rfl) fun _ _ h => by cases h

end Zul.Node
