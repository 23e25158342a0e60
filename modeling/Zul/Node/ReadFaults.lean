import Zul.Node.BlockReads
import Zul.Node.Replay
import Zul.Node.WithdrawView
import Zul.Store.StateRoot

/-! # Failing reads

A call of block production in which individual reads fail. It returns an error and leaves the
store alone, or commits the block it would have committed, exactly if none of the reads that
fail is of a harmful class: of an existing row that is then taken to be missing, or of a burn.
-/

namespace Zul.Node

open Bridge Executor Privacy

/-- The classes of reads: which table is read, how a failure is handled, and whether the row is
there. -/
inductive ReadClass
  | transaction
  | snapshot
  | latestSlot
  | account (handling : Handling) (present : Bool)
  | nullifier (spent : Bool)
  | node (present : Bool)

def Query.readClass (store : Store) : Query → ReadClass
  | .transaction _ => .transaction
  | .snapshot => .snapshot
  | .latestSlot => .latestSlot
  | .account k handling => .account handling (store.getAccount k).isSome
  | .nullifier n => .nullifier (store.isNullifierSpent n)
  | .node key => .node (store.smtNodes key).isSome

def ReadClass.Harmful : ReadClass → Prop
  | .account .absent present => present = true
  | .account .refused _ => True
  | .nullifier spent => spent = true
  | .node present => present = true
  | _ => False

/-- A call of `try_produce_block` in which reads of the questions in `may` can fail, with the
node it leaves and what it returns. -/
inductive TryProduces (E : Env) (machine : Machine) (may : Query → Prop) (choice : BlockChoice)
    (node : Node) : Node → Except Failure (Option UInt64) → Prop
  | idle (hdue : isDue E choice.timestampMs (drainForBlock E node).1 (drainForBlock E node).2.1
      (drainForBlock E node).2.2 = false) :
      TryProduces E machine may choice node (drainForBlock E node).1 (.ok none)
  | committed {node' : Node}
      (hdue : isDue E choice.timestampMs (drainForBlock E node).1 (drainForBlock E node).2.1
        (drainForBlock E node).2.2 = true)
      (h : (Reading.produce E machine choice (drainForBlock E node).1 (drainForBlock E node).2.1
        (drainForBlock E node).2.2).Outcome (answer node.store) missed may (.ok node')) :
      TryProduces E machine may choice node node' (.ok (some node'.tip.slot))
  | failed {e : Failure}
      (hdue : isDue E choice.timestampMs (drainForBlock E node).1 (drainForBlock E node).2.1
        (drainForBlock E node).2.2 = true)
      (h : (Reading.produce E machine choice (drainForBlock E node).1 (drainForBlock E node).2.1
        (drainForBlock E node).2.2).Outcome (answer node.store) missed may (.error e)) :
      TryProduces E machine may choice node (drainForBlock E node).1 (.error e)

/-- The call failed without committing, or did what it does when every read is answered. -/
def KeepsBlock (E : Env) (choice : BlockChoice) (node node' : Node)
    (result : Except Failure (Option UInt64)) : Prop :=
  (∃ e, result = .error e) ∧ node'.store = node.store ∨
    result = (tryProduceBlock E choice node).2.mapError .node ∧
      node'.store.blocks = (tryProduceBlock E choice node).1.store.blocks ∧
      node'.store.accounts = (tryProduceBlock E choice node).1.store.accounts ∧
      node'.store.nullifiers = (tryProduceBlock E choice node).1.store.nullifiers ∧
      node'.store.stateRoot = (tryProduceBlock E choice node).1.store.stateRoot

section Production

variable {E : Env} {machine : Machine} {may : Query → Prop} {choice : BlockChoice}

theorem tryProduceBlock_of_returns (hmachine : machine.Runs E.svm) {node node' : Node}
    (hdue : isDue E choice.timestampMs (drainForBlock E node).1 (drainForBlock E node).2.1
      (drainForBlock E node).2.2 = true)
    (h : Reads.Returns (answer node.store) (Reading.produce E machine choice
      (drainForBlock E node).1 (drainForBlock E node).2.1 (drainForBlock E node).2.2)
      (.ok node')) :
    tryProduceBlock E choice node = (node', .ok (some node'.tip.slot)) := by
  have hreturns := (Reading.returns_produce hmachine choice (drainForBlock E node).1
    (drainForBlock E node).2.1 (drainForBlock E node).2.2).symm.trans h
  have hproduce : produce E choice (drainForBlock E node).1 (drainForBlock E node).2.1
      (drainForBlock E node).2.2 = .ok node' := by
    cases hp : produce E choice (drainForBlock E node).1 (drainForBlock E node).2.1
        (drainForBlock E node).2.2 with
    | error e =>
      rw [hp] at hreturns
      cases hreturns
    | ok node₁ =>
      rw [hp] at hreturns
      cases hreturns
      rfl
  unfold tryProduceBlock
  simp only [hdue, if_true, hproduce]

theorem eq_answer_of_missed {store : Store} {q : Query} {a : q.Answer}
    (h : ¬ (q.readClass store).Harmful) (ha : missed q = .ok a) : a = answer store q := by
  cases q with
  | transaction sig => cases ha
  | snapshot => cases ha
  | latestSlot => cases ha
  | nullifier n =>
    cases ha
    exact (Bool.eq_false_iff.mpr h).symm
  | node key =>
    cases ha
    have hnone : store.smtNodes key = none := by
      simpa [Query.readClass, ReadClass.Harmful] using h
    exact hnone.symm
  | account k handling =>
    cases handling with
    | propagated => cases ha
    | absent =>
      cases ha
      have hnone : store.getAccount k = none := by
        simpa [Query.readClass, ReadClass.Harmful] using h
      exact hnone.symm
    | refused => exact absurd trivial h

theorem keepsBlock_of_harmless (hmachine : machine.Runs E.svm) {node node' : Node}
    {result : Except Failure (Option UInt64)}
    (hmay : ∀ q, may q → ¬ (q.readClass node.store).Harmful)
    (h : TryProduces E machine may choice node node' result) :
    KeepsBlock E choice node node' result := by
  cases h with
  | idle hdue =>
    have hidle : tryProduceBlock E choice node = ((drainForBlock E node).1, .ok none) := by
      unfold tryProduceBlock
      simp only [hdue, Bool.false_eq_true, if_false]
    exact .inr ⟨by rw [hidle]; rfl, by rw [hidle], by rw [hidle], by rw [hidle], by rw [hidle]⟩
  | failed hdue h => exact .inl ⟨⟨_, rfl⟩, rfl⟩
  | committed hdue h =>
    rcases h.error_or_run fun q a hq ha => eq_answer_of_missed (hmay q hq) ha with ⟨e, he⟩ | hrun
    · cases he
    · have htry := tryProduceBlock_of_returns hmachine hdue hrun.symm
      exact .inr ⟨by rw [htry]; rfl, by rw [htry], by rw [htry], by rw [htry], by rw [htry]⟩

/-- A draft of signed transactions commits when the tip is not behind the store; the root is
computed from the nodes as they are read. -/
theorem returns_commit (db : (q : Query) → q.Answer) (choice : BlockChoice) (node : Node)
    (draft : BlockDraft)
    (hslot : ∀ latest, node.store.latestSlot = some latest → latest < node.tip.slot + 1)
    (hsigned : ∀ tx ∈ draft.included.map Prod.fst, tx.signature.isSome) :
    ∃ node', Reads.Returns db (Reading.commitDraft E choice node draft) (.ok node') ∧
      node'.store.accounts = draft.writes.applyTo node.store.accounts ∧
      (∀ n, node'.store.isNullifierSpent n = true ↔
        node.store.isNullifierSpent n = true ∨ n ∈ draft.nullifiers) ∧
      node'.store.stateRoot = some (Smt.applyUpdates E.prims (Reading.nodesOf db)
        ((choice.order.toList draft.writes).map fun e =>
          (e.1, e.2.map (·.hash E.prims e.1)))).newRoot := by
  have hlen : (draft.included.map Prod.snd).length = (draft.included.map Prod.fst).length := by
    simp
  set update := Smt.applyUpdates E.prims (Reading.nodesOf db)
    ((choice.order.toList draft.writes).map fun e => (e.1, e.2.map (·.hash E.prims e.1)))
    with hupdate
  set block := sealBlock E choice node.tip update.newRoot draft with hblock
  cases hcommit : node.store.commitBlock E.prims block (draft.included.map Prod.snd)
      (choice.order.toList draft.writes) update
      (node.tip.queue.register block.header.slot (block.header.hash E.prims)) draft.nullifiers with
  | error e => exact absurd hcommit (Store.commitBlock_ne_error hlen rfl hslot hsigned)
  | ok store =>
    have hstore : store.accounts = draft.writes.applyTo node.store.accounts ∧
        (∀ n, store.isNullifierSpent n = true ↔
          node.store.isNullifierSpent n = true ∨ n ∈ draft.nullifiers) ∧
        store.stateRoot = some update.newRoot := by
      refine ⟨?_, Store.isNullifierSpent_commitBlock hcommit, ?_⟩
      · rw [Store.commitBlock_frame hcommit]
        exact Store.foldl_writeAccount (choice.order.enumerates draft.writes) _
      · rw [Store.commitBlock_frame hcommit]
    have hrun : Reads.Returns db (Reading.commitDraft E choice node draft)
        (.ok (if draft.accepted.isEmpty then
          { node with
            store
            tip := ⟨node.tip.queue.register block.header.slot (block.header.hash E.prims),
              block.header.slot, block.header.hash E.prims, choice.timestampMs⟩ }
        else
          { node with
            store := store.setWithdrawalsRoot (WithdrawSmt.root E.prims
              (insertLeaves E.prims node.withdrawals draft.accepted))
            tip := ⟨node.tip.queue.register block.header.slot (block.header.hash E.prims),
              block.header.slot, block.header.hash E.prims, choice.timestampMs⟩
            withdrawals := insertLeaves E.prims node.withdrawals draft.accepted })) := by
      refine (Reading.returns_prepareStateUpdate db _).bind_ok ?_
      refine (Reads.Returns.ask Query.latestSlot).bind_ok ?_
      dsimp only
      rw [← hupdate, ← hblock, hcommit]
      exact .ite (fun _ => .pure _) fun _ => .pure _
    refine ⟨_, hrun, ?_⟩
    split
    · exact hstore
    · exact hstore

theorem commits_otherwise {db : (q : Query) → q.Answer} {node clean faulty : Node}
    (hmachine : machine.Runs E.svm)
    (hdue : isDue E choice.timestampMs (drainForBlock E node).1 (drainForBlock E node).2.1
      (drainForBlock E node).2.2 = true)
    (hdb : ∀ q, db q = answer node.store q ∨ may q ∧ missed q = .ok (db q))
    (hclean : Reads.Returns (answer node.store) (Reading.produce E machine choice
      (drainForBlock E node).1 (drainForBlock E node).2.1 (drainForBlock E node).2.2) (.ok clean))
    (hfaulty : Reads.Returns db (Reading.produce E machine choice
      (drainForBlock E node).1 (drainForBlock E node).2.1 (drainForBlock E node).2.2) (.ok faulty))
    (hdiff : faulty.store.accounts ≠ clean.store.accounts ∨
      faulty.store.nullifiers ≠ clean.store.nullifiers ∨
      faulty.store.stateRoot ≠ clean.store.stateRoot) :
    TryProduces E machine may choice node faulty (.ok (some faulty.tip.slot)) ∧
      ¬ KeepsBlock E choice node faulty (.ok (some faulty.tip.slot)) := by
  have houtcome := Reads.Outcome.of_run hdb (Reading.produce E machine choice
    (drainForBlock E node).1 (drainForBlock E node).2.1 (drainForBlock E node).2.2)
  rw [hfaulty] at houtcome
  refine ⟨.committed hdue houtcome, ?_⟩
  rintro (⟨⟨e, he⟩, -⟩ | ⟨-, -, haccounts, hnullifiers, hroot⟩)
  · cases he
  · rw [tryProduceBlock_of_returns hmachine hdue hclean] at haccounts hnullifiers hroot
    rcases hdiff with h | h | h
    · exact h haccounts
    · exact h hnullifiers
    · exact h hroot

/-- The answers of a store when the account reads of one class fail. -/
def unread (store : Store) (handling : Handling) (present : Bool) : (q : Query) → q.Answer
  | .transaction sig => store.getTransaction sig
  | .snapshot => ()
  | .latestSlot => store.latestSlot
  | .account k .propagated => store.getAccount k
  | .account k .absent =>
    if handling = .absent ∧ (store.getAccount k).isSome = present then none
    else store.getAccount k
  | .account k .refused =>
    if handling = .refused ∧ (store.getAccount k).isSome = present then none
    else some (store.getAccount k)
  | .nullifier n => store.isNullifierSpent n
  | .node key => store.smtNodes key

theorem unread_cases {failing : ReadClass → Prop} {handling : Handling} {present : Bool}
    (hfailing : failing (.account handling present)) (store : Store) (q : Query) :
    unread store handling present q = answer store q ∨
      failing (q.readClass store) ∧ missed q = .ok (unread store handling present q) := by
  cases q with
  | transaction sig => exact .inl rfl
  | snapshot => exact .inl rfl
  | latestSlot => exact .inl rfl
  | nullifier n => exact .inl rfl
  | node key => exact .inl rfl
  | account k h =>
    cases h with
    | propagated => exact .inl rfl
    | absent =>
      by_cases hlost : handling = .absent ∧ (store.getAccount k).isSome = present
      · refine .inr ⟨?_, congrArg Except.ok (if_pos hlost).symm⟩
        obtain ⟨rfl, rfl⟩ := hlost
        exact hfailing
      · exact .inl (if_neg hlost)
    | refused =>
      by_cases hlost : handling = .refused ∧ (store.getAccount k).isSome = present
      · refine .inr ⟨?_, congrArg Except.ok (if_pos hlost).symm⟩
        obtain ⟨rfl, rfl⟩ := hlost
        exact hfailing
      · exact .inl (if_neg hlost)

def clockWrites (E : Env) (timestampMs : UInt64) (tip : ChainTip) : AccountWrites :=
  mergeWrites (blockOverlay E.svm ⟨tip.slot + 1, timestampMs, tip.blockhash, [], tip.queue⟩)
    fun _ => none

theorem returns_executeNil (db : (q : Query) → q.Answer) (hmachine : machine.Runs E.svm)
    (choice : BlockChoice) (tip : ChainTip) :
    Reads.Returns db (Reading.executeBlock E.svm machine E.feeCollector (blockInput choice tip []))
      (.ok ⟨[], [], clockWrites E choice.timestampMs tip, 0⟩) := by
  have hcallback : ∀ k, Reads.Returns db
      (Reading.callback (blockOverlay E.svm (blockInput choice tip [])) k)
      (.ok ((blockOverlay E.svm (blockInput choice tip []) k).or (db (.account k .absent)))) := by
    intro k
    unfold Reading.callback
    cases blockOverlay E.svm (blockInput choice tip []) k with
    | some account => exact .pure _
    | none => exact .ask (Query.account k .absent)
  refine Reads.Returns.bind_ok (a := ⟨[], [], []⟩) (.pure _) ?_
  refine (Reads.Returns.through hcallback (hmachine _ _ _ _)).bind_ok ?_
  rw [List.zip_nil_right]
  exact Reads.Returns.bind_ok (.pure _) (Reads.Returns.bind_ok (.pure _) (.pure _))

theorem returns_emptyBlock (db : (q : Query) → q.Answer) (hmachine : machine.Runs E.svm)
    (choice : BlockChoice) (tip : ChainTip) :
    Reads.Returns db (Reading.draftBlock E machine choice tip [] [])
      (.ok ⟨clockWrites E choice.timestampMs tip, [], [], [], []⟩) := by
  refine (returns_executeNil db hmachine choice tip).bind_ok ?_
  exact Reads.Returns.bind_ok (.pure _) (Reads.Returns.bind_ok (.pure _)
    (Reads.Returns.bind_ok (.pure _) (.pure _)))

theorem toList_clockWrites (order : MapOrder) (timestampMs : UInt64) (tip : ChainTip) :
    ∃ account, order.toList (clockWrites E timestampMs tip) = [(CLOCK_ID, account)] := by
  refine ⟨_, (order.enumerates _).eq_singleton (PartialMap.Enumerates.map
    (PartialMap.Enumerates.singleton CLOCK_ID _) fun _ => asWrite)⟩

theorem newRoot_singleUpdate (P : Prims) (source : PartialMap Smt.NodeKey H256)
    (u : Smt.LeafUpdate) :
    ∃ current, (Smt.applyUpdates P source [u]).newRoot =
      (Smt.tree P Smt.SMT_DEPTH).join (Smt.keyPath P u.1) 0
        ((Smt.tree P Smt.SMT_DEPTH).read source 1 (Smt.flipBit (Smt.keyPath P u.1) 0))
        current := by
  have hS := @Smt.tree_lawful P Smt.SMT_DEPTH le_rfl
  have hpos : 0 < (Smt.tree P Smt.SMT_DEPTH).depth := Nat.zero_lt_succ _
  simp only [Smt.applyUpdates, List.foldl_cons, List.foldl_nil]
  rw [hS.read_root _ _ (Smt.keyPath P u.1)]
  exact ⟨_, (hS.insert_spec source (fun _ => none) (Smt.keyPath P u.1) _).2.2 0 hpos⟩

theorem returns_withdrawBlock (db : (q : Query) → q.Answer) (hmachine : machine.Runs E.svm)
    (choice : BlockChoice) (tip : ChainTip) {tx : VersionedTransaction} {w : WithdrawTx}
    {out : Withdrawn} (hw : parseWithdraw tx = some w)
    (h : Reads.Returns db (Reading.applyWithdraw E.prims E.options.gasMint E.feeCollector
      ⟨clockWrites E choice.timestampMs tip, [], []⟩ w) (.ok out)) :
    Reads.Returns db (Reading.draftBlock E machine choice tip [tx] [])
      (.ok ⟨out.writes, out.included, [], [], out.accepted⟩) := by
  have hsplit : partitionWithdraws [tx] = ([w], []) := by simp [partitionWithdraws, hw]
  unfold Reading.draftBlock
  rw [hsplit]
  refine (returns_executeNil db hmachine choice tip).bind_ok ?_
  refine Reads.Returns.bind_ok (.pure _) (Reads.Returns.bind_ok (.pure _) ?_)
  refine Reads.Returns.bind_ok (a := out) ?_ (.pure _)
  exact h.bind_ok (.pure _)

end Production

/-! ## Blocks that a failed read changes -/

namespace Sample

/-- A machine that loads no account and rejects every transaction. -/
def machine : Machine := fun _ _ batch => .done (batch.map fun _ => .error (.runtime 2))

theorem machine_runs : machine.Runs svm := fun _ _ _ _ => rfl

/-- A node at slot 0 over a store, with transactions in its mempool. -/
def nodeWith (store : Store) (transactions : List VersionedTransaction) : Node where
  store := store
  tip := ⟨BlockhashQueue.new.register 0 (env.genesis.genesisHash prims), 0,
    env.genesis.genesisHash prims, 0⟩
  mempool := { Mempool.new options.mempoolCapacity options.maxPerPayer with queue := transactions }
  pendingDeposits := []
  withdrawals := fun _ => none

def tokenWithdrawTx : VersionedTransaction where
  signatures := [Bytes.replicate 64 7]
  message := {
    header := ⟨1, 0, 1⟩
    staticAccountKeys := [payer, BRIDGE_WITHDRAW_PROGRAM_ID]
    recentBlockhash := env.genesis.genesisHash prims
    instructions := [⟨1, [0], (Bytes.replicate 32 9).toList ++ mint.toList ++
      LittleEndian.u64 100 ++ LittleEndian.u64 0⟩] }

def tokenWithdrawal : WithdrawTx :=
  ⟨tokenWithdrawTx, payer, Bytes.replicate 32 9, mint, 100, 0⟩

theorem parseWithdraw_tokenWithdrawTx : parseWithdraw tokenWithdrawTx = some tokenWithdrawal := by
  have hdrop : ∀ n, 32 ≤ n → mint.toList.drop n = [] ∧ (Bytes.replicate 32 9).toList.drop n = [] :=
    fun n hn => ⟨List.drop_of_length_le (by simpa using hn),
      List.drop_of_length_le (by simpa using hn)⟩
  have htake : (LittleEndian.u64 0).take 8 = LittleEndian.u64 0 :=
    List.take_of_length_le (by simp)
  simp [parseWithdraw, tokenWithdrawTx, tokenWithdrawal, List.drop_append, hdrop, htake]

/-- What the withdrawal leaves of the payer's account, as the reads are answered. -/
def payerAfter (db : (q : Query) → q.Answer) :
    Option (Option (Option StoredAccount) × List VersionedTransaction) :=
  match (Reading.applyWithdraw prims options.gasMint collector
      ⟨clockWrites env 0 (nodeWith tokenStore [tokenWithdrawTx]).tip, [], []⟩
      tokenWithdrawal).run db with
  | .ok out => some (out.writes payer, out.included.map Prod.fst)
  | .error _ => none

theorem payerAfter_eq :
    payerAfter (answer tokenStore) =
      some (some (some (.newSystem 999995000)), [tokenWithdrawTx]) ∧
    payerAfter (unread tokenStore .absent true) = some (none, [tokenWithdrawTx]) ∧
    payerAfter (unread tokenStore .refused true) = some (none, [tokenWithdrawTx]) ∧
    payerAfter (unread tokenStore .refused false) = some (none, [tokenWithdrawTx]) ∧
    tokenStore.accounts payer = some (.newSystem 1000000000) := by
  refine ⟨?_, ?_, ?_, ?_, ?_⟩ <;> decide +kernel

theorem produce_tokenWithdrawal (order : MapOrder) {db : (q : Query) → q.Answer}
    {write : Option (Option StoredAccount)} (h : payerAfter db = some (write, [tokenWithdrawTx])) :
    ∃ node', Reads.Returns db (Reading.produce env machine ⟨0, order⟩
        (drainForBlock env (nodeWith tokenStore [tokenWithdrawTx])).1
        (drainForBlock env (nodeWith tokenStore [tokenWithdrawTx])).2.1
        (drainForBlock env (nodeWith tokenStore [tokenWithdrawTx])).2.2) (.ok node') ∧
      node'.store.accounts payer = write.getD (tokenStore.accounts payer) := by
  obtain ⟨out, hrun, hwrite, hincluded⟩ : ∃ out, Reads.Returns db (Reading.applyWithdraw prims
      options.gasMint collector ⟨clockWrites env 0 (nodeWith tokenStore [tokenWithdrawTx]).tip, [],
        []⟩ tokenWithdrawal) (.ok out) ∧ out.writes payer = write ∧
      out.included.map Prod.fst = [tokenWithdrawTx] := by
    unfold payerAfter at h
    split at h
    · rename_i out hrun
      obtain ⟨hwrite, hincluded⟩ := Prod.mk.inj (Option.some.inj h)
      exact ⟨out, hrun, hwrite, hincluded⟩
    · cases h
  have hdraft := returns_withdrawBlock db machine_runs (E := env) ⟨0, order⟩
    (nodeWith tokenStore [tokenWithdrawTx]).tip parseWithdraw_tokenWithdrawTx hrun
  obtain ⟨node', hcommit, haccounts, -, -⟩ := returns_commit db (E := env) ⟨0, order⟩
    (drainForBlock env (nodeWith tokenStore [tokenWithdrawTx])).1
    ⟨out.writes, out.included, [], [], out.accepted⟩ (fun _ h => by cases h) (by
      intro tx htx
      rw [hincluded, List.mem_singleton] at htx
      rw [htx]
      rfl)
  refine ⟨node', hdraft.bind_ok hcommit, ?_⟩
  rw [haccounts, ← hwrite]
  rfl

theorem tokenWithdrawal_lost {failing : ReadClass → Prop} {handling : Handling} {present : Bool}
    (hfailing : failing (.account handling present))
    (hlost : payerAfter (unread tokenStore handling present) = some (none, [tokenWithdrawTx])) :
    ∃ choice node' result, TryProduces env machine
        (fun q => failing (q.readClass tokenStore)) choice
        (nodeWith tokenStore [tokenWithdrawTx]) node' result ∧
      ¬ KeepsBlock env choice (nodeWith tokenStore [tokenWithdrawTx]) node' result := by
  obtain ⟨order⟩ := MapOrder.nonempty
  obtain ⟨clean, hclean, hpaid⟩ := produce_tokenWithdrawal order payerAfter_eq.1
  obtain ⟨faulty, hfaulty, hkept⟩ := produce_tokenWithdrawal order hlost
  refine ⟨⟨0, order⟩, faulty, _, commits_otherwise machine_runs rfl
    (unread_cases hfailing tokenStore)
    hclean hfaulty (.inl fun haccounts => ?_)⟩
  rw [haccounts, hpaid, payerAfter_eq.2.2.2.2] at hkept
  exact absurd hkept (by decide)

/-! ### A spent nullifier -/

def spentNullifier : H256 := frToBytes ((5 : ℕ) : Fr)

def freshNullifier : H256 := frToBytes ((6 : ℕ) : Fr)

def transferInstruction : PoolInstruction :=
  .transfer [] (frToBytes (zeroHashes prims TREE_DEPTH)) (spentNullifier, freshNullifier)
    (frToBytes ((7 : ℕ) : Fr), frToBytes ((8 : ℕ) : Fr)) 0 ([], [])

def transferTx : PoolTx where
  transaction := {
    signatures := [Bytes.replicate 64 12]
    message := {
      header := ⟨1, 0, 1⟩
      staticAccountKeys := [payer, POOL_PROGRAM_ID]
      recentBlockhash := env.genesis.genesisHash prims
      instructions := [⟨1, [0], transferInstruction.toBytes⟩] } }
  feePayer := payer
  instruction := transferInstruction

theorem tryParsePoolTx_transferTx : tryParsePoolTx transferTx.transaction = some transferTx := by
  have hparse := PoolInstruction.tryFromSlice_toBytes transferInstruction (by
    simp [PoolInstruction.vecs, transferInstruction])
  simp [tryParsePoolTx, transferTx, hparse]

def spentStore : Store :=
  { poolStore with nullifiers := PartialMap.insert (fun _ => none) spentNullifier 0 }

def newlySpent (store : Store) : Option (List H256) :=
  ([(payer, transferInstruction)].foldlM (PoolService.applyNext prims verifier env.poolConfig store)
    (⟨⟨PoolState.new prims, BlockNullifiers.empty⟩,
      seedOf (clockWrites env 0 (nodeWith store []).tip), fun _ => none, []⟩, [])).map
        fun acc => acc.1.ctx.nullifiers.newly

theorem newlySpent_eq :
    newlySpent poolStore = some [spentNullifier, freshNullifier] ∧
      newlySpent spentStore = some [] := by
  constructor <;> decide +kernel

theorem loadState_spentStore :
    PoolService.loadState prims env.poolConfig spentStore = .ok (PoolState.new prims) := by
  have haccount : spentStore.getAccount env.poolConfig.poolState =
    poolStore.getAccount env.poolConfig.poolState := rfl
  rw [← loadState_poolStore, PoolService.loadState, PoolService.loadState, haccount]

theorem poolStage_transfer (order : MapOrder) {store : Store} {newly : List H256}
    (hload : PoolService.loadState prims env.poolConfig store = .ok (PoolState.new prims))
    (h : newlySpent store = some newly) :
    ∃ stage, poolStage env order store [transferTx]
        (clockWrites env 0 (nodeWith store []).tip) [] = .ok stage ∧
      stage.nullifiers = newly := by
  obtain ⟨⟨r, statuses⟩, hran, hnewly⟩ := Option.map_eq_some_iff.mp h
  have hprocess := PoolService.processBlockSeeded_of_ran prims verifier env.poolConfig order
    (List.cons_ne_nil _ _) hload hran
  have hone : [transferTx].map (fun pt => (pt.feePayer, pt.instruction)) =
    [(payer, transferInstruction)] := rfl
  unfold poolStage
  rw [if_neg (by simp), hone]
  dsimp only [env] at hprocess ⊢
  rw [hprocess]
  exact ⟨_, rfl, hnewly⟩

/-- The node whose store holds the spent nullifier, with the transfer in its mempool. -/
def spentNode : Node := nodeWith spentStore [transferTx.transaction]

theorem produce_transfer (order : MapOrder) {store : Store} {newly : List H256}
    (hload : PoolService.loadState prims env.poolConfig store = .ok (PoolState.new prims))
    (h : newlySpent store = some newly) :
    ∃ node', Reads.Returns (answer store) (Reading.produce env machine ⟨0, order⟩
        (drainForBlock env spentNode).1 (drainForBlock env spentNode).2.1
        (drainForBlock env spentNode).2.2) (.ok node') ∧
      ∀ n, node'.store.isNullifierSpent n = true ↔
        spentStore.isNullifierSpent n = true ∨ n ∈ newly := by
  obtain ⟨stage, hstage, hnewly⟩ := poolStage_transfer order hload h
  have hsplit : partitionWithdraws [transferTx.transaction] = ([], [transferTx.transaction]) := by
    have hparse : parseWithdraw transferTx.transaction = none := by decide
    simp [partitionWithdraws, hparse]
  have hsplit' : partition [transferTx.transaction] = ([transferTx], []) := by
    simp [partition, tryParsePoolTx_transferTx]
  have hpool := Reading.returns_poolStage store env order [transferTx]
    (clockWrites env 0 (nodeWith store []).tip) []
  rw [hstage] at hpool
  have hdraft : Reads.Returns (answer store) (Reading.draftBlock env machine ⟨0, order⟩
      spentNode.tip [transferTx.transaction] [])
      (.ok ⟨stage.writes, stage.included, stage.nullifiers, [], []⟩) := by
    unfold Reading.draftBlock
    rw [hsplit]
    dsimp only
    rw [hsplit']
    refine (returns_executeNil (answer store) machine_runs ⟨0, order⟩ spentNode.tip).bind_ok ?_
    exact hpool.bind_ok (Reads.Returns.bind_ok (.pure _)
      (Reads.Returns.bind_ok (.pure _) (.pure _)))
  obtain ⟨node', hcommit, -, hspent, -⟩ := returns_commit (answer store) (E := env) ⟨0, order⟩
    (drainForBlock env spentNode).1 ⟨stage.writes, stage.included, stage.nullifiers, [], []⟩
    (fun _ h => by cases h) (by
      intro tx htx
      rw [poolStage_included hstage] at htx
      rw [List.mem_singleton.mp htx]
      rfl)
  refine ⟨node', hdraft.bind_ok hcommit, fun n => ?_⟩
  rw [hspent, hnewly]
  exact Iff.rfl

theorem transfer_spends_again {failing : ReadClass → Prop} (hfailing : failing (.nullifier true)) :
    ∃ choice node' result, TryProduces env machine
        (fun q => failing (q.readClass spentStore)) choice spentNode node' result ∧
      ¬ KeepsBlock env choice spentNode node' result := by
  obtain ⟨order⟩ := MapOrder.nonempty
  obtain ⟨clean, hclean, hrefused⟩ := produce_transfer order loadState_spentStore
    newlySpent_eq.2
  obtain ⟨faulty, hfaulty, haccepted⟩ := produce_transfer order loadState_poolStore
    newlySpent_eq.1
  refine ⟨⟨0, order⟩, faulty, _, commits_otherwise machine_runs rfl (fun q => ?_) hclean hfaulty
    (.inr (.inl fun hnullifiers => ?_))⟩
  · cases q with
    | nullifier n =>
      cases hn : spentStore.isNullifierSpent n with
      | false => exact .inl hn.symm
      | true =>
        refine .inr ⟨?_, rfl⟩
        show failing (.nullifier (spentStore.isNullifierSpent n))
        rw [hn]
        exact hfailing
    | account k handling => cases handling <;> exact .inl rfl
    | transaction sig => exact .inl rfl
    | snapshot => exact .inl rfl
    | latestSlot => exact .inl rfl
    | node key => exact .inl rfl
  · have hfresh : faulty.store.isNullifierSpent freshNullifier = true :=
      (haccepted _).mpr (.inr (by simp))
    rw [Store.isNullifierSpent, hnullifiers] at hfresh
    rcases (hrefused _).mp hfresh with hspent | hspent
    · exact absurd hspent (by decide)
    · cases hspent

/-! ### A stored node -/

/-- The sample chain over the hash that keeps its last 32 bytes. -/
def nodeEnv : Env := { env with prims := Store.Sample.prims }

/-- The table key of the node next to the clock's path, below the root. -/
def siblingKey : Smt.NodeKey := Smt.nodeKey 1 (Smt.flipBit (Smt.keyPath nodeEnv.prims CLOCK_ID) 0)

def sibling : H256 := Smt.flipBit (Smt.emptyHashes nodeEnv.prims 1) 0

theorem sibling_ne_empty : sibling ≠ Smt.emptyHashes nodeEnv.prims 1 := by
  intro h
  have hbit := Smt.pathBit_flipBit (Smt.emptyHashes nodeEnv.prims 1) 0 (i := 0) (by decide)
  rw [show Smt.flipBit _ 0 = _ from h] at hbit
  simp at hbit

def nodeStore : Store :=
  { Store.empty with smtNodes := PartialMap.insert (fun _ => none) siblingKey sibling }

def heartbeatNode : Node := nodeWith nodeStore []

theorem newRoot_clock (source : PartialMap Smt.NodeKey H256) (hash : Option H256) :
    (Smt.applyUpdates nodeEnv.prims source [(CLOCK_ID, hash)]).newRoot.toList =
      ((source siblingKey).getD (Smt.emptyHashes nodeEnv.prims 1)).toList.reverse := by
  obtain ⟨current, hroot⟩ := newRoot_singleUpdate nodeEnv.prims source (CLOCK_ID, hash)
  have hbit : Smt.pathBit (Smt.keyPath nodeEnv.prims CLOCK_ID) 0 = false := by decide
  have hjoin (a b : H256) : (Smt.tree nodeEnv.prims Smt.SMT_DEPTH).join
      (Smt.keyPath nodeEnv.prims CLOCK_ID) 0 a b = Smt.nodeHash nodeEnv.prims b a := by
    rw [SparseTree.join, if_neg]
    · rfl
    · rw [show (Smt.tree nodeEnv.prims Smt.SMT_DEPTH).bit _ 0 = false from hbit]
      exact Bool.false_ne_true
  have hnode (a b : H256) : (Smt.nodeHash nodeEnv.prims a b).toList = b.toList.reverse := by
    show ((strBytes "PL2:smt:node" ++ [a.toList, b.toList].flatten).reverse ++
      List.replicate 32 0).take 32 = _
    rw [List.flatten_cons, List.flatten_cons, List.flatten_nil, List.append_nil,
      ← List.append_assoc, List.reverse_append, List.append_assoc]
    exact List.take_left' (by simp)
  rw [hroot, hjoin, hnode]
  rfl

theorem produce_heartbeat (order : MapOrder) (db : (q : Query) → q.Answer) :
    ∃ node' root, Reads.Returns db (Reading.produce nodeEnv machine ⟨10000, order⟩
        (drainForBlock nodeEnv heartbeatNode).1 (drainForBlock nodeEnv heartbeatNode).2.1
        (drainForBlock nodeEnv heartbeatNode).2.2) (.ok node') ∧
      node'.store.stateRoot = some root ∧
      root.toList = ((Reading.nodesOf db siblingKey).getD
        (Smt.emptyHashes nodeEnv.prims 1)).toList.reverse := by
  obtain ⟨account, hlist⟩ := toList_clockWrites (E := nodeEnv) order 10000 heartbeatNode.tip
  have hdraft := returns_emptyBlock (E := nodeEnv) db machine_runs ⟨10000, order⟩
    heartbeatNode.tip
  obtain ⟨node', hcommit, -, -, hroot⟩ := returns_commit db (E := nodeEnv) ⟨10000, order⟩
    (drainForBlock nodeEnv heartbeatNode).1
    ⟨clockWrites nodeEnv 10000 heartbeatNode.tip, [], [], [], []⟩ (fun _ h => by cases h)
    (fun _ h => by cases h)
  refine ⟨node', _, hdraft.bind_ok hcommit, hroot, ?_⟩
  rw [show order.toList (clockWrites nodeEnv 10000 heartbeatNode.tip) = _ from hlist]
  exact newRoot_clock _ _

theorem heartbeat_root_changes {failing : ReadClass → Prop} (hfailing : failing (.node true)) :
    ∃ choice node' result, TryProduces nodeEnv machine
        (fun q => failing (q.readClass nodeStore)) choice heartbeatNode node' result ∧
      ¬ KeepsBlock nodeEnv choice heartbeatNode node' result := by
  obtain ⟨order⟩ := MapOrder.nonempty
  obtain ⟨clean, root, hclean, hroot, hrevealed⟩ := produce_heartbeat order (answer nodeStore)
  obtain ⟨faulty, root', hfaulty, hroot', hrevealed'⟩ := produce_heartbeat order
    (answer Store.empty)
  refine ⟨⟨10000, order⟩, faulty, _, commits_otherwise machine_runs rfl (fun q => ?_) hclean hfaulty
    (.inr (.inr fun hroots => ?_))⟩
  · cases q with
    | node key =>
      cases hkey : nodeStore.smtNodes key with
      | none => exact .inl hkey.symm
      | some h =>
        refine .inr ⟨?_, rfl⟩
        show failing (.node (nodeStore.smtNodes key).isSome)
        rw [hkey]
        exact hfailing
    | account k handling => cases handling <;> exact .inl rfl
    | transaction sig => exact .inl rfl
    | snapshot => exact .inl rfl
    | latestSlot => exact .inl rfl
    | nullifier n => exact .inl rfl
  · rw [hroot, hroot'] at hroots
    rw [Option.some.inj hroots, hrevealed] at hrevealed'
    have hsibling : Reading.nodesOf (answer nodeStore) siblingKey = some sibling :=
      PartialMap.insert_self (fun _ => none) siblingKey sibling
    rw [hsibling, List.reverse_inj] at hrevealed'
    exact sibling_ne_empty (Bytes.ext hrevealed')

end Sample

/-- Block production keeps every block whatever reads of some classes fail, exactly if none of
these classes is harmful: an existing account whose failed read counts as absence, any account
read by a burn, a spent nullifier, a stored tree node. -/
theorem read_failures_harmless_iff (failing : ReadClass → Prop) :
    (∀ (E : Env) (machine : Machine), machine.Runs E.svm →
        ∀ (choice : BlockChoice) (node node' : Node) (result : Except Failure (Option UInt64)),
          TryProduces E machine (fun q => failing (q.readClass node.store)) choice node node'
            result → KeepsBlock E choice node node' result) ↔
      ∀ c, failing c → ¬ c.Harmful := by
  constructor
  · intro h c hfailing hharmful
    have hkeeps : ¬ ∃ (E : Env) (machine : Machine) (_ : machine.Runs E.svm) (node : Node)
        (choice : BlockChoice) (node' : Node) (result : Except Failure (Option UInt64)),
        TryProduces E machine (fun q => failing (q.readClass node.store)) choice node node'
          result ∧ ¬ KeepsBlock E choice node node' result := by
      rintro ⟨E, machine, hmachine, node, choice, node', result, htry, hnot⟩
      exact hnot (h E machine hmachine choice node node' result htry)
    obtain ⟨-, habsent, hrefused, hrefused', -⟩ := Sample.payerAfter_eq
    apply hkeeps
    match c, hharmful with
    | .account .absent true, _ =>
      exact ⟨Sample.env, Sample.machine, Sample.machine_runs,
        Sample.nodeWith Sample.tokenStore [Sample.tokenWithdrawTx],
        Sample.tokenWithdrawal_lost hfailing habsent⟩
    | .account .refused true, _ =>
      exact ⟨Sample.env, Sample.machine, Sample.machine_runs,
        Sample.nodeWith Sample.tokenStore [Sample.tokenWithdrawTx],
        Sample.tokenWithdrawal_lost hfailing hrefused⟩
    | .account .refused false, _ =>
      exact ⟨Sample.env, Sample.machine, Sample.machine_runs,
        Sample.nodeWith Sample.tokenStore [Sample.tokenWithdrawTx],
        Sample.tokenWithdrawal_lost hfailing hrefused'⟩
    | .nullifier true, _ =>
      exact ⟨Sample.env, Sample.machine, Sample.machine_runs, Sample.spentNode,
        Sample.transfer_spends_again hfailing⟩
    | .node true, _ =>
      exact ⟨Sample.nodeEnv, Sample.machine, Sample.machine_runs, Sample.heartbeatNode,
        Sample.heartbeat_root_changes hfailing⟩
  · intro h E machine hmachine choice node node' result htry
    exact keepsBlock_of_harmless hmachine (fun q hq => h _ hq) htry

/-! ## A withdrawal whose payer cannot be read -/

/-- The answers of a store when the reads of one account fail and count as absence. -/
def unreadAt (store : Store) (k : Pubkey) : (q : Query) → q.Answer
  | .account j .absent => if j = k then none else store.getAccount j
  | q => answer store q

theorem unreadAt_cases (store : Store) (k : Pubkey) (q : Query) :
    unreadAt store k q = answer store q ∨
      q = .account k .absent ∧ missed q = .ok (unreadAt store k q) := by
  cases q with
  | account j handling =>
    cases handling with
    | absent =>
      by_cases h : j = k
      · subst h
        exact .inr ⟨rfl, congrArg Except.ok (if_pos rfl).symm⟩
      · exact .inl (if_neg h)
    | propagated => exact .inl rfl
    | refused => exact .inl rfl
  | transaction sig => exact .inl rfl
  | snapshot => exact .inl rfl
  | latestSlot => exact .inl rfl
  | nullifier n => exact .inl rfl
  | node key => exact .inl rfl

section Withdrawal

theorem returns_paidDraft {node : Node} (order : MapOrder)
    (hpayer : node.store.getAccount Sample.payer = some (.newSystem 1000000000)) :
    ∃ draft, Reads.Returns (answer node.store) (Reading.draftBlock Sample.env Sample.machine
        ⟨0, order⟩ node.tip [Sample.replayedTx] []) (.ok draft) ∧
      draft.included.map Prod.fst = [Sample.replayedTx] ∧
      draft.writes Sample.payer =
        some (some (.newSystem (1000000000 - 1000 - POOL_TX_FEE))) := by
  have hparse := Sample.parseWithdraw_withdrawTx 9 (Bytes.replicate 32 7) 1000 1
    (Sample.env.genesis.genesisHash Sample.prims)
  obtain ⟨draft, hdraft, hincluded, -, hwrites⟩ := draftBlock_withdrawal (E := Sample.env)
    ⟨0, order⟩ node.tip hparse (by decide) hpayer (by decide) (by decide) (by decide) (by decide)
  have hreturns := Reading.returns_draftBlock node.store (E := Sample.env) Sample.machine_runs
    ⟨0, order⟩ node.tip [Sample.replayedTx] []
  rw [show draftBlock Sample.env ⟨0, order⟩ node.store node.tip [Sample.replayedTx] [] = _
    from hdraft] at hreturns
  exact ⟨draft, hreturns, hincluded, hwrites⟩

variable {node : Node} (order : MapOrder) (hdrained : (drainForBlock Sample.env node).2 =
  ([Sample.replayedTx], [])) (hlatest : node.store.latestSlot = none)
include hdrained hlatest

theorem returns_paid
    (hpayer : node.store.getAccount Sample.payer = some (.newSystem 1000000000)) :
    ∃ node', Reads.Returns (answer node.store) (Reading.produce Sample.env Sample.machine
        ⟨0, order⟩ (drainForBlock Sample.env node).1 (drainForBlock Sample.env node).2.1
        (drainForBlock Sample.env node).2.2) (.ok node') ∧
      node'.store.getAccount Sample.payer =
        some (.newSystem (1000000000 - 1000 - POOL_TX_FEE)) := by
  obtain ⟨draft, hreturns, hincluded, hwrites⟩ := returns_paidDraft order hpayer
  obtain ⟨node', hcommit, haccounts, -, -⟩ := returns_commit (answer node.store)
    (E := Sample.env) ⟨0, order⟩ (drainForBlock Sample.env node).1 draft
    (fun latest h => by cases hlatest.symm.trans h) (by
      intro tx htx
      rw [hincluded, List.mem_singleton] at htx
      rw [htx]
      rfl)
  refine ⟨node', ?_, ?_⟩
  · rw [hdrained]
    exact hreturns.bind_ok hcommit
  · rw [Store.getAccount, haccounts]
    exact AccountWrites.applyTo_some hwrites _

theorem returns_refused :
    ∃ node', Reads.Returns (unreadAt node.store Sample.payer) (Reading.produce Sample.env
        Sample.machine ⟨0, order⟩ (drainForBlock Sample.env node).1
        (drainForBlock Sample.env node).2.1 (drainForBlock Sample.env node).2.2) (.ok node') ∧
      node'.store.getAccount Sample.payer = node.store.getAccount Sample.payer := by
  have hparse := Sample.parseWithdraw_withdrawTx 9 (Bytes.replicate 32 7) 1000 1
    (Sample.env.genesis.genesisHash Sample.prims)
  obtain ⟨out, hout, hincluded, hwrites⟩ : ∃ out, Reads.Returns
      (unreadAt node.store Sample.payer) (Reading.applyWithdraw Sample.prims
        Sample.options.gasMint Sample.collector ⟨clockWrites Sample.env 0 node.tip, [], []⟩
        ⟨Sample.replayedTx, Sample.payer, Bytes.replicate 32 7, NATIVE_ASSET_ID, 1000, 1⟩)
      (.ok out) ∧ out.included.map Prod.fst = [Sample.replayedTx] ∧
      out.writes Sample.payer = none :=
    ⟨_, rfl, rfl, rfl⟩
  have hdraft := returns_withdrawBlock (unreadAt node.store Sample.payer) (E := Sample.env)
    Sample.machine_runs ⟨0, order⟩ node.tip hparse hout
  obtain ⟨node', hcommit, haccounts, -, -⟩ := returns_commit
    (unreadAt node.store Sample.payer) (E := Sample.env) ⟨0, order⟩
    (drainForBlock Sample.env node).1 ⟨out.writes, out.included, [], [], out.accepted⟩
    (fun latest h => by cases hlatest.symm.trans h) (by
      intro tx htx
      rw [hincluded, List.mem_singleton] at htx
      rw [htx]
      rfl)
  refine ⟨node', ?_, ?_⟩
  · rw [hdrained]
    exact hdraft.bind_ok hcommit
  · rw [Store.getAccount, haccounts]
    exact AccountWrites.applyTo_none hwrites _

end Withdrawal

/-- A client's withdrawal is in the mempool of a fresh chain. The block burns it; if the one read
of its payer's account fails, the same call commits a block that refuses it. -/
theorem withdrawal_lost_to_failed_read :
    ∃ s₀ s choice node' slot, Initial Sample.env s₀ ∧ Run Sample.env (fun _ _ => True) s₀ s ∧
      TryProduces Sample.env Sample.machine (· = .account Sample.payer .absent) choice s.node node'
        (.ok (some slot)) ∧
      node'.store.getAccount Sample.payer = some (.newSystem 1000000000) ∧
      (tryProduceBlock Sample.env choice s.node).1.store.getAccount Sample.payer =
        some (.newSystem (1000000000 - 1000 - POOL_TX_FEE)) ∧
      ¬ KeepsBlock Sample.env choice s.node node' (.ok (some slot)) := by
  obtain ⟨order⟩ := MapOrder.nonempty
  obtain ⟨s₀, s, h₀, hrun, -, -, hdrained, -, hlatest, -, -, hpayer, -⟩ :=
    Sample.queued_replayedTx
  have hdue : isDue Sample.env 0 (drainForBlock Sample.env s.node).1
      (drainForBlock Sample.env s.node).2.1 (drainForBlock Sample.env s.node).2.2 = true := by
    rw [hdrained]
    rfl
  obtain ⟨clean, hclean, hpaid⟩ := returns_paid order hdrained hlatest hpayer
  obtain ⟨faulty, hfaulty, hkept⟩ := returns_refused order hdrained hlatest
  rw [hpayer] at hkept
  have hdiff : faulty.store.accounts ≠ clean.store.accounts := by
    intro haccounts
    rw [Store.getAccount, haccounts] at hkept
    exact absurd (hkept.symm.trans hpaid) (by decide)
  have hother := @commits_otherwise Sample.env Sample.machine
    (· = .account Sample.payer .absent) ⟨0, order⟩ (unreadAt s.node.store Sample.payer) s.node
    clean faulty Sample.machine_runs hdue (unreadAt_cases s.node.store Sample.payer) hclean
    hfaulty (.inl hdiff)
  have hcommitted : (tryProduceBlock Sample.env ⟨0, order⟩ s.node).1 = clean :=
    congrArg Prod.fst (@tryProduceBlock_of_returns Sample.env Sample.machine ⟨0, order⟩
      Sample.machine_runs s.node clean hdue hclean)
  refine ⟨s₀, s, ⟨0, order⟩, faulty, faulty.tip.slot, h₀, hrun.mono fun _ _ _ => trivial,
    hother.1, hkept, ?_, hother.2⟩
  rw [hcommitted]
  exact hpaid

end Zul.Node
