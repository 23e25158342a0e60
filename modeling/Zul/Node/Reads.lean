import Zul.Lib.Reads
import Zul.Node.Produce

/-! # Reads of block production

Block production as a program that reads the store. Every read can fail on its own. Most
failures end production with an error; the account reads of the executor's callback, of the
pool's balances and of the withdrawal loop, the nullifier reads and the state tree's node reads
take a row that could not be read to be missing, and a failed read while tokens are burned
refuses the withdrawal. This part has the executor and the state tree.
-/

namespace Zul.Node

open Executor Privacy

/-- What becomes of the failed read of an account: production fails, the account is taken to be
missing, or the withdrawal is refused. -/
inductive Handling
  | propagated
  | absent
  | refused
  deriving DecidableEq

/-- The reads of block production. A transaction is looked up in three tables at once. -/
inductive Query
  | transaction (sig : Signature)
  | snapshot
  | latestSlot
  | account (k : Pubkey) (handling : Handling)
  | nullifier (n : H256)
  | node (key : Smt.NodeKey)

/-- What a read yields; a burn also sees that its read failed. -/
def Query.Answer : Query → Type
  | .transaction _ =>
    Except StoreError (Option (TxLocator × VersionedTransaction × ExecutedTransactionMeta))
  | .snapshot => Unit
  | .latestSlot => Option UInt64
  | .account _ .refused => Option (Option StoredAccount)
  | .account _ _ => Option StoredAccount
  | .nullifier _ => Bool
  | .node _ => Option H256

def answer (store : Store) : (q : Query) → q.Answer
  | .transaction sig => store.getTransaction sig
  | .snapshot => ()
  | .latestSlot => store.latestSlot
  | .account k .propagated => store.getAccount k
  | .account k .absent => store.getAccount k
  | .account k .refused => some (store.getAccount k)
  | .nullifier n => store.isNullifierSpent n
  | .node key => store.smtNodes key

/-- Why production fails: a read did, or an error or panic of its own. -/
inductive Failure
  | read
  | node (e : NodeError)

/-- What a failed read does: it ends production, or stands for a missing row. -/
def missed : (q : Query) → Except Failure q.Answer
  | .transaction _ => .error .read
  | .snapshot => .error .read
  | .latestSlot => .error .read
  | .account _ .propagated => .error .read
  | .account _ .absent => .ok none
  | .account _ .refused => .ok none
  | .nullifier _ => .ok false
  | .node _ => .ok none

abbrev StoreReads := Reads Query Query.Answer Failure

/-- The Solana machine as a program that loads accounts through its callback. -/
abbrev Machine := UInt64 → H256 → List CheckedTransaction →
  Reads Pubkey (fun _ => Option StoredAccount) Empty
    (List (Except TransactionError ProcessedTransaction))

/-- The program returns what the machine returns for the accounts it loads. -/
def Machine.Runs (machine : Machine) (R : SvmRuntime) : Prop :=
  ∀ source slot parent batch,
    (machine slot parent batch).run source = .ok (R.loadAndExecute source slot parent batch)

def orPanic {α : Type} : Option α → Except Failure α
  | some a => .ok a
  | none => .error (.node .panic)

def orStoreError {α : Type} : Except StoreError α → Except Failure α
  | .ok a => .ok a
  | .error e => .error (.node (.store e))

/-! ## The reads -/

namespace Reading

def ask (q : Query) : StoreReads q.Answer := Reads.ask q

/-- An account; a failure is propagated. -/
def getAccount (k : Pubkey) : StoreReads (Option StoredAccount) := ask (.account k .propagated)

def findAccount (k : Pubkey) : StoreReads (Option StoredAccount) := ask (.account k .absent)

def tryAccount (k : Pubkey) : StoreReads (Option (Option StoredAccount)) :=
  ask (.account k .refused)

def isNullifierSpent (n : H256) : StoreReads Bool := ask (.nullifier n)

def getNode (key : Smt.NodeKey) : StoreReads (Option H256) := ask (.node key)

theorem returns_ask {store : Store} (q : Query) :
    Reads.Returns (answer store) (ask q) (.ok (answer store q)) := rfl

theorem returns_getAccount {store : Store} (k : Pubkey) :
    Reads.Returns (answer store) (getAccount k) (.ok (store.getAccount k)) := rfl

theorem returns_tryAccount {store : Store} (k : Pubkey) :
    Reads.Returns (answer store) (tryAccount k) (.ok (some (store.getAccount k))) := rfl

theorem returns_findAccount {store : Store} (k : Pubkey) :
    Reads.Returns (answer store) (findAccount k) (.ok (store.getAccount k)) := rfl

/-! ## The executor -/

section Executor

variable (R : SvmRuntime)

def checkOne (queue : BlockhashQueue) (c : Checks) (tx : VersionedTransaction) :
    StoreReads Checks :=
  match tx.signature with
  | none => pure c
  | some sig =>
    if c.seen.contains sig then pure { c with dropped := c.dropped ++ [(sig, .alreadyProcessed)] }
    else do
      let c := { c with seen := sig :: c.seen }
      match ← ask (.transaction sig) with
      | .error e => .fail (.node (.store e))
      | .ok (some _) => return { c with dropped := c.dropped ++ [(sig, .alreadyProcessed)] }
      | .ok none =>
        match checkTransaction R queue tx with
        | .error e => return { c with dropped := c.dropped ++ [(sig, e)] }
        | .ok checked => return { c with batch := c.batch ++ [checked] }

/-- `StoreCallback::get`: the overlay, then the store. -/
def callback (overlay : PartialMap Pubkey StoredAccount) (k : Pubkey) :
    StoreReads (Option StoredAccount) :=
  match overlay k with
  | some account => pure (some account)
  | none => findAccount k

def lamportsOf (overlay finalAccounts : PartialMap Pubkey StoredAccount) (key : Pubkey) :
    StoreReads UInt64 :=
  match finalAccounts key with
  | some account => pure account.lamports
  | none => do
    match ← callback overlay key with
    | some account => return account.lamports
    | none => return 0

def balances (overlay finalAccounts : PartialMap Pubkey StoredAccount) (keys : List Pubkey) :
    StoreReads (List UInt64) :=
  keys.foldlM (fun acc key => do return acc ++ [← lamportsOf overlay finalAccounts key]) []

def collectOne (overlay : PartialMap Pubkey StoredAccount) (c : Collected)
    (entry : Except TransactionError ProcessedTransaction × CheckedTransaction) :
    StoreReads Collected := do
  let tx := entry.2.transaction
  let preBalances ← balances overlay c.finalAccounts tx.message.staticAccountKeys
  let finalAccounts := c.finalAccounts.insertAll (collectedAccounts R tx entry.1)
  match entry.1 with
  | .error e => return { c with dropped := c.dropped ++ (tx.signature.map (·, e)).toList }
  | .ok (.feesOnly fee _ loadError) =>
    let postBalances ← balances overlay finalAccounts tx.message.staticAccountKeys
    return { c with
      finalAccounts
      feesCollected := c.feesCollected.saturatingAdd fee
      included := c.included ++
        [(tx, ⟨.error loadError, fee, 0, [], preBalances, postBalances⟩)] }
  | .ok (.executed e) =>
    let postBalances ← balances overlay finalAccounts tx.message.staticAccountKeys
    return { c with
      finalAccounts
      feesCollected := c.feesCollected.saturatingAdd e.fee
      included := c.included ++
        [(tx, ⟨e.status, e.fee, e.executedUnits, e.logMessages.getD [], preBalances,
          postBalances⟩)] }

def creditCollector (collector : Pubkey) (overlay : PartialMap Pubkey StoredAccount)
    (fees : UInt64) (finalAccounts : PartialMap Pubkey StoredAccount) :
    StoreReads (PartialMap Pubkey StoredAccount) :=
  if 0 < fees then do
    let found ← match finalAccounts collector with
      | some account => pure (some account)
      | none => callback overlay collector
    let account := found.getD (StoredAccount.newSystem 0)
    return finalAccounts.insert collector
      { account with lamports := account.lamports.saturatingAdd fees }
  else pure finalAccounts

def executeBlock (machine : Machine) (feeCollector : Pubkey) (input : BlockExecutionInput) :
    StoreReads BlockExecutionOutput := do
  let checks ← input.transactions.foldlM (checkOne R input.queue) ⟨[], [], []⟩
  let overlay := blockOverlay R input
  let results ← (machine input.slot input.parentBlockhash checks.batch).through (callback overlay)
  let collected ← (results.zip checks.batch).foldlM (collectOne R overlay)
    ⟨fun _ => none, [], checks.dropped, 0⟩
  let finalAccounts ← creditCollector feeCollector overlay collected.feesCollected
    collected.finalAccounts
  return {
    included := collected.included
    dropped := collected.dropped
    accountWrites := mergeWrites overlay finalAccounts
    feesCollected := collected.feesCollected }

variable {R} {store : Store}

theorem returns_checkOne (queue : BlockhashQueue) (c : Checks) (tx : VersionedTransaction) :
    Reads.Returns (answer store) (checkOne R queue c tx)
      (orStoreError (Executor.checkOne R store queue c tx)) := by
  unfold checkOne Executor.checkOne
  cases tx.signature with
  | none => exact .pure _
  | some sig =>
    dsimp only
    by_cases hseen : sig ∈ c.seen
    · rw [if_pos (List.contains_iff_mem.mpr hseen), if_pos hseen]
      exact .pure _
    · rw [if_neg (mt List.contains_iff_mem.mp hseen), if_neg hseen]
      refine (returns_ask (.transaction sig)).bind_ok ?_
      simp only [answer]
      rcases store.getTransaction sig with e | _ | entry
      · exact .fail _
      · cases checkTransaction R queue tx <;> exact .pure _
      · exact .pure _

theorem orStoreError_foldlM {α β : Type} (f : β → α → Except StoreError β) (b : β) (l : List α) :
    orStoreError (l.foldlM f b) = l.foldlM (fun b a => orStoreError (f b a)) b := by
  induction l generalizing b with
  | nil => rfl
  | cons a l ih =>
    rw [List.foldlM_cons, List.foldlM_cons]
    cases f b a with
    | error e => rfl
    | ok b' => exact ih b'

theorem returns_callback (overlay : PartialMap Pubkey StoredAccount) (k : Pubkey) :
    Reads.Returns (answer store) (callback overlay k)
      (.ok (overlay.onto store.getAccount k)) := by
  unfold callback
  rw [PartialMap.onto_apply]
  cases overlay k with
  | some account => exact .pure _
  | none => exact returns_findAccount k

theorem returns_lamportsOf (overlay finalAccounts : PartialMap Pubkey StoredAccount)
    (key : Pubkey) :
    Reads.Returns (answer store) (lamportsOf overlay finalAccounts key)
      (.ok (Executor.lamportsOf (overlay.onto store.getAccount) finalAccounts key)) := by
  unfold lamportsOf Executor.lamportsOf
  rw [PartialMap.onto_apply]
  cases finalAccounts key with
  | some account => exact .pure _
  | none =>
    refine (returns_callback overlay key).bind_ok ?_
    rw [Option.none_or]
    cases overlay.onto store.getAccount key <;> exact .pure _

theorem returns_balances (overlay finalAccounts : PartialMap Pubkey StoredAccount)
    (keys : List Pubkey) :
    Reads.Returns (answer store) (balances overlay finalAccounts keys)
      (.ok (keys.map (Executor.lamportsOf (overlay.onto store.getAccount) finalAccounts))) :=
  .mapLoop (returns_lamportsOf overlay finalAccounts) keys []

theorem returns_collectOne (overlay : PartialMap Pubkey StoredAccount) (c : Collected)
    (entry : Except TransactionError ProcessedTransaction × CheckedTransaction) :
    Reads.Returns (answer store) (collectOne R overlay c entry)
      (.ok (Executor.collectOne R (overlay.onto store.getAccount) c entry)) := by
  obtain ⟨result, checked⟩ := entry
  refine (returns_balances overlay _ _).bind_ok ?_
  cases result with
  | error e => exact .pure _
  | ok processed =>
    cases processed with
    | feesOnly fee rollback loadError =>
      exact (returns_balances overlay _ _).bind_ok (.pure _)
    | executed e => exact (returns_balances overlay _ _).bind_ok (.pure _)

theorem returns_creditCollector (collector : Pubkey)
    (overlay : PartialMap Pubkey StoredAccount) (fees : UInt64)
    (finalAccounts : PartialMap Pubkey StoredAccount) :
    Reads.Returns (answer store) (creditCollector collector overlay fees finalAccounts)
      (.ok (Executor.creditCollector collector (overlay.onto store.getAccount) fees
        finalAccounts)) := by
  unfold creditCollector Executor.creditCollector
  split
  · rw [PartialMap.onto_apply]
    cases finalAccounts collector with
    | some account => exact .pure _
    | none =>
      rw [Option.none_or]
      exact (returns_callback overlay collector).bind_ok (.pure _)
  · exact .pure _

theorem returns_executeBlock (store : Store) {machine : Machine} (hmachine : machine.Runs R)
    (feeCollector : Pubkey) (input : BlockExecutionInput) :
    Reads.Returns (answer store) (executeBlock R machine feeCollector input)
      (orStoreError (Executor.executeBlock R feeCollector store input)) := by
  have hchecks : Reads.Returns (answer store)
      (input.transactions.foldlM (checkOne R input.queue) ⟨[], [], []⟩)
      (orStoreError (input.transactions.foldlM (Executor.checkOne R store input.queue)
        ⟨[], [], []⟩)) := by
    rw [orStoreError_foldlM]
    exact .foldlM (returns_checkOne input.queue) _ _
  unfold executeBlock Executor.executeBlock
  cases hc : input.transactions.foldlM (Executor.checkOne R store input.queue) ⟨[], [], []⟩ with
  | error e =>
    rw [hc] at hchecks
    exact hchecks.bind_error
  | ok checks =>
    rw [hc] at hchecks
    refine hchecks.bind_ok ?_
    refine (Reads.Returns.through (returns_callback (blockOverlay R input))
      (hmachine _ input.slot input.parentBlockhash checks.batch)).bind_ok ?_
    exact (Reads.Returns.foldl (returns_collectOne (blockOverlay R input)) _ _).bind_ok
      ((returns_creditCollector _ _ _ _).bind_ok (.pure _))

end Executor

/-! ## The state tree -/

section StateTree

variable (S : SparseTree H256 Smt.NodeKey H256)

/-- A node through the overlay; one that is missing or cannot be read is empty. -/
def readNode (overlay : PartialMap Smt.NodeKey H256) (d : ℕ) (path : H256) : StoreReads H256 :=
  match overlay (S.key d path) with
  | some h => pure h
  | none => do return (← getNode (S.key d path)).getD (S.empties d)

def climb (path : H256) : ℕ → H256 → PartialMap Smt.NodeKey H256 →
    StoreReads (PartialMap Smt.NodeKey H256)
  | 0, _, overlay => pure overlay
  | d + 1, current, overlay => do
    let sibling ← readNode S overlay (d + 1) (S.flip path d)
    let parent := S.join path d sibling current
    climb path d parent (overlay.insert (S.key d path) parent)

def insertLeaf (overlay : PartialMap Smt.NodeKey H256) (path leaf : H256) :
    StoreReads (PartialMap Smt.NodeKey H256) :=
  climb S path S.depth leaf (overlay.insert (S.key S.depth path) leaf)

variable (P : Prims)

def applyUpdate (overlay : PartialMap Smt.NodeKey H256) (u : Smt.LeafUpdate) :
    StoreReads (PartialMap Smt.NodeKey H256) :=
  let leaf := match u.2 with
    | some accountHash => Smt.leafHash P u.1 accountHash
    | none => Smt.emptyHashes P Smt.SMT_DEPTH
  insertLeaf (Smt.tree P Smt.SMT_DEPTH) overlay (Smt.keyPath P u.1) leaf

def prepareStateUpdate (updates : List Smt.LeafUpdate) : StoreReads Smt.StateUpdate := do
  let _ ← ask .snapshot
  let overlay ← updates.foldlM (applyUpdate P) fun _ => none
  let newRoot ← readNode (Smt.tree P Smt.SMT_DEPTH) overlay 0 (Bytes.replicate 32 0)
  return ⟨newRoot, overlay⟩

def nodesOf (db : (q : Query) → q.Answer) : PartialMap Smt.NodeKey H256 := fun key => db (.node key)

variable {S P} (db : (q : Query) → q.Answer)

theorem returns_getNode (key : Smt.NodeKey) :
    Reads.Returns db (getNode key) (.ok (nodesOf db key)) := rfl

theorem returns_readNode (overlay : PartialMap Smt.NodeKey H256) (d : ℕ) (path : H256) :
    Reads.Returns db (readNode S overlay d path)
      (.ok (S.read (overlay.onto (nodesOf db)) d path)) := by
  unfold readNode
  rw [SparseTree.read, PartialMap.onto_apply]
  cases overlay (S.key d path) with
  | some h => exact .pure _
  | none => exact (returns_getNode db _).bind_ok (.pure _)

theorem returns_climb (path : H256) (d : ℕ) (current : H256)
    (overlay : PartialMap Smt.NodeKey H256) :
    Reads.Returns db (climb S path d current overlay)
      (.ok (S.climb (nodesOf db) path d current overlay)) := by
  induction d generalizing current overlay with
  | zero => exact .pure _
  | succ d ih => exact (returns_readNode db overlay (d + 1) _).bind_ok (ih _ _)

theorem returns_prepareStateUpdate (updates : List Smt.LeafUpdate) :
    Reads.Returns db (prepareStateUpdate P updates)
      (.ok (Smt.applyUpdates P (nodesOf db) updates)) :=
  (Reads.Returns.ask Query.snapshot).bind_ok
    ((Reads.Returns.foldl (fun _ _ => returns_climb db _ _ _ _) _ updates).bind_ok
      ((returns_readNode db _ _ _).bind_ok (.pure _)))

end StateTree

end Reading

end Zul.Node
