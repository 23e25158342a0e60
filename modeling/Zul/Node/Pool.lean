import Zul.Privacy.Service

/-! # Pool transactions in a block

A pool transaction is a single instruction to the pool program with parseable data. Its effects
are layered on top of the writes the block's regular transactions left.
-/

namespace Zul.Node

open Privacy

structure PoolTx where
  transaction : VersionedTransaction
  feePayer : Pubkey
  instruction : PoolInstruction
  deriving DecidableEq

def tryParsePoolTx (tx : VersionedTransaction) : Option PoolTx :=
  match tx.message.instructions with
  | [ix] => do
    let program ← tx.message.staticAccountKeys[ix.programIdIndex.toNat]?
    guard (program = POOL_PROGRAM_ID)
    let feePayer ← tx.message.staticAccountKeys.head?
    let instruction ← PoolInstruction.tryFromSlice ix.data
    return ⟨tx, feePayer, instruction⟩
  | _ => none

/-- Split a batch into pool transactions and the rest; both parts keep their order. -/
def partition (transactions : List VersionedTransaction) :
    List PoolTx × List VersionedTransaction :=
  (transactions.filterMap tryParsePoolTx,
    transactions.filter fun tx => (tryParsePoolTx tx).isNone)

theorem tryParsePoolTx_transaction {tx : VersionedTransaction} {pt : PoolTx}
    (h : tryParsePoolTx tx = some pt) : pt.transaction = tx := by
  unfold tryParsePoolTx at h
  split at h
  · simp only [Option.bind_eq_bind, Option.bind_eq_some_iff] at h
    obtain ⟨program, _, _, _, feePayer, _, instruction, _, h⟩ := h
    cases h; rfl
  · cases h

def poolMeta (success : Bool) (statusErr : Option String) (fee pre post : UInt64)
    (logs : List String) : ExecutedTransactionMeta where
  status := if success then .ok () else .error (.instructionError 0 1)
  fee := fee
  computeUnitsConsumed := 0
  logMessages := match statusErr with
    | some e => ["Program log: pool rejected: " ++ e]
    | none => logs
  preBalances := [pre]
  postBalances := [post]

/-- The flat fee a successful pool transaction or withdrawal pays. -/
def POOL_TX_FEE : UInt64 := LAMPORTS_PER_SIGNATURE

def lamportsInWrites (writes : AccountWrites) (key : Pubkey) : Option UInt64 :=
  (writes key).map fun
    | some account => account.lamports
    | none => 0

/-- The lamports the regular transactions left, where they wrote an account. -/
def seedOf (writes : AccountWrites) : PartialMap Pubkey UInt64 := fun k =>
  match writes k with
  | some (some account) => some account.lamports
  | _ => none

/-- A pool write over what the block wrote: an account written so far keeps its fields and takes
only the pool's lamports. -/
def mergedWrite : Option (Option StoredAccount) → Option StoredAccount → Option StoredAccount
  | some (some svmAccount), some poolAccount =>
    some { svmAccount with lamports := poolAccount.lamports }
  | _, other => other

def mergeWrite (writes : AccountWrites) (write : Pubkey × Option StoredAccount) : AccountWrites :=
  writes.insert write.1 (mergedWrite (writes write.1) write.2)

theorem mergedWrite_isSome {before : Option (Option StoredAccount)} {write : Option StoredAccount} :
    (mergedWrite before write).isSome = write.isSome := by
  rcases before with _ | _ | _ <;> cases write <;> rfl

end Zul.Node
