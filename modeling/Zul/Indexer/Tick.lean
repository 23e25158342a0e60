import Zul.Indexer.Decode
import Zul.Lib.Table

/-! # The indexer

The indexer walks the slots after its cursor, writes their blocks and transactions to a database
and then moves the cursor. Every call to the node or to the database may fail: the node's answer
may not come, a write may be refused, and a write that was made may not be answered. What a failed
call throws ends the tick, except for the genesis hash and the rows of the address index, whose
errors are caught.
-/

namespace Zul.Indexer

/-! ## What the node serves -/

structure RpcBlock where
  blockhash : String
  previousBlockhash : String
  blockTime : ℤ
  stateRoot : Option String
  signatures : List String

structure TxMeta where
  /-- The text of the error. -/
  err : Option String
  fee : Option ℤ
  computeUnitsConsumed : Option ℤ
  logMessages : Option (List String)
  accountKeys : Option (List String)

structure RpcTransaction where
  txMeta : Option TxMeta
  /-- The wire bytes in base 64; an empty text counts as none. -/
  transaction : Option String

structure Chain where
  genesisHash : String
  blocks : ℕ → Option RpcBlock
  transactions : String → Option RpcTransaction

def Chain.served (chain : Chain) (signature : String) : Option (RpcTransaction × TxMeta) := do
  let tx ← chain.transactions signature
  let txMeta ← tx.txMeta
  return (tx, txMeta)

/-! ## The database -/

structure BlockRow where
  blockhash : String
  parentHash : String
  stateRoot : String
  txCount : ℕ
  timestampMs : ℤ

structure TransactionRow where
  slot : ℕ
  indexInBlock : ℕ
  success : Bool
  err : Option String
  fee : ℤ
  computeUnits : ℤ
  feePayer : String
  accountKeys : List String
  logMessages : List String
  programs : List String
  touchedPool : Bool

structure SyncState where
  lastSlot : ℕ
  genesisHash : String

/-- The tables under their unique keys. An address and a signature are a key together, with the
slot as the rest of the row. -/
structure Database where
  blocks : Table ℕ BlockRow
  transactions : Table String TransactionRow
  addressSignatures : Table (String × String) ℕ
  syncState : Option SyncState

def Database.empty : Database := ⟨.empty, .empty, .empty, none⟩

structure Deps where
  chain : Chain
  base64Decode : String → List UInt8
  batchSize : ℕ

/-! ## Calls that may fail -/

inductive Call
  | getGenesisHash
  | upsertSyncState
  | getSlot
  | getBlock (slot : ℕ)
  | upsertBlock (slot : ℕ)
  | getTransaction (signature : String)
  | upsertTransaction (signature : String)
  | createAddressSignature (address signature : String)
  | updateSyncState
  deriving DecidableEq

/-- How a call ends: answered, refused without effect, or carried out without an answer. -/
inductive Outcome
  | answered
  | refused
  | unanswered
  deriving DecidableEq

/-- How the calls of a run end, by their number, and the node's head when it is asked for. -/
structure Oracle where
  outcome : ℕ → Call → Outcome
  head : ℕ → ℕ

/-- The database, the number of calls made so far and the databases passed through. -/
structure World where
  db : Database
  calls : ℕ
  past : List Database

def World.states (w : World) : List Database := w.db :: w.past

namespace Oracle

variable (o : Oracle)

/-- A call to the node; `false` is thrown. -/
def rpc (call : Call) (w : World) : World × Bool :=
  ({ w with calls := w.calls + 1 }, o.outcome w.calls call = .answered)

/-- A write to the database; `false` is thrown. -/
def write (call : Call) (f : Database → Database) (w : World) : World × Bool :=
  match o.outcome w.calls call with
  | .answered => (⟨f w.db, w.calls + 1, w.db :: w.past⟩, true)
  | .refused => (⟨w.db, w.calls + 1, w.db :: w.past⟩, false)
  | .unanswered => (⟨f w.db, w.calls + 1, w.db :: w.past⟩, false)

end Oracle

/-! ## Writes -/

namespace Database

/-- Create the cursor at slot 0, or take over a genesis hash that was fetched. -/
def upsertSyncState (genesisHash : String) (db : Database) : Database :=
  { db with
    syncState := some (match db.syncState with
      | none => ⟨0, genesisHash⟩
      | some state => if genesisHash = "" then state else { state with genesisHash }) }

def updateSyncState (lastSlot : ℕ) (db : Database) : Database :=
  { db with syncState := db.syncState.map fun state => { state with lastSlot } }

def upsertBlock (slot : ℕ) (block : RpcBlock) (db : Database) : Database :=
  let create : BlockRow := {
    blockhash := block.blockhash
    parentHash := block.previousBlockhash
    stateRoot := block.stateRoot.getD ""
    txCount := block.signatures.length
    timestampMs := block.blockTime * 1000 }
  { db with
    blocks := db.blocks.upsert slot create fun row =>
      { row with txCount := block.signatures.length } }

/-- A row of the address index is created unless the database refuses it as a second one. -/
def createAddressSignature (address signature : String) (slot : ℕ) (db : Database) : Database :=
  { db with addressSignatures := db.addressSignatures.insertNew (address, signature) slot }

end Database

section Transactions

variable (D : Deps)

def RpcTransaction.decoded (tx : RpcTransaction) : Option DecodedTx :=
  tx.transaction.bind fun base64 =>
    if base64 = "" then none else decodeTransaction D.base64Decode base64

def accountKeys (tx : RpcTransaction) (txMeta : TxMeta) : List String :=
  ((tx.decoded D).map (·.accountKeys)).getD (txMeta.accountKeys.getD [])

def transactionRow (slot index : ℕ) (tx : RpcTransaction) (txMeta : TxMeta) : TransactionRow where
  slot
  indexInBlock := index
  success := txMeta.err.isNone
  err := txMeta.err
  fee := txMeta.fee.getD 0
  computeUnits := txMeta.computeUnitsConsumed.getD 0
  feePayer := ((tx.decoded D).map (·.feePayer)).getD ((accountKeys D tx txMeta).headD "")
  accountKeys := accountKeys D tx txMeta
  logMessages := txMeta.logMessages.getD []
  programs := ((tx.decoded D).map (·.programs)).getD []
  touchedPool := ((tx.decoded D).map (·.touchedPool)).getD false

def Database.upsertTransaction (slot index : ℕ) (signature : String) (tx : RpcTransaction)
    (txMeta : TxMeta) (db : Database) : Database :=
  { db with
    transactions := db.transactions.upsert signature (transactionRow D slot index tx txMeta)
      fun row => { row with
        indexInBlock := index
        success := txMeta.err.isNone
        err := txMeta.err } }

end Transactions

/-! ## A tick -/

section Indexing

variable (D : Deps) (o : Oracle)

/-- The loop over a transaction's account keys; every error is caught. -/
def createAddresses (signature : String) (slot : ℕ) : List String → World → World
  | [], w => w
  | address :: addresses, w =>
    createAddresses signature slot addresses
      (o.write (.createAddressSignature address signature)
        (Database.createAddressSignature address signature slot) w).1

def indexTransaction (slot index : ℕ) (signature : String) (w : World) : World × Bool :=
  match o.rpc (.getTransaction signature) w with
  | (w, false) => (w, false)
  | (w, true) =>
    match D.chain.served signature with
    | none => (w, true)
    | some (tx, txMeta) =>
      match o.write (.upsertTransaction signature)
          (Database.upsertTransaction D slot index signature tx txMeta) w with
      | (w, false) => (w, false)
      | (w, true) => (createAddresses o signature slot (accountKeys D tx txMeta) w, true)

def indexTransactions (slot : ℕ) : ℕ → List String → World → World × Bool
  | _, [], w => (w, true)
  | index, signature :: signatures, w =>
    match indexTransaction D o slot index signature w with
    | (w, false) => (w, false)
    | (w, true) => indexTransactions slot (index + 1) signatures w

def indexSlot (slot : ℕ) (w : World) : World × Bool :=
  match o.rpc (.getBlock slot) w with
  | (w, false) => (w, false)
  | (w, true) =>
    match D.chain.blocks slot with
    | none => (w, true)
    | some block =>
      match o.write (.upsertBlock slot) (Database.upsertBlock slot block) w with
      | (w, false) => (w, false)
      | (w, true) => indexTransactions D o slot 0 block.signatures w

/-- The loop over `count` slots. -/
def indexSlots : (slot count : ℕ) → World → World × Bool
  | _, 0, w => (w, true)
  | slot, count + 1, w =>
    match indexSlot D o slot w with
    | (w, false) => (w, false)
    | (w, true) => indexSlots (slot + 1) count w

/-- The cursor; `none` is thrown. -/
def ensureSyncState (w : World) : World × Option ℕ :=
  match o.rpc .getGenesisHash w with
  | (w, answered) =>
    match o.write .upsertSyncState
        (Database.upsertSyncState (if answered then D.chain.genesisHash else "")) w with
    | (w, false) => (w, none)
    | (w, true) => (w, w.db.syncState.map (·.lastSlot))

/-- The number of slots indexed; `none` is thrown. -/
def tick (w : World) : World × Option ℕ :=
  match ensureSyncState D o w with
  | (w, none) => (w, none)
  | (w, some lastSlot) =>
    let head := o.head w.calls
    match o.rpc .getSlot w with
    | (w, false) => (w, none)
    | (w, true) =>
      if head ≤ lastSlot then (w, some 0)
      else
        let upTo := min head (lastSlot + D.batchSize)
        match indexSlots D o (lastSlot + 1) (upTo - lastSlot) w with
        | (w, false) => (w, none)
        | (w, true) =>
          match o.write .updateSyncState (Database.updateSyncState upTo) w with
          | (w, false) => (w, none)
          | (w, true) => (w, some (upTo - lastSlot))

/-- Ticks one after the other; what one throws is reported and the next goes on. -/
def runTicks : ℕ → World → World
  | 0, w => w
  | n + 1, w => runTicks n (tick D o w).1

end Indexing

def World.start : World := ⟨.empty, 0, []⟩

end Zul.Indexer
