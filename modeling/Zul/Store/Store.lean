import Zul.Primitives.Block
import Zul.Primitives.Genesis
import Zul.Store.Account
import Zul.Store.Smt

/-! # The persistent store

One database holds the accounts, blocks, transaction indices, state tree, spent nullifiers and
chain metadata. A row is kept as the value it encodes. A block commits in one write
transaction: it either takes effect as a whole or leaves the store unchanged.
-/

namespace Zul

inductive StoreError
  | invariant (message : String)
  deriving DecidableEq

structure TxLocator where
  slot : UInt64
  index : UInt32
  deriving DecidableEq

structure Store where
  accounts : PartialMap Pubkey StoredAccount
  blocks : PartialMap UInt64 Block
  txLoc : PartialMap Signature TxLocator
  txMeta : PartialMap Signature ExecutedTransactionMeta
  addrSigs : PartialMap (List UInt8) Signature
  smtNodes : PartialMap Smt.NodeKey H256
  nullifiers : PartialMap H256 UInt64
  genesisHash : Option H256
  stateRoot : Option H256
  latestSlot : Option UInt64
  blockhashQueue : Option SerializedQueue
  withdrawalsRootMeta : Option H256

/-- An account write: the new account, or `none` for a deletion. -/
abbrev AccountWrites := PartialMap Pubkey (Option StoredAccount)

def addrSigKey (pubkey : Pubkey) (slot : UInt64) (index : UInt32) : List UInt8 :=
  pubkey.toList ++ (LittleEndian.u64 (~~~slot)).reverse ++ (LittleEndian.u32 (~~~index)).reverse

namespace Store

def empty : Store where
  accounts := fun _ => none
  blocks := fun _ => none
  txLoc := fun _ => none
  txMeta := fun _ => none
  addrSigs := fun _ => none
  smtNodes := fun _ => none
  nullifiers := fun _ => none
  genesisHash := none
  stateRoot := none
  latestSlot := none
  blockhashQueue := none
  withdrawalsRootMeta := none

def isNullifierSpent (s : Store) (nullifier : H256) : Bool := (s.nullifiers nullifier).isSome

def getAccount (s : Store) (pubkey : Pubkey) : Option StoredAccount := s.accounts pubkey

def getBlock (s : Store) (slot : UInt64) : Option Block := s.blocks slot

def loadBlockhashQueue (s : Store) : Option BlockhashQueue :=
  s.blockhashQueue.map BlockhashQueue.fromBytes

/-- Root of the withdrawals tree, all-zero before the node first writes it. -/
def withdrawalsRoot (s : Store) : H256 := s.withdrawalsRootMeta.getD (Bytes.replicate 32 0)

def setWithdrawalsRoot (s : Store) (root : H256) : Store :=
  { s with withdrawalsRootMeta := some root }

/-- Slots with blocks in `[from, to]`, ascending, capped at `limit`, which is compared after a slot
is taken: a limit of 0 takes one. -/
def blockSlotsInRange (s : Store) (first last : UInt64) (limit : ℕ) : List UInt64 :=
  (((List.range' first.toNat (last.toNat + 1 - first.toNat)).map UInt64.ofNat).filter
    fun slot => (s.blocks slot).isSome).take (max limit 1)

def getTransaction (s : Store) (sig : Signature) :
    Except StoreError (Option (TxLocator × VersionedTransaction × ExecutedTransactionMeta)) :=
  match s.txLoc sig with
  | none => .ok none
  | some locator =>
    match s.txMeta sig with
    | none => .error (.invariant "locator without meta")
    | some txMeta =>
      match s.blocks locator.slot with
      | none => .error (.invariant "locator points at missing block")
      | some block =>
        match block.transactions[locator.index.toNat]? with
        | none => .error (.invariant "locator index out of range")
        | some tx => .ok (some (locator, tx, txMeta))

section Commit

variable (P : Prims)

def prepareStateUpdate (s : Store) (updates : List Smt.LeafUpdate) : Smt.StateUpdate :=
  Smt.applyUpdates P s.smtNodes updates

/-- An account with its inclusion or absence proof against the committed nodes. -/
def proveAccount (s : Store) (pubkey : Pubkey) : Option StoredAccount × Smt.SmtProof :=
  (s.getAccount pubkey, Smt.prove P s.smtNodes pubkey)

/-- Persist dirty nodes; a node equal to its depth's empty hash is removed. -/
def writeSmtNodes (table : PartialMap Smt.NodeKey H256) (update : Smt.StateUpdate) :
    PartialMap Smt.NodeKey H256 := fun key =>
  match update.nodeWrites key with
  | some value => if value = Smt.emptyHashes P key.depth then none else some value
  | none => table key

def writeAccount (accounts : PartialMap Pubkey StoredAccount)
    (write : Pubkey × Option StoredAccount) : PartialMap Pubkey StoredAccount :=
  match write.2 with
  | some account => accounts.insert write.1 account
  | none => accounts.remove write.1

def indexTransaction (slot : UInt64) (s : Store)
    (entry : (VersionedTransaction × ExecutedTransactionMeta) × ℕ) : Except StoreError Store :=
  match entry.1.1.signature with
  | none => .error (.invariant "transaction without signature")
  | some sig =>
    let index := UInt32.ofNat entry.2
    .ok { s with
      txLoc := s.txLoc.insert sig ⟨slot, index⟩
      txMeta := s.txMeta.insert sig entry.1.2
      addrSigs := entry.1.1.message.staticAccountKeys.foldl
        (fun table address => table.insert (addrSigKey address slot index) sig) s.addrSigs }

def commitBlock (s : Store) (block : Block) (metas : List ExecutedTransactionMeta)
    (accountWrites : List (Pubkey × Option StoredAccount)) (stateUpdate : Smt.StateUpdate)
    (queue : BlockhashQueue) (nullifiers : List H256) : Except StoreError Store :=
  if metas.length ≠ block.transactions.length then
    .error (.invariant "metas must parallel block transactions")
  else if block.header.stateRoot ≠ stateUpdate.newRoot then
    .error (.invariant "header state root does not match prepared update")
  else if s.latestSlot.any (block.header.slot ≤ ·) then
    .error (.invariant ("non-monotonic slot " ++ toString block.header.slot ++ " (latest " ++
      toString (s.latestSlot.getD 0) ++ ")"))
  else
    let written := { s with
      accounts := accountWrites.foldl writeAccount s.accounts
      smtNodes := writeSmtNodes P s.smtNodes stateUpdate
      blocks := s.blocks.insert block.header.slot block }
    match ((block.transactions.zip metas).zipIdx).foldlM (indexTransaction block.header.slot)
        written with
    | .error e => .error e
    | .ok indexed => .ok { indexed with
        nullifiers := nullifiers.foldl (fun t n => t.insert n block.header.slot) indexed.nullifiers
        latestSlot := some block.header.slot
        stateRoot := some stateUpdate.newRoot
        blockhashQueue := some queue.toBytes }

/-- Initialize chain state from genesis; a rerun with the same genesis changes nothing. -/
def initializeGenesis (s : Store) (genesis : GenesisConfig)
    (extraAccounts : List (Pubkey × StoredAccount)) : Except StoreError Store :=
  let expected := genesis.genesisHash P
  match s.genesisHash with
  | some existing =>
    if existing ≠ expected then
      .error (.invariant "database was initialized with a different genesis")
    else if s.stateRoot.isSome then .ok s
    else .error (.invariant "genesis present but no state root")
  | none =>
    let accounts := genesis.allocations.map
      (fun a => (a.pubkey, StoredAccount.newSystem a.lamports))
      ++ extraAccounts
    let update := s.prepareStateUpdate P (accounts.map fun e => (e.1, some (e.2.hash P e.1)))
    .ok { s with
      accounts := s.accounts.insertAll accounts
      smtNodes := writeSmtNodes P s.smtNodes update
      genesisHash := some expected
      stateRoot := some update.newRoot }

/-- Genesis accepts a database it was applied to as it is, and otherwise writes only the accounts,
the state tree and its own hash. -/
theorem initializeGenesis_cases {P : Prims} {s s' : Store} {genesis : GenesisConfig}
    {extraAccounts : List (Pubkey × StoredAccount)}
    (h : s.initializeGenesis P genesis extraAccounts = .ok s') :
    (s.genesisHash = some (genesis.genesisHash P) ∧ s.stateRoot.isSome ∧ s' = s) ∨
    (s.genesisHash = none ∧ ∃ nodes root, s' = { s with
      accounts := s.accounts.insertAll (genesis.allocations.map
        (fun a => (a.pubkey, StoredAccount.newSystem a.lamports)) ++ extraAccounts)
      smtNodes := nodes
      genesisHash := some (genesis.genesisHash P)
      stateRoot := some root }) := by
  unfold initializeGenesis at h
  dsimp only at h
  split at h
  · rename_i existing hexisting
    split_ifs at h with hne hroot
    cases h
    rw [not_not] at hne
    exact .inl ⟨hne ▸ hexisting, hroot, rfl⟩
  · rename_i hnone
    cases h
    exact .inr ⟨hnone, _, _, rfl⟩

end Commit

end Store

end Zul
