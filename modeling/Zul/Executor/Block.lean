import Zul.Store.Store

/-! # Block execution

The executor checks a block's regular transactions, hands the batch to the Solana virtual
machine and collects the account states it returns. The machine is third-party code: it is the
parameter `SvmRuntime`, and its results are whatever it returns for the batch.
-/

namespace Zul.Executor

structure CheckedTransaction where
  transaction : VersionedTransaction
  transactionFee : UInt64
  prioritizationFee : UInt64

structure ExecutedTransaction where
  fee : UInt64
  /-- Every account the message lists, in message order, as the instructions left it. -/
  accounts : List (Pubkey × StoredAccount)
  /-- The states to keep if the transaction failed: fee payer and nonce. -/
  rollbackAccounts : List (Pubkey × StoredAccount)
  status : Except TransactionError Unit
  executedUnits : UInt64
  logMessages : Option (List String)

inductive ProcessedTransaction
  | feesOnly (fee : UInt64) (rollbackAccounts : List (Pubkey × StoredAccount))
      (loadError : TransactionError)
  | executed (transaction : ExecutedTransaction)

/-- The Solana libraries: signature checks, sanitization, budgets and batch execution. -/
structure SvmRuntime where
  verifyAndHashMessage : VersionedTransaction → Bool
  /-- `SanitizedTransaction::try_create` under the reserved keys, without lookup tables. -/
  tryCreate : VersionedTransaction → Except TransactionError Unit
  /-- Whether the sanitized message lists the account at an index as writable. -/
  isWritable : VersionedTransaction → ℕ → Bool
  /-- The prioritization fee of the compute-budget instructions. -/
  computeBudget : VersionedTransaction → Except TransactionError UInt64
  signatureCount : VersionedTransaction → UInt64
  /-- The epoch of a slot under `EpochSchedule::without_warmup`. -/
  getEpoch : UInt64 → UInt64
  /-- `load_and_execute_sanitized_transactions` over an account source, a slot and the parent
  blockhash. -/
  loadAndExecute : PartialMap Pubkey StoredAccount → UInt64 → H256 → List CheckedTransaction →
    List (Except TransactionError ProcessedTransaction)

structure BlockExecutionInput where
  slot : UInt64
  timestampMs : UInt64
  parentBlockhash : H256
  transactions : List VersionedTransaction
  queue : BlockhashQueue

structure BlockExecutionOutput where
  included : List (VersionedTransaction × ExecutedTransactionMeta)
  dropped : List (Signature × TransactionError)
  /-- Final account writes; `none` is a deletion. -/
  accountWrites : AccountWrites
  feesCollected : UInt64

/-! ## The clock -/

/-- `SysvarC1ock11111111111111111111111111111111`. -/
def CLOCK_ID : Pubkey :=
  ⟨[6, 167, 213, 23, 24, 199, 116, 201, 40, 86, 99, 152, 105, 29, 94, 182, 139, 94, 184, 163, 155,
    75, 109, 92, 115, 85, 91, 33, 0, 0, 0, 0], rfl⟩

/-- `Sysvar1111111111111111111111111111111111111`. -/
def SYSVAR_OWNER : Pubkey :=
  ⟨[6, 167, 213, 23, 24, 117, 247, 41, 199, 61, 147, 64, 143, 33, 97, 32, 6, 126, 216, 140, 118,
    224, 140, 40, 127, 193, 148, 96, 0, 0, 0, 0], rfl⟩

variable (R : SvmRuntime)

def clockAccount (slot timestampMs : UInt64) : StoredAccount where
  lamports := 1
  data :=
    let seconds := LittleEndian.u64 (timestampMs / 1000)
    let epoch := LittleEndian.u64 (R.getEpoch slot)
    LittleEndian.u64 slot ++ seconds ++ epoch ++ epoch ++ seconds
  owner := SYSVAR_OWNER
  executable := false
  rentEpoch := RENT_EXEMPT_RENT_EPOCH

/-- The per-block overlay of the account callback: the refreshed clock. -/
def blockOverlay (input : BlockExecutionInput) : PartialMap Pubkey StoredAccount :=
  PartialMap.insert (fun _ => none) CLOCK_ID (clockAccount R input.slot input.timestampMs)

/-- The accounts the machine loads: the overlay, then the committed store. -/
def callback (store : Store) (input : BlockExecutionInput) : PartialMap Pubkey StoredAccount :=
  (blockOverlay R input).onto store.getAccount

/-! ## Checks -/

structure Checks where
  seen : List Signature
  dropped : List (Signature × TransactionError)
  batch : List CheckedTransaction

/-- Signature, recency, sanitization and budget of one transaction. -/
def checkTransaction (queue : BlockhashQueue) (tx : VersionedTransaction) :
    Except TransactionError CheckedTransaction := do
  if !R.verifyAndHashMessage tx then throw .signatureFailure
  if !queue.isValid tx.message.recentBlockhash then throw .blockhashNotFound
  R.tryCreate tx
  let prioritizationFee ← R.computeBudget tx
  return ⟨tx, (R.signatureCount tx).saturatingMul LAMPORTS_PER_SIGNATURE, prioritizationFee⟩

/-- One round of the checking loop: an unsigned transaction is skipped, a signature seen in
this batch or already committed is dropped. -/
def checkOne (store : Store) (queue : BlockhashQueue) (c : Checks) (tx : VersionedTransaction) :
    Except StoreError Checks :=
  match tx.signature with
  | none => .ok c
  | some sig =>
    if sig ∈ c.seen then
      .ok { c with dropped := c.dropped ++ [(sig, .alreadyProcessed)] }
    else
      let c := { c with seen := sig :: c.seen }
      match store.getTransaction sig with
      | .error e => .error e
      | .ok (some _) => .ok { c with dropped := c.dropped ++ [(sig, .alreadyProcessed)] }
      | .ok none =>
        match checkTransaction R queue tx with
        | .error e => .ok { c with dropped := c.dropped ++ [(sig, e)] }
        | .ok checked => .ok { c with batch := c.batch ++ [checked] }

/-! ## Collecting results -/

structure Collected where
  finalAccounts : PartialMap Pubkey StoredAccount
  included : List (VersionedTransaction × ExecutedTransactionMeta)
  dropped : List (Signature × TransactionError)
  feesCollected : UInt64

def lamportsOf (view finalAccounts : PartialMap Pubkey StoredAccount) (key : Pubkey) : UInt64 :=
  match finalAccounts.onto view key with
  | some account => account.lamports
  | none => 0

/-- The returned accounts whose index the message lists as writable. -/
def writableAccounts (tx : VersionedTransaction) (accounts : List (Pubkey × StoredAccount)) :
    List (Pubkey × StoredAccount) :=
  (accounts.zipIdx.filter fun e => R.isWritable tx e.2).map Prod.fst

def collectedAccounts (tx : VersionedTransaction) :
    Except TransactionError ProcessedTransaction → List (Pubkey × StoredAccount)
  | .error _ => []
  | .ok (.feesOnly _ rollbackAccounts _) => rollbackAccounts
  | .ok (.executed e) => writableAccounts R tx e.accounts

def collectOne (view : PartialMap Pubkey StoredAccount) (c : Collected)
    (entry : Except TransactionError ProcessedTransaction × CheckedTransaction) : Collected :=
  let tx := entry.2.transaction
  let balances (finalAccounts : PartialMap Pubkey StoredAccount) :=
    tx.message.staticAccountKeys.map (lamportsOf view finalAccounts)
  let finalAccounts := c.finalAccounts.insertAll (collectedAccounts R tx entry.1)
  match entry.1 with
  | .error e => { c with dropped := c.dropped ++ (tx.signature.map (·, e)).toList }
  | .ok (.feesOnly fee _ loadError) =>
    { c with
      finalAccounts
      feesCollected := c.feesCollected.saturatingAdd fee
      included := c.included ++
        [(tx, ⟨.error loadError, fee, 0, [], balances c.finalAccounts, balances finalAccounts⟩)] }
  | .ok (.executed e) =>
    { c with
      finalAccounts
      feesCollected := c.feesCollected.saturatingAdd e.fee
      included := c.included ++
        [(tx, ⟨e.status, e.fee, e.executedUnits, e.logMessages.getD [], balances c.finalAccounts,
          balances finalAccounts⟩)] }

def creditCollector (collector : Pubkey) (view : PartialMap Pubkey StoredAccount) (fees : UInt64)
    (finalAccounts : PartialMap Pubkey StoredAccount) : PartialMap Pubkey StoredAccount :=
  if 0 < fees then
    let account := (finalAccounts.onto view collector).getD (StoredAccount.newSystem 0)
    finalAccounts.insert collector { account with lamports := account.lamports.saturatingAdd fees }
  else finalAccounts

/-- The write for a final account: an account without lamports is deleted. -/
def asWrite (account : StoredAccount) : Option StoredAccount :=
  if account.lamports = 0 then none else some account

def mergeWrites (overlay finalAccounts : PartialMap Pubkey StoredAccount) : AccountWrites :=
  fun k =>
  (finalAccounts.onto overlay k).map asWrite

/-- Execute one block's transactions against committed state; nothing is persisted. -/
def executeBlock (feeCollector : Pubkey) (store : Store) (input : BlockExecutionInput) :
    Except StoreError BlockExecutionOutput := do
  let checks ← input.transactions.foldlM (checkOne R store input.queue) ⟨[], [], []⟩
  let view := callback R store input
  let results := R.loadAndExecute view input.slot input.parentBlockhash checks.batch
  let collected := (results.zip checks.batch).foldl (collectOne R view)
    ⟨fun _ => none, [], checks.dropped, 0⟩
  let finalAccounts := creditCollector feeCollector view collected.feesCollected
    collected.finalAccounts
  return {
    included := collected.included
    dropped := collected.dropped
    accountWrites := mergeWrites (blockOverlay R input) finalAccounts
    feesCollected := collected.feesCollected }

end Zul.Executor
