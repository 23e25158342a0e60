import Zul.Executor.Block
import Zul.Node.Mempool
import Zul.Node.Value
import Zul.Node.WithdrawSmt

/-! # The sequencer node

Block production: drain the mempool and the deposit queue, run the regular transactions, layer
the pool's writes, the deposits and the withdrawals on top, seal the block and commit it. A
failure or panic before the commit leaves the store and the tip unchanged.
-/

namespace Zul

namespace Node

open Bridge Executor Privacy

structure NodeOptions where
  heartbeatMs : UInt64
  mempoolCapacity : ℕ
  maxPerPayer : ℕ
  maxBlockTransactions : ℕ
  /-- The L1 mint whose deposits credit native lamports; `none` on a SOL-backed chain. -/
  gasMint : Option Pubkey

/-- What a node is built over: the libraries, the sequencer's key and the configuration. -/
structure Env where
  prims : Prims
  svm : SvmRuntime
  verifier : ProofVerifier
  /-- bincode of a transaction. -/
  serialize : VersionedTransaction → List UInt8
  /-- The sequencer's signature over a header hash. -/
  sign : H256 → Signature
  /-- Builtin programs, sysvars and preloaded programs in genesis. -/
  genesisAccounts : List (Pubkey × StoredAccount)
  genesis : GenesisConfig
  options : NodeOptions

namespace Env

variable (E : Env)

def feeCollector : Pubkey := E.genesis.feeCollector

def poolConfig : PoolConfig := PoolConfig.new POOL_STATE_ADDRESS POOL_VAULT_ADDRESS E.feeCollector

end Env

inductive NodeError
  | panic
  | store (e : StoreError)
  | pool (e : PoolServiceError)
  | other (message : String)
  deriving DecidableEq

structure ChainTip where
  queue : BlockhashQueue
  slot : UInt64
  blockhash : H256
  lastBlockUnixMs : UInt64

end Node

open Node in
structure Node where
  store : Store
  tip : ChainTip
  mempool : Mempool
  pendingDeposits : List Bridge.DepositEvent
  /-- The in-memory withdrawals tree. -/
  withdrawals : PartialMap Smt.NodeKey H256

namespace Node

open Bridge Executor Privacy

variable (E : Env)

/-! ## The pool stage -/

structure PoolStage where
  writes : AccountWrites
  included : List (VersionedTransaction × ExecutedTransactionMeta)
  nullifiers : List H256

/-- The block entry of a pool transaction, with the payer's balance after the merge. -/
def poolEntry (writes : AccountWrites) (e : PoolTx × Except String Unit) :
    VersionedTransaction × ExecutedTransactionMeta :=
  let post := (lamportsInWrites writes e.1.feePayer).getD 0
  (e.1.transaction, match e.2 with
    | .ok () => poolMeta true none POOL_TX_FEE 0 post []
    | .error message => poolMeta false (some message) 0 0 post [])

/-- Run the pool transactions over the regular transactions' writes and merge the result. -/
def poolStage (order : MapOrder) (store : Store) (poolTxs : List PoolTx) (writes : AccountWrites)
    (included : List (VersionedTransaction × ExecutedTransactionMeta)) :
    Except NodeError PoolStage :=
  if poolTxs.isEmpty then .ok ⟨writes, included, []⟩
  else
    match PoolService.processBlockSeeded E.prims E.verifier E.poolConfig order store
        (poolTxs.map fun pt => (pt.feePayer, pt.instruction)) (seedOf writes) with
    | none => .error .panic
    | some (.error e) => .error (.pool e)
    | some (.ok result) =>
      let writes := result.accountWrites.foldl mergeWrite writes
      .ok {
        writes
        included := included ++ (poolTxs.zip result.statuses).map (poolEntry writes)
        nullifiers := result.nullifiers }

/-! ## A block -/

structure BlockDraft where
  writes : AccountWrites
  included : List (VersionedTransaction × ExecutedTransactionMeta)
  nullifiers : List H256
  credited : List DepositEvent
  accepted : List WithdrawTx

/-- The environment's choices for one block: its time and the iteration order of its maps. -/
structure BlockChoice where
  timestampMs : UInt64
  order : MapOrder

def blockInput (choice : BlockChoice) (tip : ChainTip) (regularTxs : List VersionedTransaction) :
    BlockExecutionInput where
  slot := tip.slot + 1
  timestampMs := choice.timestampMs
  parentBlockhash := tip.blockhash
  transactions := regularTxs
  queue := tip.queue

/-- Execute a block's transactions and apply its deposits and withdrawals. -/
def draftBlock (choice : BlockChoice) (store : Store) (tip : ChainTip)
    (transactions : List VersionedTransaction) (deposits : List DepositEvent) :
    Except NodeError BlockDraft :=
  let (withdrawTxs, rest) := partitionWithdraws transactions
  let (poolTxs, regularTxs) := partition rest
  match executeBlock E.svm E.feeCollector store (blockInput choice tip regularTxs) with
  | .error e => .error (.store e)
  | .ok output =>
    match poolStage E choice.order store poolTxs output.accountWrites output.included with
    | .error e => .error e
    | .ok pool =>
      match applyDeposits E.prims store E.options.gasMint deposits pool.writes with
      | none => .error .panic
      | some (writes, credited) =>
        match applyWithdraws E.prims store E.options.gasMint E.feeCollector withdrawTxs writes
            pool.included with
        | none => .error .panic
        | some withdrawn => .ok {
            writes := withdrawn.writes
            included := withdrawn.included
            nullifiers := pool.nullifiers
            credited
            accepted := withdrawn.accepted }

def sealBlock (choice : BlockChoice) (tip : ChainTip) (stateRoot : H256) (draft : BlockDraft) :
    Block :=
  let transactions := draft.included.map Prod.fst
  let header : BlockHeader := {
    slot := tip.slot + 1
    parentHash := tip.blockhash
    stateRoot
    transactionsRoot := Block.transactionsRoot E.prims E.serialize transactions
    timestampMs := choice.timestampMs
    transactionCount := UInt32.ofNat transactions.length }
  { header, transactions, sequencerSignature := E.sign (header.hash E.prims) }

def insertLeaves (P : Prims) (tree : PartialMap Smt.NodeKey H256) (accepted : List WithdrawTx) :
    PartialMap Smt.NodeKey H256 :=
  accepted.foldl (fun t w => WithdrawSmt.apply P t (w.leaf P).1 (w.leaf P).2) tree

/-- Commit a sealed draft, advance the tip and update the withdrawals tree. -/
def commitDraft (choice : BlockChoice) (node : Node) (draft : BlockDraft) : Except NodeError Node :=
  let accountWrites := choice.order.toList draft.writes
  let leafUpdates := accountWrites.map fun e => (e.1, e.2.map (·.hash E.prims e.1))
  let stateUpdate := node.store.prepareStateUpdate E.prims leafUpdates
  let block := sealBlock E choice node.tip stateUpdate.newRoot draft
  let blockhash := block.header.hash E.prims
  let queue := node.tip.queue.register block.header.slot blockhash
  match node.store.commitBlock E.prims block (draft.included.map Prod.snd) accountWrites stateUpdate
      queue draft.nullifiers with
  | .error e => .error (.store e)
  | .ok store =>
    let tip : ChainTip := ⟨queue, block.header.slot, blockhash, choice.timestampMs⟩
    if draft.accepted.isEmpty then .ok { node with store, tip }
    else
      let withdrawals := insertLeaves E.prims node.withdrawals draft.accepted
      .ok { node with
        store := store.setWithdrawalsRoot (WithdrawSmt.root E.prims withdrawals)
        tip
        withdrawals }

/-- Execute and commit a block of drained transactions and deposits, under the tip lock. -/
def produce (choice : BlockChoice) (node : Node) (transactions : List VersionedTransaction)
    (deposits : List DepositEvent) : Except NodeError Node :=
  match draftBlock E choice node.store node.tip transactions deposits with
  | .error e => .error e
  | .ok draft => commitDraft E choice node draft

def drainForBlock (node : Node) : Node × List VersionedTransaction × List DepositEvent :=
  let (mempool, transactions) := node.mempool.drain E.options.maxBlockTransactions
  ({ node with mempool, pendingDeposits := [] }, transactions, node.pendingDeposits)

/-- Whether a block is due: there is work, or the heartbeat elapsed. -/
def isDue (timestampMs : UInt64) (node : Node) (transactions : List VersionedTransaction)
    (deposits : List DepositEvent) : Bool :=
  !(transactions.isEmpty && deposits.isEmpty) ||
    E.options.heartbeatMs ≤ timestampMs.saturatingSub node.tip.lastBlockUnixMs

/-- Produce one block if there is work or a heartbeat is due. A failure loses the drained
transactions and deposits. -/
def tryProduceBlock (choice : BlockChoice) (node : Node) :
    Node × Except NodeError (Option UInt64) :=
  let (node, transactions, deposits) := drainForBlock E node
  if isDue E choice.timestampMs node transactions deposits then
    match produce E choice node transactions deposits with
    | .ok node => (node, .ok (some node.tip.slot))
    | .error e => (node, .error e)
  else (node, .ok none)

/-! ## Submission -/

inductive BackendError
  | rejected (message : String)
  | internal
  deriving DecidableEq

/-- The source's `admit`: signature, recency, and not already committed. -/
def admitTx (node : Node) (tx : VersionedTransaction) : Except BackendError Signature :=
  match tx.signature with
  | none => .error (.rejected "missing signature")
  | some sig =>
    if !E.svm.verifyAndHashMessage tx then .error (.rejected "signature verification failed")
    else if !node.tip.queue.isValid tx.message.recentBlockhash then
      .error (.rejected "blockhash not found")
    else
      match node.store.getTransaction sig with
      | .error _ => .error .internal
      | .ok (some _) => .error (.rejected "already processed")
      | .ok none => .ok sig

/-- The second half of a submission: queue an admitted transaction. -/
def pushTransaction (node : Node) (tx : VersionedTransaction) : Node :=
  { node with mempool := (node.mempool.push tx).1 }

def enqueueDeposits (node : Node) (deposits : List DepositEvent) : Node :=
  { node with pendingDeposits := node.pendingDeposits ++ deposits }

/-! ## Boot -/

/-- Whether a committed withdrawal succeeded, by its transaction status. -/
def withdrawalSucceeded (store : Store) (w : WithdrawTx) : Bool :=
  match w.transaction.signature with
  | none => false
  | some sig =>
    match store.getTransaction sig with
    | .ok (some (_, _, txMeta)) => isOk txMeta.status
    | _ => false

def rebuildWithdrawals (P : Prims) (store : Store) : PartialMap Smt.NodeKey H256 :=
  let latest := store.latestSlot.getD 0
  let blocks := (store.blockSlotsInRange 1 latest (2 ^ 64 - 1)).filterMap store.getBlock
  blocks.foldl
    (fun tree block => insertLeaves P tree
      ((partitionWithdraws block.transactions).1.filter (withdrawalSucceeded store)))
    fun _ => none

/-- Restore the tip; on first boot the genesis hash is the slot-0 blockhash. -/
def restoreTip (store : Store) (nowMs : UInt64) : Except NodeError ChainTip :=
  match store.latestSlot with
  | some latest =>
    match store.loadBlockhashQueue, store.getBlock latest with
    | some queue, some block => .ok ⟨queue, latest, block.header.hash E.prims, nowMs⟩
    | none, _ => .error (.other "store has blocks but no blockhash queue")
    | _, none => .error (.other "latest slot missing")
  | none =>
    let genesisHash := E.genesis.genesisHash E.prims
    .ok ⟨BlockhashQueue.new.register 0 genesisHash, 0, genesisHash, nowMs⟩

/-- Open a node on a store: apply genesis, restore the tip, rebuild the withdrawals tree. -/
def boot (store : Store) (nowMs : UInt64) : Except NodeError Node :=
  let extra := E.genesisAccounts ++
    [(E.poolConfig.poolState, PoolService.genesisPoolAccount E.prims)]
  match store.initializeGenesis E.prims E.genesis extra with
  | .error e => .error (.store e)
  | .ok store =>
    match restoreTip E store nowMs with
    | .error e => .error e
    | .ok tip =>
      let withdrawals := rebuildWithdrawals E.prims store
      .ok {
        store := store.setWithdrawalsRoot (WithdrawSmt.root E.prims withdrawals)
        tip
        mempool := Mempool.new E.options.mempoolCapacity E.options.maxPerPayer
        pendingDeposits := []
        withdrawals }

variable {E} in
/-- Opening a store applies genesis, restores the tip and rebuilds the withdrawals tree; the
mempool and the deposit queue start empty. -/
theorem boot_cases {store : Store} {nowMs : UInt64} {node : Node}
    (h : boot E store nowMs = .ok node) :
    ∃ store', store.initializeGenesis E.prims E.genesis (E.genesisAccounts ++
        [(E.poolConfig.poolState, PoolService.genesisPoolAccount E.prims)]) = .ok store' ∧
      restoreTip E store' nowMs = .ok node.tip ∧
      node.withdrawals = rebuildWithdrawals E.prims store' ∧
      node.store = store'.setWithdrawalsRoot (WithdrawSmt.root E.prims node.withdrawals) ∧
      node.mempool = Mempool.new E.options.mempoolCapacity E.options.maxPerPayer ∧
      node.pendingDeposits = [] := by
  unfold boot at h
  dsimp only at h
  split at h
  · cases h
  · rename_i store' hgenesis
    split at h
    · cases h
    · rename_i tip htip
      cases h
      exact ⟨store', hgenesis, htip, rfl, rfl, rfl, rfl⟩

/-- The inclusion proof served for a withdrawal; an error when it does not verify against the
current root. -/
def computeWithdrawalProof (P : Prims) (withdrawals : PartialMap Smt.NodeKey H256)
    (recipient assetId : Bytes 32) (amount nonce : UInt64) :
    Except NodeError (H256 × Smt.SmtProof) :=
  let leaf := withdrawalPubkey P recipient nonce
  let accountHash := withdrawalAccountHash P recipient assetId amount nonce
  let proof := WithdrawSmt.prove P withdrawals leaf
  let root := WithdrawSmt.root P withdrawals
  if WithdrawSmt.verify P root leaf accountHash proof then .ok (root, proof)
  else .error (.other "withdrawal commitment not found (not yet committed?)")

/-! ## A small configuration

Stand-ins for the libraries, for concrete runs: a polynomial hash, a machine that loads no
account, and a verifier that accepts every proof. -/

namespace Sample

def polyHash (bytes : List UInt8) : H256 :=
  ⟨LittleEndian.encode 32 (bytes.foldl (fun acc b => (acc * 257 + b.toNat + 1) % 2 ^ 256) 0),
    LittleEndian.length_encode ..⟩

def prims : Prims where
  blake3 := polyHash
  findProgramAddress seeds program := polyHash (seeds.flatten ++ program.toList)
  poseidon inputs := inputs.foldl (fun acc x => acc * 31 + x + 1) 7

def svm : SvmRuntime where
  verifyAndHashMessage _ := true
  tryCreate _ := .ok ()
  isWritable _ _ := true
  computeBudget _ := .ok 0
  signatureCount _ := 1
  getEpoch slot := slot / 432000
  loadAndExecute _ _ _ batch := batch.map fun _ => .error (.runtime 2)

def verifier : ProofVerifier where
  verifyTransfer _ _ := true
  verifyUnshield _ _ := true

def payer : Pubkey := Bytes.replicate 32 1

def collector : Pubkey := Bytes.replicate 32 3

def options : NodeOptions where
  heartbeatMs := 10000
  mempoolCapacity := 10000
  maxPerPayer := 128
  maxBlockTransactions := 1024
  gasMint := none

def env : Env where
  prims := prims
  svm := svm
  verifier := verifier
  serialize tx := (tx.signatures.map Bytes.toList).flatten
  sign _ := Bytes.replicate 64 0
  genesisAccounts := []
  genesis := {
    chainName := "zul-sample"
    creationTimeMs := 1760000000000
    sequencer := Bytes.replicate 32 4
    feeCollector := collector
    allocations := [⟨payer, 1000000000⟩] }
  options := options

def withdrawTx (sig : UInt8) (recipient : Bytes 32) (amount nonce : UInt64) (blockhash : H256) :
    VersionedTransaction where
  signatures := [Bytes.replicate 64 sig]
  message := {
    header := ⟨1, 0, 1⟩
    staticAccountKeys := [payer, BRIDGE_WITHDRAW_PROGRAM_ID]
    recentBlockhash := blockhash
    instructions := [⟨1, [0],
      recipient.toList ++ LittleEndian.u64 amount ++ LittleEndian.u64 nonce⟩] }

theorem parseWithdraw_withdrawTx (sig : UInt8) (recipient : Bytes 32) (amount nonce : UInt64)
    (blockhash : H256) :
    parseWithdraw (withdrawTx sig recipient amount nonce blockhash) =
      some ⟨withdrawTx sig recipient amount nonce blockhash, payer, recipient, NATIVE_ASSET_ID,
        amount, nonce⟩ := by
  have hdrop : recipient.toList.drop 40 = [] := List.drop_of_length_le (by simp)
  have htake : (LittleEndian.u64 nonce).take 8 = LittleEndian.u64 nonce :=
    List.take_of_length_le (by simp)
  simp [parseWithdraw, withdrawTx, List.drop_append, hdrop, htake]

end Sample

end Node

end Zul
