import Zul.Privacy.Processor
import Zul.Primitives.WrappedSpl
import Zul.Store.Store

/-! # The node-integrated pool

Processes a block's pool transactions over two overlays: lamports, seeded with the balances the
block's regular transactions left, and wrapped-token accounts. The result is the list of account
writes the node merges into the block. A token buffer too short for its amount field panics,
here `none`.
-/

namespace Zul.Privacy

/-- The shielded pool's program, `[0x05, 0x21, 0, …, 0]`. -/
def POOL_PROGRAM_ID : Pubkey := ⟨[0x05, 0x21] ++ List.replicate 30 0, rfl⟩

def POOL_STATE_ADDRESS : Pubkey := ⟨[0x05, 0x21] ++ List.replicate 29 0 ++ [0x01], rfl⟩

def POOL_VAULT_ADDRESS : Pubkey := ⟨[0x05, 0x21] ++ List.replicate 29 0 ++ [0x02], rfl⟩

structure PoolConfig where
  poolState : Pubkey
  vault : Pubkey
  feeCollector : Pubkey
  flatFee : UInt64
  deriving DecidableEq

def PoolConfig.new (poolState vault feeCollector : Pubkey) : PoolConfig :=
  ⟨poolState, vault, feeCollector, LAMPORTS_PER_SIGNATURE⟩

inductive PoolServiceError
  | corruptState
  | pool (e : PoolError)
  | insufficientFunds (what : String)
  deriving DecidableEq

def PoolServiceError.message : PoolServiceError → String
  | .corruptState => "pool state account is corrupt"
  | .pool e => "pool error: " ++ e.message
  | .insufficientFunds what => "insufficient funds for " ++ what

structure PoolBlockResult where
  accountWrites : List (Pubkey × Option StoredAccount)
  nullifiers : List H256
  noteEvents : List NoteEvent
  statuses : List (Except String Unit)

def PoolBlockResult.default : PoolBlockResult := ⟨[], [], [], []⟩

structure Running where
  ctx : PoolContext
  overlay : PartialMap Pubkey UInt64
  tokenOverlay : PartialMap Pubkey StoredAccount
  noteEvents : List NoteEvent

structure MapOrder where
  toList : {V : Type} → PartialMap Pubkey V → List (Pubkey × V)
  enumerates : ∀ {V : Type} (m : PartialMap Pubkey V), PartialMap.Enumerates (toList m) m

theorem MapOrder.nonempty : Nonempty MapOrder :=
  ⟨⟨fun m => (PartialMap.exists_enumerates m).choose,
    fun m => (PartialMap.exists_enumerates m).choose_spec⟩⟩

namespace PoolService

variable (P : Prims) (V : ProofVerifier) (cfg : PoolConfig)

def genesisPoolAccount : StoredAccount where
  lamports := 1
  data := (PoolState.new P).toBytes
  owner := POOL_PROGRAM_ID
  executable := false
  rentEpoch := RENT_EXEMPT_RENT_EPOCH

def loadState (store : Store) : Except PoolServiceError PoolState :=
  match store.getAccount cfg.poolState with
  | some account =>
    match PoolState.fromBytes account.data with
    | .ok state => .ok state
    | .error _ => .error .corruptState
  | none => .ok (PoolState.new P)

/-! ## Lamports -/

def balance (store : Store) (overlay : PartialMap Pubkey UInt64) (key : Pubkey) : UInt64 :=
  match overlay key with
  | some v => v
  | none =>
    match store.getAccount key with
    | some account => account.lamports
    | none => 0

def moveLamports (store : Store) (overlay : PartialMap Pubkey UInt64) (source target : Pubkey)
    (amount : UInt64) : PartialMap Pubkey UInt64 :=
  let sourceBal := balance store overlay source
  let targetBal := balance store overlay target
  (overlay.insert source (sourceBal.saturatingSub amount)).insert target
    (targetBal.saturatingAdd amount)

/-- The store write for an overlay balance; only an account that never existed is dropped. -/
def lamportWrite (store : Store) (pubkey : Pubkey) (lamports : UInt64) : Option StoredAccount :=
  match store.getAccount pubkey with
  | some account => some { account with lamports }
  | none => if lamports = 0 then none else some (StoredAccount.newSystem lamports)

/-! ## Wrapped tokens -/

/-- The wrapped-token account of an owner for an L1 mint. -/
def tokenKey (mint : Bytes 32) (owner : Pubkey) : Pubkey :=
  WrappedSpl.associatedTokenAddress P owner (WrappedSpl.wrappedMintAddress P mint)

def tokenBalance (store : Store) (tokenOverlay : PartialMap Pubkey StoredAccount)
    (mint : Bytes 32) (owner : Pubkey) : UInt64 :=
  match tokenOverlay.onto store.getAccount (tokenKey P mint owner) with
  | some account => (WrappedSpl.tokenAccountAmount account.data).getD 0
  | none => 0

def freshTokenAccount (wmint owner : Pubkey) : StoredAccount where
  lamports := WrappedSpl.rentExemptLamports WrappedSpl.ACCOUNT_LEN
  data := WrappedSpl.packTokenAccount wmint owner 0
  owner := WrappedSpl.TOKEN_PROGRAM_ID
  executable := false
  rentEpoch := RENT_EXEMPT_RENT_EPOCH

/-- An owner's token account: the overlay's, the store's, or a fresh one. -/
def tokenAccount (store : Store) (tokenOverlay : PartialMap Pubkey StoredAccount)
    (mint : Bytes 32) (owner : Pubkey) : StoredAccount :=
  (tokenOverlay.onto store.getAccount (tokenKey P mint owner)).getD
    (freshTokenAccount (WrappedSpl.wrappedMintAddress P mint) owner)

/-- Set the amount of an owner's token account to `f` of what it was. -/
def updateToken (store : Store) (tokenOverlay : PartialMap Pubkey StoredAccount)
    (mint : Bytes 32) (owner : Pubkey) (f : UInt64 → UInt64) :
    Option (PartialMap Pubkey StoredAccount) := do
  let account := tokenAccount P store tokenOverlay mint owner
  let amount := (WrappedSpl.tokenAccountAmount account.data).getD 0
  let data ← WrappedSpl.setTokenAccountAmount account.data (f amount)
  return tokenOverlay.insert (tokenKey P mint owner) { account with data }

/-- Move wrapped tokens; the target is read after the source was written. -/
def moveWrapped (store : Store) (tokenOverlay : PartialMap Pubkey StoredAccount)
    (mint : Bytes 32) (source target : Pubkey) (amount : UInt64) :
    Option (PartialMap Pubkey StoredAccount) := do
  let tokenOverlay ← updateToken P store tokenOverlay mint source (·.saturatingSub amount)
  updateToken P store tokenOverlay mint target (·.saturatingAdd amount)

/-! ## One transaction -/

def checkFunds (store : Store) (r : Running) (feePayer : Pubkey) :
    PoolInstruction → Except PoolServiceError Unit
  | .shield asset amount _ _ => do
    let feeNeed := match asset with
      | .native => amount.saturatingAdd cfg.flatFee
      | .spl _ => cfg.flatFee
    if balance store r.overlay feePayer < feeNeed then throw (.insufficientFunds "shield fee")
    if let .spl mint := asset then
      if tokenBalance P store r.tokenOverlay mint feePayer < amount then
        throw (.insufficientFunds "shield token")
  | .transfer _ _ _ _ tfee _ => do
    if balance store r.overlay feePayer < cfg.flatFee then throw (.insufficientFunds "transfer fee")
    if balance store r.overlay cfg.vault < tfee then throw (.insufficientFunds "pool fee")
  | .unshield _ _ _ _ asset amount _ _ => do
    if balance store r.overlay feePayer < cfg.flatFee then throw (.insufficientFunds "unshield fee")
    match asset with
    | .native =>
      if balance store r.overlay cfg.vault < amount then throw (.insufficientFunds "vault")
    | .spl mint =>
      if tokenBalance P store r.tokenOverlay mint cfg.vault < amount then
        throw (.insufficientFunds "vault token")

def applyEffect (store : Store) (feePayer : Pubkey) (r : Running) : PoolEffect → Option Running
  | .depositToVault .native amount =>
    some { r with overlay := moveLamports store r.overlay feePayer cfg.vault amount }
  | .depositToVault (.spl mint) amount => do
    let tokenOverlay ← moveWrapped P store r.tokenOverlay mint feePayer cfg.vault amount
    some { r with tokenOverlay }
  | .withdrawFromVault .native amount recipient =>
    some { r with overlay := moveLamports store r.overlay cfg.vault recipient amount }
  | .withdrawFromVault (.spl mint) amount recipient => do
    let tokenOverlay ← moveWrapped P store r.tokenOverlay mint cfg.vault recipient amount
    some { r with tokenOverlay }
  | .payFee amount =>
    some { r with overlay := moveLamports store r.overlay cfg.vault cfg.feeCollector amount }

def applyOne (store : Store) (r : Running) (feePayer : Pubkey) (instruction : PoolInstruction) :
    Option (Running × Except PoolServiceError Unit) :=
  match checkFunds P cfg store r feePayer instruction with
  | .error e => some (r, .error e)
  | .ok () =>
    match PoolProcessor.process P V store.isNullifierSpent r.ctx instruction with
    | (ctx, .error e) => some ({ r with ctx }, .error (.pool e))
    | (ctx, .ok outcome) => do
      let overlay := moveLamports store r.overlay feePayer cfg.feeCollector cfg.flatFee
      let r ← outcome.effects.foldlM (applyEffect P cfg store feePayer) { r with ctx, overlay }
      some ({ r with noteEvents := r.noteEvents ++ outcome.noteEvents }, .ok ())

/-! ## A block -/

def applyNext (store : Store) (acc : Running × List (Except PoolServiceError Unit))
    (tx : Pubkey × PoolInstruction) : Option (Running × List (Except PoolServiceError Unit)) := do
  let (r, status) ← applyOne P V cfg store acc.1 tx.1 tx.2
  return (r, acc.2 ++ [status])

/-- The overlay's writes, then the token accounts, then the pool state if any transaction was
accepted. -/
def assembleWrites (order : MapOrder) (store : Store) (r : Running) (stateDirty : Bool) :
    List (Pubkey × Option StoredAccount) :=
  (order.toList r.overlay).map (fun e => (e.1, lamportWrite store e.1 e.2)) ++
    (order.toList r.tokenOverlay).map (fun e => (e.1, some e.2)) ++
    if stateDirty then
      let account := (store.getAccount cfg.poolState).getD (genesisPoolAccount P)
      [(cfg.poolState, some { account with data := r.ctx.state.toBytes })]
    else []

/-- Process a block's pool transactions over the balances in `seed`. -/
def processBlockSeeded (order : MapOrder) (store : Store) (txs : List (Pubkey × PoolInstruction))
    (seed : PartialMap Pubkey UInt64) : Option (Except PoolServiceError PoolBlockResult) :=
  if txs.isEmpty then some (.ok PoolBlockResult.default)
  else
    match loadState P cfg store with
    | .error e => some (.error e)
    | .ok state => do
      let (r, statuses) ← txs.foldlM (applyNext P V cfg store)
        (⟨⟨state, BlockNullifiers.empty⟩, seed, fun _ => none, []⟩, [])
      let stateDirty := statuses.any isOk
      some (.ok {
        accountWrites := assembleWrites P cfg order store r stateDirty
        nullifiers := r.ctx.nullifiers.newly
        noteEvents := r.noteEvents
        statuses := statuses.map fun
          | .ok () => .ok ()
          | .error e => .error e.message })

/-- Process a block's pool transactions over the committed balances. -/
def processBlock (order : MapOrder) (store : Store) (txs : List (Pubkey × PoolInstruction)) :
    Option (Except PoolServiceError PoolBlockResult) :=
  processBlockSeeded P V cfg order store txs (fun _ => none)

theorem processBlockSeeded_of_ran (order : MapOrder) {store : Store}
    {txs : List (Pubkey × PoolInstruction)} {seed : PartialMap Pubkey UInt64} {state : PoolState}
    {r : Running} {statuses : List (Except PoolServiceError Unit)} (hne : txs ≠ [])
    (hload : loadState P cfg store = .ok state)
    (hran : txs.foldlM (applyNext P V cfg store)
      (⟨⟨state, BlockNullifiers.empty⟩, seed, fun _ => none, []⟩, []) = some (r, statuses)) :
    processBlockSeeded P V cfg order store txs seed = some (.ok {
      accountWrites := assembleWrites P cfg order store r (statuses.any isOk)
      nullifiers := r.ctx.nullifiers.newly
      noteEvents := r.noteEvents
      statuses := statuses.map fun
        | .ok () => .ok ()
        | .error e => .error e.message }) := by
  rw [processBlockSeeded, if_neg (by simpa using hne)]
  simp only [hload, hran, Option.bind_eq_bind, Option.bind_some]

theorem processBlockSeeded_spec {order : MapOrder} {store : Store}
    {txs : List (Pubkey × PoolInstruction)} {seed : PartialMap Pubkey UInt64}
    {result : PoolBlockResult} (hne : txs ≠ [])
    (h : processBlockSeeded P V cfg order store txs seed = some (.ok result)) :
    ∃ state r statuses, loadState P cfg store = .ok state ∧
      txs.foldlM (applyNext P V cfg store)
        (⟨⟨state, BlockNullifiers.empty⟩, seed, fun _ => none, []⟩, []) = some (r, statuses) ∧
      result.accountWrites = assembleWrites P cfg order store r (statuses.any isOk) ∧
      result.nullifiers = r.ctx.nullifiers.newly ∧
      result.statuses = statuses.map fun
        | .ok () => .ok ()
        | .error e => .error e.message := by
  unfold processBlockSeeded at h
  rw [if_neg (by simpa using hne)] at h
  split at h
  · cases h
  · rename_i state hstate
    simp only [Option.bind_eq_bind, Option.bind_eq_some_iff] at h
    obtain ⟨⟨r, statuses⟩, hfold, h⟩ := h
    cases h
    exact ⟨state, r, statuses, hstate, hfold, rfl, rfl, rfl⟩

variable {P V cfg} in
theorem length_statuses {store : Store} {txs : List (Pubkey × PoolInstruction)}
    {acc out : Running × List (Except PoolServiceError Unit)}
    (h : txs.foldlM (applyNext P V cfg store) acc = some out) :
    out.2.length = acc.2.length + txs.length := by
  induction txs generalizing acc with
  | nil =>
    cases h
    rfl
  | cons tx txs ih =>
    rw [List.foldlM_cons, Option.bind_eq_bind, Option.bind_eq_some_iff] at h
    obtain ⟨acc₁, hone, h⟩ := h
    simp only [applyNext, Option.bind_eq_bind, Option.bind_eq_some_iff] at hone
    obtain ⟨⟨r, status⟩, -, hone⟩ := hone
    cases hone
    rw [ih h, List.length_append, List.length_cons, List.length_nil, List.length_cons]
    omega

end PoolService

end Zul.Privacy
