import Zul.Node.Reads

/-! # Reads of the pool stage

The pool's block loop as a program that reads the store. The state account and the accounts that
are written back must be readable; balances, token accounts and nullifiers that cannot be read are
taken to be missing.
-/

namespace Zul.Node

open Executor Privacy

namespace Reading

section Pool

variable (P : Prims) (V : ProofVerifier) (cfg : PoolConfig)

def loadState : StoreReads PoolState := do
  match ← getAccount cfg.poolState with
  | some account =>
    match PoolState.fromBytes account.data with
    | .ok state => return state
    | .error _ => .fail (.node (.pool .corruptState))
  | none => return PoolState.new P

def balance (overlay : PartialMap Pubkey UInt64) (key : Pubkey) : StoreReads UInt64 :=
  match overlay key with
  | some v => pure v
  | none => do
    match ← findAccount key with
    | some account => return account.lamports
    | none => return 0

def moveLamports (overlay : PartialMap Pubkey UInt64) (source target : Pubkey) (amount : UInt64) :
    StoreReads (PartialMap Pubkey UInt64) := do
  let sourceBal ← balance overlay source
  let targetBal ← balance overlay target
  return (overlay.insert source (sourceBal.saturatingSub amount)).insert target
    (targetBal.saturatingAdd amount)

def lamportWrite (pubkey : Pubkey) (lamports : UInt64) : StoreReads (Option StoredAccount) := do
  if lamports = 0 then
    if (← getAccount pubkey).isNone then return none
  let account := (← getAccount pubkey).getD (StoredAccount.newSystem 0)
  return some { account with lamports }

def findToken (tokenOverlay : PartialMap Pubkey StoredAccount) (mint : Bytes 32)
    (owner : Pubkey) : StoreReads (Option StoredAccount) :=
  match tokenOverlay (PoolService.tokenKey P mint owner) with
  | some account => pure (some account)
  | none => findAccount (PoolService.tokenKey P mint owner)

def tokenBalance (tokenOverlay : PartialMap Pubkey StoredAccount) (mint : Bytes 32)
    (owner : Pubkey) : StoreReads UInt64 := do
  match ← findToken P tokenOverlay mint owner with
  | some account => return (WrappedSpl.tokenAccountAmount account.data).getD 0
  | none => return 0

def tokenAccount (tokenOverlay : PartialMap Pubkey StoredAccount) (mint : Bytes 32)
    (owner : Pubkey) : StoreReads StoredAccount := do
  return (← findToken P tokenOverlay mint owner).getD
    (PoolService.freshTokenAccount (WrappedSpl.wrappedMintAddress P mint) owner)

def updateToken (tokenOverlay : PartialMap Pubkey StoredAccount) (mint : Bytes 32)
    (owner : Pubkey) (f : UInt64 → UInt64) : StoreReads (PartialMap Pubkey StoredAccount) := do
  let account ← tokenAccount P tokenOverlay mint owner
  let amount := (WrappedSpl.tokenAccountAmount account.data).getD 0
  match WrappedSpl.setTokenAccountAmount account.data (f amount) with
  | none => .fail (.node .panic)
  | some data =>
    return tokenOverlay.insert (PoolService.tokenKey P mint owner) { account with data }

def moveWrapped (tokenOverlay : PartialMap Pubkey StoredAccount) (mint : Bytes 32)
    (source target : Pubkey) (amount : UInt64) : StoreReads (PartialMap Pubkey StoredAccount) := do
  let tokenOverlay ← updateToken P tokenOverlay mint source (·.saturatingSub amount)
  updateToken P tokenOverlay mint target (·.saturatingAdd amount)

def checkFunds (r : Running) (feePayer : Pubkey) :
    PoolInstruction → StoreReads (Except PoolServiceError Unit)
  | .shield asset amount _ _ => do
    let feeNeed := match asset with
      | .native => amount.saturatingAdd cfg.flatFee
      | .spl _ => cfg.flatFee
    if (← balance r.overlay feePayer) < feeNeed then
      return .error (.insufficientFunds "shield fee")
    match asset with
    | .native => return .ok ()
    | .spl mint =>
      if (← tokenBalance P r.tokenOverlay mint feePayer) < amount then
        return .error (.insufficientFunds "shield token")
      return .ok ()
  | .transfer _ _ _ _ tfee _ => do
    if (← balance r.overlay feePayer) < cfg.flatFee then
      return .error (.insufficientFunds "transfer fee")
    if (← balance r.overlay cfg.vault) < tfee then return .error (.insufficientFunds "pool fee")
    return .ok ()
  | .unshield _ _ _ _ asset amount _ _ => do
    if (← balance r.overlay feePayer) < cfg.flatFee then
      return .error (.insufficientFunds "unshield fee")
    match asset with
    | .native =>
      if (← balance r.overlay cfg.vault) < amount then return .error (.insufficientFunds "vault")
      return .ok ()
    | .spl mint =>
      if (← tokenBalance P r.tokenOverlay mint cfg.vault) < amount then
        return .error (.insufficientFunds "vault token")
      return .ok ()

/-! ## The state machine -/

def contains (n : BlockNullifiers) (nullifier : H256) : StoreReads Bool :=
  if n.within.contains nullifier then pure true else isNullifierSpent nullifier

def checkTransfer (ctx : PoolContext) (proof : List UInt8) (root : FieldBytes)
    (nfs commitments : FieldBytes × FieldBytes) (fee : UInt64) :
    StoreReads (Except PoolError Unit) := do
  if !ctx.state.isKnownRoot root then return .error .unknownRoot
  if nfs.1 = nfs.2 then return .error .duplicateNullifier
  if ← contains ctx.nullifiers nfs.1 then return .error .doubleSpend
  if ← contains ctx.nullifiers nfs.2 then return .error .doubleSpend
  return do
    let publicInputs := [← PoolProcessor.field root, ← PoolProcessor.field nfs.1,
      ← PoolProcessor.field nfs.2, ← PoolProcessor.field commitments.1,
      ← PoolProcessor.field commitments.2, (fee.toNat : Fr)]
    if !V.verifyTransfer proof publicInputs then throw .invalidProof

def checkUnshield (ctx : PoolContext) (proof : List UInt8)
    (root nullifier changeCommitment : FieldBytes) (asset : Asset) (amount : UInt64)
    (recipient : Bytes 32) : StoreReads (Except PoolError Unit) := do
  if amount = 0 then return .error .zeroAmount
  if !ctx.state.isKnownRoot root then return .error .unknownRoot
  if ← contains ctx.nullifiers nullifier then return .error .doubleSpend
  return do
    let publicInputs := [← PoolProcessor.field root, ← PoolProcessor.field nullifier,
      ← PoolProcessor.field changeCommitment, PoolProcessor.assetIdFr asset,
      (amount.toNat : Fr), frFromLeBytesModOrder recipient]
    if !V.verifyUnshield proof publicInputs then throw .invalidProof

def process (ctx : PoolContext) :
    PoolInstruction → StoreReads (PoolContext × Except PoolError PoolOutcome)
  | .shield asset amount secret encryptedNote =>
    pure (PoolProcessor.shield P ctx asset amount secret encryptedNote)
  | .transfer proof root nfs commitments fee encryptedNotes => do
    match ← checkTransfer V ctx proof root nfs commitments fee with
    | .error e => return (ctx, .error e)
    | .ok () =>
      let ctx := { ctx with nullifiers := (ctx.nullifiers.insert nfs.1).insert nfs.2 }
      match PoolProcessor.insertNotes P ctx
          [(commitments.1, encryptedNotes.1), (commitments.2, encryptedNotes.2)] with
      | (ctx, .error e) => return (ctx, .error e)
      | (ctx, .ok events) => return (ctx, .ok ⟨if 0 < fee then [.payFee fee] else [], events⟩)
  | .unshield proof root nullifier changeCommitment asset amount recipient encryptedChangeNote => do
    match ← checkUnshield V ctx proof root nullifier changeCommitment asset amount recipient with
    | .error e => return (ctx, .error e)
    | .ok () =>
      let ctx := { ctx with nullifiers := ctx.nullifiers.insert nullifier }
      match PoolProcessor.insertNotes P ctx [(changeCommitment, encryptedChangeNote)] with
      | (ctx, .error e) => return (ctx, .error e)
      | (ctx, .ok events) => return (ctx, .ok ⟨[.withdrawFromVault asset amount recipient], events⟩)

/-! ## A block -/

def applyEffect (feePayer : Pubkey) (r : Running) : PoolEffect → StoreReads Running
  | .depositToVault .native amount => do
    return { r with overlay := ← moveLamports r.overlay feePayer cfg.vault amount }
  | .depositToVault (.spl mint) amount => do
    return { r with tokenOverlay := ← moveWrapped P r.tokenOverlay mint feePayer cfg.vault amount }
  | .withdrawFromVault .native amount recipient => do
    return { r with overlay := ← moveLamports r.overlay cfg.vault recipient amount }
  | .withdrawFromVault (.spl mint) amount recipient => do
    return { r with
      tokenOverlay := ← moveWrapped P r.tokenOverlay mint cfg.vault recipient amount }
  | .payFee amount => do
    return { r with overlay := ← moveLamports r.overlay cfg.vault cfg.feeCollector amount }

def applyOne (r : Running) (feePayer : Pubkey) (instruction : PoolInstruction) :
    StoreReads (Running × Except PoolServiceError Unit) := do
  match ← checkFunds P cfg r feePayer instruction with
  | .error e => return (r, .error e)
  | .ok () =>
    match ← process P V r.ctx instruction with
    | (ctx, .error e) => return ({ r with ctx }, .error (.pool e))
    | (ctx, .ok outcome) =>
      let overlay ← moveLamports r.overlay feePayer cfg.feeCollector cfg.flatFee
      let r ← outcome.effects.foldlM (applyEffect P cfg feePayer) { r with ctx, overlay }
      return ({ r with noteEvents := r.noteEvents ++ outcome.noteEvents }, .ok ())

def applyNext (acc : Running × List (Except PoolServiceError Unit))
    (tx : Pubkey × PoolInstruction) :
    StoreReads (Running × List (Except PoolServiceError Unit)) := do
  let (r, status) ← applyOne P V cfg acc.1 tx.1 tx.2
  return (r, acc.2 ++ [status])

def lamportEntry (e : Pubkey × UInt64) : StoreReads (Pubkey × Option StoredAccount) := do
  return (e.1, ← lamportWrite e.1 e.2)

def assembleWrites (order : MapOrder) (r : Running) (stateDirty : Bool) :
    StoreReads (List (Pubkey × Option StoredAccount)) := do
  let lamports ← (order.toList r.overlay).foldlM
    (fun acc e => do return acc ++ [← lamportEntry e]) []
  let tokens := (order.toList r.tokenOverlay).map fun e => (e.1, some e.2)
  if stateDirty then
    let account := (← getAccount cfg.poolState).getD (PoolService.genesisPoolAccount P)
    return lamports ++ tokens ++
      [(cfg.poolState, some { account with data := r.ctx.state.toBytes })]
  else return lamports ++ tokens ++ []

def processBlockSeeded (order : MapOrder) (txs : List (Pubkey × PoolInstruction))
    (seed : PartialMap Pubkey UInt64) : StoreReads PoolBlockResult :=
  if txs.isEmpty then pure PoolBlockResult.default
  else do
    let state ← loadState P cfg
    let (r, statuses) ← txs.foldlM (applyNext P V cfg)
      (⟨⟨state, BlockNullifiers.empty⟩, seed, fun _ => none, []⟩, [])
    let accountWrites ← assembleWrites P cfg order r (statuses.any isOk)
    return {
      accountWrites
      nullifiers := r.ctx.nullifiers.newly
      noteEvents := r.noteEvents
      statuses := statuses.map fun
        | .ok () => .ok ()
        | .error e => .error e.message }

def poolStage (E : Env) (order : MapOrder) (poolTxs : List PoolTx) (writes : AccountWrites)
    (included : List (VersionedTransaction × ExecutedTransactionMeta)) : StoreReads PoolStage :=
  if poolTxs.isEmpty then pure ⟨writes, included, []⟩
  else do
    let result ← processBlockSeeded E.prims E.verifier E.poolConfig order
      (poolTxs.map fun pt => (pt.feePayer, pt.instruction)) (seedOf writes)
    let writes := result.accountWrites.foldl mergeWrite writes
    return {
      writes
      included := included ++ (poolTxs.zip result.statuses).map (poolEntry writes)
      nullifiers := result.nullifiers }

end Pool

/-! ## What the stage returns -/

section Returns

variable {P : Prims} {V : ProofVerifier} {cfg : PoolConfig} {store : Store}

def orPoolError {α : Type} : Option (Except PoolServiceError α) → Except Failure α
  | none => .error (.node .panic)
  | some (.error e) => .error (.node (.pool e))
  | some (.ok a) => .ok a

theorem orPanic_foldlM {α β : Type} (f : β → α → Option β) (b : β) (l : List α) :
    orPanic (l.foldlM f b) = l.foldlM (fun b a => orPanic (f b a)) b := by
  induction l generalizing b with
  | nil => rfl
  | cons a l ih =>
    rw [List.foldlM_cons, List.foldlM_cons]
    cases f b a with
    | none => rfl
    | some b' => exact ih b'

theorem returns_bind_orPanic {α β : Type} {x : StoreReads α} {f : α → StoreReads β}
    {o : Option α} {g : α → Option β} (hx : Reads.Returns (answer store) x (orPanic o))
    (hf : ∀ a, Reads.Returns (answer store) (f a) (orPanic (g a))) :
    Reads.Returns (answer store) (x >>= f) (orPanic (o.bind g)) := by
  cases o with
  | none => exact hx.bind_error
  | some a => exact hx.bind_ok (hf a)

theorem returns_loadState (store : Store) :
    Reads.Returns (answer store) (loadState P cfg)
      (orPoolError (some (PoolService.loadState P cfg store))) := by
  refine (returns_getAccount cfg.poolState).bind_ok ?_
  unfold PoolService.loadState
  cases store.getAccount cfg.poolState with
  | none => exact .pure _
  | some account =>
    dsimp only
    cases PoolState.fromBytes account.data with
    | ok state => exact .pure _
    | error e => exact .fail _

theorem returns_lamportWrite (pubkey : Pubkey) (lamports : UInt64) :
    Reads.Returns (answer store) (lamportWrite pubkey lamports)
      (.ok (PoolService.lamportWrite store pubkey lamports)) := by
  have hrest : Reads.Returns (answer store) (do
        let account := (← getAccount pubkey).getD (StoredAccount.newSystem 0)
        return some { account with lamports } : StoreReads (Option StoredAccount))
      (.ok (some { (store.getAccount pubkey).getD (StoredAccount.newSystem 0) with lamports })) :=
    (returns_getAccount pubkey).bind_ok (.pure _)
  unfold lamportWrite PoolService.lamportWrite
  by_cases hzero : lamports = 0
  · simp only [hzero, if_true] at hrest ⊢
    refine (returns_getAccount pubkey).bind_ok ?_
    cases hk : store.getAccount pubkey with
    | none => exact .pure _
    | some account =>
      rw [hk] at hrest
      exact hrest
  · simp only [hzero, if_false]
    cases hk : store.getAccount pubkey <;> (rw [hk] at hrest; exact hrest)

theorem returns_assembleWrites (order : MapOrder) (r : Running) (stateDirty : Bool) :
    Reads.Returns (answer store) (assembleWrites P cfg order r stateDirty)
      (.ok (PoolService.assembleWrites P cfg order store r stateDirty)) := by
  unfold assembleWrites PoolService.assembleWrites
  have hentry : ∀ e : Pubkey × UInt64, Reads.Returns (answer store) (lamportEntry e)
      (.ok (e.1, PoolService.lamportWrite store e.1 e.2)) :=
    fun e => (returns_lamportWrite e.1 e.2).bind_ok (.pure _)
  refine (Reads.Returns.mapLoop hentry _ []).bind_ok ?_
  cases stateDirty with
  | false => exact .pure _
  | true => exact (returns_getAccount cfg.poolState).bind_ok (.pure _)

theorem returns_balance (overlay : PartialMap Pubkey UInt64) (key : Pubkey) :
    Reads.Returns (answer store) (balance overlay key)
      (.ok (PoolService.balance store overlay key)) := by
  unfold balance PoolService.balance
  cases overlay key with
  | some v => exact .pure _
  | none =>
    refine (returns_findAccount key).bind_ok ?_
    cases store.getAccount key <;> exact .pure _

theorem returns_moveLamports (overlay : PartialMap Pubkey UInt64) (source target : Pubkey)
    (amount : UInt64) :
    Reads.Returns (answer store) (moveLamports overlay source target amount)
      (.ok (PoolService.moveLamports store overlay source target amount)) :=
  (returns_balance overlay source).bind_ok
    ((returns_balance overlay target).bind_ok (.pure _))

theorem returns_findToken (tokenOverlay : PartialMap Pubkey StoredAccount) (mint : Bytes 32)
    (owner : Pubkey) :
    Reads.Returns (answer store) (findToken P tokenOverlay mint owner)
      (.ok (tokenOverlay.onto store.getAccount (PoolService.tokenKey P mint owner))) := by
  unfold findToken
  rw [PartialMap.onto_apply]
  cases tokenOverlay (PoolService.tokenKey P mint owner) with
  | some account => exact .pure _
  | none => exact returns_findAccount _

theorem returns_tokenBalance (tokenOverlay : PartialMap Pubkey StoredAccount) (mint : Bytes 32)
    (owner : Pubkey) :
    Reads.Returns (answer store) (tokenBalance P tokenOverlay mint owner)
      (.ok (PoolService.tokenBalance P store tokenOverlay mint owner)) := by
  refine (returns_findToken tokenOverlay mint owner).bind_ok ?_
  unfold PoolService.tokenBalance
  cases tokenOverlay.onto store.getAccount (PoolService.tokenKey P mint owner) <;> exact .pure _

theorem returns_updateToken (tokenOverlay : PartialMap Pubkey StoredAccount) (mint : Bytes 32)
    (owner : Pubkey) (f : UInt64 → UInt64) :
    Reads.Returns (answer store) (updateToken P tokenOverlay mint owner f)
      (orPanic (PoolService.updateToken P store tokenOverlay mint owner f)) := by
  refine Reads.Returns.bind_ok
    ((returns_findToken tokenOverlay mint owner).bind_ok (.pure _)) ?_
  simp only [PoolService.updateToken, PoolService.tokenAccount, Option.bind_eq_bind]
  cases WrappedSpl.setTokenAccountAmount _ _ with
  | none => exact .fail _
  | some data => exact .pure _

theorem returns_moveWrapped (tokenOverlay : PartialMap Pubkey StoredAccount) (mint : Bytes 32)
    (source target : Pubkey) (amount : UInt64) :
    Reads.Returns (answer store) (moveWrapped P tokenOverlay mint source target amount)
      (orPanic (PoolService.moveWrapped P store tokenOverlay mint source target amount)) :=
  returns_bind_orPanic (returns_updateToken _ _ _ _)
    fun _ => returns_updateToken _ _ _ _

theorem returns_contains (n : BlockNullifiers) (nullifier : H256) :
    Reads.Returns (answer store) (contains n nullifier)
      (.ok (n.contains store.isNullifierSpent nullifier)) := by
  unfold contains BlockNullifiers.contains
  by_cases hwithin : nullifier ∈ n.within
  · rw [if_pos (List.contains_iff_mem.mpr hwithin), decide_eq_true hwithin, Bool.true_or]
    exact .pure _
  · rw [if_neg (mt List.contains_iff_mem.mp hwithin), decide_eq_false hwithin, Bool.false_or]
    exact returns_ask (.nullifier nullifier)

theorem returns_checkFunds (r : Running) (feePayer : Pubkey) (instruction : PoolInstruction) :
    Reads.Returns (answer store) (checkFunds P cfg r feePayer instruction)
      (.ok (PoolService.checkFunds P cfg store r feePayer instruction)) := by
  unfold checkFunds PoolService.checkFunds
  cases instruction with
  | shield asset amount secret encryptedNote =>
    refine (returns_balance r.overlay feePayer).bind_ok ?_
    refine .ite (fun _ => .pure _) fun _ => ?_
    cases asset with
    | native => exact .pure _
    | spl mint =>
      refine (returns_tokenBalance r.tokenOverlay mint feePayer).bind_ok ?_
      exact .ite (fun _ => .pure _) fun _ => .pure _
  | transfer proof root nfs commitments fee encryptedNotes =>
    refine (returns_balance r.overlay feePayer).bind_ok ?_
    refine .ite (fun _ => .pure _) fun _ => ?_
    refine (returns_balance r.overlay cfg.vault).bind_ok ?_
    exact .ite (fun _ => .pure _) fun _ => .pure _
  | unshield proof root nullifier changeCommitment asset amount recipient encryptedChangeNote =>
    refine (returns_balance r.overlay feePayer).bind_ok ?_
    refine .ite (fun _ => .pure _) fun _ => ?_
    cases asset with
    | native =>
      refine (returns_balance r.overlay cfg.vault).bind_ok ?_
      exact .ite (fun _ => .pure _) fun _ => .pure _
    | spl mint =>
      refine (returns_tokenBalance r.tokenOverlay mint cfg.vault).bind_ok ?_
      exact .ite (fun _ => .pure _) fun _ => .pure _

theorem returns_checkTransfer (ctx : PoolContext) (proof : List UInt8) (root : FieldBytes)
    (nfs commitments : FieldBytes × FieldBytes) (fee : UInt64) :
    Reads.Returns (answer store) (checkTransfer V ctx proof root nfs commitments fee)
      (.ok (PoolProcessor.checkTransfer V store.isNullifierSpent ctx proof root nfs commitments
        fee)) := by
  refine .ite (fun _ => .pure _) fun _ => ?_
  refine .ite (fun _ => .pure _) fun _ => ?_
  refine (returns_contains ctx.nullifiers nfs.1).bind_ok ?_
  refine .ite (fun _ => .pure _) fun _ => ?_
  refine (returns_contains ctx.nullifiers nfs.2).bind_ok ?_
  exact .ite (fun _ => .pure _) fun _ => .pure _

theorem returns_checkUnshield (ctx : PoolContext) (proof : List UInt8)
    (root nullifier changeCommitment : FieldBytes) (asset : Asset) (amount : UInt64)
    (recipient : Bytes 32) :
    Reads.Returns (answer store)
      (checkUnshield V ctx proof root nullifier changeCommitment asset amount recipient)
      (.ok (PoolProcessor.checkUnshield V store.isNullifierSpent ctx proof root nullifier
        changeCommitment asset amount recipient)) := by
  refine .ite (fun _ => .pure _) fun _ => ?_
  refine .ite (fun _ => .pure _) fun _ => ?_
  refine (returns_contains ctx.nullifiers nullifier).bind_ok ?_
  exact .ite (fun _ => .pure _) fun _ => .pure _

theorem returns_process (ctx : PoolContext) (instruction : PoolInstruction) :
    Reads.Returns (answer store) (process P V ctx instruction)
      (.ok (PoolProcessor.process P V store.isNullifierSpent ctx instruction)) := by
  cases instruction with
  | shield asset amount secret encryptedNote => exact .pure _
  | transfer proof root nfs commitments fee encryptedNotes =>
    refine (returns_checkTransfer ctx proof root nfs commitments fee).bind_ok ?_
    simp only [PoolProcessor.process, PoolProcessor.transfer]
    cases PoolProcessor.checkTransfer V store.isNullifierSpent ctx proof root nfs commitments
        fee with
    | error e => exact .pure _
    | ok _ =>
      dsimp only
      rcases PoolProcessor.insertNotes P _ _ with ⟨ctx', _ | _⟩ <;> exact .pure _
  | unshield proof root nullifier changeCommitment asset amount recipient encryptedChangeNote =>
    refine (returns_checkUnshield ctx proof root nullifier changeCommitment asset amount
      recipient).bind_ok ?_
    simp only [PoolProcessor.process, PoolProcessor.unshield]
    cases PoolProcessor.checkUnshield V store.isNullifierSpent ctx proof root nullifier
        changeCommitment asset amount recipient with
    | error e => exact .pure _
    | ok _ =>
      dsimp only
      rcases PoolProcessor.insertNotes P _ _ with ⟨ctx', _ | _⟩ <;> exact .pure _

theorem returns_applyEffect (feePayer : Pubkey) (r : Running) (effect : PoolEffect) :
    Reads.Returns (answer store) (applyEffect P cfg feePayer r effect)
      (orPanic (PoolService.applyEffect P cfg store feePayer r effect)) := by
  rcases effect with ⟨_ | mint, amount⟩ | ⟨_ | mint, amount, recipient⟩ | amount
  · exact (returns_moveLamports _ _ _ _).bind_ok (.pure _)
  · exact returns_bind_orPanic (returns_moveWrapped _ _ _ _ _) fun _ => .pure _
  · exact (returns_moveLamports _ _ _ _).bind_ok (.pure _)
  · exact returns_bind_orPanic (returns_moveWrapped _ _ _ _ _) fun _ => .pure _
  · exact (returns_moveLamports _ _ _ _).bind_ok (.pure _)

theorem returns_applyOne (r : Running) (feePayer : Pubkey) (instruction : PoolInstruction) :
    Reads.Returns (answer store) (applyOne P V cfg r feePayer instruction)
      (orPanic (PoolService.applyOne P V cfg store r feePayer instruction)) := by
  refine (returns_checkFunds r feePayer instruction).bind_ok ?_
  unfold PoolService.applyOne
  cases PoolService.checkFunds P cfg store r feePayer instruction with
  | error e => exact .pure _
  | ok _ =>
    refine (returns_process r.ctx instruction).bind_ok ?_
    rcases PoolProcessor.process P V store.isNullifierSpent r.ctx instruction with
      ⟨ctx, e | outcome⟩
    · exact .pure _
    · refine (returns_moveLamports _ _ _ _).bind_ok ?_
      refine returns_bind_orPanic ?_ fun _ => .pure _
      rw [orPanic_foldlM]
      exact .foldlM (returns_applyEffect feePayer) _ _

theorem returns_applyNext (acc : Running × List (Except PoolServiceError Unit))
    (tx : Pubkey × PoolInstruction) :
    Reads.Returns (answer store) (applyNext P V cfg acc tx)
      (orPanic (PoolService.applyNext P V cfg store acc tx)) :=
  returns_bind_orPanic (returns_applyOne acc.1 tx.1 tx.2) fun _ => .pure _

theorem returns_processBlockSeeded (order : MapOrder) (txs : List (Pubkey × PoolInstruction))
    (seed : PartialMap Pubkey UInt64) :
    Reads.Returns (answer store) (processBlockSeeded P V cfg order txs seed)
      (orPoolError (PoolService.processBlockSeeded P V cfg order store txs seed)) := by
  unfold processBlockSeeded PoolService.processBlockSeeded
  by_cases hempty : txs.isEmpty = true
  · rw [if_pos hempty, if_pos hempty]
    exact .pure _
  · rw [if_neg hempty, if_neg hempty]
    have hload := @returns_loadState P cfg store
    cases hstate : PoolService.loadState P cfg store with
    | error e =>
      rw [hstate] at hload
      exact hload.bind_error
    | ok state =>
      rw [hstate] at hload
      refine hload.bind_ok ?_
      dsimp only
      have hloop : Reads.Returns (answer store)
          (txs.foldlM (applyNext P V cfg)
            (⟨⟨state, BlockNullifiers.empty⟩, seed, fun _ => none, []⟩, []))
          (orPanic (txs.foldlM (PoolService.applyNext P V cfg store)
            (⟨⟨state, BlockNullifiers.empty⟩, seed, fun _ => none, []⟩, []))) := by
        rw [orPanic_foldlM]
        exact .foldlM (returns_applyNext) _ _
      cases hran : txs.foldlM (PoolService.applyNext P V cfg store)
          (⟨⟨state, BlockNullifiers.empty⟩, seed, fun _ => none, []⟩, []) with
      | none =>
        rw [hran] at hloop
        exact hloop.bind_error
      | some out =>
        rw [hran] at hloop
        exact hloop.bind_ok ((returns_assembleWrites order _ _).bind_ok (.pure _))

theorem returns_poolStage (store : Store) (E : Env) (order : MapOrder) (poolTxs : List PoolTx)
    (writes : AccountWrites)
    (included : List (VersionedTransaction × ExecutedTransactionMeta)) :
    Reads.Returns (answer store) (poolStage E order poolTxs writes included)
      ((Node.poolStage E order store poolTxs writes included).mapError .node) := by
  unfold poolStage Node.poolStage
  by_cases hempty : poolTxs.isEmpty = true
  · rw [if_pos hempty, if_pos hempty]
    exact .pure _
  · rw [if_neg hempty, if_neg hempty]
    have hprocess := @returns_processBlockSeeded E.prims E.verifier E.poolConfig store
      order (poolTxs.map fun pt => (pt.feePayer, pt.instruction)) (seedOf writes)
    generalize PoolService.processBlockSeeded E.prims E.verifier E.poolConfig order store
      (poolTxs.map fun pt => (pt.feePayer, pt.instruction)) (seedOf writes) = out at hprocess ⊢
    rcases out with _ | e | result
    · exact hprocess.bind_error
    · exact hprocess.bind_error
    · exact hprocess.bind_ok (.pure _)

end Returns

end Reading

end Zul.Node
