import Zul.Privacy.State

/-! # The pool state machine

Checks an instruction against the pool state and the spent nullifiers, appends its commitments
and reports the public movements the caller has to apply. Proof verification is a parameter. A
state is returned on failure too: what was written before the failing step stays written.
-/

namespace Zul.Privacy

inductive PoolError
  | badField
  | unknownRoot
  | doubleSpend
  | duplicateNullifier
  | zeroAmount
  | treeFull
  | invalidProof
  | noVerifyingKey
  deriving DecidableEq

def PoolError.message : PoolError → String
  | .badField => "malformed field element in instruction"
  | .unknownRoot => "unknown or stale merkle root"
  | .doubleSpend => "nullifier already spent (double spend)"
  | .duplicateNullifier => "duplicate nullifier within one transaction"
  | .zeroAmount => "zero amount is not allowed"
  | .treeFull => "commitment tree is full"
  | .invalidProof => "proof verification failed"
  | .noVerifyingKey => "verifying key unavailable for this operation"

inductive PoolEffect
  | depositToVault (asset : Asset) (amount : UInt64)
  | withdrawFromVault (asset : Asset) (amount : UInt64) (recipient : Pubkey)
  | payFee (amount : UInt64)
  deriving DecidableEq

structure NoteEvent where
  leafIndex : UInt32
  commitment : FieldBytes
  encryptedNote : List UInt8
  deriving DecidableEq

structure PoolOutcome where
  effects : List PoolEffect
  noteEvents : List NoteEvent
  deriving DecidableEq

/-- Groth16 verification of the two circuits. -/
structure ProofVerifier where
  verifyTransfer : List UInt8 → List Fr → Bool
  verifyUnshield : List UInt8 → List Fr → Bool

/-- Nullifiers spent in this block, on top of those the store knows. -/
structure BlockNullifiers where
  within : List H256
  newly : List H256

namespace BlockNullifiers

def empty : BlockNullifiers := ⟨[], []⟩

def contains (spent : H256 → Bool) (n : BlockNullifiers) (nullifier : H256) : Bool :=
  nullifier ∈ n.within || spent nullifier

def insert (n : BlockNullifiers) (nullifier : H256) : BlockNullifiers :=
  ⟨nullifier :: n.within, n.newly ++ [nullifier]⟩

end BlockNullifiers

structure PoolContext where
  state : PoolState
  nullifiers : BlockNullifiers

namespace PoolProcessor

variable (P : Prims) (V : ProofVerifier) (spent : H256 → Bool)

def assetIdFr : Asset → Fr
  | .native => nativeAssetId
  | .spl mint => assetIdForMint mint

/-- A parsed field element or `BadField`. -/
def field (bytes : FieldBytes) : Except PoolError Fr :=
  match frFromBytes bytes with
  | some x => .ok x
  | none => .error .badField

/-- Append one commitment; every tree error is reported as a full tree. -/
def insertNote (ctx : PoolContext) (leaf : Fr) (commitment : FieldBytes)
    (encryptedNote : List UInt8) : PoolContext × Except PoolError NoteEvent :=
  match ctx.state.insert P leaf with
  | (state, .ok leafIndex) => ({ ctx with state }, .ok ⟨leafIndex, commitment, encryptedNote⟩)
  | (state, .error _) => ({ ctx with state }, .error .treeFull)

def insertNotes (ctx : PoolContext) :
    List (FieldBytes × List UInt8) → PoolContext × Except PoolError (List NoteEvent)
  | [] => (ctx, .ok [])
  | (commitment, encryptedNote) :: rest =>
    match field commitment with
    | .error e => (ctx, .error e)
    | .ok leaf =>
      match insertNote P ctx leaf commitment encryptedNote with
      | (ctx, .error e) => (ctx, .error e)
      | (ctx, .ok event) =>
        match insertNotes ctx rest with
        | (ctx, .error e) => (ctx, .error e)
        | (ctx, .ok events) => (ctx, .ok (event :: events))

def shield (ctx : PoolContext) (asset : Asset) (amount : UInt64) (secret : FieldBytes)
    (encryptedNote : List UInt8) : PoolContext × Except PoolError PoolOutcome :=
  if amount = 0 then (ctx, .error .zeroAmount)
  else
    match field secret with
    | .error e => (ctx, .error e)
    | .ok secretFr =>
      let commitmentFr := noteCommitmentFromSecret P (assetIdFr asset) amount secretFr
      match insertNote P ctx commitmentFr (frToBytes commitmentFr) encryptedNote with
      | (ctx, .error e) => (ctx, .error e)
      | (ctx, .ok event) => (ctx, .ok ⟨[.depositToVault asset amount], [event]⟩)

/-- The checks of a transfer, all made before anything is written. -/
def checkTransfer (ctx : PoolContext) (proof : List UInt8) (root : FieldBytes)
    (nfs commitments : FieldBytes × FieldBytes) (fee : UInt64) : Except PoolError Unit := do
  if !ctx.state.isKnownRoot root then throw .unknownRoot
  if nfs.1 = nfs.2 then throw .duplicateNullifier
  if ctx.nullifiers.contains spent nfs.1 then throw .doubleSpend
  if ctx.nullifiers.contains spent nfs.2 then throw .doubleSpend
  let publicInputs := [← field root, ← field nfs.1, ← field nfs.2, ← field commitments.1,
    ← field commitments.2, (fee.toNat : Fr)]
  if !V.verifyTransfer proof publicInputs then throw .invalidProof

def transfer (ctx : PoolContext) (proof : List UInt8) (root : FieldBytes)
    (nfs commitments : FieldBytes × FieldBytes) (fee : UInt64)
    (encryptedNotes : List UInt8 × List UInt8) : PoolContext × Except PoolError PoolOutcome :=
  match checkTransfer V spent ctx proof root nfs commitments fee with
  | .error e => (ctx, .error e)
  | .ok () =>
    let ctx := { ctx with nullifiers := (ctx.nullifiers.insert nfs.1).insert nfs.2 }
    match insertNotes P ctx
        [(commitments.1, encryptedNotes.1), (commitments.2, encryptedNotes.2)] with
    | (ctx, .error e) => (ctx, .error e)
    | (ctx, .ok events) => (ctx, .ok ⟨if 0 < fee then [.payFee fee] else [], events⟩)

/-- The checks of an unshield, all made before anything is written. -/
def checkUnshield (ctx : PoolContext) (proof : List UInt8)
    (root nullifier changeCommitment : FieldBytes) (asset : Asset) (amount : UInt64)
    (recipient : Bytes 32) : Except PoolError Unit := do
  if amount = 0 then throw .zeroAmount
  if !ctx.state.isKnownRoot root then throw .unknownRoot
  if ctx.nullifiers.contains spent nullifier then throw .doubleSpend
  let publicInputs := [← field root, ← field nullifier, ← field changeCommitment, assetIdFr asset,
    (amount.toNat : Fr), frFromLeBytesModOrder recipient]
  if !V.verifyUnshield proof publicInputs then throw .invalidProof

def unshield (ctx : PoolContext) (proof : List UInt8) (root nullifier changeCommitment : FieldBytes)
    (asset : Asset) (amount : UInt64) (recipient : Bytes 32) (encryptedChangeNote : List UInt8) :
    PoolContext × Except PoolError PoolOutcome :=
  match checkUnshield V spent ctx proof root nullifier changeCommitment asset amount recipient with
  | .error e => (ctx, .error e)
  | .ok () =>
    let ctx := { ctx with nullifiers := ctx.nullifiers.insert nullifier }
    match insertNotes P ctx [(changeCommitment, encryptedChangeNote)] with
    | (ctx, .error e) => (ctx, .error e)
    | (ctx, .ok events) => (ctx, .ok ⟨[.withdrawFromVault asset amount recipient], events⟩)

def process (ctx : PoolContext) : PoolInstruction → PoolContext × Except PoolError PoolOutcome
  | .shield asset amount secret encryptedNote => shield P ctx asset amount secret encryptedNote
  | .transfer proof root nfs commitments fee encryptedNotes =>
    transfer P V spent ctx proof root nfs commitments fee encryptedNotes
  | .unshield proof root nullifier changeCommitment asset amount recipient encryptedChangeNote =>
    unshield P V spent ctx proof root nullifier changeCommitment asset amount recipient
      encryptedChangeNote

end PoolProcessor

end Zul.Privacy
