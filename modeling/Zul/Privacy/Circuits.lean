import Zul.Privacy.Tree

/-! # The circuits

The constraint systems of `transfer.circom` and `unshield.circom` as relations between public
inputs and witnesses. The components taken from circomlib are what they are documented to be:
`Num2Bits` decomposes its input into bits, `IsZero` and `IsEqual` compare, `MultiMux1` selects and
`Poseidon` hashes.
-/

namespace Zul.Privacy

theorem natCast_inj_of_lt {m n : ℕ} (hm : m < frModulus) (hn : n < frModulus)
    (h : (m : Fr) = (n : Fr)) : m = n := by
  rw [ZMod.natCast_eq_natCast_iff', Nat.mod_eq_of_lt hm, Nat.mod_eq_of_lt hn] at h
  exact h

namespace Circuits

/-! ## Components -/

def Num2Bits (n : ℕ) (x : Fr) (bits : List Bool) : Prop :=
  bits.length = n ∧ x = (MerkleTree.pathIndex bits : Fr)

instance decidableNum2Bits (n : ℕ) (x : Fr) (bits : List Bool) : Decidable (Num2Bits n x bits) :=
  inferInstanceAs (Decidable (_ ∧ _))

def isZero (x : Fr) : Fr := if x = 0 then 1 else 0

def isEqual (x y : Fr) : Fr := isZero (y - x)

def AmountCheck (amount : Fr) : Prop := ∃ bits, Num2Bits 64 amount bits

section Hashes

variable (P : Prims)

def ownerPk (s : Fr) : Fr := P.poseidon [s]

def noteSecret (pk blinding : Fr) : Fr := P.poseidon [pk, blinding]

def noteCommitment (assetId amount pk blinding : Fr) : Fr :=
  P.poseidon [assetId, amount, noteSecret P pk blinding]

def nullifier (commitment leafIndex s : Fr) : Fr := P.poseidon [commitment, leafIndex, s]

/-- The path bits come from the leaf index, lowest at the leaf; a set bit puts the sibling to the
left. The equality of roots counts only while `enabled`. -/
def MerkleInclusion (depth : ℕ) (leaf leafIndex : Fr) (indexBits : List Bool)
    (pathElements : List Fr) (root enabled : Fr) : Prop :=
  Num2Bits depth leafIndex indexBits ∧ pathElements.length = depth ∧
    (MerkleTree.climb (treeNode P) leaf (indexBits.zip pathElements) - root) * enabled = 0

instance decidableMerkleInclusion (depth : ℕ) (leaf leafIndex : Fr) (indexBits : List Bool)
    (pathElements : List Fr) (root enabled : Fr) :
    Decidable (MerkleInclusion P depth leaf leafIndex indexBits pathElements root enabled) :=
  inferInstanceAs (Decidable (_ ∧ _ ∧ _))

end Hashes

/-! ## Notes -/

structure Input where
  amount : Fr
  s : Fr
  blinding : Fr
  leafIndex : Fr
  path : List Fr
  indexBits : List Bool
  deriving DecidableEq, Inhabited

structure Output where
  amount : Fr
  pk : Fr
  blinding : Fr
  deriving DecidableEq, Inhabited

section Notes

variable (P : Prims) (assetId : Fr)

def Input.secret (i : Input) : Fr := noteSecret P (ownerPk P i.s) i.blinding

def Input.commitment (i : Input) : Fr :=
  noteCommitment P assetId i.amount (ownerPk P i.s) i.blinding

def Output.commitment (o : Output) : Fr := noteCommitment P assetId o.amount o.pk o.blinding

structure Input.Spends (i : Input) (root nf enabled : Fr) : Prop where
  range : AmountCheck i.amount
  nullifier : nf = nullifier P (i.commitment P assetId) i.leafIndex i.s
  inclusion : MerkleInclusion P TREE_DEPTH (i.commitment P assetId) i.leafIndex i.indexBits i.path
    root enabled

structure Output.Creates (o : Output) (commitment : Fr) : Prop where
  range : AmountCheck o.amount
  commitment : commitment = o.commitment P assetId

def Input.hashed (i : Input) : List (List Fr) :=
  [i.s] :: [ownerPk P i.s, i.blinding] :: [assetId, i.amount, i.secret P] ::
    [i.commitment P assetId, i.leafIndex, i.s] ::
    (MerkleTree.climbed (treeNode P) (i.commitment P assetId) (i.indexBits.zip i.path)).map
      fun pair => [pair.1, pair.2]

def Output.hashed (o : Output) : List (List Fr) :=
  [[o.pk, o.blinding], [assetId, o.amount, noteSecret P o.pk o.blinding]]

end Notes

/-! ## Transfer -/

structure TransferWitness where
  assetId : Fr
  input₀ : Input
  input₁ : Input
  output₀ : Output
  output₁ : Output
  deriving DecidableEq, Inhabited

/-- Inclusion is enabled for inputs of some amount; the fee is zero but for the native asset. -/
structure Transfer (P : Prims) (root nf₀ nf₁ cm₀ cm₁ fee : Fr) (w : TransferWitness) : Prop where
  input₀ : w.input₀.Spends P w.assetId root nf₀ (1 - isZero w.input₀.amount)
  input₁ : w.input₁.Spends P w.assetId root nf₁ (1 - isZero w.input₁.amount)
  output₀ : w.output₀.Creates P w.assetId cm₀
  output₁ : w.output₁.Creates P w.assetId cm₁
  conserved : w.input₀.amount + w.input₁.amount = w.output₀.amount + w.output₁.amount + fee
  native : fee * (1 - isZero w.assetId) = 0
  distinct : isEqual nf₀ nf₁ = 0

/-- The system over its public signals `[root, nullifier[2], out_commitment[2], fee]`. -/
def TransferSystem (P : Prims) : List Fr → TransferWitness → Prop
  | [root, nf₀, nf₁, cm₀, cm₁, fee], w => Transfer P root nf₀ nf₁ cm₀ cm₁ fee w
  | _, _ => False

def TransferWitness.hashed (P : Prims) (w : TransferWitness) : List (List Fr) :=
  w.input₀.hashed P w.assetId ++ w.input₁.hashed P w.assetId ++ w.output₀.hashed P w.assetId ++
    w.output₁.hashed P w.assetId

/-! ## Unshield -/

structure UnshieldWitness where
  input : Input
  change : Output
  deriving DecidableEq, Inhabited

structure Unshield (P : Prims) (root nf change assetId amount : Fr) (w : UnshieldWitness) :
    Prop where
  range : AmountCheck amount
  input : w.input.Spends P assetId root nf 1
  change : w.change.Creates P assetId change
  conserved : w.input.amount = amount + w.change.amount

/-- The system over its public signals
`[root, nullifier, change_commitment, asset_id, amount, recipient]`. -/
def UnshieldSystem (P : Prims) : List Fr → UnshieldWitness → Prop
  | [root, nf, change, assetId, amount, _], w => Unshield P root nf change assetId amount w
  | _, _ => False

def UnshieldWitness.hashed (P : Prims) (assetId : Fr) (w : UnshieldWitness) : List (List Fr) :=
  w.input.hashed P assetId ++ w.change.hashed P assetId

/-! ## Verification -/

structure Extractor where
  transfer : List UInt8 → List Fr → TransferWitness
  unshield : List UInt8 → List Fr → UnshieldWitness

/-- The verifier accepts a proof only where the extracted witness satisfies the constraints. -/
structure Extractor.Sound (P : Prims) (V : ProofVerifier) (W : Extractor) : Prop where
  transfer : ∀ proof inputs, V.verifyTransfer proof inputs = true →
    TransferSystem P inputs (W.transfer proof inputs)
  unshield : ∀ proof inputs, V.verifyUnshield proof inputs = true →
    UnshieldSystem P inputs (W.unshield proof inputs)

theorem exists_sound {P : Prims} {V : ProofVerifier}
    (htransfer : ∀ proof inputs, V.verifyTransfer proof inputs = true →
      ∃ w, TransferSystem P inputs w)
    (hunshield : ∀ proof inputs, V.verifyUnshield proof inputs = true →
      ∃ w, UnshieldSystem P inputs w) : ∃ W : Extractor, W.Sound P V :=
  ⟨⟨fun _ inputs => Classical.epsilon (TransferSystem P inputs),
      fun _ inputs => Classical.epsilon (UnshieldSystem P inputs)⟩,
    ⟨fun proof inputs h => Classical.epsilon_spec (htransfer proof inputs h),
      fun proof inputs h => Classical.epsilon_spec (hunshield proof inputs h)⟩⟩

end Circuits

end Zul.Privacy
