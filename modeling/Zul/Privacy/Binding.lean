import Zul.Privacy.Circuits
import Zul.Privacy.Rejected

/-! # What a proof is bound to

The verifier sees an instruction through its public inputs only. Roots, nullifiers and commitments
have one encoding that parses, and amounts fit in the field. A recipient and a mint are 32 bytes
that are reduced modulo the field, and native assets have the id of the mints that reduce to zero.
-/

namespace Zul.Privacy

open PoolProcessor

@[ext] structure TransferFields where
  root : FieldBytes
  nullifiers : FieldBytes × FieldBytes
  commitments : FieldBytes × FieldBytes
  fee : UInt64

@[ext] structure UnshieldFields where
  root : FieldBytes
  nullifier : FieldBytes
  changeCommitment : FieldBytes
  asset : Asset
  amount : UInt64
  recipient : Bytes 32

def Accepts (P : Prims) (V : ProofVerifier) (instruction : PoolInstruction) : Prop :=
  ∃ spent ctx ctx' outcome, process P V spent ctx instruction = (ctx', .ok outcome)

namespace TransferFields

def instruction (f : TransferFields) (proof : List UInt8) (notes : List UInt8 × List UInt8) :
    PoolInstruction :=
  .transfer proof f.root f.nullifiers f.commitments f.fee notes

/-- What `transfer` hands to the verifier. -/
def publicInputs (f : TransferFields) : Option (List Fr) := do
  return [← frFromBytes f.root, ← frFromBytes f.nullifiers.1, ← frFromBytes f.nullifiers.2,
    ← frFromBytes f.commitments.1, ← frFromBytes f.commitments.2, (f.fee.toNat : Fr)]

def Accepted (P : Prims) (V : ProofVerifier) (f : TransferFields) : Prop :=
  ∃ proof notes, Accepts P V (f.instruction proof notes)

end TransferFields

namespace UnshieldFields

def instruction (f : UnshieldFields) (proof note : List UInt8) : PoolInstruction :=
  .unshield proof f.root f.nullifier f.changeCommitment f.asset f.amount f.recipient note

/-- What `unshield` hands to the verifier. -/
def publicInputs (f : UnshieldFields) : Option (List Fr) := do
  return [← frFromBytes f.root, ← frFromBytes f.nullifier, ← frFromBytes f.changeCommitment,
    assetIdFr f.asset, (f.amount.toNat : Fr), frFromLeBytesModOrder f.recipient]

def Accepted (P : Prims) (V : ProofVerifier) (f : UnshieldFields) : Prop :=
  ∃ proof note, Accepts P V (f.instruction proof note)

end UnshieldFields

/-- How often the modulus fits into 32 bytes. -/
def wraps (bytes : Bytes 32) : ℕ := LittleEndian.decode bytes.toList / frModulus

def Asset.wraps : Asset → Option ℕ
  | .native => none
  | .spl mint => some (Privacy.wraps mint)

/-! ## Encodings -/

theorem frFromBytes_injective {a b : FieldBytes} {x : Fr} (ha : frFromBytes a = some x)
    (hb : frFromBytes b = some x) : a = b :=
  (frToBytes_of_frFromBytes ha).symm.trans (frToBytes_of_frFromBytes hb)

theorem natCast_amount_injective {a b : UInt64} (h : (a.toNat : Fr) = (b.toNat : Fr)) : a = b := by
  have hlt : ∀ c : UInt64, c.toNat < frModulus := fun c => c.toNat_lt.trans (by decide)
  exact UInt64.toNat_inj.mp (natCast_inj_of_lt (hlt a) (hlt b) h)

theorem eq_iff_wraps {a b : Bytes 32} (h : frFromLeBytesModOrder a = frFromLeBytesModOrder b) :
    a = b ↔ wraps a = wraps b := by
  refine ⟨fun heq => by rw [heq], fun hwraps => ?_⟩
  have hmod := (ZMod.natCast_eq_natCast_iff' _ _ _).mp h
  have hvalue : LittleEndian.decode a.toList = LittleEndian.decode b.toList := by
    rw [← Nat.div_add_mod (LittleEndian.decode a.toList) frModulus, hmod,
      show LittleEndian.decode a.toList / frModulus = _ from hwraps]
    exact Nat.div_add_mod _ _
  exact Bytes.ext (LittleEndian.decode_injective (by rw [a.length_toList, b.length_toList]) hvalue)

theorem asset_eq_iff_wraps {a b : Asset} (h : assetIdFr a = assetIdFr b) :
    a = b ↔ a.wraps = b.wraps := by
  cases a with
  | native => cases b <;> simp [Asset.wraps]
  | spl mint =>
    cases b with
    | native => simp [Asset.wraps]
    | spl mint' =>
      rw [Asset.spl.injEq, Asset.wraps, Asset.wraps, Option.some.injEq]
      exact eq_iff_wraps h

/-! ## Public inputs -/

theorem process_of_room {P : Prims} {V : ProofVerifier} {spent : H256 → Bool} {ctx : PoolContext}
    {instruction : PoolInstruction} (hctx : ctx.state.Canonical)
    (hchecked : Checked V spent ctx instruction) (hroom : Room P ctx instruction) :
    ∃ ctx' outcome, process P V spent ctx instruction = (ctx', .ok outcome) := by
  have hspec : Processed P V spent ctx instruction _ := process_spec hctx instruction
  generalize process P V spent ctx instruction = out at hspec ⊢
  cases hspec with
  | accepted => exact ⟨_, _, rfl⟩
  | refused hnot => exact absurd hchecked hnot
  | full _ hfull => exact absurd hroom hfull

theorem TransferFields.verified {P : Prims} {V : ProofVerifier} {f : TransferFields}
    {proof : List UInt8} {notes : List UInt8 × List UInt8}
    (h : Accepts P V (f.instruction proof notes)) :
    ∃ inputs, f.publicInputs = some inputs ∧ V.verifyTransfer proof inputs = true := by
  obtain ⟨spent, ctx, ctx', outcome, h⟩ := h
  simp only [TransferFields.instruction, process, transfer] at h
  split at h
  · cases h
  · rename_i hcheck
    obtain ⟨r, n₁, n₂, c₁, c₂, hc⟩ := checkTransfer_ok hcheck
    refine ⟨_, ?_, hc.verified⟩
    simp [publicInputs, hc.root, hc.nullifier₁, hc.nullifier₂, hc.commitment₁, hc.commitment₂]

theorem UnshieldFields.verified {P : Prims} {V : ProofVerifier} {f : UnshieldFields}
    {proof note : List UInt8} (h : Accepts P V (f.instruction proof note)) :
    ∃ inputs, f.publicInputs = some inputs ∧ V.verifyUnshield proof inputs = true := by
  obtain ⟨spent, ctx, ctx', outcome, h⟩ := h
  simp only [UnshieldFields.instruction, process, unshield] at h
  split at h
  · cases h
  · rename_i hcheck
    obtain ⟨r, n, c, hc⟩ := checkUnshield_ok hcheck
    refine ⟨_, ?_, hc.verified⟩
    simp [publicInputs, hc.root, hc.nullifier, hc.commitment]

theorem TransferFields.eq_of_publicInputs {a b : TransferFields} {inputs : List Fr}
    (ha : a.publicInputs = some inputs) (hb : b.publicInputs = some inputs) : a = b := by
  simp only [publicInputs, Option.bind_eq_bind, Option.bind_eq_some_iff, Option.pure_def,
    Option.some.injEq] at ha hb
  obtain ⟨r, hr, n₁, hn₁, n₂, hn₂, c₁, hc₁, c₂, hc₂, rfl⟩ := ha
  obtain ⟨r', hr', n₁', hn₁', n₂', hn₂', c₁', hc₁', c₂', hc₂', heq⟩ := hb
  simp only [List.cons.injEq, and_true] at heq
  obtain ⟨rfl, rfl, rfl, rfl, rfl, hfee⟩ := heq
  exact TransferFields.ext (frFromBytes_injective hr hr')
    (Prod.ext (frFromBytes_injective hn₁ hn₁') (frFromBytes_injective hn₂ hn₂'))
    (Prod.ext (frFromBytes_injective hc₁ hc₁') (frFromBytes_injective hc₂ hc₂'))
    (natCast_amount_injective hfee.symm)

theorem UnshieldFields.eq_iff_of_publicInputs {a b : UnshieldFields} {inputs : List Fr}
    (ha : a.publicInputs = some inputs) (hb : b.publicInputs = some inputs) :
    a = b ↔ a.asset.wraps = b.asset.wraps ∧ wraps a.recipient = wraps b.recipient := by
  simp only [publicInputs, Option.bind_eq_bind, Option.bind_eq_some_iff, Option.pure_def,
    Option.some.injEq] at ha hb
  obtain ⟨r, hr, n, hn, c, hc, rfl⟩ := ha
  obtain ⟨r', hr', n', hn', c', hc', heq⟩ := hb
  simp only [List.cons.injEq, and_true] at heq
  obtain ⟨rfl, rfl, rfl, hasset, hamount, hrecipient⟩ := heq
  rw [← asset_eq_iff_wraps hasset.symm, ← eq_iff_wraps hrecipient.symm]
  constructor
  · rintro rfl
    exact ⟨rfl, rfl⟩
  · rintro ⟨hasset, hrecipient⟩
    exact UnshieldFields.ext (frFromBytes_injective hr hr') (frFromBytes_injective hn hn')
      (frFromBytes_injective hc hc') hasset (natCast_amount_injective hamount.symm) hrecipient

/-- Accepted transfers with the same public inputs have the same public fields. For accepted
unshields this holds exactly if the modulus fits equally often into both recipients, and both
assets are native or their mints have it as often. -/
theorem public_inputs_bind_iff (P : Prims) (V : ProofVerifier) :
    (∀ a b : TransferFields, a.Accepted P V → b.Accepted P V →
      a.publicInputs = b.publicInputs → a = b) ∧
    ∀ a b : UnshieldFields, a.Accepted P V → b.Accepted P V → a.publicInputs = b.publicInputs →
      (a = b ↔ a.asset.wraps = b.asset.wraps ∧ wraps a.recipient = wraps b.recipient) := by
  constructor
  · rintro a b ⟨proof, notes, ha⟩ - hsame
    obtain ⟨inputs, hinputs, -⟩ := TransferFields.verified ha
    exact TransferFields.eq_of_publicInputs hinputs (hsame.symm.trans hinputs)
  · rintro a b ⟨proof, note, ha⟩ - hsame
    obtain ⟨inputs, hinputs, -⟩ := UnshieldFields.verified ha
    exact UnshieldFields.eq_iff_of_publicInputs hinputs (hsame.symm.trans hinputs)

namespace PoolService.Sample

/-- The public inputs of an unshield of one lamport to the recipient five. -/
def pinnedInputs : List Fr := [1, (2 : ℕ), (3 : ℕ), 0, 1, (5 : ℕ)]

def pinned : ProofVerifier where
  verifyTransfer _ _ := false
  verifyUnshield _ inputs := inputs = pinnedInputs

/-- An unshield of one lamport under the root of the empty tree, to a recipient given as a
number. -/
def payTo (recipient : ℕ) : UnshieldFields where
  root := frToBytes 1
  nullifier := frToBytes (2 : ℕ)
  changeCommitment := frToBytes (3 : ℕ)
  asset := .native
  amount := 1
  recipient := ⟨LittleEndian.encode 32 recipient, LittleEndian.length_encode ..⟩

def emptyContext : PoolContext := ⟨PoolState.new flatPrims, BlockNullifiers.empty⟩

theorem frFromLeBytes_payTo {recipient : ℕ} (hlt : recipient < 256 ^ 32)
    (hmod : (recipient : Fr) = (5 : ℕ)) :
    frFromLeBytesModOrder (payTo recipient).recipient = (5 : ℕ) := by
  rw [frFromLeBytesModOrder, payTo, LittleEndian.decode_encode_of_lt hlt, hmod]

theorem publicInputs_payTo {recipient : ℕ} (hlt : recipient < 256 ^ 32)
    (hmod : (recipient : Fr) = (5 : ℕ)) : (payTo recipient).publicInputs = some pinnedInputs := by
  simp only [UnshieldFields.publicInputs, frFromLeBytes_payTo hlt hmod]
  simp [payTo, frFromBytes_frToBytes, assetIdFr, nativeAssetId, pinnedInputs]

theorem room_payTo (recipient : ℕ) :
    Room flatPrims emptyContext ((payTo recipient).instruction [] []) := by
  have hleaves : ((payTo recipient).instruction [] []).leaves flatPrims = [((3 : ℕ) : Fr)] := by
    simp [UnshieldFields.instruction, payTo, PoolInstruction.leaves, frFromBytes_frToBytes]
  rw [Room, hleaves]
  decide

theorem checked_payTo {recipient : ℕ} (hlt : recipient < 256 ^ 32)
    (hmod : (recipient : Fr) = (5 : ℕ)) :
    Checked pinned (fun _ => false) emptyContext ((payTo recipient).instruction [] []) := by
  have hknown : emptyContext.state.isKnownRoot (frToBytes 1) = true := by
    simp only [PoolState.isKnownRoot, Bool.and_eq_true, decide_eq_true_eq]
    exact ⟨by decide, List.mem_cons_self⟩
  refine CheckedUnshield.eq_ok (r := 1) (n := (2 : ℕ)) (c := (3 : ℕ)) {
    amount_ne_zero := (by decide : (1 : UInt64) ≠ 0)
    known := hknown
    unspent := rfl
    root := frFromBytes_frToBytes 1
    nullifier := frFromBytes_frToBytes _
    commitment := frFromBytes_frToBytes _
    verified := ?_ }
  rw [frFromLeBytes_payTo hlt hmod]
  exact (by decide : pinned.verifyUnshield [] pinnedInputs = true)

end PoolService.Sample

open PoolService.Sample in
/-- The proof of an unshield to one recipient is accepted for the recipient whose bytes are larger
by the modulus, and pays it. -/
theorem recipient_replaced :
    (payTo 5).publicInputs = (payTo (5 + frModulus)).publicInputs ∧
      (payTo 5).recipient ≠ (payTo (5 + frModulus)).recipient ∧
      ∀ n ∈ [5, 5 + frModulus], ∃ ctx outcome,
        process flatPrims pinned (fun _ => false) emptyContext ((payTo n).instruction [] []) =
          (ctx, .ok outcome) ∧
        outcome.effects = [.withdrawFromVault .native 1 (payTo n).recipient] := by
  have hlt : 5 + frModulus < 256 ^ 32 := by decide
  have hmod : ((5 + frModulus : ℕ) : Fr) = (5 : ℕ) := by
    rw [Nat.cast_add, ZMod.natCast_self, add_zero]
  refine ⟨?_, by decide, fun n hn => ?_⟩
  · rw [publicInputs_payTo (by decide) rfl, publicInputs_payTo hlt hmod]
  · have hchecked : Checked pinned (fun _ => false) emptyContext ((payTo n).instruction [] []) := by
      rcases List.mem_pair.mp hn with rfl | rfl
      · exact checked_payTo (by decide) rfl
      · exact checked_payTo hlt hmod
    obtain ⟨ctx, outcome, hprocess⟩ := process_of_room (P := flatPrims)
      (PoolState.canonical_new flatPrims) hchecked (room_payTo n)
    exact ⟨ctx, outcome, hprocess, process_effects hprocess⟩

end Zul.Privacy
