import Zul.Privacy.Verifier

/-! # Proofs and verifying keys as bytes

The points of a proof and of a verifying key, written as big-endian coordinates: the imaginary
part of an extension-field element first, the identity as zeros, the number of public inputs of a
key ahead of its points. Which coordinates are those of a group element is left to the curve
library; of it only that the origin is on neither curve is used.
-/

namespace Zul.Privacy.Groth16

instance : NeZero fqModulus := ⟨by decide⟩

/-- The BN254 base field. -/
abbrev Fq := ZMod fqModulus

structure Fq2 where
  c0 : Fq
  c1 : Fq
  deriving DecidableEq

instance : Zero Fq2 := ⟨⟨0, 0⟩⟩

inductive Affine (F : Type)
  | identity
  | point (x y : F)
  deriving DecidableEq

abbrev G1Affine := Affine Fq

abbrev G2Affine := Affine Fq2

/-- Which pairs are on the curve and in its subgroup of prime order. -/
structure Curve where
  onG1 : Fq → Fq → Bool
  onG2 : Fq2 → Fq2 → Bool
  origin_onG1 : onG1 0 0 = false
  origin_onG2 : onG2 0 0 = false

def Affine.On {F : Type} (on : F → F → Bool) : Affine F → Prop
  | identity => True
  | point x y => on x y = true

instance {F : Type} (on : F → F → Bool) : (p : Affine F) → Decidable (p.On on)
  | .identity => .isTrue trivial
  | .point x y => inferInstanceAs (Decidable (on x y = true))

structure Proof where
  a : G1Affine
  b : G2Affine
  c : G1Affine
  deriving DecidableEq

structure VerifyingKey where
  alphaG1 : G1Affine
  betaG2 : G2Affine
  gammaG2 : G2Affine
  deltaG2 : G2Affine
  gammaAbcG1 : List G1Affine
  deriving DecidableEq

/-! ## Writing -/

def fqToBe (fq : Fq) : List UInt8 := (LittleEndian.encode 32 fq.val).reverse

def fq2ToBe (fq : Fq2) : List UInt8 := fqToBe fq.c1 ++ fqToBe fq.c0

def pointToBe {F : Type} (size : ℕ) (coordinate : F → List UInt8) : Affine F → List UInt8
  | .identity => List.replicate (2 * size) 0
  | .point x y => coordinate x ++ coordinate y

def g1ToBe : G1Affine → List UInt8 := pointToBe 32 fqToBe

def g2ToBe : G2Affine → List UInt8 := pointToBe 64 fq2ToBe

def proofToBytes (proof : Proof) : List UInt8 :=
  g1ToBe proof.a ++ (g2ToBe proof.b ++ g1ToBe proof.c)

/-- A key without a point for the constant input makes the count of inputs underflow. -/
def verifyingKeyToBytes (vk : VerifyingKey) : Option (List UInt8) :=
  match vk.gammaAbcG1.length with
  | 0 => none
  | nPublic + 1 => some (LittleEndian.u32 (UInt32.ofNat nPublic) ++ (g1ToBe vk.alphaG1 ++
      (g2ToBe vk.betaG2 ++ (g2ToBe vk.gammaG2 ++ (g2ToBe vk.deltaG2 ++
        vk.gammaAbcG1.flatMap g1ToBe)))))

/-! ## Reading -/

/-- A coordinate; an encoding that is not reduced is rejected. -/
def fqFromBe (bytes : List UInt8) : Except VerifierError Fq :=
  if bytes.length ≠ 32 then .error .badPoint
  else
    -- Fq::from_be_bytes_mod_order
    let fq : Fq := (LittleEndian.decode bytes.reverse : ℕ)
    if fqToBe fq ≠ bytes then .error .badPoint else .ok fq

def fq2FromBe (bytes : List UInt8) : Except VerifierError Fq2 := do
  let c1 ← fqFromBe (bytes.take 32)
  let c0 ← fqFromBe (bytes.drop 32)
  return ⟨c0, c1⟩

/-- A point with coordinates of the given size; the origin stands for the identity. -/
def pointFromBe {F : Type} [Zero F] [DecidableEq F] (size : ℕ)
    (coordinate : List UInt8 → Except VerifierError F) (on : F → F → Bool) (bytes : List UInt8) :
    Except VerifierError (Affine F) :=
  if bytes.length ≠ 2 * size then .error .badPoint
  else do
    let x ← coordinate (bytes.take size)
    let y ← coordinate (bytes.drop size)
    if x = 0 ∧ y = 0 then .ok .identity
    else if on x y then .ok (.point x y) else .error .badPoint

def g1FromBe (C : Curve) : List UInt8 → Except VerifierError G1Affine :=
  pointFromBe 32 fqFromBe C.onG1

def g2FromBe (C : Curve) : List UInt8 → Except VerifierError G2Affine :=
  pointFromBe 64 fq2FromBe C.onG2

def parseProof (C : Curve) (bytes : List UInt8) : Except VerifierError Proof :=
  if bytes.length ≠ PROOF_BYTES then .error .badProof
  else do
    let a ← (g1FromBe C (bytes.take 64)).mapError fun _ => .badProof
    let b ← (g2FromBe C ((bytes.drop 64).take 128)).mapError fun _ => .badProof
    let c ← (g1FromBe C (bytes.drop 192)).mapError fun _ => .badProof
    return ⟨a, b, c⟩

def parseVerifyingKey (C : Curve) (bytes : List UInt8) : Except VerifierError VerifyingKey :=
  if bytes.length < 4 + 64 + 128 * 3 + 64 then .error .badVerifyingKey
  else
    let nPublic := (LittleEndian.toU32 (bytes.take 4)).toNat
    if bytes.length ≠ 4 + 64 + 128 * 3 + (nPublic + 1) * 64 then .error .badVerifyingKey
    else do
      let alphaG1 ← g1FromBe C ((bytes.drop 4).take 64)
      let betaG2 ← g2FromBe C ((bytes.drop 68).take 128)
      let gammaG2 ← g2FromBe C ((bytes.drop 196).take 128)
      let deltaG2 ← g2FromBe C ((bytes.drop 324).take 128)
      let gammaAbcG1 ← FixedCodec.repeated 64 (g1FromBe C) (nPublic + 1) (bytes.drop 452)
      return ⟨alphaG1, betaG2, gammaG2, deltaG2, gammaAbcG1⟩

/-! ## Coordinates and points -/

open FixedCodec

@[simp] theorem length_fqToBe (fq : Fq) : (fqToBe fq).length = 32 := by
  rw [fqToBe, List.length_reverse, LittleEndian.length_encode]

theorem fqFromBe_fqToBe (fq : Fq) : fqFromBe (fqToBe fq) = .ok fq := by
  have hlt : fq.val < 256 ^ 32 := (ZMod.val_lt fq).trans (by decide)
  have hdecode : ((LittleEndian.decode (fqToBe fq).reverse : ℕ) : Fq) = fq := by
    rw [fqToBe, List.reverse_reverse, LittleEndian.decode_encode_of_lt hlt,
      ZMod.natCast_zmod_val]
  rw [fqFromBe, length_fqToBe, if_neg (by simp)]
  simp only [hdecode, ne_eq, not_true_eq_false, if_false]

theorem canonical_fq : Canonical 32 (fun _ => True) fqToBe fqFromBe where
  length_encode _ := length_fqToBe _
  decode_encode _ := fqFromBe_fqToBe _
  of_decode := by
    intro bytes fq hlength h
    rw [fqFromBe, if_neg (by simp [hlength])] at h
    refine ⟨trivial, ?_⟩
    by_cases hbytes : fqToBe (LittleEndian.decode bytes.reverse : ℕ) = bytes
    · simp only [hbytes, ne_eq, not_true_eq_false, if_false] at h
      cases h
      exact hbytes
    · simp only [ne_eq, hbytes, not_false_eq_true, if_true] at h
      cases h

theorem fq2FromBe_eq_ok_iff {bytes : List UInt8} {fq : Fq2} :
    fq2FromBe bytes = .ok fq ↔
      fqFromBe (bytes.take 32) = .ok fq.c1 ∧ fqFromBe (bytes.drop 32) = .ok fq.c0 := by
  constructor
  · intro h
    obtain ⟨c1, h1, h⟩ := bind_eq_ok_iff.mp h
    obtain ⟨c0, h0, h⟩ := bind_eq_ok_iff.mp h
    cases h
    exact ⟨h1, h0⟩
  · rintro ⟨h1, h0⟩
    exact bind_eq_ok_iff.mpr ⟨fq.c1, h1, bind_eq_ok_iff.mpr ⟨fq.c0, h0, rfl⟩⟩

theorem canonical_fq2 : Canonical 64 (fun _ => True) fq2ToBe fq2FromBe := by
  apply (canonical_fq.pair canonical_fq).comap fun fq : Fq2 => (fq.c1, fq.c0)
  · simp
  · intro bytes fq _
    rw [fq2FromBe_eq_ok_iff, pair_eq_ok_iff]

section Points

variable {F : Type} [Zero F] [DecidableEq F] {size : ℕ} {encode : F → List UInt8}
  {decode : List UInt8 → Except VerifierError F} {on : F → F → Bool}

theorem pointFromBe_eq_ok_iff {bytes : List UInt8} (hlength : bytes.length = 2 * size)
    {p : Affine F} :
    pointFromBe size decode on bytes = .ok p ↔
      ∃ q : F × F, pair size decode decode bytes = .ok q ∧
        (if q.1 = 0 ∧ q.2 = 0 then .ok .identity
          else if on q.1 q.2 then .ok (.point q.1 q.2) else .error .badPoint) =
          (.ok p : Except VerifierError (Affine F)) := by
  rw [pointFromBe, if_neg (by simp [hlength])]
  constructor
  · intro h
    obtain ⟨x, hx, h⟩ := bind_eq_ok_iff.mp h
    obtain ⟨y, hy, h⟩ := bind_eq_ok_iff.mp h
    exact ⟨(x, y), pair_eq_ok_iff.mpr ⟨hx, hy⟩, h⟩
  · rintro ⟨⟨x, y⟩, hq, h⟩
    obtain ⟨hx, hy⟩ := pair_eq_ok_iff.mp hq
    exact bind_eq_ok_iff.mpr ⟨x, hx, bind_eq_ok_iff.mpr ⟨y, hy, h⟩⟩

/-- Points over canonical coordinates are canonical, if zeros are the origin's coordinates and the
origin is not on the curve. -/
theorem canonical_point (h : Canonical size (fun _ => True) encode decode)
    (hzero : encode 0 = List.replicate size 0) (horigin : on 0 0 = false) :
    Canonical (2 * size) (Affine.On on) (pointToBe size encode) (pointFromBe size decode on) := by
  have hpair := h.pair h
  rw [← Nat.two_mul] at hpair
  have hlength : ∀ p, (pointToBe size encode p).length = 2 * size := by
    rintro (_ | ⟨x, y⟩)
    · exact List.length_replicate
    · exact @hpair.length_encode (x, y) ⟨trivial, trivial⟩
  have horiginToBe : pointToBe size encode .identity = encode 0 ++ encode 0 := by
    rw [pointToBe, hzero, List.replicate_append_replicate, Nat.two_mul]
  constructor
  · intro p _
    exact hlength p
  · intro p hp
    rw [pointFromBe_eq_ok_iff (hlength p)]
    cases p with
    | identity =>
      rw [horiginToBe]
      exact ⟨(0, 0), @hpair.decode_encode (0, 0) ⟨trivial, trivial⟩, if_pos ⟨rfl, rfl⟩⟩
    | point x y =>
      refine ⟨(x, y), @hpair.decode_encode (x, y) ⟨trivial, trivial⟩, ?_⟩
      have hne : ¬(x = 0 ∧ y = 0) := by
        rintro ⟨rfl, rfl⟩
        exact absurd (horigin.symm.trans hp) (by decide)
      exact (if_neg hne).trans (if_pos hp)
  · intro bytes p hbytes hp
    obtain ⟨⟨x, y⟩, hq, hp⟩ := (pointFromBe_eq_ok_iff hbytes).mp hp
    obtain ⟨-, hq⟩ := hpair.of_decode hbytes hq
    split at hp
    · rename_i hxy
      obtain ⟨hx, hy⟩ : x = 0 ∧ y = 0 := hxy
      subst hx hy
      cases hp
      exact ⟨trivial, horiginToBe.trans hq⟩
    · split at hp
      · rename_i hon
        cases hp
        exact ⟨hon, hq⟩
      · cases hp

end Points

variable (C : Curve)

theorem canonical_g1 : Canonical 64 (Affine.On C.onG1) g1ToBe (g1FromBe C) :=
  canonical_point canonical_fq (by decide) C.origin_onG1

theorem canonical_g2 : Canonical 128 (Affine.On C.onG2) g2ToBe (g2FromBe C) :=
  canonical_point canonical_fq2 (by decide) C.origin_onG2

/-! ## Proofs and keys -/

structure Proof.On (proof : Proof) : Prop where
  a : proof.a.On C.onG1
  b : proof.b.On C.onG2
  c : proof.c.On C.onG1

structure VerifyingKey.On (vk : VerifyingKey) : Prop where
  alphaG1 : vk.alphaG1.On C.onG1
  betaG2 : vk.betaG2.On C.onG2
  gammaG2 : vk.gammaG2.On C.onG2
  deltaG2 : vk.deltaG2.On C.onG2
  gammaAbcG1 : ∀ p ∈ vk.gammaAbcG1, p.On C.onG1

theorem parseProof_eq_ok_iff {bytes : List UInt8} (hlength : bytes.length = PROOF_BYTES)
    {proof : Proof} :
    parseProof C bytes = .ok proof ↔
      g1FromBe C (bytes.take 64) = .ok proof.a ∧
      g2FromBe C ((bytes.drop 64).take 128) = .ok proof.b ∧
      g1FromBe C (bytes.drop 192) = .ok proof.c := by
  rw [parseProof, if_neg (by simp [hlength])]
  constructor
  · intro h
    obtain ⟨a, ha, h⟩ := bind_eq_ok_iff.mp h
    obtain ⟨b, hb, h⟩ := bind_eq_ok_iff.mp h
    obtain ⟨c, hc, h⟩ := bind_eq_ok_iff.mp h
    cases h
    exact ⟨mapError_eq_ok_iff.mp ha, mapError_eq_ok_iff.mp hb, mapError_eq_ok_iff.mp hc⟩
  · rintro ⟨ha, hb, hc⟩
    rw [ha, hb, hc]
    rfl

theorem length_of_parse {bytes : List UInt8} {proof : Proof} (h : parseProof C bytes = .ok proof) :
    bytes.length = PROOF_BYTES := by
  by_contra hlength
  rw [parseProof, if_pos hlength] at h
  cases h

theorem canonical_proof : Canonical PROOF_BYTES (Proof.On C) proofToBytes (parseProof C) := by
  apply ((canonical_g1 C).pair ((canonical_g2 C).pair (canonical_g1 C))).comap
    fun proof : Proof => (proof.a, proof.b, proof.c)
  · intro proof
    constructor
    · rintro ⟨ha, hb, hc⟩
      exact ⟨ha, hb, hc⟩
    · rintro ⟨ha, hb, hc⟩
      exact ⟨ha, hb, hc⟩
  · intro bytes proof hbytes
    rw [parseProof_eq_ok_iff C hbytes, pair_eq_ok_iff, pair_eq_ok_iff, List.drop_drop]

def VerifyingKey.points (vk : VerifyingKey) :
    G1Affine × G2Affine × G2Affine × G2Affine × List G1Affine :=
  (vk.alphaG1, vk.betaG2, vk.gammaG2, vk.deltaG2, vk.gammaAbcG1)

def pointsToBe (vk : VerifyingKey) : List UInt8 :=
  g1ToBe vk.alphaG1 ++ (g2ToBe vk.betaG2 ++ (g2ToBe vk.gammaG2 ++ (g2ToBe vk.deltaG2 ++
    vk.gammaAbcG1.flatMap g1ToBe)))

def pointsFromBe (nPublic : ℕ) (bytes : List UInt8) : Except VerifierError VerifyingKey := do
  let alphaG1 ← g1FromBe C (bytes.take 64)
  let betaG2 ← g2FromBe C ((bytes.drop 64).take 128)
  let gammaG2 ← g2FromBe C ((bytes.drop 192).take 128)
  let deltaG2 ← g2FromBe C ((bytes.drop 320).take 128)
  let gammaAbcG1 ← repeated 64 (g1FromBe C) (nPublic + 1) (bytes.drop 448)
  return ⟨alphaG1, betaG2, gammaG2, deltaG2, gammaAbcG1⟩

theorem pointsFromBe_eq_ok_iff {nPublic : ℕ} {bytes : List UInt8} {vk : VerifyingKey} :
    pointsFromBe C nPublic bytes = .ok vk ↔
      g1FromBe C (bytes.take 64) = .ok vk.alphaG1 ∧
      g2FromBe C ((bytes.drop 64).take 128) = .ok vk.betaG2 ∧
      g2FromBe C ((bytes.drop 192).take 128) = .ok vk.gammaG2 ∧
      g2FromBe C ((bytes.drop 320).take 128) = .ok vk.deltaG2 ∧
      repeated 64 (g1FromBe C) (nPublic + 1) (bytes.drop 448) = .ok vk.gammaAbcG1 := by
  constructor
  · intro h
    obtain ⟨alphaG1, hα, h⟩ := bind_eq_ok_iff.mp h
    obtain ⟨betaG2, hβ, h⟩ := bind_eq_ok_iff.mp h
    obtain ⟨gammaG2, hγ, h⟩ := bind_eq_ok_iff.mp h
    obtain ⟨deltaG2, hδ, h⟩ := bind_eq_ok_iff.mp h
    obtain ⟨gammaAbcG1, hic, h⟩ := bind_eq_ok_iff.mp h
    cases h
    exact ⟨hα, hβ, hγ, hδ, hic⟩
  · rintro ⟨hα, hβ, hγ, hδ, hic⟩
    rw [pointsFromBe, hα, hβ, hγ, hδ, hic]
    rfl

theorem canonical_points (nPublic : ℕ) :
    Canonical (448 + (nPublic + 1) * 64)
      (fun vk => vk.On C ∧ vk.gammaAbcG1.length = nPublic + 1) pointsToBe
      (pointsFromBe C nPublic) := by
  have hg2 := canonical_g2 C
  have hpoints := (canonical_g1 C).pair (hg2.pair (hg2.pair (hg2.pair
    ((canonical_g1 C).repeated (nPublic + 1)))))
  have hsize : 64 + (128 + (128 + (128 + (nPublic + 1) * 64))) = 448 + (nPublic + 1) * 64 := by
    omega
  rw [hsize] at hpoints
  apply hpoints.comap VerifyingKey.points
  · intro vk
    constructor
    · rintro ⟨⟨hα, hβ, hγ, hδ, hic⟩, hlength⟩
      exact ⟨hα, hβ, hγ, hδ, hlength, hic⟩
    · rintro ⟨hα, hβ, hγ, hδ, hlength, hic⟩
      exact ⟨⟨hα, hβ, hγ, hδ, hic⟩, hlength⟩
  · intro bytes vk _
    simp only [pointsFromBe_eq_ok_iff, pair_eq_ok_iff, List.drop_drop, VerifyingKey.points]

theorem parseVerifyingKey_eq_ok_iff {bytes : List UInt8} {vk : VerifyingKey} :
    parseVerifyingKey C bytes = .ok vk ↔
      bytes.length = 452 + ((LittleEndian.toU32 (bytes.take 4)).toNat + 1) * 64 ∧
      pointsFromBe C (LittleEndian.toU32 (bytes.take 4)).toNat (bytes.drop 4) = .ok vk := by
  rw [parseVerifyingKey]
  by_cases hlength :
      bytes.length = 452 + ((LittleEndian.toU32 (bytes.take 4)).toNat + 1) * 64
  · rw [if_neg (by omega)]
    simp only [hlength, pointsFromBe, List.drop_drop, ne_eq, not_true_eq_false, if_false, true_and]
  · rw [iff_false_right (fun h => hlength h.1)]
    intro h
    split at h
    · cases h
    · simp only [ne_eq, hlength, not_false_eq_true, if_true] at h
      cases h

theorem verifyingKeyToBytes_of_length {vk : VerifyingKey} {nPublic : ℕ}
    (h : vk.gammaAbcG1.length = nPublic + 1) :
    verifyingKeyToBytes vk =
      some (LittleEndian.u32 (UInt32.ofNat nPublic) ++ pointsToBe vk) := by
  rw [verifyingKeyToBytes, h]
  rfl

theorem parseVerifyingKey_verifyingKeyToBytes {vk : VerifyingKey} (hvk : vk.On C)
    (hpos : 1 ≤ vk.gammaAbcG1.length) (hfits : vk.gammaAbcG1.length ≤ 2 ^ 32) :
    ∃ bytes, verifyingKeyToBytes vk = some bytes ∧ parseVerifyingKey C bytes = .ok vk := by
  obtain ⟨nPublic, hn⟩ := Nat.exists_eq_add_of_le' hpos
  have hpoints := canonical_points C nPublic
  have hlength := hpoints.length_encode ⟨hvk, hn⟩
  have hcount : (UInt32.ofNat nPublic).toNat = nPublic := by
    apply UInt32.toNat_ofNat_of_lt'
    rw [UInt32.size]
    omega
  refine ⟨_, verifyingKeyToBytes_of_length hn, (parseVerifyingKey_eq_ok_iff C).mpr ?_⟩
  rw [List.take_left' (LittleEndian.length_u32 _), List.drop_left' (LittleEndian.length_u32 _),
    LittleEndian.toU32_u32, hcount]
  constructor
  · rw [List.length_append, LittleEndian.length_u32, hlength]
    omega
  · exact hpoints.decode_encode ⟨hvk, hn⟩

theorem of_parseVerifyingKey {bytes : List UInt8} {vk : VerifyingKey}
    (h : parseVerifyingKey C bytes = .ok vk) :
    vk.On C ∧ verifyingKeyToBytes vk = some bytes := by
  obtain ⟨hlength, hpoints⟩ := (parseVerifyingKey_eq_ok_iff C).mp h
  have hfour : (bytes.take 4).length = 4 := by
    rw [List.length_take]
    omega
  obtain ⟨⟨hvk, hn⟩, hdrop⟩ := (canonical_points C _).of_decode
    (by rw [List.length_drop]; omega) hpoints
  refine ⟨hvk, ?_⟩
  rw [verifyingKeyToBytes_of_length hn, hdrop, UInt32.ofNat_toNat, LittleEndian.u32_toU32 hfour,
    List.take_append_drop]

/-- Proofs and keys over group elements have one encoding each: it is read back, and nothing else
is accepted. -/
theorem encodings_canonical :
    (∀ proof : Proof, proof.On C → parseProof C (proofToBytes proof) = .ok proof) ∧
    (∀ bytes proof, parseProof C bytes = .ok proof →
      proof.On C ∧ proofToBytes proof = bytes) ∧
    (∀ bytes bytes' proof, parseProof C bytes = .ok proof → parseProof C bytes' = .ok proof →
      bytes = bytes') ∧
    (∀ vk : VerifyingKey, vk.On C → 1 ≤ vk.gammaAbcG1.length → vk.gammaAbcG1.length ≤ 2 ^ 32 →
      ∃ bytes, verifyingKeyToBytes vk = some bytes ∧ parseVerifyingKey C bytes = .ok vk) ∧
    (∀ bytes vk, parseVerifyingKey C bytes = .ok vk →
      vk.On C ∧ verifyingKeyToBytes vk = some bytes) ∧
    (∀ bytes bytes' vk, parseVerifyingKey C bytes = .ok vk →
      parseVerifyingKey C bytes' = .ok vk → bytes = bytes') := by
  have hproof := canonical_proof C
  refine ⟨fun proof => hproof.decode_encode, ?_, ?_, fun vk => ?_, ?_, ?_⟩
  · intro bytes proof h
    exact hproof.of_decode (length_of_parse C h) h
  · intro bytes bytes' proof h h'
    exact (hproof.of_decode (length_of_parse C h) h).2.symm.trans
      (hproof.of_decode (length_of_parse C h') h').2
  · exact parseVerifyingKey_verifyingKeyToBytes C
  · intro bytes vk
    exact of_parseVerifyingKey C
  · intro bytes bytes' vk h h'
    have hbytes := (of_parseVerifyingKey C h).2
    rw [(of_parseVerifyingKey C h').2] at hbytes
    exact (Option.some.inj hbytes).symm

def sampleCurve : Curve where
  onG1 x y := y * y == x * x * x + (3 : ℕ)
  onG2 x y := !(x == 0 && y == 0)
  origin_onG1 := by decide
  origin_onG2 := by decide

/-- A key for no inputs, over the first group's generator and identities. -/
def sampleKey : VerifyingKey :=
  ⟨.point 1 (2 : ℕ), .identity, .point 0 ⟨1, 0⟩, .identity, [.identity]⟩

theorem sample_key_read_back :
    ∃ bytes, verifyingKeyToBytes sampleKey = some bytes ∧
      parseVerifyingKey sampleCurve bytes = .ok sampleKey :=
  (encodings_canonical sampleCurve).2.2.2.1 sampleKey
    ⟨by decide, trivial, by decide, trivial, by decide⟩ (by decide) (by decide)

/-! ## The node's verifier -/

/-- `None` for a circuit whose key is not configured. -/
structure VerifyingKeys where
  transfer : Option VerifyingKey
  unshield : Option VerifyingKey

def VerifyingKeys.load (transferVk unshieldVk : List UInt8) :
    Except VerifierError VerifyingKeys := do
  let transfer ← parseVerifyingKey C transferVk
  let unshield ← parseVerifyingKey C unshieldVk
  return ⟨some transfer, some unshield⟩

/-- The pairing check of `ark_groth16`. -/
abbrev Pairing := VerifyingKey → Proof → List Fr → Bool

variable (pairing : Pairing)

def verify (vk : VerifyingKey) (proofBytes : List UInt8) (publicInputs : List Fr) :
    Except VerifierError Bool :=
  if publicInputs.length + 1 ≠ vk.gammaAbcG1.length then
    .error (.inputCount (vk.gammaAbcG1.length - 1) publicInputs.length)
  else do
    let proof ← parseProof C proofBytes
    return pairing vk proof publicInputs

/-- What the verifier answers with a circuit's key, if there is one. -/
def answer (vk : Option VerifyingKey) (proofBytes : List UInt8) (publicInputs : List Fr) : Bool :=
  match vk with
  | some vk => (verify C pairing vk proofBytes publicInputs).toOption.getD false
  | none => false

def groth16Verifier (keys : VerifyingKeys) : ProofVerifier where
  verifyTransfer := answer C pairing keys.transfer
  verifyUnshield := answer C pairing keys.unshield

/-- Coordinates that are group elements of a proof which passes a circuit's key. -/
def check (vk : Option VerifyingKey) : PairingCheck := fun coordinates =>
  answer C pairing vk (coordinates.flatMap beBytes)

theorem exists_coordinates (proof : Proof) :
    ∃ xs : List ℕ, (xs.length = 8 ∧ ∀ x ∈ xs, x < fqModulus) ∧
      proofToBytes proof = xs.flatMap beBytes := by
  have hg1 : ∀ p : G1Affine, ∃ xs : List ℕ, (xs.length = 2 ∧ ∀ x ∈ xs, x < fqModulus) ∧
      g1ToBe p = xs.flatMap beBytes := by
    rintro (_ | ⟨x, y⟩)
    · exact ⟨[0, 0], by decide, by decide⟩
    · refine ⟨[x.val, y.val], ⟨rfl, ?_⟩, by simp [g1ToBe, pointToBe, fqToBe, beBytes]⟩
      simp [ZMod.val_lt]
  have hg2 : ∀ p : G2Affine, ∃ xs : List ℕ, (xs.length = 4 ∧ ∀ x ∈ xs, x < fqModulus) ∧
      g2ToBe p = xs.flatMap beBytes := by
    rintro (_ | ⟨x, y⟩)
    · exact ⟨[0, 0, 0, 0], by decide, by decide⟩
    · refine ⟨[x.c1.val, x.c0.val, y.c1.val, y.c0.val], ⟨rfl, ?_⟩,
        by simp [g2ToBe, pointToBe, fq2ToBe, fqToBe, beBytes]⟩
      simp [ZMod.val_lt]
  obtain ⟨as, ⟨hal, ha⟩, hat⟩ := hg1 proof.a
  obtain ⟨bs, ⟨hbl, hb⟩, hbt⟩ := hg2 proof.b
  obtain ⟨cs, ⟨hcl, hc⟩, hct⟩ := hg1 proof.c
  refine ⟨as ++ (bs ++ cs), ⟨by simp [hal, hbl, hcl], ?_⟩, ?_⟩
  · simp only [List.mem_append]
    rintro x (hx | hx | hx)
    · exact ha x hx
    · exact hb x hx
    · exact hc x hx
  · rw [proofToBytes, hat, hbt, hct, List.flatMap_append, List.flatMap_append]

theorem groth16Verifier_eq (keys : VerifyingKeys) :
    groth16Verifier C pairing keys =
      groth16 (check C pairing keys.transfer) (check C pairing keys.unshield) := by
  have hanswer : ∀ vk, answer C pairing vk = Privacy.verify (check C pairing vk) := by
    intro vk
    funext bytes inputs
    rw [Privacy.verify]
    cases hparse : Privacy.parseProof bytes with
    | ok xs =>
      have hlength : bytes.length = PROOF_BYTES := by
        by_contra hlength
        rw [Privacy.parseProof, if_pos hlength] at hparse
        cases hparse
      have hbytes := (canonical_coordinates.of_decode hlength hparse).2
      simp only [check, hbytes]
    | error e =>
      -- bytes that are no coordinates are no proof either
      have hfails : ∀ proof, parseProof C bytes ≠ .ok proof := by
        intro proof h
        obtain ⟨xs, hxs, hwritten⟩ := exists_coordinates proof
        rw [((canonical_proof C).of_decode (length_of_parse C h) h).2] at hwritten
        rw [hwritten, canonical_coordinates.decode_encode hxs] at hparse
        cases hparse
      cases vk with
      | none => rfl
      | some vk =>
        rw [answer, verify]
        split
        · rfl
        · cases h : parseProof C bytes with
          | error e => rfl
          | ok proof => exact absurd h (hfails proof)
  rw [groth16Verifier, groth16, hanswer, hanswer]

end Zul.Privacy.Groth16
