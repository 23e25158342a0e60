import Zul.Lib.FixedCodec
import Zul.Privacy.Processor

/-! # Proofs on the wire

A Groth16 proof is 256 bytes: the coordinates of three curve points, 32 big-endian bytes each,
every one below the modulus of the curve's base field. The curve itself is a parameter: whether
the coordinates are points that pass the pairing check for a verifying key.
-/

namespace Zul.Privacy

/-- The modulus of the base field, which is larger than that of the scalar field. -/
def fqModulus : ℕ := 21888242871839275222246405745257275088696311157297823662689037894645226208583

def PROOF_BYTES : ℕ := 256

inductive VerifierError
  | badPoint
  | badVerifyingKey
  | badProof
  | inputCount (expected actual : ℕ)
  deriving DecidableEq

/-- A coordinate; an encoding that is not reduced is rejected. -/
def fqFromBe (bytes : List UInt8) : Except VerifierError ℕ :=
  if bytes.length ≠ 32 then .error .badPoint
  else
    let fq := LittleEndian.decode bytes.reverse
    if fq < fqModulus then .ok fq else .error .badPoint

def parseProof (bytes : List UInt8) : Except VerifierError (List ℕ) :=
  if bytes.length ≠ PROOF_BYTES then .error .badProof
  else (List.range 8).mapM fun i =>
    (fqFromBe ((bytes.drop (32 * i)).take 32)).mapError fun _ => .badProof

/-- Whether coordinates are points of the curve that pass the pairing check of a verifying key
with some public inputs. -/
abbrev PairingCheck := List ℕ → List Fr → Bool

def verify (check : PairingCheck) (proofBytes : List UInt8) (publicInputs : List Fr) : Bool :=
  match parseProof proofBytes with
  | .ok coordinates => check coordinates publicInputs
  | .error _ => false

def groth16 (transfer unshield : PairingCheck) : ProofVerifier := ⟨verify transfer, verify unshield⟩

@[simp] theorem groth16_verifyTransfer (transfer unshield : PairingCheck) :
    (groth16 transfer unshield).verifyTransfer = verify transfer := rfl

@[simp] theorem groth16_verifyUnshield (transfer unshield : PairingCheck) :
    (groth16 transfer unshield).verifyUnshield = verify unshield := rfl

def beBytes (x : ℕ) : List UInt8 := (LittleEndian.encode 32 x).reverse

@[simp] theorem length_beBytes (x : ℕ) : (beBytes x).length = 32 := by
  rw [beBytes, List.length_reverse, LittleEndian.length_encode]

theorem fqFromBe_beBytes {x : ℕ} (h : x < fqModulus) : fqFromBe (beBytes x) = .ok x := by
  have hlt : x < 256 ^ 32 := h.trans (by decide)
  rw [fqFromBe, length_beBytes, if_neg (by simp), beBytes, List.reverse_reverse,
    LittleEndian.decode_encode_of_lt hlt, if_pos h]

open FixedCodec in
theorem canonical_coordinate : Canonical 32 (· < fqModulus) beBytes fqFromBe where
  length_encode _ := length_beBytes _
  decode_encode := fqFromBe_beBytes
  of_decode := by
    intro bytes x hbytes h
    simp only [fqFromBe, hbytes, ne_eq, not_true_eq_false, if_false] at h
    split at h
    · rename_i hlt
      cases h
      refine ⟨hlt, ?_⟩
      rw [beBytes, ← hbytes, ← List.length_reverse, LittleEndian.encode_decode,
        List.reverse_reverse]
    · cases h

open FixedCodec in
theorem canonical_coordinates :
    Canonical PROOF_BYTES (fun xs => xs.length = 8 ∧ ∀ x ∈ xs, x < fqModulus)
      (fun xs => xs.flatMap beBytes) parseProof := by
  have hcoordinate : Canonical 32 (· < fqModulus) beBytes
      fun bytes => (fqFromBe bytes).mapError fun _ => VerifierError.badProof := by
    apply canonical_coordinate.comap id
    · intro x
      rfl
    · intro bytes x _
      exact mapError_eq_ok_iff
  apply (hcoordinate.repeated 8).comap id
  · intro xs
    rfl
  · intro bytes xs hbytes
    rw [parseProof, if_neg (by simp [hbytes, PROOF_BYTES]), repeated_eq_mapM, id]

theorem parseProof_coordinates {coordinates : List ℕ} (hlength : coordinates.length = 8)
    (h : ∀ x ∈ coordinates, x < fqModulus) :
    parseProof (coordinates.map beBytes).flatten = .ok coordinates := by
  rw [← List.flatMap_def]
  exact canonical_coordinates.decode_encode ⟨hlength, h⟩

end Zul.Privacy
