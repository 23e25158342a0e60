import Mathlib.Data.Fintype.Pi
import Mathlib.Data.ZMod.Basic
import Zul.Lib.PartialMap
import Zul.Lib.Words

/-! # Keys, hashes and transactions

Byte strings of fixed length, the hash helpers of `hash.rs`, and the Solana transaction
shape the node reads. Third-party primitives are collected in `Prims`; every result holds
for all of them.
-/

namespace Zul

/-- A fixed-length byte array, such as `[u8; 32]`. -/
@[ext] structure Bytes (n : ℕ) where
  toList : List UInt8
  length_toList : toList.length = n
  deriving DecidableEq

attribute [simp] Bytes.length_toList

abbrev Pubkey := Bytes 32

/-- A 32-byte hash, stored raw. -/
abbrev H256 := Bytes 32

/-- An Ed25519 signature. -/
abbrev Signature := Bytes 64

instance finiteUInt8 : Finite UInt8 :=
  Finite.of_injective (fun b : UInt8 => (⟨b.toNat, b.toNat_lt⟩ : Fin (2 ^ 8))) fun _ _ h =>
    UInt8.toNat_inj.mp (Fin.mk.inj h)

namespace Bytes

variable {n : ℕ}

instance : Finite (Bytes n) := by
  refine Finite.of_injective
    (fun b : Bytes n => fun i : Fin n => b.toList.get (i.cast b.length_toList.symm)) ?_
  intro a b h
  ext1
  refine List.ext_getElem (by simp) fun i hi _ => ?_
  exact congrFun h ⟨i, by simpa using hi⟩

noncomputable instance : Fintype (Bytes n) := Fintype.ofFinite _

/-- The array `[b; n]`. -/
def replicate (n : ℕ) (b : UInt8) : Bytes n := ⟨List.replicate n b, List.length_replicate⟩

/-- A list of the right length as an array; other lengths are `none`. -/
def ofList? (n : ℕ) (l : List UInt8) : Option (Bytes n) :=
  if h : l.length = n then some ⟨l, h⟩ else none

@[simp] theorem ofList?_toList (b : Bytes n) : ofList? n b.toList = some b := by
  rw [ofList?, dif_pos b.length_toList]

end Bytes

def strBytes (s : String) : List UInt8 := s.toUTF8.data.toList

/-! ## Chain constants -/

def LAMPORTS_PER_SIGNATURE : UInt64 := 5000

def BLOCKHASH_QUEUE_CAPACITY : ℕ := 150

/-- Rent epoch marker of rent-exempt accounts, `u64::MAX`. -/
def RENT_EXEMPT_RENT_EPOCH : UInt64 := UInt64.maxValue

/-! ## Third-party primitives -/

/-- The order of the BN254 scalar field. -/
def frModulus : ℕ :=
  21888242871839275222246405745257275088548364400416034343698204186575808495617

instance : NeZero frModulus := ⟨by decide⟩

/-- The BN254 scalar field. -/
abbrev Fr := ZMod frModulus

/-- Hash functions and address derivation of the libraries the sources link. -/
structure Prims where
  /-- `blake3::Hasher` over the concatenation of its updates. -/
  blake3 : List UInt8 → H256
  /-- `Pubkey::find_program_address(seeds, program)`, without the bump. -/
  findProgramAddress : List (List UInt8) → Pubkey → Pubkey
  /-- The circom Poseidon hash of one to four inputs. -/
  poseidon : List Fr → Fr

namespace Prims

variable (P : Prims)

/-- `blake3` of `domain || data`. -/
def blake3_32 (domain data : List UInt8) : H256 := P.blake3 (domain ++ data)

/-- `blake3` over several segments under one domain. -/
def blake3Concat (domain : List UInt8) (segments : List (List UInt8)) : H256 :=
  P.blake3 (domain ++ segments.flatten)

end Prims

def Collision (P : Prims) (inputs : List (List UInt8)) : Prop :=
  ∃ a ∈ inputs, ∃ b ∈ inputs, a ≠ b ∧ P.blake3 a = P.blake3 b

theorem Collision.mono {P : Prims} {inputs inputs' : List (List UInt8)} (h : Collision P inputs)
    (hsub : inputs ⊆ inputs') : Collision P inputs' := by
  obtain ⟨a, ha, b, hb, hne, heq⟩ := h
  exact ⟨a, hsub ha, b, hsub hb, hne, heq⟩

/-! ## Transactions -/

/-- One instruction of a message; accounts and program are indices into the keys. -/
structure CompiledInstruction where
  programIdIndex : UInt8
  accounts : List UInt8
  data : List UInt8
  deriving DecidableEq

structure MessageHeader where
  numRequiredSignatures : UInt8
  numReadonlySignedAccounts : UInt8
  numReadonlyUnsignedAccounts : UInt8
  deriving DecidableEq

/-- A legacy or v0 message without lookups. -/
structure VersionedMessage where
  header : MessageHeader
  staticAccountKeys : List Pubkey
  recentBlockhash : H256
  instructions : List CompiledInstruction
  deriving DecidableEq

/-- A signed transaction; its first signature identifies it. -/
structure VersionedTransaction where
  signatures : List Signature
  message : VersionedMessage
  deriving DecidableEq

def VersionedTransaction.feePayer (tx : VersionedTransaction) : Option Pubkey :=
  tx.message.staticAccountKeys.head?

def VersionedTransaction.signature (tx : VersionedTransaction) : Option Signature :=
  tx.signatures.head?

/-- Why a transaction failed; errors only the runtime raises keep their code. -/
inductive TransactionError
  | alreadyProcessed
  | signatureFailure
  | blockhashNotFound
  | instructionError (index : UInt8) (custom : UInt32)
  | runtime (code : ℕ)
  deriving DecidableEq

structure ExecutedTransactionMeta where
  status : Except TransactionError Unit
  fee : UInt64
  computeUnitsConsumed : UInt64
  logMessages : List String
  preBalances : List UInt64
  postBalances : List UInt64

/-- Whether a `Result` is `Ok`. -/
def isOk {ε α : Type*} : Except ε α → Bool
  | .ok _ => true
  | .error _ => false

end Zul
