import Zul.Privacy.Instruction

/-! # The client's wire format

The TypeScript client writes pool instructions with a small bincode writer of its own. Numbers of
type `bigint` are integers, a byte array has the lengths the language allows, and what the client
throws is an error. For every argument record the node reads back the instruction it describes,
and the bytes are those the node itself writes.
-/

namespace Zul.Sdk

/-- A byte array; the language bounds its length. -/
@[ext] structure Uint8Array where
  toList : List UInt8
  length_lt : toList.length < 2 ^ 53

namespace Uint8Array

def length (a : Uint8Array) : ℕ := a.toList.length

def ofBytes {n : ℕ} (b : Bytes n) (h : n < 2 ^ 53) : Uint8Array :=
  ⟨b.toList, by rwa [b.length_toList]⟩

theorem exists_bytes {n : ℕ} {a : Uint8Array} (h : a.length = n) :
    ∃ b : Bytes n, a.toList = b.toList :=
  ⟨⟨a.toList, h⟩, rfl⟩

end Uint8Array

/-! ## The writer -/

structure BincodeWriter where
  chunks : List (List UInt8)

namespace BincodeWriter

def new : BincodeWriter := ⟨[]⟩

def push (w : BincodeWriter) (chunk : List UInt8) : BincodeWriter := ⟨w.chunks ++ [chunk]⟩

/-- `value >>> 0` keeps 32 bits. -/
def u32 (w : BincodeWriter) (value : ℕ) : BincodeWriter :=
  w.push (LittleEndian.encode 4 (value % 2 ^ 32))

/-- `setBigUint64` keeps 64 bits. -/
def u64 (w : BincodeWriter) (value : ℤ) : BincodeWriter :=
  w.push (LittleEndian.encode 8 (value % 2 ^ 64).toNat)

def fixedBytes (w : BincodeWriter) (bytes : Uint8Array) (len : ℕ) : Except String BincodeWriter :=
  let got := bytes.length
  if got ≠ len then .error s!"expected {len} bytes, got {got}" else .ok (w.push bytes.toList)

def vecU8 (w : BincodeWriter) (bytes : Uint8Array) : BincodeWriter :=
  (w.u64 bytes.length).push bytes.toList

def finish (w : BincodeWriter) : List UInt8 := w.chunks.flatten

end BincodeWriter

/-! ## Instructions -/

inductive Asset
  | native
  | spl (mint : Uint8Array)

def writeAsset (w : BincodeWriter) : Asset → Except String BincodeWriter
  | .native => .ok (w.u32 0)
  | .spl mint => (w.u32 1).fixedBytes mint 32

structure ShieldArgs where
  asset : Asset
  amount : ℤ
  secret : Uint8Array
  encryptedNote : Uint8Array

structure TransferArgs where
  proof : Uint8Array
  root : Uint8Array
  nullifiers : Uint8Array × Uint8Array
  commitments : Uint8Array × Uint8Array
  fee : ℤ
  encryptedNotes : Uint8Array × Uint8Array

structure UnshieldArgs where
  proof : Uint8Array
  root : Uint8Array
  nullifier : Uint8Array
  changeCommitment : Uint8Array
  asset : Asset
  amount : ℤ
  recipient : Uint8Array
  encryptedChangeNote : Uint8Array

def encodeShield (args : ShieldArgs) : Except String (List UInt8) := do
  let w := BincodeWriter.new.u32 0
  let w ← writeAsset w args.asset
  let w := w.u64 args.amount
  let w ← w.fixedBytes args.secret 32
  return (w.vecU8 args.encryptedNote).finish

def encodeTransfer (args : TransferArgs) : Except String (List UInt8) := do
  let w := BincodeWriter.new.u32 1
  let w := w.vecU8 args.proof
  let w ← w.fixedBytes args.root 32
  let w ← w.fixedBytes args.nullifiers.1 32
  let w ← w.fixedBytes args.nullifiers.2 32
  let w ← w.fixedBytes args.commitments.1 32
  let w ← w.fixedBytes args.commitments.2 32
  let w := w.u64 args.fee
  return ((w.vecU8 args.encryptedNotes.1).vecU8 args.encryptedNotes.2).finish

def encodeUnshield (args : UnshieldArgs) : Except String (List UInt8) := do
  let w := BincodeWriter.new.u32 2
  let w := w.vecU8 args.proof
  let w ← w.fixedBytes args.root 32
  let w ← w.fixedBytes args.nullifier 32
  let w ← w.fixedBytes args.changeCommitment 32
  let w ← writeAsset w args.asset
  let w := w.u64 args.amount
  let w ← w.fixedBytes args.recipient 32
  return (w.vecU8 args.encryptedChangeNote).finish

/-! ## The instruction an argument record describes -/

inductive Asset.Describes : Asset → Privacy.Asset → Prop
  | native : Describes .native .native
  | spl {mint : Uint8Array} {b : Bytes 32} (h : mint.toList = b.toList) :
      Describes (.spl mint) (.spl b)

inductive ShieldArgs.Describes (args : ShieldArgs) : Privacy.PoolInstruction → Prop
  | mk {asset : Privacy.Asset} {amount : UInt64} {secret : Bytes 32}
      (hasset : args.asset.Describes asset) (hamount : args.amount = amount.toNat)
      (hsecret : args.secret.toList = secret.toList) :
      Describes args (.shield asset amount secret args.encryptedNote.toList)

inductive TransferArgs.Describes (args : TransferArgs) : Privacy.PoolInstruction → Prop
  | mk {root nf₀ nf₁ cm₀ cm₁ : Bytes 32} {fee : UInt64}
      (hroot : args.root.toList = root.toList)
      (hnf₀ : args.nullifiers.1.toList = nf₀.toList) (hnf₁ : args.nullifiers.2.toList = nf₁.toList)
      (hcm₀ : args.commitments.1.toList = cm₀.toList)
      (hcm₁ : args.commitments.2.toList = cm₁.toList) (hfee : args.fee = fee.toNat) :
      Describes args (.transfer args.proof.toList root (nf₀, nf₁) (cm₀, cm₁) fee
        (args.encryptedNotes.1.toList, args.encryptedNotes.2.toList))

inductive UnshieldArgs.Describes (args : UnshieldArgs) : Privacy.PoolInstruction → Prop
  | mk {root nullifier change recipient : Bytes 32} {asset : Privacy.Asset} {amount : UInt64}
      (hroot : args.root.toList = root.toList)
      (hnullifier : args.nullifier.toList = nullifier.toList)
      (hchange : args.changeCommitment.toList = change.toList)
      (hasset : args.asset.Describes asset) (hamount : args.amount = amount.toNat)
      (hrecipient : args.recipient.toList = recipient.toList) :
      Describes args (.unshield args.proof.toList root nullifier change asset amount recipient
        args.encryptedChangeNote.toList)

/-- The mint has 32 bytes. -/
def Asset.Valid : Asset → Prop
  | .native => True
  | .spl mint => mint.length = 32

/-- The amount is a 64-bit number and the fixed fields have 32 bytes. -/
structure ShieldArgs.Valid (args : ShieldArgs) : Prop where
  asset : args.asset.Valid
  amount : 0 ≤ args.amount ∧ args.amount < 2 ^ 64
  secret : args.secret.length = 32

structure TransferArgs.Valid (args : TransferArgs) : Prop where
  root : args.root.length = 32
  nullifiers : args.nullifiers.1.length = 32 ∧ args.nullifiers.2.length = 32
  commitments : args.commitments.1.length = 32 ∧ args.commitments.2.length = 32
  fee : 0 ≤ args.fee ∧ args.fee < 2 ^ 64

structure UnshieldArgs.Valid (args : UnshieldArgs) : Prop where
  root : args.root.length = 32
  nullifier : args.nullifier.length = 32
  changeCommitment : args.changeCommitment.length = 32
  asset : args.asset.Valid
  amount : 0 ≤ args.amount ∧ args.amount < 2 ^ 64
  recipient : args.recipient.length = 32

theorem exists_u64 {x : ℤ} (h : 0 ≤ x ∧ x < 2 ^ 64) : ∃ n : UInt64, x = n.toNat := by
  obtain ⟨k, rfl⟩ := Int.eq_ofNat_of_zero_le h.1
  have hk : k < 2 ^ 64 := by exact_mod_cast h.2
  refine ⟨UInt64.ofNat k, ?_⟩
  rw [UInt64.toNat_ofNat', Nat.mod_eq_of_lt hk]

theorem Asset.Valid.exists_describes {asset : Asset} (h : asset.Valid) :
    ∃ a, asset.Describes a := by
  cases asset with
  | native => exact ⟨_, .native⟩
  | spl mint =>
    obtain ⟨b, hb⟩ := Uint8Array.exists_bytes h
    exact ⟨_, .spl hb⟩

theorem ShieldArgs.Valid.exists_describes {args : ShieldArgs} (h : args.Valid) :
    ∃ i, args.Describes i := by
  obtain ⟨_, hasset⟩ := h.asset.exists_describes
  obtain ⟨_, hamount⟩ := exists_u64 h.amount
  obtain ⟨_, hsecret⟩ := Uint8Array.exists_bytes h.secret
  exact ⟨_, .mk hasset hamount hsecret⟩

theorem TransferArgs.Valid.exists_describes {args : TransferArgs} (h : args.Valid) :
    ∃ i, args.Describes i := by
  obtain ⟨_, hroot⟩ := Uint8Array.exists_bytes h.root
  obtain ⟨_, hnf₀⟩ := Uint8Array.exists_bytes h.nullifiers.1
  obtain ⟨_, hnf₁⟩ := Uint8Array.exists_bytes h.nullifiers.2
  obtain ⟨_, hcm₀⟩ := Uint8Array.exists_bytes h.commitments.1
  obtain ⟨_, hcm₁⟩ := Uint8Array.exists_bytes h.commitments.2
  obtain ⟨_, hfee⟩ := exists_u64 h.fee
  exact ⟨_, .mk hroot hnf₀ hnf₁ hcm₀ hcm₁ hfee⟩

theorem UnshieldArgs.Valid.exists_describes {args : UnshieldArgs} (h : args.Valid) :
    ∃ i, args.Describes i := by
  obtain ⟨_, hroot⟩ := Uint8Array.exists_bytes h.root
  obtain ⟨_, hnullifier⟩ := Uint8Array.exists_bytes h.nullifier
  obtain ⟨_, hchange⟩ := Uint8Array.exists_bytes h.changeCommitment
  obtain ⟨_, hasset⟩ := h.asset.exists_describes
  obtain ⟨_, hamount⟩ := exists_u64 h.amount
  obtain ⟨_, hrecipient⟩ := Uint8Array.exists_bytes h.recipient
  exact ⟨_, .mk hroot hnullifier hchange hasset hamount hrecipient⟩

theorem Uint8Array.length_lt_u64 (a : Uint8Array) : a.toList.length < 2 ^ 64 :=
  a.length_lt.trans (by decide)

theorem ShieldArgs.Describes.vecs_lt {args : ShieldArgs} {i : Privacy.PoolInstruction}
    (h : args.Describes i) : ∀ bytes ∈ i.vecs, bytes.length < 2 ^ 64 := by
  cases h
  intro bytes hbytes
  simp only [Privacy.PoolInstruction.vecs, List.mem_cons, List.not_mem_nil, or_false] at hbytes
  rw [hbytes]
  exact Uint8Array.length_lt_u64 _

theorem TransferArgs.Describes.vecs_lt {args : TransferArgs} {i : Privacy.PoolInstruction}
    (h : args.Describes i) : ∀ bytes ∈ i.vecs, bytes.length < 2 ^ 64 := by
  cases h
  intro bytes hbytes
  simp only [Privacy.PoolInstruction.vecs, List.mem_cons, List.not_mem_nil, or_false] at hbytes
  rcases hbytes with rfl | rfl | rfl <;> exact Uint8Array.length_lt_u64 _

theorem UnshieldArgs.Describes.vecs_lt {args : UnshieldArgs} {i : Privacy.PoolInstruction}
    (h : args.Describes i) : ∀ bytes ∈ i.vecs, bytes.length < 2 ^ 64 := by
  cases h
  intro bytes hbytes
  simp only [Privacy.PoolInstruction.vecs, List.mem_cons, List.not_mem_nil, or_false] at hbytes
  rcases hbytes with rfl | rfl <;> exact Uint8Array.length_lt_u64 _

/-! ## What the writer has written -/

namespace BincodeWriter

variable (w : BincodeWriter)

theorem finish_push (chunk : List UInt8) : (w.push chunk).finish = w.finish ++ chunk := by
  simp [finish, push]

theorem finish_u32 (value : ℕ) :
    (w.u32 value).finish = w.finish ++ LittleEndian.u32 (UInt32.ofNat value) := by
  rw [u32, finish_push, LittleEndian.u32, UInt32.toNat_ofNat']

theorem finish_u64 (value : UInt64) :
    (w.u64 value.toNat).finish = w.finish ++ LittleEndian.u64 value := by
  have hlt := value.toNat_lt
  have hmod : ((value.toNat : ℤ) % 2 ^ 64).toNat = value.toNat := by omega
  rw [u64, finish_push, LittleEndian.u64, hmod]

theorem finish_vecU8 (bytes : Uint8Array) :
    (w.vecU8 bytes).finish = w.finish ++ vecToBytes bytes.toList := by
  have hlength : bytes.length = (UInt64.ofNat bytes.toList.length).toNat := by
    rw [UInt64.toNat_ofNat', Nat.mod_eq_of_lt bytes.length_lt_u64]
    rfl
  rw [vecU8, finish_push, hlength, finish_u64, vecToBytes, List.append_assoc]

theorem fixedBytes_eq {bytes : Uint8Array} {n : ℕ} {b : Bytes n} (h : bytes.toList = b.toList) :
    w.fixedBytes bytes n = .ok (w.push b.toList) := by
  have hlength : bytes.length = n := by rw [Uint8Array.length, h, b.length_toList]
  rw [← h, fixedBytes]
  simp [hlength]

theorem writeAsset_eq {asset : Asset} {a : Privacy.Asset} (h : asset.Describes a) :
    ∃ w', writeAsset w asset = .ok w' ∧ w'.finish = w.finish ++ a.toBytes := by
  cases h with
  | native => exact ⟨_, rfl, finish_u32 w 0⟩
  | spl hmint =>
    refine ⟨_, fixedBytes_eq _ hmint, ?_⟩
    rw [finish_push, finish_u32, List.append_assoc]
    rfl

end BincodeWriter

open BincodeWriter

theorem encodeShield_eq {args : ShieldArgs} {i : Privacy.PoolInstruction} (h : args.Describes i) :
    encodeShield args = .ok i.toBytes := by
  cases h with
  | mk hasset hamount hsecret =>
    obtain ⟨w, hw, hfinish⟩ := writeAsset_eq (BincodeWriter.new.u32 0) hasset
    simp only [encodeShield, hw, hamount, fixedBytes_eq _ hsecret]
    simp only [bind, Except.bind, pure, Except.pure, finish_vecU8, finish_push, finish_u64,
      hfinish, finish_u32, Privacy.PoolInstruction.toBytes]
    rfl

theorem encodeTransfer_eq {args : TransferArgs} {i : Privacy.PoolInstruction}
    (h : args.Describes i) : encodeTransfer args = .ok i.toBytes := by
  cases h with
  | mk hroot hnf₀ hnf₁ hcm₀ hcm₁ hfee =>
    simp only [encodeTransfer, hfee, fixedBytes_eq _ hroot, fixedBytes_eq _ hnf₀,
      fixedBytes_eq _ hnf₁, fixedBytes_eq _ hcm₀, fixedBytes_eq _ hcm₁]
    simp only [bind, Except.bind, pure, Except.pure, finish_vecU8, finish_push, finish_u64,
      finish_u32, Privacy.PoolInstruction.toBytes]
    rfl

theorem encodeUnshield_eq {args : UnshieldArgs} {i : Privacy.PoolInstruction}
    (h : args.Describes i) : encodeUnshield args = .ok i.toBytes := by
  cases h with
  | mk hroot hnullifier hchange hasset hamount hrecipient =>
    rename_i root nullifier change recipient asset amount
    obtain ⟨w, hw, hfinish⟩ := writeAsset_eq
      (((((BincodeWriter.new.u32 2).vecU8 args.proof).push root.toList).push nullifier.toList).push
        change.toList) hasset
    simp only [encodeUnshield, hamount, fixedBytes_eq _ hroot, fixedBytes_eq _ hnullifier,
      fixedBytes_eq _ hchange, fixedBytes_eq _ hrecipient, bind, Except.bind, hw]
    simp only [pure, Except.pure, finish_vecU8, finish_push, finish_u64, hfinish, finish_u32,
      Privacy.PoolInstruction.toBytes]
    rfl

/-- What the client writes for an argument record is what the node writes for the instruction the
record describes, and the node reads that instruction back. -/
theorem wire_formats_agree :
    (∀ args : ShieldArgs, args.Valid → ∃ i, args.Describes i ∧
      encodeShield args = .ok i.toBytes ∧ Privacy.PoolInstruction.tryFromSlice i.toBytes = some i) ∧
    (∀ args : TransferArgs, args.Valid → ∃ i, args.Describes i ∧
      encodeTransfer args = .ok i.toBytes ∧
      Privacy.PoolInstruction.tryFromSlice i.toBytes = some i) ∧
    ∀ args : UnshieldArgs, args.Valid → ∃ i, args.Describes i ∧
      encodeUnshield args = .ok i.toBytes ∧
      Privacy.PoolInstruction.tryFromSlice i.toBytes = some i := by
  refine ⟨?_, ?_, ?_⟩
  · intro args hvalid
    obtain ⟨i, hi⟩ := hvalid.exists_describes
    exact ⟨i, hi, encodeShield_eq hi, i.tryFromSlice_toBytes hi.vecs_lt⟩
  · intro args hvalid
    obtain ⟨i, hi⟩ := hvalid.exists_describes
    exact ⟨i, hi, encodeTransfer_eq hi, i.tryFromSlice_toBytes hi.vecs_lt⟩
  · intro args hvalid
    obtain ⟨i, hi⟩ := hvalid.exists_describes
    exact ⟨i, hi, encodeUnshield_eq hi, i.tryFromSlice_toBytes hi.vecs_lt⟩

/-- A transfer with a short proof and two notes of different lengths. -/
theorem wire_formats_agree_transfer :
    ∃ args : TransferArgs, args.Valid ∧ ∃ i, args.Describes i ∧
      encodeTransfer args = .ok i.toBytes ∧
      Privacy.PoolInstruction.tryFromSlice i.toBytes = some i := by
  let field (b : UInt8) : Uint8Array := .ofBytes (Bytes.replicate 32 b) (by decide)
  have hvalid : TransferArgs.Valid ⟨⟨[1, 2, 3], by decide⟩, field 1, (field 2, field 3),
      (field 4, field 5), 5000, (⟨[7], by decide⟩, ⟨[8, 9], by decide⟩)⟩ := by
    refine ⟨?_, ⟨?_, ?_⟩, ⟨?_, ?_⟩, by decide⟩ <;> exact List.length_replicate
  exact ⟨_, hvalid, wire_formats_agree.2.1 _ hvalid⟩

end Zul.Sdk
