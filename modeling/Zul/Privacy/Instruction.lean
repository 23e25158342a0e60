import Zul.Primitives.Reader

/-! # Pool instructions

Field elements travel as 32 little-endian bytes and must be canonical. Instructions are bincode:
little-endian integers, a four-byte variant tag, eight-byte lengths, fixed arrays in line. As in
`bincode::deserialize`, bytes after the value are ignored.
-/

namespace Zul.Privacy

abbrev FieldBytes := Bytes 32

/-- A field element as 32 bytes. -/
def frToBytes (x : Fr) : FieldBytes := ⟨LittleEndian.encode 32 x.val, LittleEndian.length_encode ..⟩

/-- `Fr::from_le_bytes_mod_order`. -/
def frFromLeBytesModOrder (bytes : FieldBytes) : Fr := (LittleEndian.decode bytes.toList : Fr)

def frFromBytes (bytes : FieldBytes) : Option Fr :=
  let fr := frFromLeBytesModOrder bytes
  if frToBytes fr = bytes then some fr else none

theorem frFromBytes_frToBytes (x : Fr) : frFromBytes (frToBytes x) = some x := by
  have hlt : x.val < 256 ^ 32 := (ZMod.val_lt x).trans (by decide)
  have hx : frFromLeBytesModOrder (frToBytes x) = x := by
    rw [frFromLeBytesModOrder, frToBytes, LittleEndian.decode_encode_of_lt hlt,
      ZMod.natCast_zmod_val]
  rw [frFromBytes]
  simp only [hx, if_true]

theorem frToBytes_of_frFromBytes {bytes : FieldBytes} {x : Fr} (h : frFromBytes bytes = some x) :
    frToBytes x = bytes := by
  rw [frFromBytes] at h
  split at h
  · rename_i hbytes
    cases h
    exact hbytes
  · cases h

theorem frFromLeBytesModOrder_of_frFromBytes {bytes : FieldBytes} {x : Fr}
    (h : frFromBytes bytes = some x) : frFromLeBytesModOrder bytes = x := by
  rw [frFromBytes] at h
  split at h
  · exact Option.some.inj h
  · cases h

inductive Asset
  | native
  | spl (mint : Bytes 32)
  deriving DecidableEq

inductive PoolInstruction
  | shield (asset : Asset) (amount : UInt64) (secret : FieldBytes) (encryptedNote : List UInt8)
  | transfer (proof : List UInt8) (root : FieldBytes) (nullifiers : FieldBytes × FieldBytes)
      (commitments : FieldBytes × FieldBytes) (fee : UInt64)
      (encryptedNotes : List UInt8 × List UInt8)
  | unshield (proof : List UInt8) (root nullifier changeCommitment : FieldBytes) (asset : Asset)
      (amount : UInt64) (recipient : Bytes 32) (encryptedChangeNote : List UInt8)
  deriving DecidableEq

/-! ## Wire format -/

namespace Reader

open Zul.Reader

def asset : Reader Asset := do
  match ← u32 with
  | 0 => return .native
  | 1 => return .spl (← array 32)
  | _ => failure

def poolInstruction : Reader PoolInstruction := do
  match ← u32 with
  | 0 => return .shield (← asset) (← u64) (← array 32) (← vec)
  | 1 =>
    return .transfer (← vec) (← array 32) (← array 32, ← array 32) (← array 32, ← array 32) (← u64)
      (← vec, ← vec)
  | 2 =>
    return .unshield (← vec) (← array 32) (← array 32) (← array 32) (← asset) (← u64) (← array 32)
      (← vec)
  | _ => failure

end Reader

def PoolInstruction.tryFromSlice (data : List UInt8) : Option PoolInstruction :=
  (Reader.poolInstruction.run data).map Prod.fst

def Asset.toBytes : Asset → List UInt8
  | .native => LittleEndian.u32 0
  | .spl mint => LittleEndian.u32 1 ++ mint.toList

def PoolInstruction.toBytes : PoolInstruction → List UInt8
  | .shield asset amount secret encryptedNote =>
    LittleEndian.u32 0 ++ asset.toBytes ++ LittleEndian.u64 amount ++ secret.toList ++
      vecToBytes encryptedNote
  | .transfer proof root nullifiers commitments fee encryptedNotes =>
    LittleEndian.u32 1 ++ vecToBytes proof ++ root.toList ++ nullifiers.1.toList ++
      nullifiers.2.toList ++ commitments.1.toList ++ commitments.2.toList ++
      LittleEndian.u64 fee ++ vecToBytes encryptedNotes.1 ++ vecToBytes encryptedNotes.2
  | .unshield proof root nullifier changeCommitment asset amount recipient encryptedChangeNote =>
    LittleEndian.u32 2 ++ vecToBytes proof ++ root.toList ++ nullifier.toList ++
      changeCommitment.toList ++ asset.toBytes ++ LittleEndian.u64 amount ++ recipient.toList ++
      vecToBytes encryptedChangeNote

def PoolInstruction.vecs : PoolInstruction → List (List UInt8)
  | .shield _ _ _ encryptedNote => [encryptedNote]
  | .transfer proof _ _ _ _ encryptedNotes => [proof, encryptedNotes.1, encryptedNotes.2]
  | .unshield proof _ _ _ _ _ _ encryptedChangeNote => [proof, encryptedChangeNote]

/-! ## What is written is read back -/

namespace Reader

open Zul.Reader

variable (rest : List UInt8)

theorem run_asset (a : Asset) : asset.run (a.toBytes ++ rest) = some (a, rest) := by
  cases a with
  | native =>
    rw [Asset.toBytes, asset, StateT.run_bind, run_u32]
    rfl
  | spl mint =>
    rw [Asset.toBytes, List.append_assoc, asset, StateT.run_bind, run_u32]
    simp only [Option.bind_eq_bind, Option.bind_some]
    rw [StateT.run_bind, run_array]
    rfl

theorem run_poolInstruction (i : PoolInstruction) (h : ∀ bytes ∈ i.vecs, bytes.length < 2 ^ 64) :
    poolInstruction.run (i.toBytes ++ rest) = some (i, rest) := by
  cases i with
  | shield a amount secret encryptedNote =>
    have hnote := h _ List.mem_cons_self
    simp only [PoolInstruction.toBytes, poolInstruction, List.append_assoc, StateT.run_bind,
      StateT.run_pure, run_u32, run_u64, run_array, run_asset, run_vec _ hnote,
      Option.bind_eq_bind, Option.bind_some, Option.pure_def]
  | transfer proof root nullifiers commitments fee encryptedNotes =>
    obtain ⟨hproof, hnotes⟩ := List.forall_mem_cons.mp h
    obtain ⟨hfirst, hsecond⟩ := List.forall_mem_cons.mp hnotes
    simp only [PoolInstruction.toBytes, poolInstruction, List.append_assoc, StateT.run_bind,
      StateT.run_pure, run_u32, run_u64, run_array, run_vec _ hproof, run_vec _ hfirst,
      run_vec _ (hsecond _ List.mem_cons_self), Option.bind_eq_bind, Option.bind_some,
      Option.pure_def]
  | unshield proof root nullifier changeCommitment a amount recipient encryptedChangeNote =>
    obtain ⟨hproof, hnote⟩ := List.forall_mem_cons.mp h
    simp only [PoolInstruction.toBytes, poolInstruction, List.append_assoc, StateT.run_bind,
      StateT.run_pure, run_u32, run_u64, run_array, run_asset, run_vec _ hproof,
      run_vec _ (hnote _ List.mem_cons_self), Option.bind_eq_bind, Option.bind_some,
      Option.pure_def]

end Reader

theorem PoolInstruction.tryFromSlice_toBytes (i : PoolInstruction)
    (h : ∀ bytes ∈ i.vecs, bytes.length < 2 ^ 64) : tryFromSlice i.toBytes = some i := by
  have hrun := Reader.run_poolInstruction [] i h
  rw [List.append_nil] at hrun
  rw [tryFromSlice, hrun]
  rfl

end Zul.Privacy
