import Zul.Primitives.Basic

/-! # Readers

Bincode and Borsh values are read from the front of a byte string: little-endian integers, fixed
arrays in line, sequences after their length. What is written is read back with the rest left over.
-/

namespace Zul

abbrev Reader (α : Type) := StateT (List UInt8) Option α

namespace Reader

def take (n : ℕ) : Reader (List UInt8) := fun bytes =>
  if n ≤ bytes.length then some (bytes.take n, bytes.drop n) else none

def u32 : Reader UInt32 := return LittleEndian.toU32 (← take 4)

def u64 : Reader UInt64 := return LittleEndian.toU64 (← take 8)

def array (n : ℕ) : Reader (Bytes n) := do
  match Bytes.ofList? n (← take n) with
  | some b => return b
  | none => failure

def vec : Reader (List UInt8) := do take (← u64).toNat

def repeated {α : Type} (item : Reader α) : ℕ → Reader (List α)
  | 0 => return []
  | n + 1 => return (← item) :: (← repeated item n)

end Reader

def vecToBytes (bytes : List UInt8) : List UInt8 :=
  LittleEndian.u64 (UInt64.ofNat bytes.length) ++ bytes

/-! ## What is written is read back -/

namespace Reader

variable (rest : List UInt8)

theorem run_take {n : ℕ} {bytes : List UInt8} (h : bytes.length = n) :
    (take n).run (bytes ++ rest) = some (bytes, rest) := by
  subst h
  simp [take, StateT.run]

theorem run_u32 (x : UInt32) : u32.run (LittleEndian.u32 x ++ rest) = some (x, rest) := by
  rw [u32, StateT.run_bind, run_take rest (LittleEndian.length_u32 x)]
  simp

theorem run_u64 (x : UInt64) : u64.run (LittleEndian.u64 x ++ rest) = some (x, rest) := by
  rw [u64, StateT.run_bind, run_take rest (LittleEndian.length_u64 x)]
  simp

theorem run_array {n : ℕ} (b : Bytes n) : (array n).run (b.toList ++ rest) = some (b, rest) := by
  rw [array, StateT.run_bind, run_take rest b.length_toList]
  simp

theorem run_vec {bytes : List UInt8} (h : bytes.length < 2 ^ 64) :
    vec.run (vecToBytes bytes ++ rest) = some (bytes, rest) := by
  have hlength : bytes.length = (UInt64.ofNat bytes.length).toNat := by
    rw [UInt64.toNat_ofNat', Nat.mod_eq_of_lt h]
  rw [vecToBytes, List.append_assoc, vec, StateT.run_bind, run_u64]
  exact run_take rest hlength

theorem run_repeated {α : Type} {item : Reader α} {encode : α → List UInt8}
    (hitem : ∀ a rest, item.run (encode a ++ rest) = some (a, rest)) (l : List α) :
    (repeated item l.length).run (l.flatMap encode ++ rest) = some (l, rest) := by
  induction l with
  | nil => rfl
  | cons a l ih =>
    rw [List.flatMap_cons, List.append_assoc, List.length_cons, repeated, StateT.run_bind, hitem]
    simp [ih]

end Reader

end Zul
