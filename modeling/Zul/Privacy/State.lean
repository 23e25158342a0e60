import Zul.Privacy.Instruction

/-! # Pool state

The incremental commitment tree and the ring of recent roots, kept in the pool state account at
a fixed size.
-/

namespace Zul.Privacy

def TREE_DEPTH : ℕ := 26

def ROOT_HISTORY : ℕ := 64

section Poseidon

variable (P : Prims)

def treeNode (left right : Fr) : Fr := P.poseidon [left, right]

def noteCommitmentFromSecret (assetId : Fr) (amount : UInt64) (secret : Fr) : Fr :=
  P.poseidon [assetId, (amount.toNat : Fr), secret]

def zeroHashes : ℕ → Fr
  | 0 => (770212417220141184 : Fr)
  | level + 1 => treeNode P (zeroHashes level) (zeroHashes level)

end Poseidon

def nativeAssetId : Fr := 0

def assetIdForMint (mint : Pubkey) : Fr := frFromLeBytesModOrder mint

inductive PoolStateError
  | treeFull
  | corrupt
  deriving DecidableEq

@[ext] structure PoolState where
  /-- Filled left siblings per level, leaf level first. -/
  filledSubtrees : List FieldBytes
  /-- Ring buffer of recent roots. -/
  roots : List FieldBytes
  currentRootIndex : UInt32
  nextLeafIndex : UInt32
  length_filledSubtrees : filledSubtrees.length = TREE_DEPTH
  length_roots : roots.length = ROOT_HISTORY
  deriving DecidableEq

namespace PoolState

def new (P : Prims) : PoolState where
  filledSubtrees := (List.range TREE_DEPTH).map fun level => frToBytes (zeroHashes P level)
  roots := frToBytes (zeroHashes P TREE_DEPTH) ::
    List.replicate (ROOT_HISTORY - 1) (Bytes.replicate 32 0)
  currentRootIndex := 0
  nextLeafIndex := 0
  length_filledSubtrees := by simp
  length_roots := by simp [ROOT_HISTORY]

def capacity : ℕ := 2 ^ TREE_DEPTH

/-- Zero bytes are never a root; otherwise any entry of the ring is known. -/
def isKnownRoot (s : PoolState) (candidate : FieldBytes) : Bool :=
  candidate ≠ Bytes.replicate 32 0 && candidate ∈ s.roots

/-- The newest root; an index outside the ring panics. -/
def currentRoot (s : PoolState) : Option FieldBytes := s.roots[s.currentRootIndex.toNat]?

/-- Climb `left` more levels: an even node is remembered and paired with the empty subtree, an
odd one with the remembered left sibling. `none` is a sibling that does not parse. -/
def insertFrom (P : Prims) :
    (left level nodeIndex : ℕ) → Fr → List FieldBytes → List FieldBytes × Option Fr
  | 0, _, _, current, filled => (filled, some current)
  | left + 1, level, nodeIndex, current, filled =>
    if nodeIndex % 2 = 0 then
      insertFrom P left (level + 1) (nodeIndex / 2) (treeNode P current (zeroHashes P level))
        (filled.set level (frToBytes current))
    else
      match frFromBytes (filled.getD level (Bytes.replicate 32 0)) with
      | none => (filled, none)
      | some sibling =>
        insertFrom P left (level + 1) (nodeIndex / 2) (treeNode P sibling current) filled

theorem length_insertFrom (P : Prims) (left level nodeIndex : ℕ) (current : Fr)
    (filled : List FieldBytes) :
    (insertFrom P left level nodeIndex current filled).1.length = filled.length := by
  induction left generalizing level nodeIndex current filled with
  | zero => rfl
  | succ left ih =>
    rw [insertFrom]
    split
    · rw [ih, List.length_set]
    · split
      · rfl
      · rw [ih]

/-- Append a commitment leaf and return its index. The siblings remembered before an unparsable
one is met stay written. -/
def insert (P : Prims) (s : PoolState) (leaf : Fr) : PoolState × Except PoolStateError UInt32 :=
  let index := s.nextLeafIndex
  if capacity ≤ index.toNat then (s, .error .treeFull)
  else
    let out := insertFrom P TREE_DEPTH 0 index.toNat leaf s.filledSubtrees
    let s' := { s with
      filledSubtrees := out.1
      length_filledSubtrees := (length_insertFrom ..).trans s.length_filledSubtrees }
    match out.2 with
    | none => (s', .error .corrupt)
    | some root =>
      let next := (s.currentRootIndex + 1) % UInt32.ofNat ROOT_HISTORY
      ({ s' with
          currentRootIndex := next
          roots := s.roots.set next.toNat (frToBytes root)
          nextLeafIndex := index + 1
          length_roots := List.length_set.trans s.length_roots },
        .ok index)

def toBytes (s : PoolState) : List UInt8 :=
  s.filledSubtrees.flatMap Bytes.toList ++ s.roots.flatMap Bytes.toList ++
    LittleEndian.u32 s.currentRootIndex ++ LittleEndian.u32 s.nextLeafIndex

/-- Read `n` field elements, keeping their number. -/
def readFields : (n : ℕ) → Reader { l : List FieldBytes // l.length = n }
  | 0 => return ⟨[], rfl⟩
  | n + 1 => do
    let x ← Reader.array 32
    let ⟨xs, h⟩ ← readFields n
    return ⟨x :: xs, by rw [List.length_cons, h]⟩

def reader : Reader PoolState := do
  let ⟨filledSubtrees, hf⟩ ← readFields TREE_DEPTH
  let ⟨roots, hr⟩ ← readFields ROOT_HISTORY
  let currentRootIndex ← Reader.u32
  let nextLeafIndex ← Reader.u32
  return ⟨filledSubtrees, roots, currentRootIndex, nextLeafIndex, hf, hr⟩

def fromBytes (bytes : List UInt8) : Except PoolStateError PoolState :=
  match reader.run bytes with
  | some (s, _) => .ok s
  | none => .error .corrupt

/-! ## Serialization -/

theorem run_readFields {n : ℕ} (l : List FieldBytes) (hl : l.length = n) (rest : List UInt8) :
    (readFields n).run (l.flatMap Bytes.toList ++ rest) = some (⟨l, hl⟩, rest) := by
  induction l generalizing n with
  | nil =>
    subst hl
    rfl
  | cons b l ih =>
    obtain _ | n := n
    · cases hl
    · rw [List.flatMap_cons, List.append_assoc, readFields, StateT.run_bind, Reader.run_array]
      simp [ih (Nat.succ.inj hl)]

theorem fromBytes_toBytes (s : PoolState) : fromBytes s.toBytes = .ok s := by
  have hread : reader.run s.toBytes = some (s, []) := by
    rw [toBytes, List.append_assoc, List.append_assoc, reader, StateT.run_bind,
      run_readFields _ s.length_filledSubtrees]
    simp only [Option.bind_eq_bind, Option.bind_some]
    rw [StateT.run_bind, run_readFields _ s.length_roots]
    simp only [Option.bind_eq_bind, Option.bind_some]
    rw [StateT.run_bind, Reader.run_u32]
    simp only [Option.bind_eq_bind, Option.bind_some]
    rw [StateT.run_bind, ← List.append_nil (LittleEndian.u32 s.nextLeafIndex),
      Reader.run_u32]
    rfl
  rw [fromBytes, hread]

theorem toBytes_injective : Function.Injective toBytes := by
  intro s s' h
  have heq := fromBytes_toBytes s
  rw [h, fromBytes_toBytes] at heq
  cases heq
  rfl

/-! ## Appending -/

theorem insertFrom_zero (P : Prims) (left level : ℕ) (current : Fr) (filled : List FieldBytes) :
    ∃ root, (insertFrom P left level 0 current filled).2 = some root := by
  induction left generalizing level current filled with
  | zero => exact ⟨current, rfl⟩
  | succ left ih =>
    rw [insertFrom, if_pos (Nat.zero_mod 2)]
    exact ih _ _ _

theorem insert_first (P : Prims) {s : PoolState} (h : s.nextLeafIndex = 0) (leaf : Fr) :
    (s.insert P leaf).2 = .ok 0 := by
  obtain ⟨root, hroot⟩ := insertFrom_zero P TREE_DEPTH 0 leaf s.filledSubtrees
  have hindex : s.nextLeafIndex.toNat = 0 := congrArg UInt32.toNat h
  unfold insert
  dsimp only
  split
  · rename_i hfull
    rw [hindex] at hfull
    exact absurd hfull (by decide)
  · split
    · rename_i hnone
      rw [hindex, hroot] at hnone
      cases hnone
    · exact congrArg Except.ok h

end PoolState

end Zul.Privacy
