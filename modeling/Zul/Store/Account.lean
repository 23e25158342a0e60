import Zul.Primitives.Basic

/-! # Stored accounts and recent blockhashes

The persisted form of an account, and the recency queue transactions are checked against.
An `AccountSharedData` of the runtime has the same fields and is the same type here.
-/

namespace Zul

structure StoredAccount where
  lamports : UInt64
  data : List UInt8
  owner : Pubkey
  executable : Bool
  rentEpoch : UInt64
  deriving DecidableEq

namespace StoredAccount

/-- The system program, `11111111111111111111111111111111`. -/
def systemProgramId : Pubkey := Bytes.replicate 32 0

def newSystem (lamports : UInt64) : StoredAccount where
  lamports := lamports
  data := []
  owner := systemProgramId
  executable := false
  rentEpoch := RENT_EXEMPT_RENT_EPOCH

def hash (P : Prims) (pubkey : Pubkey) (a : StoredAccount) : H256 :=
  P.blake3Concat (strBytes "PL2:account:v1")
    [pubkey.toList, LittleEndian.u64 a.lamports, a.owner.toList, [if a.executable then 1 else 0],
      LittleEndian.u64 a.rentEpoch, LittleEndian.u64 (UInt64.ofNat a.data.length), a.data]

@[simp] theorem newSystem_lamports (n : UInt64) : (newSystem n).lamports = n := rfl

end StoredAccount

/-- An account, if there is one, has at least `n` bytes of data. -/
def AtLeast (n : ℕ) (account : Option StoredAccount) : Prop :=
  ∀ a, account = some a → n ≤ a.data.length

@[simp] theorem atLeast_none (n : ℕ) : AtLeast n none := nofun

@[simp] theorem atLeast_some {n : ℕ} {a : StoredAccount} : AtLeast n (some a) ↔ n ≤ a.data.length :=
  ⟨fun h => h a rfl, fun h _ ha => by cases ha; exact h⟩

structure BlockhashQueue where
  capacity : ℕ
  entries : List (UInt64 × H256)
  index : PartialMap H256 UInt64

structure SerializedQueue where
  capacity : ℕ
  entries : List (UInt64 × H256)

namespace BlockhashQueue

def withCapacity (capacity : ℕ) : BlockhashQueue := ⟨capacity, [], fun _ => none⟩

def new : BlockhashQueue := withCapacity BLOCKHASH_QUEUE_CAPACITY

/-- Pop entries from the front while there are more than the capacity. -/
def evict (capacity : ℕ) :
    List (UInt64 × H256) → PartialMap H256 UInt64 → List (UInt64 × H256) × PartialMap H256 UInt64
  | [], index => ([], index)
  | (slot, hash) :: rest, index =>
    if capacity < rest.length + 1 then evict capacity rest (index.remove hash)
    else ((slot, hash) :: rest, index)

/-- Register the hash produced at `slot`. -/
def register (q : BlockhashQueue) (slot : UInt64) (hash : H256) : BlockhashQueue :=
  let (entries, index) := evict q.capacity (q.entries ++ [(slot, hash)]) (q.index.insert hash slot)
  { q with entries, index }

def isValid (q : BlockhashQueue) (hash : H256) : Bool := (q.index hash).isSome

theorem isValid_register {q : BlockhashQueue} {hash : H256}
    (hroom : q.entries.length + 1 ≤ q.capacity) (h : q.isValid hash = true) (slot : UInt64)
    (hash' : H256) : (q.register slot hash').isValid hash = true := by
  have hevict : evict q.capacity (q.entries ++ [(slot, hash')]) (q.index.insert hash' slot) =
      (q.entries ++ [(slot, hash')], q.index.insert hash' slot) := by
    cases hl : q.entries ++ [(slot, hash')] with
    | nil => rfl
    | cons e rest =>
      have hlen := congrArg List.length hl
      simp only [List.length_append, List.length_cons, List.length_nil] at hlen
      exact if_neg (by omega)
  simp only [isValid, register, hevict, PartialMap.insert_apply] at h ⊢
  split
  · rfl
  · exact h

def toBytes (q : BlockhashQueue) : SerializedQueue := ⟨q.capacity, q.entries⟩

def fromBytes (s : SerializedQueue) : BlockhashQueue where
  capacity := s.capacity
  entries := s.entries
  index := s.entries.foldl (fun index e => index.insert e.2 e.1) fun _ => none

end BlockhashQueue

end Zul
