import Mathlib.Data.List.Basic

/-! # Ring buffers

A ring of cells that is advanced before it is written keeps the newest entries of a history. Cells
the first lap has not reached yet hold a placeholder.
-/

namespace RingBuffer

variable {α : Type*} {capacity newest index : ℕ} {blank : α} {history : ℕ → α} {cells : List α}

/-- The cells after the entries `0, …, newest` of a history were written, the first one into cell
`0`. Cell `i` holds the newest entry whose number is `i` modulo the capacity. -/
structure Holds (capacity : ℕ) (blank : α) (history : ℕ → α) (newest : ℕ) (cells : List α)
    (index : ℕ) : Prop where
  length : cells.length = capacity
  index : index = newest % capacity
  cell : ∀ i < capacity, cells[i]? =
    some (if i ≤ newest then history (newest - (newest - i) % capacity) else blank)

theorem holds_start (hpos : 0 < capacity) (blank : α) (history : ℕ → α) :
    Holds capacity blank history 0 (history 0 :: List.replicate (capacity - 1) blank) 0 where
  length := by
    rw [List.length_cons, List.length_replicate]
    omega
  index := (Nat.zero_mod capacity).symm
  cell i hi := by
    cases i with
    | zero => simp
    | succ i =>
      rw [List.getElem?_cons_succ, List.getElem?_replicate, if_pos (by omega), if_neg (by omega)]

theorem Holds.next_index (h : Holds capacity blank history newest cells index) :
    (index + 1) % capacity = (newest + 1) % capacity := by
  rw [h.index, Nat.mod_add_mod]

theorem age_succ {i : ℕ} (hi : i < capacity) (hle : i ≤ newest)
    (hnext : (newest + 1) % capacity ≠ i) :
    (newest + 1 - i) % capacity = (newest - i) % capacity + 1 := by
  have hlap := Nat.div_add_mod (newest - i) capacity
  have hlt : (newest - i) % capacity + 1 < capacity := by
    have hmod := Nat.mod_lt (newest - i) (Nat.zero_lt_of_lt hi)
    by_contra hfull
    -- a whole lap after cell `i` the ring would stand before it again
    refine hnext ?_
    have hround : newest + 1 = i + capacity * ((newest - i) / capacity + 1) := by
      rw [Nat.mul_succ]
      omega
    rw [hround, Nat.add_mul_mod_self_left, Nat.mod_eq_of_lt hi]
  have hsucc : newest + 1 - i = newest - i + 1 := by omega
  rw [hsucc, ← Nat.mod_add_mod, Nat.mod_eq_of_lt hlt]

theorem age_of_cell {age : ℕ} (hage : age < capacity) (hle : age ≤ newest) :
    (newest - (newest - age) % capacity) % capacity = age := by
  have hlap := Nat.div_add_mod (newest - age) capacity
  have hround : newest - (newest - age) % capacity =
      age + capacity * ((newest - age) / capacity) := by omega
  rw [hround, Nat.add_mul_mod_self_left, Nat.mod_eq_of_lt hage]

theorem Holds.push (h : Holds capacity blank history newest cells index) :
    Holds capacity blank history (newest + 1)
      (cells.set ((index + 1) % capacity) (history (newest + 1))) ((index + 1) % capacity) where
  length := List.length_set.trans h.length
  index := h.next_index
  cell i hi := by
    rw [h.next_index]
    by_cases hnext : (newest + 1) % capacity = i
    · -- the cell just written
      subst hnext
      have hle : (newest + 1) % capacity ≤ newest + 1 := Nat.mod_le _ _
      have hlap : (newest + 1 - (newest + 1) % capacity) % capacity = 0 :=
        Nat.sub_mod_eq_zero_of_mod_eq (Nat.mod_mod _ _).symm
      rw [List.getElem?_set_self (by rw [h.length]; exact hi), if_pos hle, hlap, Nat.sub_zero]
    · rw [List.getElem?_set_ne hnext, h.cell i hi]
      by_cases hle : i ≤ newest
      · -- an older cell grows older by one
        have hage := age_succ hi hle hnext
        rw [if_pos hle, if_pos (by omega), hage]
        congr 2
        omega
      · have hnot : i ≠ newest + 1 := by
          rintro rfl
          exact hnext (Nat.mod_eq_of_lt hi)
        rw [if_neg hle, if_neg (by omega)]

theorem Holds.mem_iff (h : Holds capacity blank history newest cells index) {x : α}
    (hx : x ≠ blank) :
    x ∈ cells ↔ ∃ age < min (newest + 1) capacity, history (newest - age) = x := by
  rw [List.mem_iff_getElem?]
  constructor
  · rintro ⟨i, hi⟩
    have hlt : i < capacity := by
      rw [← h.length]
      exact (List.getElem?_eq_some_iff.mp hi).1
    rw [h.cell i hlt, Option.some.injEq] at hi
    split at hi
    · refine ⟨(newest - i) % capacity, ?_, hi⟩
      have hmod := Nat.mod_le (newest - i) capacity
      have hcap := Nat.mod_lt (newest - i) (Nat.zero_lt_of_lt hlt)
      omega
    · exact absurd hi.symm hx
  · rintro ⟨age, hage, rfl⟩
    have hpos : 0 < capacity := by omega
    have hlt := Nat.mod_lt (newest - age) hpos
    refine ⟨(newest - age) % capacity, ?_⟩
    have hle : (newest - age) % capacity ≤ newest :=
      Nat.le_trans (Nat.mod_le _ _) (Nat.sub_le _ _)
    rw [h.cell _ hlt, if_pos hle, age_of_cell (by omega) (by omega)]

end RingBuffer
