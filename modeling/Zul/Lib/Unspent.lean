import Mathlib.Algebra.BigOperators.Group.Finset.Piecewise
import Mathlib.Algebra.GroupWithZero.Nat
import Mathlib.Algebra.Order.BigOperators.Group.Finset

/-! # Unspent items

A growing list of items of some value, each live until it is retired. Appending adds at most the
value of what is appended; retiring a live item takes its value off.
-/

namespace Unspent

variable {N : Type*} (value : N → ℕ)

open Classical in
noncomputable def worth (live : ℕ → N → Prop) (items : List N) (i : ℕ) : ℕ :=
  items[i]?.elim 0 fun x => if live i x then value x else 0

noncomputable def total (live : ℕ → N → Prop) (items : List N) : ℕ :=
  ∑ i ∈ Finset.range items.length, worth value live items i

variable {value} {live live' : ℕ → N → Prop} {items : List N}

theorem worth_le {i : ℕ} {x : N} (h : items[i]? = some x) :
    worth value live items i ≤ value x := by
  rw [worth, h, Option.elim_some]
  split
  · exact le_rfl
  · exact Nat.zero_le _

theorem worth_of_live {i : ℕ} {x : N} (h : items[i]? = some x) (hx : live i x) :
    worth value live items i = value x := by
  rw [worth, h]
  exact if_pos hx

theorem worth_mono {i : ℕ} (h : ∀ x, items[i]? = some x → live' i x → live i x) :
    worth value live' items i ≤ worth value live items i := by
  cases hx : items[i]? with
  | none => simp [worth, hx]
  | some x =>
    by_cases hlive : live' i x
    · rw [worth_of_live hx hlive, worth_of_live hx (h x hx hlive)]
    · simp [worth, hx, hlive]

theorem total_mono (h : ∀ i x, items[i]? = some x → live' i x → live i x) :
    total value live' items ≤ total value live items :=
  Finset.sum_le_sum fun i _ => worth_mono (h i)

theorem total_append_le (more : List N) :
    total value live (items ++ more) ≤ total value live items + (more.map value).sum := by
  induction more generalizing items with
  | nil => simp
  | cons x more ih =>
    have hrest : total value live (items ++ [x] ++ more) ≤
        total value live (items ++ [x]) + (more.map value).sum := ih
    have hone : total value live (items ++ [x]) ≤ total value live items + value x := by
      rw [total, List.length_append, List.length_singleton, Finset.sum_range_succ]
      refine Nat.add_le_add (Finset.sum_le_sum fun i hi => ?_) (worth_le (by simp))
      rw [worth, List.getElem?_append_left (Finset.mem_range.mp hi)]
      exact le_rfl
    rw [List.append_assoc, List.singleton_append] at hrest
    rw [List.map_cons, List.sum_cons]
    omega

theorem total_retire (h : ∀ i x, items[i]? = some x → live' i x → live i x) {retired : Finset ℕ}
    (hretired : ∀ i ∈ retired, ∀ x, items[i]? = some x → ¬ live' i x) :
    total value live' items + ∑ i ∈ retired, worth value live items i ≤ total value live items := by
  have houtside : ∀ i ∈ retired, i ∉ Finset.range items.length ∩ retired →
      worth value live items i = 0 := by
    intro i hi hnot
    have hnone : items[i]? = none := List.getElem?_eq_none (by simpa [hi] using hnot)
    rw [worth, hnone, Option.elim_none]
  rw [← Finset.sum_subset Finset.inter_subset_right houtside, ← Finset.sum_ite_mem, total, total,
    ← Finset.sum_add_distrib]
  refine Finset.sum_le_sum fun i _ => ?_
  split
  · rename_i hi
    have hzero : worth value live' items i = 0 := by
      cases hx : items[i]? with
      | none => rw [worth, hx, Option.elim_none]
      | some x => rw [worth, hx, Option.elim_some, if_neg (hretired i hi x hx)]
    rw [hzero, Nat.zero_add]
  · exact worth_mono (h i)

end Unspent
