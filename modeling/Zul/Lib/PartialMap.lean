import Mathlib.Algebra.BigOperators.Group.Finset.Piecewise
import Mathlib.Data.Finset.Preimage
import Mathlib.Data.Fintype.BigOperators
import Mathlib.Algebra.Order.BigOperators.Group.Finset

/-! # Partial maps

A hash map is a partial function. A loop over its entries visits every key once,
in an unspecified order, so a loop whose body only writes the visited key is
determined pointwise: `foldl_mergeWith` holds for every enumeration of the map.
-/

/-- A map from keys to values; the keys of a hash map carry no order. -/
abbrev PartialMap (K V : Type*) := K → Option V

namespace PartialMap

variable {K V U : Type*} [DecidableEq K]

def insert (m : PartialMap K V) (k : K) (v : V) : PartialMap K V :=
  Function.update m k (some v)

def remove (m : PartialMap K V) (k : K) : PartialMap K V :=
  Function.update m k none

@[simp] theorem insert_self (m : PartialMap K V) (k : K) (v : V) : m.insert k v k = some v :=
  Function.update_self ..

theorem insert_of_ne (m : PartialMap K V) {k j : K} (v : V) (h : j ≠ k) : m.insert k v j = m j :=
  Function.update_of_ne h ..

theorem insert_apply (m : PartialMap K V) (k j : K) (v : V) :
    m.insert k v j = if j = k then some v else m j := by
  simp only [insert, Function.update_apply]

@[simp] theorem remove_self (m : PartialMap K V) (k : K) : m.remove k k = none :=
  Function.update_self ..

theorem remove_of_ne (m : PartialMap K V) {k j : K} (h : j ≠ k) : m.remove k j = m j :=
  Function.update_of_ne h ..

/-- The view of `m` layered over `base`. -/
def onto (m base : PartialMap K V) : PartialMap K V := fun k => (m k).or (base k)

omit [DecidableEq K] in
@[simp] theorem onto_apply (m base : PartialMap K V) (k : K) :
    m.onto base k = (m k).or (base k) := rfl

omit [DecidableEq K] in
@[simp] theorem onto_none (m : PartialMap K V) : m.onto (fun _ => none) = m := by
  funext k
  rw [onto_apply, Option.or_none]

theorem insert_onto (m base : PartialMap K V) (k j : K) (v : V) :
    (m.insert k v).onto base j = if j = k then some v else m.onto base j := by
  rw [onto_apply, insert_apply]
  split <;> simp

/-- Insert the entries of a list in order; a later entry of a key wins. -/
def insertAll (m : PartialMap K V) (l : List (K × V)) : PartialMap K V :=
  l.foldl (fun m e => m.insert e.1 e.2) m

@[simp] theorem insertAll_nil (m : PartialMap K V) : m.insertAll [] = m := rfl

@[simp] theorem insertAll_cons (m : PartialMap K V) (e : K × V) (l : List (K × V)) :
    m.insertAll (e :: l) = (m.insert e.1 e.2).insertAll l := rfl

theorem insertAll_append (m : PartialMap K V) (l l' : List (K × V)) :
    m.insertAll (l ++ l') = (m.insertAll l).insertAll l' := List.foldl_append ..

theorem insertAll_apply (m : PartialMap K V) (l : List (K × V)) (k : K) :
    m.insertAll l k = (insertAll (fun _ => none) l k).or (m k) := by
  induction l using List.reverseRecOn with
  | nil => simp
  | append_singleton l e ih =>
    simp only [insertAll_append, insertAll_cons, insertAll_nil, insert_apply, ih]
    split <;> simp

theorem insertAll_eq_none_iff (l : List (K × V)) (k : K) :
    insertAll (fun _ => none) l k = none ↔ k ∉ l.map Prod.fst := by
  induction l using List.reverseRecOn with
  | nil => simp
  | append_singleton l e ih =>
    simp only [insertAll_append, insertAll_cons, insertAll_nil, insert_apply, List.map_append,
      List.map_cons, List.map_nil, List.mem_append, List.mem_singleton, not_or]
    split <;> simp_all

theorem insertAll_eq_some_iff (l : List (K × V)) (k : K) (v : V) :
    insertAll (fun _ => none) l k = some v ↔
      ∃ before after, l = before ++ (k, v) :: after ∧ k ∉ after.map Prod.fst := by
  constructor
  · intro h
    induction l using List.reverseRecOn with
    | nil => cases h
    | append_singleton l e ih =>
      rw [insertAll_append, insertAll_cons, insertAll_nil, insert_apply] at h
      split at h
      · rename_i hk
        cases h
        exact ⟨l, [], by rw [hk], List.not_mem_nil⟩
      · rename_i hk
        obtain ⟨before, after, rfl, hnot⟩ := ih h
        refine ⟨before, after ++ [e], by simp, ?_⟩
        simpa using ⟨by simpa using hnot, hk⟩
  · rintro ⟨before, after, rfl, hnot⟩
    rw [insertAll_append, insertAll_cons, insertAll_apply,
      (insertAll_eq_none_iff after k).mpr hnot, Option.none_or, insert_self]

theorem insertAll_eq_some_iff_mem {l : List (K × V)}
    (hl : ∀ k v v', (k, v) ∈ l → (k, v') ∈ l → v = v') {k : K} {v : V} :
    insertAll (fun _ => none) l k = some v ↔ (k, v) ∈ l := by
  constructor
  · intro h
    obtain ⟨before, after, rfl, -⟩ := (insertAll_eq_some_iff l k v).mp h
    simp
  · intro hmem
    cases h : insertAll (fun _ => none) l k with
    | none =>
      have hnot := (insertAll_eq_none_iff l k).mp h
      exact absurd (List.mem_map_of_mem hmem) hnot
    | some v' =>
      obtain ⟨before, after, rfl, -⟩ := (insertAll_eq_some_iff l k v').mp h
      rw [hl k v v' hmem (by simp)]

theorem insertAll_map (l : List (K × V)) (f : V → U) (k : K) :
    insertAll (fun _ => none) (l.map fun e => (e.1, f e.2)) k =
      (insertAll (fun _ => none) l k).map f := by
  induction l using List.reverseRecOn with
  | nil => rfl
  | append_singleton l e ih =>
    rw [List.map_append, insertAll_append, insertAll_append]
    simp only [List.map_cons, List.map_nil, insertAll_cons, insertAll_nil, insert_apply, ih]
    split <;> rfl

/-- Visit every entry of `m`, rewriting the visited key of `w` by `f`. -/
def mergeWith (f : Option U → V → Option U) (w : PartialMap K U) (m : PartialMap K V) :
    PartialMap K U := fun k =>
  match m k with
  | some v => f (w k) v
  | none => w k

omit [DecidableEq K] in
theorem mergeWith_some {f : Option U → V → Option U} {w : PartialMap K U} {m : PartialMap K V}
    {k : K} {v : V} (h : m k = some v) : mergeWith f w m k = f (w k) v := by
  simp only [mergeWith, h]

omit [DecidableEq K] in
theorem mergeWith_none {f : Option U → V → Option U} {w : PartialMap K U} {m : PartialMap K V}
    {k : K} (h : m k = none) : mergeWith f w m k = w k := by
  simp only [mergeWith, h]

/-- The list holds the entries of the map, each key once, in some order. -/
structure Enumerates (l : List (K × V)) (m : PartialMap K V) : Prop where
  nodup : (l.map Prod.fst).Nodup
  mem_iff : ∀ k v, (k, v) ∈ l ↔ m k = some v

omit [DecidableEq K] in
theorem exists_enumerates [Finite K] (m : PartialMap K V) : ∃ l, Enumerates l m := by
  classical
  have := Fintype.ofFinite K
  let entry (k : K) : Option (K × V) := (m k).map fun v => (k, v)
  refine ⟨(Finset.univ.toList).filterMap entry, ?_, ?_⟩
  · rw [List.map_filterMap]
    have hkeys : (fun k => (entry k).map Prod.fst) =
      fun k => if (m k).isSome then some k else none := by
      funext k
      cases h : m k <;> simp [entry, h]
    rw [hkeys]
    refine List.Nodup.filterMap ?_ (Finset.nodup_toList _)
    intro a b c ha hb
    simp only [Option.mem_def, Option.ite_none_right_eq_some, Option.some.injEq] at ha hb
    exact ha.2.trans hb.2.symm
  · intro k v
    simp [entry, List.mem_filterMap]

omit [DecidableEq K] in
theorem Enumerates.map {l : List (K × V)} {m : PartialMap K V} (h : Enumerates l m)
    (g : K → V → U) : Enumerates (l.map fun e => (e.1, g e.1 e.2)) fun k => (m k).map (g k) := by
  constructor
  · rw [List.map_map]
    exact h.nodup
  · intro k u
    rw [Option.map_eq_some_iff, List.mem_map]
    constructor
    · rintro ⟨⟨k', v⟩, hmem, heq⟩
      cases heq
      exact ⟨v, (h.mem_iff k' v).mp hmem, rfl⟩
    · rintro ⟨v, hv, rfl⟩
      exact ⟨(k, v), (h.mem_iff k v).mpr hv, rfl⟩

theorem Enumerates.singleton (k : K) (v : V) :
    Enumerates [(k, v)] (insert (fun _ => none) k v) := by
  refine ⟨List.nodup_singleton _, fun j u => ?_⟩
  rw [insert_apply, List.mem_singleton]
  split <;> simp_all [eq_comm]

omit [DecidableEq K] in
theorem Enumerates.nil : Enumerates [] (fun _ => none : PartialMap K V) :=
  ⟨List.nodup_nil, by simp⟩

omit [DecidableEq K] in
theorem Enumerates.eq_nil {l : List (K × V)} (h : Enumerates l (fun _ => none : PartialMap K V)) :
    l = [] :=
  List.eq_nil_iff_forall_not_mem.mpr fun e he => by cases (h.mem_iff e.1 e.2).mp he

omit [DecidableEq K] in
theorem Enumerates.perm {l l' : List (K × V)} {m : PartialMap K V} (h : Enumerates l m)
    (h' : Enumerates l' m) : l.Perm l' := by
  rw [List.perm_ext_iff_of_nodup h.nodup.of_map h'.nodup.of_map]
  intro e
  rw [h.mem_iff, h'.mem_iff]

omit [DecidableEq K] in
theorem Enumerates.eq_singleton {l : List (K × V)} {m : PartialMap K V} {e : K × V}
    (h : Enumerates l m) (he : Enumerates [e] m) : l = [e] :=
  List.perm_singleton.mp (h.perm he)

theorem foldl_mergeWith {l : List (K × V)} {m : PartialMap K V} (h : Enumerates l m)
    (f : Option U → V → Option U) (w : PartialMap K U) :
    l.foldl (fun w e => Function.update w e.1 (f (w e.1) e.2)) w = mergeWith f w m := by
  -- the keys still to visit are untouched so far, the visited ones are final
  have key : ∀ (l : List (K × V)) (w : PartialMap K U), (l.map Prod.fst).Nodup → ∀ k,
      (∀ v, (k, v) ∈ l →
        l.foldl (fun w e => Function.update w e.1 (f (w e.1) e.2)) w k = f (w k) v) ∧
      ((∀ v, (k, v) ∉ l) →
        l.foldl (fun w e => Function.update w e.1 (f (w e.1) e.2)) w k = w k) := by
    intro l
    induction l with
    | nil => intro w _ k; simp
    | cons e l ih =>
      intro w hn k
      obtain ⟨hnot, hn⟩ := List.nodup_cons.mp hn
      obtain ⟨hin, hout⟩ := ih (Function.update w e.1 (f (w e.1) e.2)) hn k
      rw [List.foldl_cons]
      by_cases hk : k = e.1
      · subst hk
        have hfresh : ∀ v, (e.1, v) ∉ l := fun v hv => hnot (List.mem_map.mpr ⟨_, hv, rfl⟩)
        rw [hout hfresh, Function.update_self]
        refine ⟨fun v hv => ?_, fun h => absurd (List.mem_cons_self ..) (h e.2)⟩
        rcases List.mem_cons.mp hv with he | hv
        · rw [← he]
        · exact absurd hv (hfresh v)
      · rw [Function.update_of_ne hk] at hin hout
        refine ⟨fun v hv => hin v ?_, fun h => hout fun v hv => h v (List.mem_cons_of_mem _ hv)⟩
        rcases List.mem_cons.mp hv with he | hv
        · exact absurd (congrArg Prod.fst he) hk
        · exact hv
  funext k
  obtain ⟨hin, hout⟩ := key l w h.nodup k
  cases hm : m k with
  | some v => rw [mergeWith_some hm, hin v ((h.mem_iff k v).mpr hm)]
  | none =>
    rw [mergeWith_none hm, hout fun v hv => ?_]
    simp [(h.mem_iff k v).mp hv] at hm

end PartialMap

namespace Finset

variable {K : Type*} [Fintype K] [DecidableEq K]

theorem sum_add_of_eq_off {f g : K → ℕ} (a : K) (h : ∀ k, k ≠ a → g k = f k) :
    ∑ k, g k + f a = ∑ k, f k + g a := by
  rw [Fintype.sum_eq_add_sum_compl a g, Fintype.sum_eq_add_sum_compl a f]
  have : ∑ k ∈ {a}ᶜ, g k = ∑ k ∈ {a}ᶜ, f k :=
    Finset.sum_congr rfl fun k hk => h k (by simpa using hk)
  omega

end Finset
