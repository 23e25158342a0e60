import Mathlib.Data.Finset.Sort
import Mathlib.Data.List.Nodup
import Zul.Lib.PartialMap
import Zul.Lib.Words

/-! # Byte strings in lexicographic order

A byte string without a leading zero is determined by the big-endian number it stands for, and
byte strings of one length are ordered as these numbers. A table with byte
strings for keys is scanned in the order of its keys; a scan that starts at a key of another scan
goes on where that one left off.
-/

namespace ByteOrder

def value (bs : List UInt8) : ℕ := LittleEndian.decode bs.reverse

theorem decode_append (as bs : List UInt8) : LittleEndian.decode (as ++ bs) =
    LittleEndian.decode as + 256 ^ as.length * LittleEndian.decode bs := by
  induction as with
  | nil => simp [LittleEndian.decode]
  | cons a as ih =>
    rw [List.cons_append, LittleEndian.decode, LittleEndian.decode, ih, List.length_cons, pow_succ]
    ring

theorem value_cons (b : UInt8) (bs : List UInt8) :
    value (b :: bs) = value bs + 256 ^ bs.length * b.toNat := by
  rw [value, List.reverse_cons, decode_append, List.length_reverse]
  simp [LittleEndian.decode, value]

theorem value_concat (bs : List UInt8) (b : UInt8) :
    value (bs ++ [b]) = b.toNat + 256 * value bs := by
  rw [value, List.reverse_concat, LittleEndian.decode, value]

theorem value_lt (bs : List UInt8) : value bs < 256 ^ bs.length := by
  have h := LittleEndian.decode_lt bs.reverse
  rwa [List.length_reverse] at h

theorem pow_le_value {b : UInt8} (bs : List UInt8) (h : b ≠ 0) :
    256 ^ bs.length ≤ value (b :: bs) := by
  have hpos : 0 < b.toNat := Nat.pos_of_ne_zero fun hb => h (UInt8.toNat_inj.mp hb)
  rw [value_cons]
  exact (Nat.le_mul_of_pos_right _ hpos).trans (Nat.le_add_left _ _)

theorem length_le_of_value_eq {as bs : List UInt8} (has : as.head? ≠ some 0)
    (h : value as = value bs) : as.length ≤ bs.length := by
  cases as with
  | nil => exact Nat.zero_le _
  | cons a as =>
    rw [List.head?_cons, Ne, Option.some_inj] at has
    have hlow := pow_le_value as has
    rw [h] at hlow
    exact (Nat.pow_lt_pow_iff_right (by decide)).mp (hlow.trans_lt (value_lt bs))

theorem eq_of_value_eq {as bs : List UInt8} (has : as.head? ≠ some 0) (hbs : bs.head? ≠ some 0)
    (h : value as = value bs) : as = bs := by
  have hlength : as.length = bs.length :=
    (length_le_of_value_eq has h).antisymm (length_le_of_value_eq hbs h.symm)
  apply List.reverse_injective
  apply LittleEndian.decode_injective _ h
  rw [List.length_reverse, List.length_reverse, hlength]

theorem lt_iff_value_lt {as bs : List UInt8} (h : as.length = bs.length) :
    as < bs ↔ value as < value bs := by
  induction as generalizing bs with
  | nil =>
    rw [List.length_nil, eq_comm, List.length_eq_zero_iff] at h
    subst h
    simp
  | cons a as ih =>
    cases bs with
    | nil => cases h
    | cons b bs =>
      have hlength : as.length = bs.length := Nat.succ.inj h
      have ha := value_lt as
      have hb := value_lt bs
      rw [List.cons_lt_cons_iff, ih hlength, value_cons, value_cons, UInt8.lt_iff_toNat_lt]
      rw [hlength] at ha ⊢
      generalize 256 ^ bs.length = m at ha hb
      constructor
      · rintro (hlt | ⟨rfl, hlt⟩)
        · calc value as + m * a.toNat < m * (a.toNat + 1) := by rw [Nat.mul_succ]; omega
            _ ≤ m * b.toNat := Nat.mul_le_mul_left _ hlt
            _ ≤ value bs + m * b.toNat := Nat.le_add_left _ _
        · omega
      · intro hlt
        rcases Nat.lt_trichotomy a.toNat b.toNat with hab | hab | hab
        · exact .inl hab
        · rw [hab] at hlt
          exact .inr ⟨UInt8.toNat_inj.mp hab, by omega⟩
        · have hle : m * (b.toNat + 1) ≤ m * a.toNat := Nat.mul_le_mul_left _ hab
          rw [Nat.mul_succ] at hle
          omega

theorem append_lt_append_iff {as bs xs ys : List UInt8} (h : as.length = bs.length) :
    as ++ xs < bs ++ ys ↔ as < bs ∨ as = bs ∧ xs < ys := by
  induction as generalizing bs with
  | nil =>
    rw [List.length_nil, eq_comm, List.length_eq_zero_iff] at h
    subst h
    simp
  | cons a as ih =>
    cases bs with
    | nil => cases h
    | cons b bs =>
      rw [List.cons_append, List.cons_append, List.cons_lt_cons_iff, List.cons_lt_cons_iff,
        ih (Nat.succ.inj h), List.cons.injEq]
      tauto

/-! ## Scans -/

/-- Scans of a table: the rows above a start and up to a last key, in the order of their keys. -/
structure Scan (V : Type*) where
  rows : PartialMap (List UInt8) V → List UInt8 → List UInt8 → List (List UInt8 × V)
  sorted : ∀ table start last, (rows table start last).Pairwise fun e e' => e.1 < e'.1
  mem_iff : ∀ table, {k | (table k).isSome}.Finite → ∀ start last e,
    e ∈ rows table start last ↔ table e.1 = some e.2 ∧ start < e.1 ∧ e.1 ≤ last

variable {V : Type*}

theorem eq_of_mem_iff {l l' : List (List UInt8 × V)} (hl : l.Pairwise fun e e' => e.1 < e'.1)
    (hl' : l'.Pairwise fun e e' => e.1 < e'.1) (h : ∀ e, e ∈ l ↔ e ∈ l') : l = l' := by
  have hne : ∀ {e e' : List UInt8 × V}, e.1 < e'.1 → e ≠ e' := by
    rintro e _ hlt rfl
    exact List.lt_irrefl _ hlt
  have hperm : l.Perm l' := (List.perm_ext_iff_of_nodup (hl.imp hne) (hl'.imp hne)).mpr h
  refine hperm.eq_of_pairwise ?_ hl hl'
  intro e e' _ _ hlt hlt'
  exact absurd hlt' (List.lt_asymm hlt)

theorem Scan.rows_of_split (scan : Scan V) {table : PartialMap (List UInt8) V}
    (hfinite : {k | (table k).isSome}.Finite) {start last : List UInt8} {e : List UInt8 × V}
    {before after : List (List UInt8 × V)}
    (h : scan.rows table start last = before ++ e :: after) :
    scan.rows table e.1 last = after := by
  have hsorted := scan.sorted table start last
  rw [h, List.pairwise_append, List.pairwise_cons] at hsorted
  obtain ⟨-, ⟨hafter, hsorted⟩, hbefore⟩ := hsorted
  have hmem : ∀ x, x ∈ before ++ e :: after ↔ table x.1 = some x.2 ∧ start < x.1 ∧ x.1 ≤ last := by
    intro x
    rw [← h, scan.mem_iff table hfinite]
  have hstart : start < e.1 := ((hmem e).mp (by simp)).2.1
  apply eq_of_mem_iff (scan.sorted ..) hsorted
  intro x
  rw [scan.mem_iff table hfinite]
  constructor
  · rintro ⟨hx, hlt, hle⟩
    have hxmem := (hmem x).mpr ⟨hx, List.lt_trans hstart hlt, hle⟩
    rcases List.mem_append.mp hxmem with hx | hx
    · exact absurd (hbefore x hx e List.mem_cons_self) (List.lt_asymm hlt)
    · rcases List.mem_cons.mp hx with rfl | hx
      · exact absurd hlt (List.lt_irrefl _)
      · exact hx
  · intro hx
    obtain ⟨hrow, -, hle⟩ := (hmem x).mp (by simp [hx])
    exact ⟨hrow, hafter x hx, hle⟩

open Classical in
noncomputable def Scan.ofSort (V : Type*) : Scan V where
  rows table start last :=
    if h : {k | (table k).isSome}.Finite then
      ((h.toFinset.toList.filter fun k => start < k ∧ k ≤ last).mergeSort
        fun a b => a ≤ b).filterMap fun k => (table k).map (k, ·)
    else []
  sorted table start last := by
    split
    · rename_i h
      have hsort := @List.pairwise_mergeSort _ (fun a b : List UInt8 => decide (a ≤ b))
        (by simpa using fun a b c => List.le_trans) (by simpa using fun a b => List.le_total a b)
        (h.toFinset.toList.filter fun k => start < k ∧ k ≤ last)
      have hnodup := (List.mergeSort_perm (h.toFinset.toList.filter fun k =>
        start < k ∧ k ≤ last) fun a b => decide (a ≤ b)).nodup_iff.mpr
        ((Finset.nodup_toList _).filter _)
      refine List.Pairwise.filterMap _ ?_ (hsort.and hnodup)
      rintro k k' ⟨hle, hne⟩ e he e' he'
      obtain ⟨v, -, rfl⟩ := Option.map_eq_some_iff.mp he
      obtain ⟨v', -, rfl⟩ := Option.map_eq_some_iff.mp he'
      by_contra hnot
      exact hne (List.le_antisymm (of_decide_eq_true hle) (List.not_lt.mp hnot))
    · exact List.Pairwise.nil
  mem_iff table h start last e := by
    rw [dif_pos h, List.mem_filterMap]
    constructor
    · rintro ⟨k, hk, he⟩
      obtain ⟨v, hv, rfl⟩ := Option.map_eq_some_iff.mp he
      have hk := List.mem_filter.mp ((List.mergeSort_perm _ _).mem_iff.mp hk)
      exact ⟨hv, of_decide_eq_true hk.2⟩
    · rintro ⟨hrow, hbounds⟩
      refine ⟨e.1, (List.mergeSort_perm _ _).mem_iff.mpr (List.mem_filter.mpr ⟨?_, ?_⟩), ?_⟩
      · rw [Finset.mem_toList, Set.Finite.mem_toFinset, Set.mem_ofPred_eq, hrow]
        rfl
      · exact decide_eq_true hbounds
      · rw [hrow]
        rfl

end ByteOrder
