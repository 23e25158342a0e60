import Mathlib.Data.List.Basic
import Mathlib.Tactic.Common

/-! # Canonical codecs of known size

A decoder that is run on slices of a known size is canonical for an encoder when it inverts the
encoder on the valid values and accepts nothing but encodings of valid values. Canonicity is kept
by sequencing, by repetition and by a change of representation.
-/

namespace FixedCodec

universe u v w

variable {α β : Type u} {γ : Type v} {ε ε' : Type w}

/-- The decoder inverts the encoder on the valid values and accepts their encodings only. -/
structure Canonical (size : ℕ) (valid : α → Prop) (encode : α → List γ)
    (decode : List γ → Except ε α) : Prop where
  length_encode : ∀ {a}, valid a → (encode a).length = size
  decode_encode : ∀ {a}, valid a → decode (encode a) = .ok a
  of_decode : ∀ {l a}, l.length = size → decode l = .ok a → valid a ∧ encode a = l

def pair (size : ℕ) (first : List γ → Except ε α) (second : List γ → Except ε β) (l : List γ) :
    Except ε (α × β) := do
  let a ← first (l.take size)
  let b ← second (l.drop size)
  return (a, b)

def repeated (size : ℕ) (decode : List γ → Except ε α) : ℕ → List γ → Except ε (List α)
  | 0, _ => .ok []
  | count + 1, l => do
    let a ← decode (l.take size)
    let as ← repeated size decode count (l.drop size)
    return a :: as

theorem bind_eq_ok_iff {x : Except ε α} {f : α → Except ε β} {b : β} :
    (x >>= f) = .ok b ↔ ∃ a, x = .ok a ∧ f a = .ok b := by
  cases x with
  | error e =>
    constructor
    · intro h
      cases h
    · rintro ⟨a, h, -⟩
      cases h
  | ok a =>
    constructor
    · intro h
      exact ⟨a, rfl, h⟩
    · rintro ⟨_, ⟨⟩, h⟩
      exact h

theorem mapError_eq_ok_iff {x : Except ε α} {f : ε → ε'} {a : α} :
    x.mapError f = .ok a ↔ x = .ok a := by
  cases x <;> simp [Except.mapError]

theorem pair_eq_ok_iff {size : ℕ} {first : List γ → Except ε α} {second : List γ → Except ε β}
    {l : List γ} {p : α × β} :
    pair size first second l = .ok p ↔
      first (l.take size) = .ok p.1 ∧ second (l.drop size) = .ok p.2 := by
  constructor
  · intro h
    obtain ⟨a, ha, h⟩ := bind_eq_ok_iff.mp h
    obtain ⟨b, hb, h⟩ := bind_eq_ok_iff.mp h
    cases h
    exact ⟨ha, hb⟩
  · rintro ⟨ha, hb⟩
    exact bind_eq_ok_iff.mpr ⟨p.1, ha, bind_eq_ok_iff.mpr ⟨p.2, hb, rfl⟩⟩

theorem repeated_succ_eq_ok_iff {size count : ℕ} {decode : List γ → Except ε α} {l : List γ}
    {as : List α} :
    repeated size decode (count + 1) l = .ok as ↔
      ∃ p : α × List α, pair size decode (repeated size decode count) l = .ok p ∧
        p.1 :: p.2 = as := by
  constructor
  · intro h
    obtain ⟨a, ha, h⟩ := bind_eq_ok_iff.mp h
    obtain ⟨as', has, h⟩ := bind_eq_ok_iff.mp h
    cases h
    exact ⟨(a, as'), pair_eq_ok_iff.mpr ⟨ha, has⟩, rfl⟩
  · rintro ⟨p, hp, rfl⟩
    obtain ⟨ha, has⟩ := pair_eq_ok_iff.mp hp
    exact bind_eq_ok_iff.mpr ⟨p.1, ha, bind_eq_ok_iff.mpr ⟨p.2, has, rfl⟩⟩

theorem repeated_eq_mapM (size : ℕ) (decode : List γ → Except ε α) (count : ℕ) (l : List γ) :
    repeated size decode count l =
      (List.range count).mapM fun i => decode ((l.drop (size * i)).take size) := by
  induction count generalizing l with
  | zero => rfl
  | succ count ih =>
    rw [repeated, ih, List.range_succ_eq_map, List.mapM_cons, List.mapM_map]
    simp only [List.drop_drop, Nat.mul_zero, List.drop_zero, Function.comp_def, Nat.mul_succ,
      Nat.add_comm size]

namespace Canonical

variable {size size' : ℕ} {valid : α → Prop} {valid' : β → Prop} {encode : α → List γ}
  {encode' : β → List γ} {decode : List γ → Except ε α} {decode' : List γ → Except ε β}

protected theorem pair (h : Canonical size valid encode decode)
    (h' : Canonical size' valid' encode' decode') :
    Canonical (size + size') (fun p : α × β => valid p.1 ∧ valid' p.2)
      (fun p => encode p.1 ++ encode' p.2) (pair size decode decode') where
  length_encode := by
    rintro ⟨a, b⟩ ⟨ha, hb⟩
    rw [List.length_append, h.length_encode ha, h'.length_encode hb]
  decode_encode := by
    rintro ⟨a, b⟩ ⟨ha, hb⟩
    apply pair_eq_ok_iff.mpr
    constructor
    · rw [List.take_left' (h.length_encode ha)]
      exact h.decode_encode ha
    · rw [List.drop_left' (h.length_encode ha)]
      exact h'.decode_encode hb
  of_decode := by
    rintro l ⟨a, b⟩ hl hdecode
    obtain ⟨ha, hb⟩ := pair_eq_ok_iff.mp hdecode
    obtain ⟨hvalid, htake⟩ := h.of_decode (by rw [List.length_take]; omega) ha
    obtain ⟨hvalid', hdrop⟩ := h'.of_decode (by rw [List.length_drop]; omega) hb
    refine ⟨⟨hvalid, hvalid'⟩, ?_⟩
    rw [htake, hdrop, List.take_append_drop]

protected theorem comap (h : Canonical size valid encode decode) (g : β → α) {valid' : β → Prop}
    {decode' : List γ → Except ε' β} (hvalid : ∀ b, valid' b ↔ valid (g b))
    (hdecode : ∀ l b, l.length = size → (decode' l = .ok b ↔ decode l = .ok (g b))) :
    Canonical size valid' (fun b => encode (g b)) decode' where
  length_encode := by
    intro b hb
    exact h.length_encode ((hvalid b).mp hb)
  decode_encode := by
    intro b hb
    have hb := (hvalid b).mp hb
    exact (hdecode _ b (h.length_encode hb)).mpr (h.decode_encode hb)
  of_decode := by
    intro l b hl hok
    rw [hvalid]
    exact h.of_decode hl ((hdecode l b hl).mp hok)

protected theorem repeated (h : Canonical size valid encode decode) (count : ℕ) :
    Canonical (count * size) (fun as => as.length = count ∧ ∀ a ∈ as, valid a)
      (fun as => as.flatMap encode) (repeated size decode count) := by
  induction count with
  | zero =>
    constructor
    · rintro as ⟨hlength, -⟩
      obtain rfl := List.eq_nil_of_length_eq_zero hlength
      simp
    · rintro as ⟨hlength, -⟩
      obtain rfl := List.eq_nil_of_length_eq_zero hlength
      rfl
    · intro l as hl hdecode
      cases hdecode
      obtain rfl := List.eq_nil_of_length_eq_zero (hl.trans (Nat.zero_mul size))
      simp
  | succ count ih =>
    -- one more item is a pair of the item and the rest
    have hpair := h.pair ih
    constructor
    · rintro as ⟨hlength, hvalid⟩
      obtain ⟨a, as, rfl⟩ := List.exists_cons_of_length_eq_add_one hlength
      rw [List.forall_mem_cons] at hvalid
      rw [List.flatMap_cons, Nat.succ_mul, Nat.add_comm]
      exact @hpair.length_encode (a, as) ⟨hvalid.1, Nat.succ.inj hlength, hvalid.2⟩
    · rintro as ⟨hlength, hvalid⟩
      obtain ⟨a, as, rfl⟩ := List.exists_cons_of_length_eq_add_one hlength
      rw [List.forall_mem_cons] at hvalid
      apply repeated_succ_eq_ok_iff.mpr
      exact ⟨(a, as), @hpair.decode_encode (a, as) ⟨hvalid.1, Nat.succ.inj hlength, hvalid.2⟩, rfl⟩
    · intro l as hl hdecode
      obtain ⟨⟨a, as⟩, hp, rfl⟩ := repeated_succ_eq_ok_iff.mp hdecode
      obtain ⟨⟨ha, hlength, has⟩, hl⟩ := hpair.of_decode (by rw [hl, Nat.succ_mul, Nat.add_comm]) hp
      exact ⟨⟨congrArg Nat.succ hlength, List.forall_mem_cons.mpr ⟨ha, has⟩⟩, hl⟩

end Canonical

end FixedCodec
