import Mathlib.Data.Nat.Basic
import Mathlib.Tactic.Common
import Mathlib.Tactic.Ring

/-! # Machine words and byte strings

Saturating and checked arithmetic on 64-bit words, little-endian byte strings, and reads and
in-place writes of a range of a byte buffer. An out-of-range write is `none`.
-/

namespace UInt64

/-- The largest 64-bit value. -/
def maxValue : UInt64 := UInt64.ofNat (2 ^ 64 - 1)

def saturatingAdd (a b : UInt64) : UInt64 := UInt64.ofNat (min (a.toNat + b.toNat) (2 ^ 64 - 1))

/-- Addition that is `none` on overflow. -/
def checkedAdd (a b : UInt64) : Option UInt64 :=
  if a.toNat + b.toNat < 2 ^ 64 then some (a + b) else none

def saturatingSub (a b : UInt64) : UInt64 := UInt64.ofNat (a.toNat - b.toNat)

def saturatingMul (a b : UInt64) : UInt64 := UInt64.ofNat (min (a.toNat * b.toNat) (2 ^ 64 - 1))

theorem toNat_saturatingAdd (a b : UInt64) :
    (a.saturatingAdd b).toNat = min (a.toNat + b.toNat) (2 ^ 64 - 1) := by
  rw [saturatingAdd, UInt64.toNat_ofNat_of_lt']
  have : UInt64.size = 2 ^ 64 := rfl
  omega

theorem toNat_saturatingSub (a b : UInt64) : (a.saturatingSub b).toNat = a.toNat - b.toNat := by
  rw [saturatingSub, UInt64.toNat_ofNat_of_lt']
  have := a.toNat_lt
  have : UInt64.size = 2 ^ 64 := rfl
  omega

theorem toNat_saturatingAdd_le (a b : UInt64) :
    (a.saturatingAdd b).toNat ≤ a.toNat + b.toNat := by
  rw [toNat_saturatingAdd]; omega

theorem toNat_saturatingAdd_of_lt {a b : UInt64} (h : a.toNat + b.toNat < 2 ^ 64) :
    (a.saturatingAdd b).toNat = a.toNat + b.toNat := by
  rw [toNat_saturatingAdd]; omega

theorem zero_saturatingAdd (a : UInt64) : (0 : UInt64).saturatingAdd a = a := by
  apply UInt64.toNat_inj.mp
  have := a.toNat_lt
  rw [toNat_saturatingAdd, UInt64.toNat_zero]
  omega

theorem saturatingAdd_ne_zero {a b : UInt64} (h : 0 < b) : a.saturatingAdd b ≠ 0 := by
  intro heq
  have hnat := congrArg UInt64.toNat heq
  rw [toNat_saturatingAdd, UInt64.toNat_zero] at hnat
  have hpos : 0 < b.toNat := UInt64.lt_iff_toNat_lt.mp h
  omega

theorem toNat_sub_of_ge {a b : UInt64} (h : b ≤ a) : (a - b).toNat = a.toNat - b.toNat :=
  UInt64.toNat_sub_of_le a b h

end UInt64

namespace LittleEndian

/-- The `n` low bytes of a number, least significant first. -/
def encode : ℕ → ℕ → List UInt8
  | 0, _ => []
  | n + 1, x => UInt8.ofNat x :: encode n (x / 256)

/-- The number a byte string denotes, least significant byte first. -/
def decode : List UInt8 → ℕ
  | [] => 0
  | b :: bs => b.toNat + 256 * decode bs

@[simp] theorem length_encode (n x : ℕ) : (encode n x).length = n := by
  induction n generalizing x with
  | zero => rfl
  | succ n ih => simp only [encode, List.length_cons, ih]

theorem decode_encode (n x : ℕ) : decode (encode n x) = x % 256 ^ n := by
  induction n generalizing x with
  | zero => simp [encode, decode, Nat.mod_one]
  | succ n ih =>
    simp only [encode, decode, ih, UInt8.toNat_ofNat']
    have hpow : 256 ^ (n + 1) = 256 * 256 ^ n := by ring
    rw [hpow, Nat.mod_mul]

theorem decode_encode_of_lt {n x : ℕ} (h : x < 256 ^ n) : decode (encode n x) = x := by
  rw [decode_encode, Nat.mod_eq_of_lt h]

theorem decode_lt (bs : List UInt8) : decode bs < 256 ^ bs.length := by
  induction bs with
  | nil => simp [decode]
  | cons b bs ih =>
    have := b.toNat_lt
    simp only [decode, List.length_cons, pow_succ]
    omega

theorem encode_decode (bs : List UInt8) : encode bs.length (decode bs) = bs := by
  induction bs with
  | nil => rfl
  | cons b bs ih =>
    have hb := b.toNat_lt
    have hdiv : (b.toNat + 256 * decode bs) / 256 = decode bs := by omega
    have hhead : UInt8.ofNat (b.toNat + 256 * decode bs) = b := by
      apply UInt8.toNat_inj.mp
      rw [UInt8.toNat_ofNat']
      omega
    simp only [List.length_cons, encode, decode, hdiv, hhead, ih]

theorem decode_injective {as bs : List UInt8} (hl : as.length = bs.length)
    (h : decode as = decode bs) : as = bs := by
  rw [← encode_decode as, ← encode_decode bs, hl, h]

/-- The eight bytes of a 64-bit word. -/
def u64 (x : UInt64) : List UInt8 := encode 8 x.toNat

/-- The 64-bit word eight bytes denote. -/
def toU64 (bs : List UInt8) : UInt64 := UInt64.ofNat (decode bs)

/-- The four bytes of a 32-bit word. -/
def u32 (x : UInt32) : List UInt8 := encode 4 x.toNat

/-- The 32-bit word four bytes denote. -/
def toU32 (bs : List UInt8) : UInt32 := UInt32.ofNat (decode bs)

@[simp] theorem length_u64 (x : UInt64) : (u64 x).length = 8 := length_encode ..

@[simp] theorem length_u32 (x : UInt32) : (u32 x).length = 4 := length_encode ..

@[simp] theorem toU64_u64 (x : UInt64) : toU64 (u64 x) = x := by
  have hx : x.toNat < 256 ^ 8 := x.toNat_lt
  rw [toU64, u64, decode_encode_of_lt hx, UInt64.ofNat_toNat]

theorem u64_injective : Function.Injective u64 := Function.LeftInverse.injective toU64_u64

@[simp] theorem toU32_u32 (x : UInt32) : toU32 (u32 x) = x := by
  have hx : x.toNat < 256 ^ 4 := x.toNat_lt
  rw [toU32, u32, decode_encode_of_lt hx, UInt32.ofNat_toNat]

theorem u32_toU32 {bs : List UInt8} (h : bs.length = 4) : u32 (toU32 bs) = bs := by
  have hlt : decode bs < 2 ^ 32 := (decode_lt bs).trans_eq (by rw [h]; rfl)
  rw [u32, toU32, UInt32.toNat_ofNat_of_lt' hlt, ← h]
  exact encode_decode bs

end LittleEndian

namespace List

variable {α : Type*}

/-- The range `[a, b)` of a buffer, when it lies within the buffer. -/
def range? (l : List α) (a b : ℕ) : Option (List α) :=
  if b ≤ l.length then some ((l.drop a).take (b - a)) else none

/-- Overwrite the buffer from offset `a` on; out of range is `none`. -/
def writeAt? (l : List α) (a : ℕ) (bs : List α) : Option (List α) :=
  if a + bs.length ≤ l.length then some (l.take a ++ bs ++ l.drop (a + bs.length)) else none

theorem length_of_writeAt? {l l' bs : List α} {a : ℕ} (h : l.writeAt? a bs = some l') :
    l'.length = l.length := by
  unfold writeAt? at h
  split at h
  · cases h; simp only [length_append, length_take, length_drop]; omega
  · cases h

theorem writeAt?_isSome {l bs : List α} {a : ℕ} :
    (l.writeAt? a bs).isSome ↔ a + bs.length ≤ l.length := by
  unfold writeAt?; split <;> simp_all

theorem range?_writeAt? {l l' bs : List α} {a b : ℕ} (h : l.writeAt? a bs = some l')
    (hb : b = a + bs.length) : l'.range? a b = some bs := by
  have hlen := length_of_writeAt? h
  unfold writeAt? at h
  split at h
  · rename_i hle
    have ha : (l.take a).length = a := by rw [length_take]; omega
    cases h
    rw [range?, if_pos (by omega), hb, append_assoc, List.drop_left' ha, Nat.add_sub_cancel_left,
      take_left' rfl]
  · cases h

theorem getElem?_writeAt? {l l' bs : List α} {a : ℕ} (h : l.writeAt? a bs = some l') {i : ℕ}
    (hi : i < a ∨ a + bs.length ≤ i) : l'[i]? = l[i]? := by
  unfold writeAt? at h
  split at h
  · rename_i hle
    cases h
    have ha : (l.take a).length = a := by rw [length_take]; omega
    rcases hi with hi | hi
    · rw [append_assoc, getElem?_append_left (by omega), getElem?_take_of_lt hi]
    · rw [getElem?_append_right (by rw [length_append, ha]; exact hi), getElem?_drop, length_append,
        ha, Nat.add_sub_cancel' hi]
  · cases h

theorem range?_writeAt?_of_disjoint {l l' bs : List α} {a b c : ℕ}
    (h : l.writeAt? c bs = some l') (hd : b ≤ c ∨ c + bs.length ≤ a) :
    l'.range? a b = l.range? a b := by
  have hsame : (l'.drop a).take (b - a) = (l.drop a).take (b - a) := by
    refine ext_getElem? fun i => ?_
    rcases Nat.lt_or_ge i (b - a) with hi | hi
    · rw [getElem?_take_of_lt hi, getElem?_take_of_lt hi, getElem?_drop, getElem?_drop]
      exact getElem?_writeAt? h (by omega)
    · rw [getElem?_eq_none, getElem?_eq_none] <;> rw [length_take] <;> omega
  rw [range?, range?, length_of_writeAt? h, hsame]

theorem drop_past {l field rest : List α} {a b : ℕ} (h : l.drop a = field ++ rest)
    (hb : b = a + field.length) : l.drop b = rest := by
  rw [hb, ← List.drop_drop, h, List.drop_left' rfl]

theorem add_length_le_of_drop {l field rest : List α} {a : ℕ} (h : l.drop a = field ++ rest)
    (ha : a ≤ l.length) : a + field.length ≤ l.length := by
  have hlength := congrArg List.length h
  rw [List.length_drop, List.length_append] at hlength
  omega

theorem past_of_drop {l field rest : List α} {a b : ℕ} (h : l.drop a = field ++ rest)
    (ha : a ≤ l.length) (hb : b = a + field.length) : l.drop b = rest ∧ b ≤ l.length :=
  ⟨drop_past h hb, hb ▸ add_length_le_of_drop h ha⟩

theorem getElem?_of_drop {l front rest : List α} {a : ℕ} {x : α}
    (h : l.drop a = front ++ x :: rest) : l[a + front.length]? = some x := by
  rw [← List.getElem?_drop, h, List.getElem?_append_right le_rfl, Nat.sub_self,
    List.getElem?_cons_zero]

theorem range?_of_drop {l field rest : List α} {a b : ℕ} (h : l.drop a = field ++ rest)
    (hb : b = a + field.length) (ha : a ≤ l.length) : l.range? a b = some field := by
  have hle := add_length_le_of_drop h ha
  rw [range?, if_pos (by omega), hb, h, Nat.add_sub_cancel_left, List.take_left' rfl]

/-! ## Buffers that end too early -/

/-- The buffer ends within `x`, which was to start at an offset: what is left there is a proper
beginning of `x`. -/
def EndsWithin (l : List α) (a : ℕ) (x : List α) : Prop :=
  l.drop a <+: x ∧ (l.drop a).length < x.length

namespace EndsWithin

variable {l field rest : List α} {a b : ℕ}

theorem not_nil : ¬ l.EndsWithin a [] := by
  rintro ⟨-, hlt⟩
  exact absurd hlt (Nat.not_lt_zero _)

theorem of_length_le (h : l.length ≤ a) (hrest : rest ≠ []) : l.EndsWithin a rest := by
  rw [EndsWithin, List.drop_eq_nil_of_le h]
  exact ⟨List.nil_prefix, List.length_pos_iff.mpr hrest⟩

theorem past (h : l.EndsWithin a (field ++ rest)) (hb : b = a + field.length)
    (hle : b ≤ l.length) : l.drop a = field ++ l.drop b ∧ l.EndsWithin b rest := by
  obtain ⟨hfront, hlt⟩ := h
  have hlength : field.length ≤ (l.drop a).length := by
    rw [List.length_drop]
    omega
  obtain ⟨left, hleft⟩ := List.prefix_of_prefix_length_le (List.prefix_append field rest) hfront
    hlength
  have hdrop : l.drop b = left := drop_past hleft.symm hb
  rw [← hleft] at hfront hlt
  rw [List.prefix_append_right_inj] at hfront
  rw [List.length_append, List.length_append] at hlt
  rw [EndsWithin, hdrop]
  exact ⟨hleft.symm, hfront, by omega⟩

theorem skip (h : l.EndsWithin a (field ++ rest)) (hb : b = a + field.length)
    (hrest : rest ≠ []) : l.EndsWithin b rest := by
  rcases Nat.le_total b l.length with hle | hle
  · exact (h.past hb hle).2
  · exact of_length_le hle hrest

theorem getElem? {x : α} (h : l.EndsWithin a (x :: rest)) :
    l[a]? = none ∨ l[a]? = some x ∧ l.EndsWithin (a + 1) rest := by
  have hone : l.EndsWithin a ([x] ++ rest) := h
  rcases Nat.lt_or_ge a l.length with hlt | hge
  · obtain ⟨hdrop, hrest⟩ := hone.past rfl hlt
    refine .inr ⟨?_, hrest⟩
    rw [← List.head?_drop, hdrop]
    rfl
  · exact .inl (List.getElem?_eq_none hge)

end EndsWithin

end List

/-! ## Self-delimiting encodings -/

/-- What follows an encoding can be split off in one way. -/
def Delimited {α : Type*} (encode : α → List UInt8) : Prop :=
  ∀ x y s t, encode x ++ s = encode y ++ t → x = y ∧ s = t

/-- A list with a byte before every item that says whether there is one. -/
def framed {α : Type*} (encode : α → List UInt8) : List α → List UInt8
  | [] => [0]
  | x :: xs => 1 :: (encode x ++ framed encode xs)

namespace Delimited

variable {α : Type*} {encode : α → List UInt8}

theorem of_length {n : ℕ} (hlength : ∀ x, (encode x).length = n)
    (hinj : Function.Injective encode) : Delimited encode := by
  intro x y s t h
  obtain ⟨henc, hrest⟩ := List.append_inj h (by rw [hlength, hlength])
  exact ⟨hinj henc, hrest⟩

theorem injective (h : Delimited encode) : Function.Injective encode := by
  intro x y hxy
  exact (h x y [] [] (by rw [hxy])).1

theorem of_framed (h : Delimited encode) : Delimited (framed encode) := by
  intro xs
  induction xs with
  | nil =>
    rintro (_ | ⟨y, ys⟩) s t heq
    · exact ⟨rfl, (List.cons.inj heq).2⟩
    · cases heq
  | cons x xs ih =>
    rintro (_ | ⟨y, ys⟩) s t heq
    · cases heq
    · have htail : encode x ++ (framed encode xs ++ s) =
          encode y ++ (framed encode ys ++ t) := by
        rw [← List.append_assoc, ← List.append_assoc]
        exact (List.cons.inj heq).2
      obtain ⟨rfl, hrest⟩ := h x y _ _ htail
      obtain ⟨rfl, hend⟩ := ih ys s t hrest
      exact ⟨rfl, hend⟩

end Delimited
