import Mathlib.Data.Nat.Basic
import Mathlib.Tactic.Common

/-! # Base64

The standard alphabet with canonical padding: `decode` rejects characters outside the alphabet,
missing or misplaced padding, and non-zero padding bits. `decodeLenient` rejects nothing. Both
invert `encode`.
-/

namespace Base64

def char (v : ℕ) : Char :=
  if v < 26 then Char.ofNat (65 + v)
  else if v < 52 then Char.ofNat (71 + v)
  else if v < 62 then Char.ofNat (v - 4)
  else if v = 62 then '+' else '/'

def value? (c : Char) : Option ℕ :=
  if 65 ≤ c.toNat ∧ c.toNat < 91 then some (c.toNat - 65)
  else if 97 ≤ c.toNat ∧ c.toNat < 123 then some (c.toNat - 71)
  else if 48 ≤ c.toNat ∧ c.toNat < 58 then some (c.toNat + 4)
  else if c = '+' then some 62
  else if c = '/' then some 63
  else none

def encode : List UInt8 → List Char
  | a :: b :: c :: rest =>
    char (a.toNat / 4) :: char (a.toNat % 4 * 16 + b.toNat / 16) ::
      char (b.toNat % 16 * 4 + c.toNat / 64) :: char (c.toNat % 64) :: encode rest
  | [a, b] =>
    [char (a.toNat / 4), char (a.toNat % 4 * 16 + b.toNat / 16), char (b.toNat % 16 * 4), '=']
  | [a] => [char (a.toNat / 4), char (a.toNat % 4 * 16), '=', '=']
  | [] => []

def decode : List Char → Option (List UInt8)
  | [] => some []
  | w :: x :: y :: z :: rest => do
    let w ← value? w
    let x ← value? x
    let a := UInt8.ofNat (w * 4 + x / 16)
    if rest = [] ∧ z = '=' then
      if y = '=' then
        if x % 16 = 0 then some [a] else none
      else
        let y ← value? y
        if y % 4 = 0 then some [a, UInt8.ofNat (x % 16 * 16 + y / 4)] else none
    else
      let y ← value? y
      let z ← value? z
      let rest ← decode rest
      some (a :: UInt8.ofNat (x % 16 * 16 + y / 4) :: UInt8.ofNat (y % 4 * 64 + z) :: rest)
  | _ => none

theorem value?_char {v : ℕ} (h : v < 64) : value? (char v) = some v := by
  have : ∀ v < 64, value? (char v) = some v := by decide
  exact this v h

theorem char_ne_pad {v : ℕ} (h : v < 64) : char v ≠ '=' := by
  have : ∀ v < 64, char v ≠ '=' := by decide
  exact this v h

private theorem ofNat_eq {b : UInt8} {n : ℕ} (h : n = b.toNat) : UInt8.ofNat n = b := by
  rw [h, UInt8.ofNat_toNat]

theorem decode_encode (bs : List UInt8) : decode (encode bs) = some bs := by
  induction bs using encode.induct with
  | case1 a b c rest ih =>
    have ha := a.toNat_lt
    have hb := b.toNat_lt
    have hc := c.toNat_lt
    have hz : char (c.toNat % 64) ≠ '=' := char_ne_pad (by omega)
    simp only [encode, decode, ih, hz, and_false, if_false, Option.bind_eq_bind, Option.bind_some,
      value?_char (show a.toNat / 4 < 64 by omega),
      value?_char (show a.toNat % 4 * 16 + b.toNat / 16 < 64 by omega),
      value?_char (show b.toNat % 16 * 4 + c.toNat / 64 < 64 by omega),
      value?_char (show c.toNat % 64 < 64 by omega)]
    rw [ofNat_eq (b := a) (by omega), ofNat_eq (b := b) (by omega), ofNat_eq (b := c) (by omega)]
  | case2 a b =>
    have ha := a.toNat_lt
    have hb := b.toNat_lt
    have hy : char (b.toNat % 16 * 4) ≠ '=' := char_ne_pad (by omega)
    have h0 : b.toNat % 16 * 4 % 4 = 0 := by omega
    simp only [encode, decode, hy, and_self, if_true, if_false, Option.bind_eq_bind,
      Option.bind_some, h0,
      value?_char (show a.toNat / 4 < 64 by omega),
      value?_char (show a.toNat % 4 * 16 + b.toNat / 16 < 64 by omega),
      value?_char (show b.toNat % 16 * 4 < 64 by omega)]
    rw [ofNat_eq (b := a) (by omega), ofNat_eq (b := b) (by omega)]
  | case3 a =>
    have ha := a.toNat_lt
    have h0 : a.toNat % 4 * 16 % 16 = 0 := by omega
    simp only [encode, decode, and_self, if_true, Option.bind_eq_bind, Option.bind_some, h0,
      value?_char (show a.toNat / 4 < 64 by omega),
      value?_char (show a.toNat % 4 * 16 < 64 by omega)]
    rw [ofNat_eq (b := a) (by omega)]
  | case4 => rfl

/-! ## Lenient decoding -/

/-- The six-bit value of a character of the standard or the URL-safe alphabet. -/
def lenientValue? (c : Char) : Option ℕ :=
  if c = '-' then some 62 else if c = '_' then some 63 else value? c

/-- The bytes of six-bit values; an incomplete last group gives the bytes it completes. -/
def pack : List ℕ → List UInt8
  | w :: x :: y :: z :: rest =>
    UInt8.ofNat (w * 4 + x / 16) :: UInt8.ofNat (x % 16 * 16 + y / 4) ::
      UInt8.ofNat (y % 4 * 64 + z) :: pack rest
  | [w, x, y] => [UInt8.ofNat (w * 4 + x / 16), UInt8.ofNat (x % 16 * 16 + y / 4)]
  | [w, x] => [UInt8.ofNat (w * 4 + x / 16)]
  | [_] => []
  | [] => []

/-- Decode what is in either alphabet and skip every other character, padding included. -/
def decodeLenient (cs : List Char) : List UInt8 := pack (cs.filterMap lenientValue?)

theorem lenientValue?_char {v : ℕ} (h : v < 64) : lenientValue? (char v) = some v := by
  have : ∀ v < 64, lenientValue? (char v) = some v := by decide
  exact this v h

theorem lenientValue?_pad : lenientValue? '=' = none := by decide

theorem decodeLenient_encode (bs : List UInt8) : decodeLenient (encode bs) = bs := by
  unfold decodeLenient
  induction bs using encode.induct with
  | case1 a b c rest ih =>
    have ha := a.toNat_lt
    have hb := b.toNat_lt
    have hc := c.toNat_lt
    simp only [encode, List.filterMap_cons,
      lenientValue?_char (show a.toNat / 4 < 64 by omega),
      lenientValue?_char (show a.toNat % 4 * 16 + b.toNat / 16 < 64 by omega),
      lenientValue?_char (show b.toNat % 16 * 4 + c.toNat / 64 < 64 by omega),
      lenientValue?_char (show c.toNat % 64 < 64 by omega), pack, ih]
    rw [ofNat_eq (b := a) (by omega), ofNat_eq (b := b) (by omega), ofNat_eq (b := c) (by omega)]
  | case2 a b =>
    have ha := a.toNat_lt
    have hb := b.toNat_lt
    simp only [encode, List.filterMap_cons, List.filterMap_nil, lenientValue?_pad,
      lenientValue?_char (show a.toNat / 4 < 64 by omega),
      lenientValue?_char (show a.toNat % 4 * 16 + b.toNat / 16 < 64 by omega),
      lenientValue?_char (show b.toNat % 16 * 4 < 64 by omega), pack]
    rw [ofNat_eq (b := a) (by omega), ofNat_eq (b := b) (by omega)]
  | case3 a =>
    have ha := a.toNat_lt
    simp only [encode, List.filterMap_cons, List.filterMap_nil, lenientValue?_pad,
      lenientValue?_char (show a.toNat / 4 < 64 by omega),
      lenientValue?_char (show a.toNat % 4 * 16 < 64 by omega), pack]
    rw [ofNat_eq (b := a) (by omega)]
  | case4 => rfl

theorem mem_encode {bs : List UInt8} {c : Char} (h : c ∈ encode bs) :
    c = '=' ∨ ∃ v < 64, c = char v := by
  induction bs using encode.induct with
  | case1 a b d rest ih =>
    have ha := a.toNat_lt
    have hb := b.toNat_lt
    have hd := d.toNat_lt
    simp only [encode, List.mem_cons] at h
    rcases h with rfl | rfl | rfl | rfl | h
    · exact .inr ⟨_, by omega, rfl⟩
    · exact .inr ⟨_, by omega, rfl⟩
    · exact .inr ⟨_, by omega, rfl⟩
    · exact .inr ⟨_, by omega, rfl⟩
    · exact ih h
  | case2 a b =>
    have ha := a.toNat_lt
    have hb := b.toNat_lt
    simp only [encode, List.mem_cons, List.not_mem_nil, or_false] at h
    rcases h with rfl | rfl | rfl | rfl
    · exact .inr ⟨_, by omega, rfl⟩
    · exact .inr ⟨_, by omega, rfl⟩
    · exact .inr ⟨_, by omega, rfl⟩
    · exact .inl rfl
  | case3 a =>
    have ha := a.toNat_lt
    simp only [encode, List.mem_cons, List.not_mem_nil, or_false] at h
    rcases h with rfl | rfl | rfl | rfl
    · exact .inr ⟨_, by omega, rfl⟩
    · exact .inr ⟨_, by omega, rfl⟩
    · exact .inl rfl
    · exact .inl rfl
  | case4 => simp [encode] at h

end Base64
