import Mathlib.Data.Nat.Basic
import Mathlib.Data.Nat.Bitwise
import Mathlib.Tactic.Common

/-! # Bits of a byte string

Bits are numbered from the most significant bit of the first byte. `keepBits n` clears
every bit from `n` on, so two strings of one length agree on their first `n` bits exactly
when their truncations are equal.
-/

namespace BitString

/-- Bit `i` of a byte string; past the end it is clear. -/
def testBit (bs : List UInt8) (i : ℕ) : Bool :=
  (bs.getD (i / 8) 0 >>> UInt8.ofNat (7 - i % 8)) &&& 1 == 1

/-- The byte with only the bit at position `i % 8` set. -/
def bitMask (i : ℕ) : UInt8 := 1 <<< UInt8.ofNat (7 - i % 8)

/-- Toggle bit `i` in place. -/
def flipBit (bs : List UInt8) (i : ℕ) : List UInt8 := bs.modify (i / 8) (· ^^^ bitMask i)

/-- Set bit `i` in place. -/
def setBit (bs : List UInt8) (i : ℕ) : List UInt8 := bs.modify (i / 8) (· ||| bitMask i)

/-- Clear every bit from `n` on. -/
def keepBits (n : ℕ) (bs : List UInt8) : List UInt8 :=
  bs.take (n / 8) ++
    if 0 < n % 8 then
      (bs.getD (n / 8) 0 &&& ((0xff : UInt8) <<< UInt8.ofNat (8 - n % 8))) ::
        List.replicate (bs.length - n / 8 - 1) 0
    else List.replicate (bs.length - n / 8) 0

/-! ## One byte -/

theorem byte_testBit (b : UInt8) {k : ℕ} (hk : k < 8) :
    ((b >>> UInt8.ofNat k) &&& 1 == 1) = b.toNat.testBit k := by
  have hone : (1 : UInt8).toNat = 1 := rfl
  rw [Bool.eq_iff_iff, beq_iff_eq, ← UInt8.toNat_inj, UInt8.toNat_and, UInt8.toNat_shiftRight,
    UInt8.toNat_ofNat', hone, Nat.and_one_is_mod, Nat.shiftRight_eq_div_pow,
    Nat.testBit_eq_decide_div_mod_eq, decide_eq_true_iff]
  have : k % 2 ^ 8 % 8 = k := by omega
  rw [this]

theorem testBit_bitMask (i : ℕ) {k : ℕ} (hk : k < 8) :
    (bitMask i).toNat.testBit k = decide (k = 7 - i % 8) := by
  have hone : (1 : UInt8).toNat = 1 := rfl
  rw [bitMask, UInt8.toNat_shiftLeft, UInt8.toNat_ofNat', hone]
  have : (7 - i % 8) % 2 ^ 8 % 8 = 7 - i % 8 := by omega
  rw [this, Nat.testBit_mod_two_pow, Nat.shiftLeft_eq, one_mul, Nat.testBit_two_pow]
  simp [hk, eq_comm]

theorem byte_ext {a b : UInt8} (h : ∀ k < 8, a.toNat.testBit k = b.toNat.testBit k) : a = b := by
  refine UInt8.toNat_inj.mp (Nat.eq_of_testBit_eq fun k => ?_)
  rcases lt_or_ge k 8 with hk | hk
  · exact h k hk
  · have hlt (c : UInt8) : c.toNat.testBit k = false :=
      Nat.testBit_lt_two_pow (c.toNat_lt.trans_le (Nat.pow_le_pow_right (by omega) hk))
    rw [hlt, hlt]

theorem testBit_highMask {r k : ℕ} (hr : r < 8) (h0 : 0 < r) (hk : k < 8) :
    ((0xff : UInt8) <<< UInt8.ofNat (8 - r)).toNat.testBit k = decide (8 - r ≤ k) := by
  have hff : (0xff : UInt8).toNat = 2 ^ 8 - 1 := rfl
  rw [UInt8.toNat_shiftLeft, UInt8.toNat_ofNat', hff]
  have : (8 - r) % 2 ^ 8 % 8 = 8 - r := by omega
  rw [this, Nat.testBit_mod_two_pow, Nat.testBit_shiftLeft, Nat.testBit_two_pow_sub_one]
  simp only [hk, decide_true, Bool.true_and]
  grind

/-! ## Strings -/

theorem testBit_eq (bs : List UInt8) (i : ℕ) :
    testBit bs i = (bs.getD (i / 8) 0).toNat.testBit (7 - i % 8) :=
  byte_testBit _ (by omega)

@[simp] theorem length_flipBit (bs : List UInt8) (i : ℕ) : (flipBit bs i).length = bs.length :=
  List.length_modify ..

@[simp] theorem length_setBit (bs : List UInt8) (i : ℕ) : (setBit bs i).length = bs.length :=
  List.length_modify ..

theorem length_keepBits {n : ℕ} {bs : List UInt8} (h : n ≤ 8 * bs.length) :
    (keepBits n bs).length = bs.length := by
  unfold keepBits
  split <;> simp <;> omega

private theorem getD_modify (bs : List UInt8) (f : UInt8 → UInt8) {m : ℕ} (hm : m < bs.length)
    (j : ℕ) : (bs.modify m f).getD j 0 = if j = m then f (bs.getD j 0) else bs.getD j 0 := by
  simp only [List.getD_eq_getElem?_getD, List.getElem?_modify]
  split
  · subst_vars; simp [hm]
  · rw [if_neg (by omega)]; simp

theorem testBit_flipBit {bs : List UInt8} {i : ℕ} (hi : i < 8 * bs.length) (j : ℕ) :
    testBit (flipBit bs i) j = (testBit bs j ^^ decide (j = i)) := by
  rw [testBit_eq, testBit_eq, flipBit, getD_modify _ _ (by omega)]
  split
  · rw [UInt8.toNat_xor, Nat.testBit_xor, testBit_bitMask _ (by omega)]
    congr 2
    rw [eq_iff_iff]
    omega
  · rw [decide_eq_false (by omega : j ≠ i), Bool.xor_false]

theorem testBit_setBit {bs : List UInt8} {i : ℕ} (hi : i < 8 * bs.length) (j : ℕ) :
    testBit (setBit bs i) j = (testBit bs j || decide (j = i)) := by
  rw [testBit_eq, testBit_eq, setBit, getD_modify _ _ (by omega)]
  split
  · rw [UInt8.toNat_or, Nat.testBit_or, testBit_bitMask _ (by omega)]
    congr 2
    rw [eq_iff_iff]
    omega
  · rw [decide_eq_false (by omega : j ≠ i), Bool.or_false]

private theorem getD_replicate_zero (n j : ℕ) : (List.replicate n (0 : UInt8)).getD j 0 = 0 := by
  simp only [List.getD_eq_getElem?_getD, List.getElem?_replicate]
  split <;> rfl

theorem testBit_replicate_zero (n i : ℕ) : testBit (List.replicate n 0) i = false := by
  rw [testBit_eq, getD_replicate_zero]
  exact Nat.zero_testBit _

theorem testBit_keepBits {n : ℕ} {bs : List UInt8} (h : n ≤ 8 * bs.length) (i : ℕ) :
    testBit (keepBits n bs) i = (decide (i < n) && testBit bs i) := by
  rw [testBit_eq, testBit_eq, keepBits]
  have hlen : (bs.take (n / 8)).length = n / 8 := by rw [List.length_take]; omega
  rcases lt_trichotomy (i / 8) (n / 8) with hlt | heq | hgt
  · rw [List.getD_append _ _ _ _ (by omega), decide_eq_true (by omega : i < n), Bool.true_and]
    simp only [List.getD_eq_getElem?_getD, List.getElem?_take, if_pos hlt]
  · rw [List.getD_append_right _ _ _ _ (by omega), hlen, heq, Nat.sub_self]
    split
    · rw [List.getD_cons_zero, UInt8.toNat_and, Nat.testBit_and,
        testBit_highMask (by omega) (by omega) (by omega), Bool.and_comm]
      congr 2
      rw [eq_iff_iff]
      omega
    · rw [getD_replicate_zero, decide_eq_false (by omega : ¬ i < n), Bool.false_and]
      exact Nat.zero_testBit _
  · rw [List.getD_append_right _ _ _ _ (by omega), hlen, decide_eq_false (by omega : ¬ i < n),
      Bool.false_and]
    obtain ⟨j, hj⟩ : ∃ j, i / 8 - n / 8 = j + 1 := ⟨i / 8 - n / 8 - 1, by omega⟩
    split
    · rw [hj, List.getD_cons_succ, getD_replicate_zero]
      exact Nat.zero_testBit _
    · rw [getD_replicate_zero]
      exact Nat.zero_testBit _

theorem ext {as bs : List UInt8} (hl : as.length = bs.length)
    (h : ∀ i < 8 * as.length, testBit as i = testBit bs i) : as = bs := by
  refine List.ext_getElem hl fun m hm hm' => byte_ext fun k hk => ?_
  have := h (8 * m + (7 - k)) (by omega)
  rw [testBit_eq, testBit_eq] at this
  have hdiv : (8 * m + (7 - k)) / 8 = m := by omega
  have hmod : 7 - (8 * m + (7 - k)) % 8 = k := by omega
  rw [hdiv, hmod, List.getD_eq_getElem _ _ hm, List.getD_eq_getElem _ _ hm'] at this
  exact this

theorem keepBits_eq_iff {n : ℕ} {as bs : List UInt8} (hl : as.length = bs.length)
    (h : n ≤ 8 * as.length) :
    keepBits n as = keepBits n bs ↔ ∀ i < n, testBit as i = testBit bs i := by
  have h' : n ≤ 8 * bs.length := hl ▸ h
  constructor
  · intro he i hi
    have := congrArg (testBit · i) he
    simpa only [testBit_keepBits h, testBit_keepBits h', decide_eq_true hi, Bool.true_and]
      using this
  · intro hb
    refine ext (by rw [length_keepBits h, length_keepBits h', hl]) fun i _ => ?_
    rw [testBit_keepBits h, testBit_keepBits h']
    by_cases hi : i < n
    · rw [hb i hi]
    · rw [decide_eq_false hi, Bool.false_and, Bool.false_and]

end BitString
