import Mathlib.Data.Nat.Digits.Lemmas
import Zul.Indexer.Decode
import Zul.Lib.ByteOrder
import Zul.Lib.Lists

/-! # Base 58

The encoder keeps the base-58 digits of the number read so far, lowest first; a byte multiplies
them by 256 and adds itself. Leading zero bytes are not part of the number and are written one by
one, so a byte string is read off its encoding.
-/

namespace Zul.Indexer

/-! ## The digit loop -/

theorem addByte_digits (carry n : ℕ) :
    addByte carry (Nat.digits 58 n) = Nat.digits 58 (carry + n * 256) := by
  induction n using Nat.strong_induction_on generalizing carry with
  | _ n ih =>
    rcases Nat.eq_zero_or_pos n with rfl | hpos
    · rw [Nat.digits_zero, addByte, Nat.zero_mul, Nat.add_zero]
    · have hbase : 1 < 58 := by decide
      have hsum : 0 < carry + n * 256 := by omega
      have hdigit : (carry + n % 58 * 256) % 58 = (carry + n * 256) % 58 := by omega
      have hcarry : (carry + n % 58 * 256) / 58 + n / 58 * 256 = (carry + n * 256) / 58 := by omega
      rw [Nat.digits_def' hbase hpos, addByte, ih (n / 58) (by omega), Nat.digits_def' hbase hsum,
        hdigit, hcarry]

theorem foldl_addByte (bytes : List UInt8) :
    bytes.foldl (fun digits byte => addByte byte.toNat digits) [] =
      Nat.digits 58 (ByteOrder.value bytes) := by
  induction bytes using List.reverseRecOn with
  | nil => exact (Nat.digits_zero 58).symm
  | append_singleton bytes byte ih =>
    rw [List.foldl_append, ih, List.foldl_cons, List.foldl_nil, addByte_digits,
      ByteOrder.value_concat, Nat.mul_comm]

/-! ## Symbols -/

def symbol (digit : ℕ) : Char := B58.getD digit '1'

theorem symbol_injOn {d e : ℕ} (hd : d < 58) (he : e < 58) (h : symbol d = symbol e) : d = e := by
  have hposition : ∀ d < 58, B58.idxOf (symbol d) = d := by decide +kernel
  rw [← hposition d hd, h, hposition e he]

theorem map_symbol_inj {ds es : List ℕ} (hds : ∀ d ∈ ds, d < 58) (hes : ∀ e ∈ es, e < 58)
    (h : ds.map symbol = es.map symbol) : ds = es := by
  induction ds generalizing es with
  | nil =>
    rw [List.map_nil, eq_comm, List.map_eq_nil_iff] at h
    exact h.symm
  | cons d ds ih =>
    cases es with
    | nil => cases h
    | cons e es =>
      rw [List.map_cons, List.map_cons, List.cons.injEq] at h
      obtain ⟨hhead, htail⟩ := h
      rw [List.forall_mem_cons] at hds hes
      rw [symbol_injOn hds.1 hes.1 hhead, ih hds.2 hes.2 htail]

theorem head?_map_symbol {ds : List ℕ} (hds : ∀ d ∈ ds, d < 58) (h : ds.head? ≠ some 0) :
    (ds.map symbol).head? ≠ some '1' := by
  cases ds with
  | nil => simp
  | cons d ds =>
    intro hsymbol
    apply h
    have hd := (List.forall_mem_cons.mp hds).1
    rw [List.map_cons, List.head?_cons, Option.some_inj] at hsymbol
    rw [List.head?_cons, symbol_injOn (e := 0) hd (by decide) hsymbol]

/-! ## Encodings -/

def digitsOf (n : ℕ) : List ℕ := (Nat.digits 58 n).reverse

theorem digitsOf_lt (n : ℕ) : ∀ d ∈ digitsOf n, d < 58 := by
  intro d hd
  exact Nat.digits_lt_base (by decide) (List.mem_reverse.mp hd)

theorem head?_digitsOf (n : ℕ) : (digitsOf n).head? ≠ some 0 := by
  rw [digitsOf, List.head?_reverse]
  rcases eq_or_ne n 0 with rfl | hn
  · simp
  · rw [List.getLast?_eq_some_getLast (Nat.digits_ne_nil_iff_ne_zero.mpr hn)]
    exact fun h => Nat.getLast_digit_ne_zero 58 hn (Option.some_inj.mp h)

theorem base58Encode_eq {zeros : ℕ} {rest : List UInt8} (hrest : rest.head? ≠ some 0) :
    base58Encode (List.replicate zeros 0 ++ rest) =
      String.ofList (List.replicate zeros '1' ++ (digitsOf (ByteOrder.value rest)).map symbol) := by
  unfold base58Encode
  dsimp only
  rw [List.takeWhile_replicate_append hrest, List.length_replicate,
    List.drop_left' List.length_replicate, foldl_addByte]
  rfl

theorem base58Encode_injective : Function.Injective base58Encode := by
  intro as bs h
  obtain ⟨m, as, rfl, has⟩ := List.exists_replicate_append 0 as
  obtain ⟨n, bs, rfl, hbs⟩ := List.exists_replicate_append 0 bs
  rw [base58Encode_eq has, base58Encode_eq hbs] at h
  obtain ⟨rfl, hdigits⟩ := List.replicate_append_inj (head?_map_symbol (digitsOf_lt _)
    (head?_digitsOf _)) (head?_map_symbol (digitsOf_lt _) (head?_digitsOf _))
    (String.ofList_injective h)
  have hvalue : ByteOrder.value as = ByteOrder.value bs := by
    have hdigits := map_symbol_inj (digitsOf_lt _) (digitsOf_lt _) hdigits
    exact Nat.digits_inj_iff.mp (List.reverse_injective hdigits)
  rw [ByteOrder.eq_of_value_eq has hbs hvalue]

theorem length_le_length_base58Encode (bytes : List UInt8) :
    bytes.length ≤ (base58Encode bytes).length := by
  obtain ⟨zeros, rest, rfl, hrest⟩ := List.exists_replicate_append 0 bytes
  have hdigits : rest.length ≤ (digitsOf (ByteOrder.value rest)).length := by
    cases rest with
    | nil => exact Nat.zero_le _
    | cons b rest =>
      rw [List.head?_cons, Ne, Option.some_inj] at hrest
      have hlow := ByteOrder.pow_le_value rest hrest
      have hhigh : ByteOrder.value (b :: rest) <
          58 ^ (digitsOf (ByteOrder.value (b :: rest))).length := by
        rw [digitsOf, List.length_reverse]
        exact Nat.lt_base_pow_length_digits (by decide)
      have hpow : 58 ^ rest.length ≤ 256 ^ rest.length := Nat.pow_le_pow_left (by decide) _
      exact (Nat.pow_lt_pow_iff_right (by decide)).mp (hpow.trans_lt (hlow.trans_lt hhigh))
  rw [base58Encode_eq hrest, String.length_ofList, List.length_append, List.length_append,
    List.length_replicate, List.length_replicate, List.length_map]
  exact Nat.add_le_add_left hdigits zeros

/-- An encoding is a `1` for each leading zero byte, then the base-58 digits of the rest as a
big-endian number, most significant first and without a leading zero; no two byte strings share
one. -/
theorem base58_exact_and_injective :
    (∀ bytes : List UInt8, ∃ (zeros : ℕ) (rest : List UInt8) (digits : List ℕ),
      bytes = List.replicate zeros 0 ++ rest ∧ rest.head? ≠ some 0 ∧
      (∀ d ∈ digits, d < 58) ∧ digits.head? ≠ some 0 ∧
      Nat.ofDigits 58 digits.reverse = ByteOrder.value rest ∧
      base58Encode bytes = String.ofList (List.replicate zeros '1' ++
        digits.map fun digit => B58.getD digit '1')) ∧
    ∀ as bs : List UInt8, base58Encode as = base58Encode bs → as = bs := by
  constructor
  · intro bytes
    obtain ⟨zeros, rest, rfl, hrest⟩ := List.exists_replicate_append 0 bytes
    refine ⟨zeros, rest, digitsOf (ByteOrder.value rest), rfl, hrest, digitsOf_lt _,
      head?_digitsOf _, ?_, base58Encode_eq hrest⟩
    rw [digitsOf, List.reverse_reverse, Nat.ofDigits_digits]
  · intro as bs h
    exact base58Encode_injective h

end Zul.Indexer
