import Zul.Indexer.Base58
import Zul.Lib.Words
import Zul.Privacy.Service

/-! # Transactions on the wire

A signed transaction, with a version or without, reads as what it is: its keys, the programs it
invokes and whether the pool is one of them. Cut short anywhere before the end of its last
instruction it does not read at all.
-/

namespace Zul.Indexer

def compactU16 (n : ℕ) : List UInt8 :=
  if n < 2 ^ 7 then [UInt8.ofNat n]
  else if n < 2 ^ 14 then [UInt8.ofNat (n % 2 ^ 7 + 2 ^ 7), UInt8.ofNat (n / 2 ^ 7)]
  else [UInt8.ofNat (n % 2 ^ 7 + 2 ^ 7), UInt8.ofNat (n / 2 ^ 7 % 2 ^ 7 + 2 ^ 7),
    UInt8.ofNat (n / 2 ^ 14)]

structure WireInstruction where
  programIdIndex : UInt8
  accounts : List UInt8
  data : List UInt8
  accounts_lt : accounts.length < 2 ^ 16
  data_lt : data.length < 2 ^ 16

def WireInstruction.bytes (ix : WireInstruction) : List UInt8 :=
  ix.programIdIndex :: (compactU16 ix.accounts.length ++ (ix.accounts ++
    (compactU16 ix.data.length ++ ix.data)))

structure WireTransaction where
  signatures : List (Bytes 64)
  versioned : Bool
  numRequiredSignatures : UInt8
  header : Bytes 2
  keys : List (Bytes 32)
  recentBlockhash : Bytes 32
  instructions : List WireInstruction
  /-- The address tables of a versioned message. -/
  lookups : List UInt8
  signed : signatures ≠ []
  paid : keys ≠ []
  signatures_lt : signatures.length < 2 ^ 16
  /-- The high bit of the first byte tells a version from a header. -/
  required_lt : versioned = false → numRequiredSignatures < 128
  keys_lt : keys.length < 2 ^ 16
  instructions_lt : instructions.length < 2 ^ 16

namespace WireTransaction

variable (tx : WireTransaction)

/-- Version 0 is written as a byte with the high bit. -/
def version : List UInt8 := if tx.versioned then [0x80] else []

def body : List UInt8 :=
  compactU16 tx.keys.length ++ (tx.keys.flatMap Bytes.toList ++ (tx.recentBlockhash.toList ++
    (compactU16 tx.instructions.length ++ tx.instructions.flatMap WireInstruction.bytes)))

def message : List UInt8 := (tx.numRequiredSignatures :: tx.header.toList) ++ tx.body

def parsed : List UInt8 :=
  compactU16 tx.signatures.length ++ (tx.signatures.flatMap Bytes.toList ++
    (tx.version ++ tx.message))

def bytes : List UInt8 := tx.parsed ++ tx.lookups

/-- The programs the instructions invoke, in order; an index beyond the keys invokes none. -/
def programIds : List (Bytes 32) :=
  tx.instructions.filterMap fun ix => tx.keys[ix.programIdIndex.toNat]?

end WireTransaction

theorem length_compactU16_pos (n : ℕ) : 0 < (compactU16 n).length := by
  unfold compactU16
  split
  · exact Nat.one_pos
  · split <;> exact Nat.succ_pos _

section Compact

variable {bytes rest : List UInt8} {offset n value : ℕ}

theorem readCompactU16From_last (front : List UInt8) (left : ℕ)
    (h : bytes.drop offset = front ++ UInt8.ofNat n :: rest) (hn : n < 2 ^ 7)
    (hvalue : value < 2 ^ (7 * front.length)) :
    readCompactU16From bytes offset (left + 1) value front.length =
      some (value + n * 2 ^ (7 * front.length), front.length + 1) := by
  have hbyte : (UInt8.ofNat n).toNat = n := by
    rw [UInt8.toNat_ofNat', Nat.mod_eq_of_lt (by omega)]
  have hlow : n &&& 0x7f = n := by
    rw [show 0x7f = 2 ^ 7 - 1 from rfl, Nat.and_two_pow_sub_one_eq_mod, Nat.mod_eq_of_lt hn]
  have hhigh : ∀ n < 2 ^ 7, n &&& 0x80 = 0 := by decide
  rw [readCompactU16From, List.getElem?_of_drop h]
  simp only [hbyte, hlow, hhigh n hn, if_true]
  rw [Nat.or_comm, ← Nat.shiftLeft_add_eq_or_of_lt hvalue, Nat.shiftLeft_eq, Nat.add_comm]

theorem readCompactU16From_more (front : List UInt8) (left : ℕ)
    (h : bytes.drop offset = front ++ UInt8.ofNat (n + 2 ^ 7) :: rest) (hn : n < 2 ^ 7)
    (hvalue : value < 2 ^ (7 * front.length)) :
    readCompactU16From bytes offset (left + 1) value front.length =
      readCompactU16From bytes offset left (value + n * 2 ^ (7 * front.length))
        (front.length + 1) := by
  have hbyte : (UInt8.ofNat (n + 2 ^ 7)).toNat = n + 2 ^ 7 := by
    rw [UInt8.toNat_ofNat', Nat.mod_eq_of_lt (by omega)]
  have hlow : (n + 2 ^ 7) &&& 0x7f = n := by
    rw [show 0x7f = 2 ^ 7 - 1 from rfl, Nat.and_two_pow_sub_one_eq_mod, Nat.add_mod_right,
      Nat.mod_eq_of_lt hn]
  have hhigh : ∀ n < 2 ^ 7, (n + 2 ^ 7) &&& 0x80 ≠ 0 := by decide
  rw [readCompactU16From, List.getElem?_of_drop h]
  simp only [hbyte, hlow, hhigh n hn, if_false]
  rw [Nat.or_comm, ← Nat.shiftLeft_add_eq_or_of_lt hvalue, Nat.shiftLeft_eq, Nat.add_comm (n * _)]

theorem readCompactU16_compactU16 (hn : n < 2 ^ 16)
    (h : bytes.drop offset = compactU16 n ++ rest) :
    readCompactU16 bytes offset = some (n, (compactU16 n).length) := by
  have hmod := Nat.mod_lt n (Nat.two_pow_pos 7)
  have hsplit := Nat.mod_add_div n (2 ^ 7)
  unfold compactU16 at h ⊢
  unfold readCompactU16
  split at h
  · rename_i hone
    rw [if_pos hone]
    exact (readCompactU16From_last [] 2 h hone Nat.one_pos).trans (by simp)
  · rename_i hone
    rw [if_neg hone]
    split at h
    · rename_i htwo
      rw [if_pos htwo]
      refine (readCompactU16From_more [] 2 h hmod Nat.one_pos).trans ?_
      refine (readCompactU16From_last [_] 1 h (by omega) (by simpa using hmod)).trans ?_
      simp
      omega
    · rename_i htwo
      rw [if_neg htwo]
      have hmod' := Nat.mod_lt (n / 2 ^ 7) (Nat.two_pow_pos 7)
      refine (readCompactU16From_more [] 2 h hmod Nat.one_pos).trans ?_
      refine (readCompactU16From_more [_] 1 h hmod' (by simpa using hmod)).trans ?_
      refine (readCompactU16From_last [_, _] 0 h (by omega) (by simp; omega)).trans ?_
      simp
      omega

theorem readCompactU16From_end {front : List UInt8} (h : bytes.drop offset = front) (left : ℕ) :
    readCompactU16From bytes offset left value front.length = none := by
  have hnone : bytes[offset + front.length]? = none := by
    rw [← List.getElem?_drop, h]
    exact List.getElem?_eq_none le_rfl
  cases left with
  | zero => rfl
  | succ left => rw [readCompactU16From, hnone]

theorem readCompactU16_of_cut (h : bytes.EndsWithin offset (compactU16 n ++ rest))
    (hlt : bytes.length < offset + (compactU16 n).length) : readCompactU16 bytes offset = none := by
  have hpos := length_compactU16_pos n
  have hlength : (bytes.drop offset).length < (compactU16 n).length := by
    rw [List.length_drop]
    omega
  have htake := List.prefix_iff_eq_take.mp
    (List.prefix_of_prefix_length_le h.1 (List.prefix_append _ rest) hlength.le)
  have hmod := Nat.mod_lt n (Nat.two_pow_pos 7)
  generalize (bytes.drop offset).length = k at hlength htake
  unfold readCompactU16
  -- every byte but the last announces another one
  unfold compactU16 at hlength htake
  split at hlength
  · rename_i hone
    rw [if_pos hone] at htake
    obtain rfl : k = 0 := Nat.lt_one_iff.mp hlength
    exact readCompactU16From_end htake 3
  · rename_i hone
    rw [if_neg hone] at htake
    split at hlength
    · rename_i htwo
      rw [if_pos htwo] at htake
      obtain rfl | rfl : k = 0 ∨ k = 1 := by
        simp only [List.length_cons, List.length_nil] at hlength
        omega
      · exact readCompactU16From_end htake 3
      · exact (readCompactU16From_more [] 2 htake hmod Nat.one_pos).trans
          (readCompactU16From_end htake 2)
    · rename_i htwo
      rw [if_neg htwo] at htake
      have hmod' := Nat.mod_lt (n / 2 ^ 7) (Nat.two_pow_pos 7)
      obtain rfl | rfl | rfl : k = 0 ∨ k = 1 ∨ k = 2 := by
        simp only [List.length_cons, List.length_nil] at hlength
        omega
      · exact readCompactU16From_end htake 3
      · exact (readCompactU16From_more [] 2 htake hmod Nat.one_pos).trans
          (readCompactU16From_end htake 2)
      · refine (readCompactU16From_more [] 2 htake hmod Nat.one_pos).trans ?_
        refine (readCompactU16From_more [_] 1 htake hmod' (by simpa using hmod)).trans ?_
        exact readCompactU16From_end htake 1

theorem readCompactU16_endsWithin (hn : n < 2 ^ 16)
    (h : bytes.EndsWithin offset (compactU16 n ++ rest)) :
    readCompactU16 bytes offset = none ∨
      readCompactU16 bytes offset = some (n, (compactU16 n).length) ∧
        bytes.EndsWithin (offset + (compactU16 n).length) rest := by
  rcases Nat.lt_or_ge bytes.length (offset + (compactU16 n).length) with hlt | hge
  · exact .inl (readCompactU16_of_cut h hlt)
  · obtain ⟨hdrop, hrest⟩ := h.past rfl hge
    exact .inr ⟨readCompactU16_compactU16 hn hdrop, hrest⟩

end Compact

section Reads

variable {bytes rest : List UInt8}

theorem readKeys_flatMap {keys : List (Bytes 32)} {offset : ℕ}
    (h : bytes.drop offset = keys.flatMap Bytes.toList ++ rest) (ho : offset ≤ bytes.length) :
    readKeys bytes keys.length offset =
      some (keys.map fun key => base58Encode key.toList, offset + keys.length * 32) := by
  induction keys generalizing offset with
  | nil => simp [readKeys]
  | cons key keys ih =>
    rw [List.flatMap_cons, List.append_assoc] at h
    obtain ⟨hdrop, hkey⟩ := List.past_of_drop (b := offset + 32) h ho (by rw [Bytes.length_toList])
    have hrest := ih hdrop hkey
    rw [List.length_cons, readKeys, if_neg (by omega), h, List.take_left' (Bytes.length_toList _),
      hrest]
    simp only [Option.pure_def, Option.bind_eq_bind, Option.bind_some, List.map_cons]
    congr 2
    omega

def addIndex (indexes : List ℕ) (ix : WireInstruction) : List ℕ :=
  if indexes.contains ix.programIdIndex.toNat then indexes
  else indexes ++ [ix.programIdIndex.toNat]

theorem readPrograms_flatMap {instructions : List WireInstruction} {offset : ℕ}
    (h : bytes.drop offset = instructions.flatMap WireInstruction.bytes ++ rest)
    (ho : offset ≤ bytes.length) (indexes : List ℕ) :
    readPrograms bytes instructions.length offset indexes =
      some (instructions.foldl addIndex indexes) := by
  induction instructions generalizing offset indexes with
  | nil => rfl
  | cons ix instructions ih =>
    set more := instructions.flatMap WireInstruction.bytes ++ rest with hmore
    have h0 : bytes.drop offset = [ix.programIdIndex] ++ (compactU16 ix.accounts.length ++
        (ix.accounts ++ (compactU16 ix.data.length ++ (ix.data ++ more)))) := by
      simp only [h, hmore, List.flatMap_cons, WireInstruction.bytes, List.cons_append,
        List.append_assoc, List.nil_append]
    -- the offsets of the fields, each within the bytes
    have hindex : bytes[offset]? = some ix.programIdIndex := by
      rw [← Nat.add_zero offset, ← List.getElem?_drop, h0]
      rfl
    obtain ⟨h1, hle1⟩ := List.past_of_drop (b := offset + 1) h0 ho rfl
    obtain ⟨h2, hle2⟩ := List.past_of_drop h1 hle1 rfl
    obtain ⟨h3, hle3⟩ := List.past_of_drop h2 hle2 rfl
    obtain ⟨h4, hle4⟩ := List.past_of_drop h3 hle3 rfl
    obtain ⟨h5, hle5⟩ := List.past_of_drop h4 hle4 rfl
    have hread := readCompactU16_compactU16 ix.accounts_lt h1
    have hread' := readCompactU16_compactU16 ix.data_lt h3
    rw [List.length_cons, readPrograms, hindex]
    simp only [Option.bind_eq_bind, Option.bind_some, hread, hread']
    rw [if_neg (Nat.not_lt.mpr hle5), ih h5 hle5]
    rfl

theorem readKeys_endsWithin {keys : List (Bytes 32)} {offset : ℕ}
    (h : bytes.EndsWithin offset (keys.flatMap Bytes.toList ++ rest)) :
    readKeys bytes keys.length offset = none ∨
      readKeys bytes keys.length offset =
          some (keys.map fun key => base58Encode key.toList, offset + keys.length * 32) ∧
        bytes.EndsWithin (offset + keys.length * 32) rest := by
  induction keys generalizing offset with
  | nil => exact .inr ⟨by simp [readKeys], by simpa using h⟩
  | cons key keys ih =>
    rw [List.flatMap_cons, List.append_assoc] at h
    rw [List.length_cons, readKeys]
    split
    · exact .inl rfl
    · rename_i hfits
      obtain ⟨hdrop, hrest⟩ := h.past (b := offset + 32) (by rw [Bytes.length_toList])
        (Nat.not_lt.mp hfits)
      have hoffset : offset + 32 + keys.length * 32 = offset + (keys.length + 1) * 32 := by omega
      rcases ih hrest with hnone | ⟨hsome, hrest⟩
      · exact .inl (by rw [hnone]; rfl)
      · rw [hoffset] at hsome hrest
        refine .inr ⟨?_, hrest⟩
        rw [hsome, hdrop, List.take_left' (Bytes.length_toList _)]
        rfl

theorem readPrograms_endsWithin {instructions : List WireInstruction} {offset : ℕ}
    (h : bytes.EndsWithin offset (instructions.flatMap WireInstruction.bytes))
    (indexes : List ℕ) : readPrograms bytes instructions.length offset indexes = none := by
  induction instructions generalizing offset indexes with
  | nil => exact absurd h List.EndsWithin.not_nil
  | cons ix instructions ih =>
    rw [List.flatMap_cons, WireInstruction.bytes, List.cons_append, List.append_assoc,
      List.append_assoc, List.append_assoc] at h
    rw [List.length_cons, readPrograms]
    rcases h.getElem? with hnone | ⟨hindex, h⟩
    · rw [hnone]
      rfl
    rw [hindex]
    simp only [Option.bind_eq_bind, Option.bind_some]
    rcases readCompactU16_endsWithin ix.accounts_lt h with hnone | ⟨haccounts, h⟩
    · rw [hnone]
      rfl
    have h := h.skip rfl (List.append_ne_nil_of_left_ne_nil
      (List.length_pos_iff.mp (length_compactU16_pos _)) _)
    simp only [haccounts, Option.bind_some]
    rcases readCompactU16_endsWithin ix.data_lt h with hnone | ⟨hdata, h⟩
    · rw [hnone]
      rfl
    simp only [hdata, Option.bind_some]
    split
    · rfl
    · rename_i hfits
      exact ih (h.past rfl (Nat.not_lt.mp hfits)).2 _

end Reads

theorem length_flatMap_toList {n : ℕ} (l : List (Bytes n)) :
    (l.flatMap Bytes.toList).length = l.length * n := by
  simp [List.length_flatMap]

namespace WireTransaction

variable (tx : WireTransaction)

theorem length_header : (tx.numRequiredSignatures :: tx.header.toList).length = 3 := by
  rw [List.length_cons, Bytes.length_toList]

theorem version_append_message_ne_nil : tx.version ++ tx.message ≠ [] :=
  List.append_ne_nil_of_right_ne_nil _ (List.cons_ne_nil _ _)

theorem body_ne_nil : tx.body ≠ [] :=
  List.append_ne_nil_of_left_ne_nil (List.length_pos_iff.mp (length_compactU16_pos _)) _

theorem exists_first : ∃ byte rest, tx.version ++ tx.message = byte :: rest ∧ ∀ offset,
    (if byte.toNat &&& 0x80 = 0 then offset else offset + 1) = offset + tx.version.length := by
  cases hversioned : tx.versioned with
  | false =>
    have hversion : tx.version = [] := by simp [version, hversioned]
    have hlow : ∀ n < 2 ^ 7, n &&& 0x80 = 0 := by decide
    rw [hversion]
    refine ⟨_, _, rfl, fun offset => ?_⟩
    rw [if_pos (hlow _ (UInt8.lt_iff_toNat_lt.mp (tx.required_lt hversioned)))]
    rfl
  | true =>
    have hversion : tx.version = [0x80] := by simp [version, hversioned]
    rw [hversion]
    exact ⟨_, _, rfl, fun offset => rfl⟩

theorem skip_header {bytes : List UInt8} {offset : ℕ}
    (h : bytes.EndsWithin offset (tx.version ++ tx.message)) :
    bytes.EndsWithin ((if (bytes[offset]?.getD 0).toNat &&& 0x80 = 0 then offset
      else offset + 1) + 3) tx.body := by
  rcases Nat.lt_or_ge offset bytes.length with hlt | hge
  · obtain ⟨byte, rest, hfirst, hskip⟩ := tx.exists_first
    have hbyte : bytes[offset]? = some byte := by
      rw [hfirst] at h
      rcases h.getElem? with hnone | ⟨hsome, -⟩
      · exact absurd hlt (Nat.not_lt.mpr (List.getElem?_eq_none_iff.mp hnone))
      · exact hsome
    rw [hbyte, Option.getD_some, hskip]
    have hmessage := h.skip rfl (List.cons_ne_nil _ _)
    exact hmessage.skip (by rw [tx.length_header]) tx.body_ne_nil
  · apply List.EndsWithin.of_length_le _ tx.body_ne_nil
    split <;> omega

end WireTransaction

/-! ## Whole transactions -/

/-- The programs of the instructions, as the parser collects them. -/
def WireTransaction.programTexts (tx : WireTransaction) : List String :=
  ((tx.instructions.foldl addIndex []).filterMap
    ((tx.keys.map fun key => base58Encode key.toList)[·]?)).filter (· ≠ "")

theorem decodeBytes_bytes (tx : WireTransaction) :
    decodeBytes tx.bytes = some {
      feePayer := (tx.keys.map fun key => base58Encode key.toList).headD ""
      accountKeys := tx.keys.map fun key => base58Encode key.toList
      programs := tx.programTexts.map fun id => (KNOWN_PROGRAMS.lookup id).getD id
      touchedPool := tx.programTexts.contains POOL_PROGRAM_ID_B58 } := by
  have hsignatures : 0 < tx.signatures.length := List.length_pos_iff.mpr tx.signed
  have hkeys : 0 < tx.keys.length := List.length_pos_iff.mpr tx.paid
  have hsigLen := length_compactU16_pos tx.signatures.length
  have hkeyLen := length_compactU16_pos tx.keys.length
  have h0 : tx.bytes.drop 0 = compactU16 tx.signatures.length ++
      (tx.signatures.flatMap Bytes.toList ++ (tx.version ++ (tx.message ++ tx.lookups))) := by
    simp only [List.drop_zero, WireTransaction.bytes, WireTransaction.parsed, List.append_assoc]
  have hsigs := readCompactU16_compactU16 tx.signatures_lt h0
  -- the offsets of the fields, each within the bytes
  obtain ⟨h1, hle1⟩ := List.past_of_drop h0 (Nat.zero_le _) (Nat.zero_add _).symm
  obtain ⟨h2, hle2⟩ := List.past_of_drop h1 hle1 (by rw [length_flatMap_toList])
  obtain ⟨byte, hbyte, hskip⟩ : ∃ byte, tx.bytes[(compactU16 tx.signatures.length).length +
      tx.signatures.length * 64]? = some byte ∧ ∀ offset,
        (if byte.toNat &&& 0x80 = 0 then offset else offset + 1) = offset + tx.version.length := by
    obtain ⟨byte, rest, hfirst, hskip⟩ := tx.exists_first
    refine ⟨byte, ?_, hskip⟩
    rw [← List.head?_drop, h2, ← List.append_assoc, hfirst]
    rfl
  obtain ⟨h3, hle3⟩ := List.past_of_drop h2 hle2 rfl
  rw [WireTransaction.message, List.append_assoc] at h3
  obtain ⟨h4, hle4⟩ := List.past_of_drop h3 hle3 (by rw [tx.length_header])
  rw [WireTransaction.body, List.append_assoc] at h4
  have hcount := readCompactU16_compactU16 tx.keys_lt h4
  obtain ⟨h5, hle5⟩ := List.past_of_drop h4 hle4 rfl
  rw [List.append_assoc] at h5
  have hread := readKeys_flatMap h5 hle5
  obtain ⟨h6, hle6⟩ := List.past_of_drop h5 hle5 (by rw [length_flatMap_toList])
  rw [List.append_assoc] at h6
  obtain ⟨h7, hle7⟩ := List.past_of_drop h6 hle6 (by rw [Bytes.length_toList])
  rw [List.append_assoc] at h7
  have hixs := readCompactU16_compactU16 tx.instructions_lt h7
  obtain ⟨h8, hle8⟩ := List.past_of_drop h7 hle7 rfl
  have hprograms := readPrograms_flatMap h8 hle8 []
  have hlong : ¬ tx.bytes.length < 1 + 64 + 3 + 1 + 32 + 32 := by omega
  rw [decodeBytes, if_neg hlong]
  simp only [hsigs, Option.bind_eq_bind, Option.bind_some, if_neg hsignatures.ne', hbyte,
    Option.getD_some, hskip, hcount, if_neg hkeys.ne', hread, if_neg (Nat.not_lt.mpr hle7), hixs,
    hprograms, Option.pure_def]
  rfl

theorem decodeBytes_endsWithin {tx : WireTransaction} {bytes : List UInt8}
    (h : bytes.EndsWithin 0 tx.parsed) : decodeBytes bytes = none := by
  have hkeys : tx.keys.length ≠ 0 := (List.length_pos_iff.mpr tx.paid).ne'
  have hsignatures : tx.signatures.length ≠ 0 := (List.length_pos_iff.mpr tx.signed).ne'
  have hcompact : ∀ (n : ℕ) (rest : List UInt8), compactU16 n ++ rest ≠ [] := fun n _ =>
    List.append_ne_nil_of_left_ne_nil (List.length_pos_iff.mp (length_compactU16_pos n)) _
  rw [WireTransaction.parsed] at h
  unfold decodeBytes
  split
  · rfl
  rcases readCompactU16_endsWithin tx.signatures_lt h with hnone | ⟨hsigs, h⟩
  · rw [hnone]
    rfl
  have h := h.skip rfl tx.version_append_message_ne_nil
  rw [length_flatMap_toList, Nat.zero_add] at h
  simp only [hsigs, Option.bind_eq_bind, Option.bind_some, if_neg hsignatures]
  generalize (compactU16 tx.signatures.length).length + tx.signatures.length * 64 = start at h ⊢
  have h := tx.skip_header h
  generalize (if (bytes[start]?.getD 0).toNat &&& 0x80 = 0 then start else start + 1) + 3 =
    offset at h ⊢
  rw [WireTransaction.body] at h
  rcases readCompactU16_endsWithin tx.keys_lt h with hnone | ⟨hcount, h⟩
  · rw [hnone]
    rfl
  simp only [hcount, Option.bind_some, if_neg hkeys]
  rcases readKeys_endsWithin h with hnone | ⟨hread, h⟩
  · rw [hnone]
    rfl
  simp only [hread, Option.bind_some]
  split
  · rfl
  have h := h.skip (by rw [Bytes.length_toList]) (hcompact _ _)
  rcases readCompactU16_endsWithin tx.instructions_lt h with hnone | ⟨hixs, h⟩
  · rw [hnone]
    rfl
  simp only [hixs, Option.bind_some, readPrograms_endsWithin h]
  rfl

/-! ## Programs -/

theorem foldl_addIndex (instructions : List WireInstruction) :
    instructions.foldl addIndex [] =
      (instructions.map fun ix => ix.programIdIndex.toNat).eraseDups := by
  rw [← List.foldl_insertNew_eq_eraseDups, List.foldl_map]
  rfl

theorem encodeKey_injective : Function.Injective fun key : Bytes 32 => base58Encode key.toList := by
  intro key key' h
  exact Bytes.ext (base58Encode_injective h)

theorem encodeKey_ne_empty (key : Bytes 32) : base58Encode key.toList ≠ "" := by
  intro h
  have hlength := length_le_length_base58Encode key.toList
  rw [h, Bytes.length_toList] at hlength
  exact absurd hlength (by decide)

theorem programTexts_eq {tx : WireTransaction} (hkeys : tx.keys.Nodup) :
    tx.programTexts = tx.programIds.eraseDups.map fun id => base58Encode id.toList := by
  have hkey : (fun i : ℕ => (tx.keys.map fun key => base58Encode key.toList)[i]?) =
      fun i => tx.keys[i]?.map fun key => base58Encode key.toList := by
    funext i
    exact List.getElem?_map
  have hids : tx.programIds =
      (tx.instructions.map fun ix => ix.programIdIndex.toNat).filterMap (tx.keys[·]?) := by
    rw [List.filterMap_map]
    rfl
  have hinjective : ∀ i ∈ tx.instructions.map (fun ix => ix.programIdIndex.toNat),
      ∀ j ∈ tx.instructions.map (fun ix => ix.programIdIndex.toNat),
      ∀ key, tx.keys[i]? = some key → tx.keys[j]? = some key → i = j := by
    intro i _ j _ key hi hj
    obtain ⟨hlt, -⟩ := List.getElem?_eq_some_iff.mp hi
    exact (List.getElem?_inj hlt hkeys).mp (hi.trans hj.symm)
  rw [WireTransaction.programTexts, foldl_addIndex, hkey, ← List.map_filterMap, hids,
    List.eraseDups_filterMap _ hinjective, List.filter_eq_self]
  intro text htext
  obtain ⟨key, -, rfl⟩ := List.mem_map.mp htext
  exact decide_eq_true (encodeKey_ne_empty key)

theorem contains_programTexts {tx : WireTransaction} (hkeys : tx.keys.Nodup) :
    tx.programTexts.contains POOL_PROGRAM_ID_B58 = decide (∃ ix ∈ tx.instructions,
      tx.keys[ix.programIdIndex.toNat]? = some Privacy.POOL_PROGRAM_ID) := by
  have hpool : POOL_PROGRAM_ID_B58 = base58Encode Privacy.POOL_PROGRAM_ID.toList := rfl
  rw [programTexts_eq hkeys, List.contains_eq_mem, hpool]
  congr 1
  rw [List.mem_map_of_injective encodeKey_injective, List.mem_eraseDups,
    WireTransaction.programIds, List.mem_filterMap]

/-- A transaction reads as its fee payer, its keys, the labels of its programs in the order of
their first use, and whether it calls the pool; cut short before the end of its last instruction
it reads as nothing. -/
theorem decodeTransaction_wire (tx : WireTransaction) (hkeys : tx.keys.Nodup) :
    decodeTransaction base64Decode (String.ofList (Base64.encode tx.bytes)) = some {
      feePayer := base58Encode (tx.keys.head tx.paid).toList
      accountKeys := tx.keys.map fun key => base58Encode key.toList
      programs := tx.programIds.eraseDups.map fun id =>
        (KNOWN_PROGRAMS.lookup (base58Encode id.toList)).getD (base58Encode id.toList)
      touchedPool := decide (∃ ix ∈ tx.instructions,
        tx.keys[ix.programIdIndex.toNat]? = some Privacy.POOL_PROGRAM_ID) } ∧
    ∀ front, front <+: tx.parsed → front ≠ tx.parsed →
      decodeTransaction base64Decode (String.ofList (Base64.encode front)) = none := by
  have hdecode : ∀ bytes, decodeTransaction base64Decode (String.ofList (Base64.encode bytes)) =
      decodeBytes bytes := by
    intro bytes
    rw [decodeTransaction, base64Decode, String.toList_ofList, Base64.decodeLenient_encode]
  have hpayer : (tx.keys.map fun key => base58Encode key.toList).headD "" =
      base58Encode (tx.keys.head tx.paid).toList := by
    rw [List.headD_eq_head?_getD, List.head?_map, List.head?_eq_some_head tx.paid]
    rfl
  constructor
  · rw [hdecode, decodeBytes_bytes, hpayer, contains_programTexts hkeys, programTexts_eq hkeys,
      List.map_map]
    rfl
  · intro front hfront hne
    rw [hdecode]
    apply decodeBytes_endsWithin
    refine ⟨hfront, lt_of_le_of_ne hfront.length_le fun hlength => ?_⟩
    exact hne (hfront.eq_of_length hlength)

namespace Sample

def poolCall : WireTransaction where
  signatures := [Bytes.replicate 64 7]
  versioned := true
  numRequiredSignatures := 1
  header := ⟨[0, 1], rfl⟩
  keys := [Bytes.replicate 32 9, Privacy.POOL_PROGRAM_ID]
  recentBlockhash := Bytes.replicate 32 1
  instructions := [⟨1, [0], [0, 0, 0, 0], by decide, by decide⟩]
  lookups := [0]
  signed := List.cons_ne_nil _ _
  paid := List.cons_ne_nil _ _
  signatures_lt := by decide
  required_lt := by decide
  keys_lt := by decide
  instructions_lt := by decide

end Sample

theorem poolCall_touches_pool :
    Sample.poolCall.keys.Nodup ∧
      (decodeTransaction base64Decode (String.ofList
        (Base64.encode Sample.poolCall.bytes))).map (·.touchedPool) = some true := by
  have hkeys : Sample.poolCall.keys.Nodup := by decide
  refine ⟨hkeys, ?_⟩
  rw [(decodeTransaction_wire Sample.poolCall hkeys).1, Option.map_some, Option.some_inj]
  decide

end Zul.Indexer
