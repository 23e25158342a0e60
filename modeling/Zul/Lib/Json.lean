import Mathlib.Data.Nat.Basic
import Mathlib.Tactic.Common

/-! # Integer texts and JSON

Integers as decimal texts, and JSON values whose numbers are integers with the text that writes
them without blanks and a parser that reads it back. The parser skips blanks between tokens and
has the escapes of characters outside the surrogates; it takes the length of the text as fuel.
-/

namespace Json

/-! ## Decimal texts -/

def natText (n : ℕ) : List Char := Nat.toDigits 10 n

/-- The text of an integer, without leading zeros. -/
def intText : ℤ → List Char
  | .ofNat n => natText n
  | .negSucc n => '-' :: natText (n + 1)

/-- A run of digits in front of a text, and what follows it. -/
def parseNat (text : List Char) : Option (ℕ × List Char) :=
  let digits := text.takeWhile Char.isDigit
  if digits = [] then none
  else some (Nat.ofDigitChars 10 digits 0, text.dropWhile Char.isDigit)

def parseInt : List Char → Option (ℤ × List Char)
  | [] => none
  | c :: text =>
    if c = '-' then (parseNat text).map fun (n, rest) => (-(n : ℤ), rest)
    else (parseNat (c :: text)).map fun (n, rest) => ((n : ℤ), rest)

/-- The integer a whole text denotes. -/
def readInt (text : List Char) : Option ℤ :=
  match parseInt text with
  | some (n, []) => some n
  | _ => none

/-- What may follow a number: anything but a further digit. -/
def Ends (rest : List Char) : Prop := ∀ c ∈ rest.head?, c.isDigit = false

theorem ends_nil : Ends [] := nofun

theorem ends_cons {c : Char} (h : c.isDigit = false) (rest : List Char) : Ends (c :: rest) := by
  rintro _ ⟨⟩
  exact h

theorem isDigit_natText {n : ℕ} {c : Char} (h : c ∈ natText n) : c.isDigit = true :=
  Nat.isDigit_of_mem_toDigits (by decide) (by decide) h

theorem natText_ne_nil (n : ℕ) : natText n ≠ [] := Nat.toDigits_ne_nil

theorem exists_natText (n : ℕ) :
    ∃ c digits, natText n = c :: digits ∧ c.isDigit = true ∧ c ≠ '-' := by
  cases hdigits : natText n with
  | nil => exact absurd hdigits (natText_ne_nil n)
  | cons c digits =>
    have hdigit : c.isDigit = true := isDigit_natText (hdigits ▸ List.mem_cons_self)
    refine ⟨c, digits, rfl, hdigit, ?_⟩
    rintro rfl
    cases hdigit

theorem parseNat_natText (n : ℕ) {rest : List Char} (hrest : Ends rest) :
    parseNat (natText n ++ rest) = some (n, rest) := by
  have hdigits : ∀ c ∈ natText n, c.isDigit = true := fun c => isDigit_natText
  have htake : rest.takeWhile Char.isDigit = [] := by
    cases rest with
    | nil => rfl
    | cons c rest => rw [List.takeWhile_cons, hrest c rfl]; rfl
  have hdrop : rest.dropWhile Char.isDigit = rest := by
    cases rest with
    | nil => rfl
    | cons c rest => rw [List.dropWhile_cons, hrest c rfl]; rfl
  have hvalue : Nat.ofDigitChars 10 (natText n) 0 = n :=
    Nat.ofDigitChars_toDigits (b := 10) (by decide) (by decide)
  simp only [parseNat, List.takeWhile_append_of_pos hdigits, List.dropWhile_append_of_pos hdigits,
    htake, hdrop, List.append_nil, natText_ne_nil, if_false, hvalue]

theorem parseInt_natText (n : ℕ) {rest : List Char} (hrest : Ends rest) :
    parseInt (natText n ++ rest) = some ((n : ℤ), rest) := by
  have hparse := parseNat_natText n hrest
  obtain ⟨c, digits, hdigits, -, hc⟩ := exists_natText n
  rw [hdigits] at hparse ⊢
  rw [List.cons_append, parseInt, if_neg hc, ← List.cons_append, hparse]
  rfl

theorem parseInt_intText (n : ℤ) {rest : List Char} (hrest : Ends rest) :
    parseInt (intText n ++ rest) = some (n, rest) := by
  cases n with
  | ofNat n => exact parseInt_natText n hrest
  | negSucc n =>
    rw [intText, List.cons_append, parseInt, if_pos rfl, parseNat_natText _ hrest]
    rfl

theorem readInt_intText (n : ℤ) : readInt (intText n) = some n := by
  rw [readInt, ← List.append_nil (intText n), parseInt_intText n ends_nil]

/-- A zero in front of further digits, which a JSON number may not have. -/
def leadingZero : List Char → Bool
  | c :: d :: _ => c = '0' && d.isDigit
  | _ => false

theorem head?_natText {n : ℕ} (hn : 0 < n) : (natText n).head? ≠ some '0' := by
  induction n using Nat.strong_induction_on with
  | _ n ih =>
    by_cases hlt : n < 10
    · have hdigit : ∀ m < 10, 0 < m → some m.digitChar ≠ some '0' := by decide
      rw [natText, Nat.toDigits_of_lt_base hlt]
      exact hdigit n hlt hn
    · have hge : 10 ≤ n := Nat.not_lt.mp hlt
      have hrest := ih (n / 10) (Nat.div_lt_self hn (by decide)) (Nat.div_pos hge (by decide))
      rw [natText, Nat.toDigits_of_base_le (by decide) hge]
      rw [natText] at hrest
      rwa [List.head?_append, Option.or_of_isSome (by simp [Nat.toDigits_ne_nil])]

theorem leadingZero_natText (n : ℕ) {rest : List Char} (hrest : Ends rest) :
    leadingZero (natText n ++ rest) = false := by
  cases n with
  | zero =>
    cases rest with
    | nil => rfl
    | cons c rest => exact hrest c rfl
  | succ n =>
    have hhead := head?_natText (Nat.succ_pos n)
    obtain ⟨c, digits, hdigits, -, -⟩ := exists_natText (n + 1)
    rw [hdigits] at hhead ⊢
    have hc : c ≠ '0' := fun h => hhead (congrArg some h)
    cases htail : digits ++ rest with
    | nil => rw [List.cons_append, htail]; rfl
    | cons d tail => simp [htail, leadingZero, hc]

/-! ## Strings -/

/-- The letter that stands for a character behind a backslash, if it has one. -/
def shortEscape (c : Char) : Option Char :=
  if c = '\x22' then some '\x22'
  else if c = '\x5c' then some '\x5c'
  else if c = '\x08' then some 'b'
  else if c = '\x0c' then some 'f'
  else if c = '\n' then some 'n'
  else if c = '\r' then some 'r'
  else if c = '\t' then some 't'
  else none

/-- The character a letter behind a backslash stands for. -/
def unescape (c : Char) : Option Char :=
  if c = '\x22' ∨ c = '\x5c' ∨ c = '/' then some c
  else if c = 'b' then some '\x08'
  else if c = 'f' then some '\x0c'
  else if c = 'n' then some '\n'
  else if c = 'r' then some '\r'
  else if c = 't' then some '\t'
  else none

def escape (c : Char) : List Char :=
  match shortEscape c with
  | some letter => ['\x5c', letter]
  | none =>
    if c.toNat < 32 then
      ['\x5c', 'u', '0', '0', Nat.digitChar (c.toNat / 16), Nat.digitChar (c.toNat % 16)]
    else [c]

def hexValue (c : Char) : Option ℕ :=
  if c.isDigit then some (c.toNat - '0'.toNat)
  else if 'a' ≤ c ∧ c ≤ 'f' then some (c.toNat - 'a'.toNat + 10)
  else if 'A' ≤ c ∧ c ≤ 'F' then some (c.toNat - 'A'.toNat + 10)
  else none

/-- The character of four hexadecimal digits; the halves of surrogate pairs are none. -/
def hexChar (a b c d : Char) : Option Char := do
  let n := (((← hexValue a) * 16 + (← hexValue b)) * 16 + (← hexValue c)) * 16 + (← hexValue d)
  if n.isValidChar then some (Char.ofNat n) else none

/-- The rest of a string literal behind its opening quote, and what follows it. -/
def parseChars : List Char → Option (List Char × List Char)
  | [] => none
  | c :: text =>
    if c = '\x22' then some ([], text)
    else if c = '\x5c' then
      match text with
      | 'u' :: x :: y :: z :: w :: text =>
        (hexChar x y z w).bind fun c => (parseChars text).map (Prod.map (c :: ·) id)
      | letter :: text =>
        (unescape letter).bind fun c => (parseChars text).map (Prod.map (c :: ·) id)
      | [] => none
    else if c.toNat < 32 then none
    else (parseChars text).map (Prod.map (c :: ·) id)

def stringText (s : String) : List Char := '\x22' :: s.toList.flatMap escape ++ ['\x22']

theorem unescape_shortEscape {c letter : Char} (h : shortEscape c = some letter) :
    unescape letter = some c ∧ letter ≠ 'u' := by
  unfold shortEscape at h
  split_ifs at h with h1 h2 h3 h4 h5 h6 h7 <;> cases h <;> subst c <;> decide

theorem hexChar_control {n : ℕ} (hn : n < 32) :
    hexChar '0' '0' (Nat.digitChar (n / 16)) (Nat.digitChar (n % 16)) = some (Char.ofNat n) := by
  revert n
  decide

theorem parseChars_escape (c : Char) (text : List Char) :
    parseChars (escape c ++ text) = (parseChars text).map (Prod.map (c :: ·) id) := by
  have hslash : '\x5c' ≠ '\x22' := by decide
  cases hshort : shortEscape c with
  | some letter =>
    obtain ⟨hletter, hu⟩ := unescape_shortEscape hshort
    rw [escape, hshort, List.cons_append, List.singleton_append, parseChars, if_neg hslash,
      if_pos rfl, hletter, Option.bind_some]
    rintro _ _ _ _ _ rfl
    exact absurd rfl hu
  | none =>
    rw [escape, hshort]
    dsimp only
    split
    · rename_i hcontrol
      simp only [List.cons_append, List.nil_append]
      rw [parseChars, if_neg hslash, if_pos rfl, hexChar_control hcontrol, Option.bind_some,
        Char.ofNat_toNat]
    · rename_i hplain
      have hquote : c ≠ '\x22' := by
        rintro rfl
        cases hshort
      have hback : c ≠ '\x5c' := by
        rintro rfl
        cases hshort
      rw [List.singleton_append, parseChars.eq_def (c :: text)]
      dsimp only
      rw [if_neg hquote, if_neg hback, if_neg hplain]

theorem parseChars_flatMap_escape (s rest : List Char) :
    parseChars (s.flatMap escape ++ '\x22' :: rest) = some (s, rest) := by
  induction s with
  | nil => rw [List.flatMap_nil, List.nil_append, parseChars.eq_def]; rfl
  | cons c s ih => rw [List.flatMap_cons, List.append_assoc, parseChars_escape, ih]; rfl

/-! ## Values -/

/-- JSON values; numbers are integers. -/
inductive Value
  | null
  | bool (b : Bool)
  | number (n : ℤ)
  | string (s : String)
  | array (items : List Value)
  | object (fields : List (String × Value))

mutual

/-- The text of a value, without blanks. -/
def Value.text : Value → List Char
  | .null => ['n', 'u', 'l', 'l']
  | .bool true => ['t', 'r', 'u', 'e']
  | .bool false => ['f', 'a', 'l', 's', 'e']
  | .number n => intText n
  | .string s => stringText s
  | .array [] => ['[', ']']
  | .array (v :: items) => '[' :: (v.text ++ itemsText items)
  | .object [] => ['\x7b', '\x7d']
  | .object ((k, v) :: fields) =>
    '\x7b' :: (stringText k ++ ':' :: (v.text ++ fieldsText fields))

def itemsText : List Value → List Char
  | [] => [']']
  | v :: items => ',' :: (v.text ++ itemsText items)

def fieldsText : List (String × Value) → List Char
  | [] => ['\x7d']
  | (k, v) :: fields => ',' :: (stringText k ++ ':' :: (v.text ++ fieldsText fields))

end

def isBlank (c : Char) : Bool := c = ' ' || c = '\t' || c = '\n' || c = '\r'

def skipBlanks (text : List Char) : List Char := text.dropWhile isBlank

/-- What follows an expected word. -/
def expect : List Char → List Char → Option (List Char)
  | [], text => some text
  | _ :: _, [] => none
  | c :: word, d :: text => if c = d then expect word text else none

def parseString (text : List Char) : Option (String × List Char) :=
  match skipBlanks text with
  | [] => none
  | c :: text => if c = '\x22' then (parseChars text).map (Prod.map String.ofList id) else none

def parseNumber (text : List Char) : Option (ℤ × List Char) :=
  if leadingZero (text.dropWhile (· = '-')) then none else parseInt text

mutual

def parseValue : ℕ → List Char → Option (Value × List Char)
  | 0, _ => none
  | fuel + 1, text =>
    match skipBlanks text with
    | [] => none
    | c :: text =>
      if c = 'n' then (expect ['u', 'l', 'l'] text).map (.null, ·)
      else if c = 't' then (expect ['r', 'u', 'e'] text).map (.bool true, ·)
      else if c = 'f' then (expect ['a', 'l', 's', 'e'] text).map (.bool false, ·)
      else if c = '\x22' then (parseChars text).map fun (s, rest) => (.string (.ofList s), rest)
      else if c = '[' then
        if (skipBlanks text).head? = some ']' then some (.array [], (skipBlanks text).tail)
        else do
          let (v, text) ← parseValue fuel text
          let (items, text) ← parseItems fuel text
          return (.array (v :: items), text)
      else if c = '\x7b' then
        if (skipBlanks text).head? = some '\x7d' then some (.object [], (skipBlanks text).tail)
        else do
          let (k, text) ← parseString text
          let text ← expect [':'] (skipBlanks text)
          let (v, text) ← parseValue fuel text
          let (fields, text) ← parseFields fuel text
          return (.object ((k, v) :: fields), text)
      else (parseNumber (c :: text)).map fun (n, rest) => (.number n, rest)

def parseItems : ℕ → List Char → Option (List Value × List Char)
  | 0, _ => none
  | fuel + 1, text =>
    match skipBlanks text with
    | [] => none
    | c :: text =>
      if c = ']' then some ([], text)
      else if c = ',' then do
        let (v, text) ← parseValue fuel text
        let (items, text) ← parseItems fuel text
        return (v :: items, text)
      else none

def parseFields : ℕ → List Char → Option (List (String × Value) × List Char)
  | 0, _ => none
  | fuel + 1, text =>
    match skipBlanks text with
    | [] => none
    | c :: text =>
      if c = '\x7d' then some ([], text)
      else if c = ',' then do
        let (k, text) ← parseString text
        let text ← expect [':'] (skipBlanks text)
        let (v, text) ← parseValue fuel text
        let (fields, text) ← parseFields fuel text
        return ((k, v) :: fields, text)
      else none

end

/-- The property of an object: the last field of the name. -/
def Value.field? (name : String) : Value → Option Value
  | .object fields => (fields.reverse.find? (·.1 = name)).map (·.2)
  | _ => none

/-- The value of a whole text. -/
def parse (text : List Char) : Option Value :=
  match parseValue (text.length + 1) text with
  | some (v, rest) => if skipBlanks rest = [] then some v else none
  | none => none

theorem skipBlanks_cons {c : Char} (h : isBlank c = false) (text : List Char) :
    skipBlanks (c :: text) = c :: text := by
  rw [skipBlanks, List.dropWhile_cons, h]
  rfl

theorem parseString_text (s : String) (rest : List Char) :
    parseString (stringText s ++ rest) = some (s, rest) := by
  rw [stringText, List.cons_append, List.cons_append, List.append_assoc, parseString,
    skipBlanks_cons (by decide)]
  simp [parseChars_flatMap_escape]

theorem isDigit_or_minus_intText (n : ℤ) :
    ∃ c digits, intText n = c :: digits ∧ (c = '-' ∨ c.isDigit = true) := by
  cases n with
  | ofNat n =>
    obtain ⟨c, digits, hdigits, hdigit, -⟩ := exists_natText n
    exact ⟨c, digits, hdigits, .inr hdigit⟩
  | negSucc n => exact ⟨'-', _, rfl, .inl rfl⟩

theorem dropWhile_minus_natText (n : ℕ) (rest : List Char) :
    (natText n ++ rest).dropWhile (· = '-') = natText n ++ rest := by
  obtain ⟨c, digits, hdigits, -, hc⟩ := exists_natText n
  rw [hdigits, List.cons_append, List.dropWhile_cons, if_neg (by simpa using hc)]

theorem parseNumber_intText (n : ℤ) {rest : List Char} (hrest : Ends rest) :
    parseNumber (intText n ++ rest) = some (n, rest) := by
  have hzero : leadingZero ((intText n ++ rest).dropWhile (· = '-')) = false := by
    cases n with
    | ofNat n =>
      rw [intText, dropWhile_minus_natText]
      exact leadingZero_natText n hrest
    | negSucc n =>
      rw [intText, List.cons_append, List.dropWhile_cons_of_pos (by simp), dropWhile_minus_natText]
      exact leadingZero_natText _ hrest
  rw [parseNumber, hzero, if_neg Bool.false_ne_true, parseInt_intText n hrest]

theorem parseValue_number (n : ℤ) (fuel : ℕ) {rest : List Char} (hrest : Ends rest) :
    parseValue (fuel + 1) (intText n ++ rest) = some (.number n, rest) := by
  have hparse := parseNumber_intText n hrest
  obtain ⟨c, digits, htext, hc⟩ := isDigit_or_minus_intText n
  have hne : ∀ d : Char, d ≠ '-' → d.isDigit = false → c ≠ d := by
    rintro d hminus hdigit rfl
    rcases hc with hc | hc
    · exact hminus hc
    · cases hdigit.symm.trans hc
  have hblank : isBlank c = false := by
    simp [isBlank, hne]
  rw [htext, List.cons_append] at hparse ⊢
  simp only [parseValue, skipBlanks_cons hblank, hparse]
  rw [if_neg (hne _ (by decide) (by decide)), if_neg (hne _ (by decide) (by decide)),
    if_neg (hne _ (by decide) (by decide)), if_neg (hne _ (by decide) (by decide)),
    if_neg (hne _ (by decide) (by decide)), if_neg (hne _ (by decide) (by decide))]
  rfl

theorem head_text (v : Value) :
    ∃ c tail, v.text = c :: tail ∧ isBlank c = false ∧ c ≠ ']' := by
  cases v with
  | null => exact ⟨_, _, by rw [Value.text], by decide, by decide⟩
  | bool b => cases b <;> exact ⟨_, _, by rw [Value.text], by decide, by decide⟩
  | number n =>
    obtain ⟨c, digits, htext, hc⟩ := isDigit_or_minus_intText n
    refine ⟨c, digits, by rw [Value.text, htext], ?_⟩
    rcases hc with rfl | hc
    · decide
    · constructor
      · rw [isBlank]
        by_contra hblank
        simp only [Bool.or_eq_false_iff, decide_eq_false_iff_not, not_and_or, not_not] at hblank
        rcases hblank with ((rfl | rfl) | rfl) | rfl <;> cases hc
      · rintro rfl
        cases hc
  | string s => exact ⟨_, _, by rw [Value.text, stringText, List.cons_append], by decide, by decide⟩
  | array items => cases items <;> exact ⟨_, _, by rw [Value.text], by decide, by decide⟩
  | object fields => cases fields <;> exact ⟨_, _, by rw [Value.text], by decide, by decide⟩

theorem ends_itemsText (items : List Value) (rest : List Char) :
    Ends (itemsText items ++ rest) := by
  cases items <;> exact ends_cons (by decide) _

theorem ends_fieldsText (fields : List (String × Value)) (rest : List Char) :
    Ends (fieldsText fields ++ rest) := by
  rcases fields with _ | ⟨⟨k, v⟩, fields⟩ <;> exact ends_cons (by decide) _

theorem head_skipBlanks_text (v : Value) (text : List Char) :
    (skipBlanks (v.text ++ text)).head? ≠ some ']' := by
  obtain ⟨c, tail, htext, hblank, hclose⟩ := head_text v
  rw [htext, List.cons_append, skipBlanks_cons hblank]
  exact fun h => hclose (Option.some.inj h)

theorem head_skipBlanks_stringText (s : String) (text : List Char) :
    (skipBlanks (stringText s ++ text)).head? ≠ some '\x7d' := by
  rw [stringText, List.cons_append, List.cons_append, skipBlanks_cons (by decide)]
  simp

theorem isBlank_separators : isBlank 'n' = false ∧ isBlank 't' = false ∧ isBlank 'f' = false ∧
    isBlank '\x22' = false ∧ isBlank '[' = false ∧ isBlank ']' = false ∧ isBlank '\x7b' = false ∧
    isBlank '\x7d' = false ∧ isBlank ',' = false ∧ isBlank ':' = false := by
  decide

mutual

theorem parseValue_text : ∀ (v : Value) {fuel : ℕ} {rest : List Char}, v.text.length < fuel →
    Ends rest → parseValue fuel (v.text ++ rest) = some (v, rest)
  | _, 0, _, h, _ => absurd h (Nat.not_lt_zero _)
  | .null, _ + 1, _, _, _ => by
    simp [Value.text, parseValue, skipBlanks_cons, isBlank_separators, expect]
  | .bool true, _ + 1, _, _, _ => by
    simp [Value.text, parseValue, skipBlanks_cons, isBlank_separators, expect]
  | .bool false, _ + 1, _, _, _ => by
    simp [Value.text, parseValue, skipBlanks_cons, isBlank_separators, expect]
  | .number n, fuel + 1, _, _, hrest => by
    rw [Value.text]
    exact parseValue_number n fuel hrest
  | .string s, _ + 1, rest, _, _ => by
    simp [Value.text, stringText, parseValue, skipBlanks_cons, isBlank_separators,
      parseChars_flatMap_escape]
  | .array [], _ + 1, _, _, _ => by
    simp [Value.text, parseValue, skipBlanks_cons, isBlank_separators]
  | .array (v :: items), fuel + 1, rest, h, _ => by
    rw [Value.text, List.length_cons, List.length_append] at h
    have hv := @parseValue_text v fuel _ (by omega) (ends_itemsText items rest)
    have hitems := @parseItems_text items fuel rest (by omega)
    simp [Value.text, parseValue, skipBlanks_cons, isBlank_separators, head_skipBlanks_text, hv,
      hitems]
  | .object [], _ + 1, _, _, _ => by
    simp [Value.text, parseValue, skipBlanks_cons, isBlank_separators]
  | .object ((k, v) :: fields), fuel + 1, rest, h, _ => by
    rw [Value.text, List.length_cons, List.length_append, List.length_cons, List.length_append] at h
    have hv := @parseValue_text v fuel _ (by omega) (ends_fieldsText fields rest)
    have hfields := @parseFields_text fields fuel rest (by omega)
    simp [Value.text, parseValue, skipBlanks_cons, isBlank_separators, head_skipBlanks_stringText,
      parseString_text, expect, hv, hfields]

theorem parseItems_text : ∀ (items : List Value) {fuel : ℕ} {rest : List Char},
    (itemsText items).length < fuel →
      parseItems fuel (itemsText items ++ rest) = some (items, rest)
  | _, 0, _, h => absurd h (Nat.not_lt_zero _)
  | [], _ + 1, _, _ => by
    simp [itemsText, parseItems, skipBlanks_cons, isBlank_separators]
  | v :: items, fuel + 1, rest, h => by
    rw [itemsText, List.length_cons, List.length_append] at h
    have hv := @parseValue_text v fuel _ (by omega) (ends_itemsText items rest)
    have hitems := @parseItems_text items fuel rest (by omega)
    simp [itemsText, parseItems, skipBlanks_cons, isBlank_separators, hv, hitems]

theorem parseFields_text : ∀ (fields : List (String × Value)) {fuel : ℕ} {rest : List Char},
    (fieldsText fields).length < fuel →
      parseFields fuel (fieldsText fields ++ rest) = some (fields, rest)
  | _, 0, _, h => absurd h (Nat.not_lt_zero _)
  | [], _ + 1, _, _ => by
    simp [fieldsText, parseFields, skipBlanks_cons, isBlank_separators]
  | (k, v) :: fields, fuel + 1, rest, h => by
    rw [fieldsText, List.length_cons, List.length_append, List.length_cons,
      List.length_append] at h
    have hv := @parseValue_text v fuel _ (by omega) (ends_fieldsText fields rest)
    have hfields := @parseFields_text fields fuel rest (by omega)
    simp [fieldsText, parseFields, skipBlanks_cons, isBlank_separators, parseString_text, expect,
      hv, hfields]

end

/-- A value is read back from its text. -/
theorem parse_text (v : Value) : parse v.text = some v := by
  have h := @parseValue_text v (v.text.length + 1) [] (Nat.lt_succ_self _) ends_nil
  rw [List.append_nil] at h
  rw [parse, h]
  rfl

end Json
