import Mathlib.Data.Nat.Digits.Defs
import Zul.Lib.Base64

/-! # Reading transactions in the indexer

The indexer reads the fee payer, the static account keys and the invoked programs from a
transaction's wire bytes. Whatever does not read as a transaction is `none`.
-/

namespace Zul.Indexer

/-! ## Base 58 -/

def B58 : List Char := "123456789ABCDEFGHJKLMNPQRSTUVWXYZabcdefghijkmnopqrstuvwxyz".toList

/-- Multiply the digits by 256 and add a byte; what is carried out of them makes new ones. -/
def addByte (carry : ℕ) : List ℕ → List ℕ
  -- the loop that pushes `carry % 58` and divides until nothing is left
  | [] => Nat.digits 58 carry
  -- a digit is below 58 and a carry below 256, so no 32-bit operation overflows
  | digit :: digits =>
    (carry + digit * 256) % 58 :: addByte ((carry + digit * 256) / 58) digits

def base58Encode (bytes : List UInt8) : String :=
  let zeros := (bytes.takeWhile (· = 0)).length
  let digits := (bytes.drop zeros).foldl (fun digits byte => addByte byte.toNat digits) []
  String.ofList (List.replicate zeros '1' ++ digits.reverse.map fun digit => B58.getD digit '1')

/-! ## Programs -/

def POOL_PROGRAM_ID_B58 : String := base58Encode (0x05 :: 0x21 :: List.replicate 30 0)

def KNOWN_PROGRAMS : List (String × String) :=
  [("11111111111111111111111111111111", "system"),
    ("TokenkegQfeZyiNwAJbNbGKPFXCWuBvf9Ss623VQ5DA", "spl-token"),
    ("TokenzQdBNbLqP5VEhdkAS6EPFLC1PHnBqCXEpPxuEb", "spl-token-2022"),
    ("ATokenGPvbdGVxr1b2hvZbsiqW5xWH25efTNsLJA8knL", "associated-token-account"),
    ("MemoSq4gqABAXKb96qnH8TysNcWxMyWCqXgDLGmfcHr", "memo"),
    ("ComputeBudget111111111111111111111111111111", "compute-budget"),
    (POOL_PROGRAM_ID_B58, "shielded-pool")]

/-! ## Transactions -/

structure DecodedTx where
  feePayer : String
  accountKeys : List String
  programs : List String
  touchedPool : Bool

/-- The rest of a length of at most three bytes, seven bits each, the lowest first. -/
def readCompactU16From (bytes : List UInt8) (offset : ℕ) : (left value len : ℕ) → Option (ℕ × ℕ)
  | 0, _, _ => none
  | left + 1, value, len =>
    match bytes[offset + len]? with
    | none => none
    | some byte =>
      let value := value ||| ((byte.toNat &&& 0x7f) <<< (7 * len))
      if byte.toNat &&& 0x80 = 0 then some (value, len + 1)
      else readCompactU16From bytes offset left value (len + 1)

def readCompactU16 (bytes : List UInt8) (offset : ℕ) : Option (ℕ × ℕ) :=
  readCompactU16From bytes offset 3 0 0

def readKeys (bytes : List UInt8) : (count offset : ℕ) → Option (List String × ℕ)
  | 0, offset => some ([], offset)
  | count + 1, offset =>
    if bytes.length < offset + 32 then none
    else do
      let (keys, last) ← readKeys bytes count (offset + 32)
      return (base58Encode ((bytes.drop offset).take 32) :: keys, last)

/-- The program indices of the instructions, each once, in the order they are first met. -/
def readPrograms (bytes : List UInt8) : (count offset : ℕ) → List ℕ → Option (List ℕ)
  | 0, _, indexes => some indexes
  | count + 1, offset, indexes => do
    let programIdIndex ← bytes[offset]?
    let indexes := if indexes.contains programIdIndex.toNat then indexes
      else indexes ++ [programIdIndex.toNat]
    let offset := offset + 1
    let (accLen, accLenBytes) ← readCompactU16 bytes offset
    let offset := offset + accLenBytes + accLen
    let (dataLen, dataLenBytes) ← readCompactU16 bytes offset
    let offset := offset + dataLenBytes + dataLen
    if bytes.length < offset then none else readPrograms bytes count offset indexes

def decodeBytes (bytes : List UInt8) : Option DecodedTx :=
  if bytes.length < 1 + 64 + 3 + 1 + 32 + 32 then none
  else do
    let (sigCount, sigLenBytes) ← readCompactU16 bytes 0
    if sigCount = 0 then none
    let offset := sigLenBytes + sigCount * 64
    -- the high bit marks a versioned message
    let offset := if (bytes[offset]?.getD 0).toNat &&& 0x80 = 0 then offset else offset + 1
    let offset := offset + 3
    let (keyCount, keyLenBytes) ← readCompactU16 bytes offset
    if keyCount = 0 then none
    let (accountKeys, offset) ← readKeys bytes keyCount (offset + keyLenBytes)
    let offset := offset + 32
    if bytes.length < offset then none
    let (ixCount, ixLenBytes) ← readCompactU16 bytes offset
    let programIndexes ← readPrograms bytes ixCount (offset + ixLenBytes) []
    let programIds := (programIndexes.filterMap (accountKeys[·]?)).filter (· ≠ "")
    return {
      feePayer := accountKeys.headD ""
      accountKeys
      -- an id is longer than any name that every object inherits
      programs := programIds.map fun id => (KNOWN_PROGRAMS.lookup id).getD id
      touchedPool := programIds.contains POOL_PROGRAM_ID_B58 }

def base64Decode (s : String) : List UInt8 := Base64.decodeLenient s.toList

def decodeTransaction (base64Decode : String → List UInt8) (base64 : String) : Option DecodedTx :=
  decodeBytes (base64Decode base64)

end Zul.Indexer
