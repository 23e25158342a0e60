import Zul.Lib.Base64
import Zul.Primitives.Basic

/-! # Deposits on L1

The settlement program logs a `Deposited` event for every deposit; the node's L1 client finds
deposits by scanning the logs of the transactions that touched the bridge's config account. Any
invoked program may write any line to a transaction's log.
-/

namespace Zul.Bridge

structure DepositEvent where
  l1Signature : String
  /-- `none` is native SOL. -/
  mint : Option Pubkey
  decimals : UInt8
  amount : UInt64
  l2Recipient : Pubkey
  deriving DecidableEq

/-! ## Parsing -/

/-- `discriminator("event", "Deposited")`, the first bytes of `sha256("event:Deposited")`. -/
def DEPOSITED_DISCRIMINATOR : List UInt8 := [111, 141, 26, 45, 161, 35, 100, 57]

/-- Mint and decimals at the end of a payload; a missing or malformed tail is native. -/
def parseTail (bytes : List UInt8) : Option (Option Pubkey × UInt8) :=
  match (bytes[80]? : Option UInt8) with
  | none => some (none, 9)
  | some 0 => some (none, bytes[81]?.getD 9)
  | some 1 =>
    if 114 ≤ bytes.length then
      (Bytes.ofList? 32 ((bytes.drop 81).take 32)).map fun mint => (some mint, bytes[113]?.getD 9)
    else some (none, 9)
  | some _ => some (none, 9)

/-- Decode a `Deposited` event from a payload. -/
def parseDepositedEvent (bytes : List UInt8) (signature : String) : Option DepositEvent := do
  guard (80 ≤ bytes.length ∧ bytes.take 8 = DEPOSITED_DISCRIMINATOR)
  let amount := LittleEndian.toU64 ((bytes.drop 40).take 8)
  let l2Recipient ← Bytes.ofList? 32 ((bytes.drop 48).take 32)
  let (mint, decimals) ← parseTail bytes
  return ⟨signature, mint, decimals, amount, l2Recipient⟩

/-- White space in the sense of `char::is_whitespace`. -/
def isWhitespace (c : Char) : Bool :=
  (9 ≤ c.toNat && c.toNat ≤ 13) || c.toNat ∈ [0x20, 0x85, 0xa0, 0x1680, 0x2028, 0x2029, 0x202f,
    0x205f, 0x3000] || (0x2000 ≤ c.toNat && c.toNat ≤ 0x200a)

def trim (text : List Char) : List Char :=
  ((text.dropWhile isWhitespace).reverse.dropWhile isWhitespace).reverse

/-- `Program data: `, what the runtime puts before a logged payload. -/
def PROGRAM_DATA : List Char :=
  ['P', 'r', 'o', 'g', 'r', 'a', 'm', ' ', 'd', 'a', 't', 'a', ':', ' ']

/-- `strip_prefix("Program data: ")`. -/
def stripProgramData (text : List Char) : Option (List Char) :=
  if PROGRAM_DATA.isPrefixOf text then some (text.drop PROGRAM_DATA.length) else none

def depositInLine (signature : String) (text : List Char) : Option DepositEvent := do
  let encoded ← stripProgramData text
  let bytes ← Base64.decode (trim encoded)
  parseDepositedEvent bytes signature

/-! ## The settlement program's events and the L1 history -/

/-- The `Deposited` event of `deposit_sol` and `deposit_spl`. -/
structure Deposited where
  depositor : Pubkey
  amount : UInt64
  l2Recipient : Pubkey
  mint : Option Pubkey
  decimals : UInt8
  deriving DecidableEq

namespace Deposited

def payload (d : Deposited) : List UInt8 :=
  DEPOSITED_DISCRIMINATOR ++ d.depositor.toList ++ LittleEndian.u64 d.amount ++
    d.l2Recipient.toList ++
    (match d.mint with
      | none => [0]
      | some mint => 1 :: mint.toList) ++
    [d.decimals]

/-- The log line `emit!` writes. -/
def line (d : Deposited) : List Char := PROGRAM_DATA ++ Base64.encode d.payload

def toEvent (d : Deposited) (signature : String) : DepositEvent :=
  ⟨signature, d.mint, d.decimals, d.amount, d.l2Recipient⟩

end Deposited

/-- One entry of a transaction's log: a deposit of the settlement program, or a line of any
program. -/
inductive LogEntry
  | deposited (event : Deposited)
  | line (program : Pubkey) (text : List Char)
  deriving DecidableEq

def LogEntry.text : LogEntry → List Char
  | .deposited event => event.line
  | .line _ text => text

/-- An L1 transaction that touched the config account. -/
structure L1Transaction where
  signature : String
  failed : Bool
  log : List LogEntry
  deriving DecidableEq

def L1Transaction.emitted (tx : L1Transaction) : List DepositEvent :=
  tx.log.filterMap fun
    | .deposited event => some (event.toEvent tx.signature)
    | .line _ _ => none

/-! ## The client -/

/-- Scan a transaction's log for the first line that parses as a deposit. -/
def depositInTx (signature : String) (log : List LogEntry) : Option DepositEvent :=
  log.findSome? fun entry => depositInLine signature entry.text

/-- The RPC's answer for an address: newest first, at most `limit` entries, those after the
cursor only. -/
def getSignaturesForAddress (history : List L1Transaction) (limit : ℕ) (after : Option String) :
    List L1Transaction :=
  (history.reverse.takeWhile fun tx => some tx.signature ≠ after).take limit

/-- The log the RPC returns for a signature; empty when it knows no such transaction. -/
def getTransactionLog (history : List L1Transaction) (signature : String) : List LogEntry :=
  match history.find? fun tx => tx.signature = signature with
  | some tx => tx.log
  | none => []

/-- Deposits after the cursor, oldest first; failed transactions are skipped. -/
def fetchDeposits (history : List L1Transaction) (after : Option String) : List DepositEvent :=
  (getSignaturesForAddress history 100 after).reverse.filterMap fun entry =>
    if entry.failed then none
    else depositInTx entry.signature (getTransactionLog history entry.signature)

/-! ## A logged deposit is parsed back -/

theorem trim_encode (bs : List UInt8) : trim (Base64.encode bs) = Base64.encode bs := by
  have hws : ∀ c ∈ Base64.encode bs, isWhitespace c = false := by
    intro c hc
    have hchar : ∀ v < 64, isWhitespace (Base64.char v) = false := by decide
    rcases Base64.mem_encode hc with rfl | ⟨v, hv, rfl⟩
    · rfl
    · exact hchar v hv
  have hdrop : ∀ l : List Char, (∀ c ∈ l, isWhitespace c = false) →
    l.dropWhile isWhitespace = l := by
    intro l hl
    cases l with
    | nil => rfl
    | cons c l => rw [List.dropWhile_cons_of_neg (by simp [hl c])]
  rw [trim, hdrop _ hws, hdrop _ fun c hc => hws c (List.mem_reverse.mp hc), List.reverse_reverse]

theorem parseDepositedEvent_payload (d : Deposited) (signature : String) :
    parseDepositedEvent d.payload signature = some (d.toEvent signature) := by
  obtain ⟨depositor, amount, l2Recipient, mint, decimals⟩ := d
  have hkey (b : Pubkey) {n : ℕ} (hn : 32 ≤ n) : b.toList.drop n = [] :=
    List.drop_eq_nil_of_le (by simpa using hn)
  have hword {n : ℕ} (hn : 8 ≤ n) : (LittleEndian.u64 amount).drop n = [] :=
    List.drop_eq_nil_of_le (by simpa using hn)
  cases mint <;>
    simp [parseDepositedEvent, parseTail, Deposited.payload, DEPOSITED_DISCRIMINATOR,
      Deposited.toEvent, List.drop_append, List.take_append, hkey, hword]

theorem depositInLine_line (d : Deposited) (signature : String) :
    depositInLine signature d.line = some (d.toEvent signature) := by
  have hprefix : PROGRAM_DATA.isPrefixOf (PROGRAM_DATA ++ Base64.encode d.payload) = true := by
    rw [List.isPrefixOf_iff_prefix]
    exact List.prefix_append ..
  simp only [depositInLine, stripProgramData, Deposited.line, hprefix, if_true,
    List.drop_left, trim_encode,
    Base64.decode_encode, Option.bind_eq_bind, Option.bind_some, parseDepositedEvent_payload]

end Zul.Bridge
