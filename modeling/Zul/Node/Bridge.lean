import Zul.Bridge.Rpc
import Zul.Store.Smt

/-! # Bridge addresses and withdrawal transactions

Deposit receipts, withdrawal commitments, and the two wire layouts of a withdrawal.
-/

namespace Zul.Node

def BRIDGE_RECEIPT_OWNER : Pubkey := ⟨[0x06, 0x21] ++ List.replicate 30 0, rfl⟩

def BRIDGE_WITHDRAW_PROGRAM_ID : Pubkey := ⟨[0x06, 0x21] ++ List.replicate 29 0 ++ [0x01], rfl⟩

/-- The asset id of native withdrawals; a token withdrawal carries the L1 mint. -/
def NATIVE_ASSET_ID : Bytes 32 := Bytes.replicate 32 0

section Hashes

variable (P : Prims)

/-- The account whose existence marks an L1 signature as credited. -/
def depositReceiptAddress (l1Signature : String) : Pubkey :=
  P.blake3_32 (strBytes "PL2:bridge:deposit-receipt:v1") (strBytes l1Signature)

/-- Tree address of the withdrawal commitment for a recipient and nonce. -/
def withdrawalPubkey (recipient : Bytes 32) (nonce : UInt64) : Pubkey :=
  P.blake3Concat (strBytes "PL2:bridge:withdraw-addr:v1") [recipient.toList, LittleEndian.u64 nonce]

def withdrawalAccountHash (recipient assetId : Bytes 32) (amount nonce : UInt64) : H256 :=
  P.blake3Concat (strBytes "PL2:bridge:withdraw:v1")
    [recipient.toList, assetId.toList, LittleEndian.u64 amount, LittleEndian.u64 nonce]

end Hashes

structure WithdrawTx where
  transaction : VersionedTransaction
  feePayer : Pubkey
  recipient : Bytes 32
  assetId : Bytes 32
  amount : UInt64
  nonce : UInt64
  deriving DecidableEq

/-- Native layout: recipient, amount, nonce (48 bytes). Token layout: recipient, asset id,
amount, nonce (80 bytes). -/
def parseWithdraw (tx : VersionedTransaction) : Option WithdrawTx :=
  match tx.message.instructions with
  | [ix] => do
    let program ← tx.message.staticAccountKeys[ix.programIdIndex.toNat]?
    guard (program = BRIDGE_WITHDRAW_PROGRAM_ID)
    let feePayer ← tx.message.staticAccountKeys.head?
    let recipient ← Bytes.ofList? 32 (ix.data.take 32)
    if ix.data.length = 48 then
      return ⟨tx, feePayer, recipient, NATIVE_ASSET_ID,
        LittleEndian.toU64 ((ix.data.drop 32).take 8),
          LittleEndian.toU64 ((ix.data.drop 40).take 8)⟩
    else if ix.data.length = 80 then
      let assetId ← Bytes.ofList? 32 ((ix.data.drop 32).take 32)
      return ⟨tx, feePayer, recipient, assetId,
        LittleEndian.toU64 ((ix.data.drop 64).take 8),
          LittleEndian.toU64 ((ix.data.drop 72).take 8)⟩
    else none
  | _ => none

/-- Split out the withdrawals; both parts keep their order. -/
def partitionWithdraws (transactions : List VersionedTransaction) :
    List WithdrawTx × List VersionedTransaction :=
  (transactions.filterMap parseWithdraw,
    transactions.filter fun tx => (parseWithdraw tx).isNone)

theorem parseWithdraw_transaction {tx : VersionedTransaction} {w : WithdrawTx}
    (h : parseWithdraw tx = some w) : w.transaction = tx := by
  unfold parseWithdraw at h
  split at h
  · simp only [Option.bind_eq_bind, Option.bind_eq_some_iff] at h
    obtain ⟨program, _, _, _, feePayer, _, recipient, _, h⟩ := h
    split at h
    · cases h; rfl
    · split at h
      · simp only [Option.bind_eq_some_iff] at h
        obtain ⟨assetId, _, h⟩ := h
        cases h; rfl
      · cases h
  · cases h

end Zul.Node
