import Zul.Node.Bridge
import Zul.Node.WithdrawSmt

/-! # The settlement program

The L1 side of the bridge. A deposit fills the vault of its asset. A claim recomputes the leaf of
a withdrawal, checks its inclusion under the withdrawals root of a posted batch, and pays the
amount out of the vault of the asset the instruction is for.
-/

namespace Zul.Settlement

open Bridge Node

/-- An L1 mint account. The zero address is the system program, so no mint lives there. -/
abbrev Mint := { key : Pubkey // key ≠ NATIVE_ASSET_ID }

inductive L1Asset
  | sol
  | spl (mint : Mint)
  deriving DecidableEq

namespace L1Asset

/-- The mint as the `Deposited` event records it. -/
def mint : L1Asset → Option Pubkey
  | sol => none
  | spl mint => some mint.1

def assetId : L1Asset → Bytes 32
  | sol => NATIVE_ASSET_ID
  | spl mint => mint.1

def ofId (id : Bytes 32) : L1Asset :=
  if h : id = NATIVE_ASSET_ID then sol else spl ⟨id, h⟩

@[simp] theorem assetId_ofId (id : Bytes 32) : (ofId id).assetId = id := by
  unfold ofId
  split
  · rename_i h
    exact h.symm
  · rfl

@[simp] theorem ofId_assetId (asset : L1Asset) : ofId asset.assetId = asset := by
  cases asset with
  | sol => rfl
  | spl mint => exact dif_neg mint.2

end L1Asset

/-- The program's errors, and those of the runtime an instruction can end with. -/
inductive SettlementError
  | unauthorized
  | nonSequentialBatch
  | invalidSlotRange
  | zeroAmount
  | overflow
  | invalidProof
  | unsupportedMintExtension
  | accountNotInitialized
  | accountInUse
  | insufficientFunds
  deriving DecidableEq

/-- The accounts of the program that deposits and claims read and write. -/
structure ProgramState where
  /-- `Config::total_deposited`. -/
  totalDeposited : UInt64
  /-- The withdrawals root of each posted batch. -/
  withdrawalsRoots : PartialMap UInt64 H256
  /-- The claim accounts, by recipient and nonce, with the amount paid. -/
  claims : PartialMap (Bytes 32 × UInt64) UInt64
  /-- The lamports of the vault, and the tokens of its account for each mint. -/
  vaults : L1Asset → ℕ

/-! ## Deposits -/

def depositSol (s : ProgramState) (depositor : Pubkey) (amount : UInt64) (l2Recipient : Pubkey) :
    Except SettlementError (ProgramState × Deposited) :=
  if amount = 0 then .error .zeroAmount
  else if 2 ^ 64 ≤ s.totalDeposited.toNat + amount.toNat then .error .overflow
  else .ok
    ({ s with
      totalDeposited := s.totalDeposited + amount
      vaults := Function.update s.vaults .sol (s.vaults .sol + amount.toNat) },
      ⟨depositor, amount, l2Recipient, none, 9⟩)

/-- `safe` is the outcome of `require_safe_mint`, and `received` what the token program's
transfer of `amount` adds to the vault, less than `amount` for a mint with a transfer fee. -/
def depositSpl (s : ProgramState) (depositor : Pubkey) (mint : Mint) (decimals : UInt8)
    (safe : Bool)
    (amount received : UInt64) (l2Recipient : Pubkey) :
    Except SettlementError (ProgramState × Deposited) :=
  if amount = 0 then .error .zeroAmount
  else if !safe then .error .unsupportedMintExtension
  else if received = 0 then .error .zeroAmount
  else .ok
    ({ s with
      vaults := Function.update s.vaults (.spl mint) (s.vaults (.spl mint) + received.toNat) },
      ⟨depositor, received, l2Recipient, some mint.1, decimals⟩)

/-! ## Claims -/

section Claims

variable (P : Prims)

def claimedLeaf (asset : L1Asset) (recipient : Bytes 32) (amount nonce : UInt64) : Pubkey × H256 :=
  (withdrawalPubkey P recipient nonce,
    withdrawalAccountHash P recipient asset.assetId amount nonce)

/-- What the two claim instructions share: the claim account must be new, the leaf must be
proved under the batch's root, and the vault pays. -/
def claim (asset : L1Asset) (s : ProgramState) (batchNo : UInt64) (recipient : Bytes 32)
    (amount nonce : UInt64) (proof : Smt.SmtProof) : Except SettlementError ProgramState :=
  match s.withdrawalsRoots batchNo with
  | none => .error .accountNotInitialized
  | some root =>
    let leaf := claimedLeaf P asset recipient amount nonce
    if (s.claims (recipient, nonce)).isSome then .error .accountInUse
    else if amount = 0 then .error .zeroAmount
    else if !WithdrawSmt.verify P root leaf.1 leaf.2 proof then .error .invalidProof
    else if s.vaults asset < amount.toNat then .error .insufficientFunds
    else .ok { s with
      claims := s.claims.insert (recipient, nonce) amount
      vaults := Function.update s.vaults asset (s.vaults asset - amount.toNat) }

def claimWithdrawal : ProgramState → UInt64 → Bytes 32 → UInt64 → UInt64 → Smt.SmtProof →
    Except SettlementError ProgramState :=
  claim P .sol

def claimWithdrawalSpl (mint : Mint) : ProgramState → UInt64 → Bytes 32 → UInt64 → UInt64 →
    Smt.SmtProof → Except SettlementError ProgramState :=
  claim P (.spl mint)

end Claims

/-! ## What deposits and claims do to the vaults -/

theorem depositSol_frame {s s' : ProgramState} {depositor l2Recipient : Pubkey} {amount : UInt64}
    {event : Deposited} (h : depositSol s depositor amount l2Recipient = .ok (s', event)) :
    s'.withdrawalsRoots = s.withdrawalsRoots ∧ s'.claims = s.claims := by
  unfold depositSol at h
  split_ifs at h
  cases h
  exact ⟨rfl, rfl⟩

theorem depositSpl_frame {s s' : ProgramState} {depositor l2Recipient : Pubkey} {mint : Mint}
    {decimals : UInt8} {safe : Bool} {amount received : UInt64} {event : Deposited}
    (h : depositSpl s depositor mint decimals safe amount received l2Recipient =
      .ok (s', event)) :
    s'.withdrawalsRoots = s.withdrawalsRoots ∧ s'.claims = s.claims := by
  unfold depositSpl at h
  split_ifs at h
  cases h
  exact ⟨rfl, rfl⟩

/-- A claim goes through exactly for a positive, unclaimed amount the vault of its asset covers,
with a proof of the asset's leaf under a posted root; that vault pays it. -/
theorem claim_eq_ok_iff {P : Prims} {asset : L1Asset} {s s' : ProgramState} {batchNo : UInt64}
    {recipient : Bytes 32} {amount nonce : UInt64} {proof : Smt.SmtProof} :
    claim P asset s batchNo recipient amount nonce proof = .ok s' ↔
      (∃ root, s.withdrawalsRoots batchNo = some root ∧
        WithdrawSmt.verify P root (claimedLeaf P asset recipient amount nonce).1
          (claimedLeaf P asset recipient amount nonce).2 proof = true) ∧
      s.claims (recipient, nonce) = none ∧ amount ≠ 0 ∧ amount.toNat ≤ s.vaults asset ∧
      s' = { s with
        claims := s.claims.insert (recipient, nonce) amount
        vaults := Function.update s.vaults asset (s.vaults asset - amount.toNat) } := by
  unfold claim
  cases hroot : s.withdrawalsRoots batchNo with
  | none => simp
  | some root =>
    cases hclaim : s.claims (recipient, nonce) with
    | some paid => simp
    | none =>
      dsimp only
      split_ifs with hnew hzero hproof hfunds
      · cases hnew
      · simp [hzero]
      · simp_all
      · constructor
        · intro h
          cases h
        · rintro ⟨-, -, -, hcovered, -⟩
          omega
      · rw [Bool.not_eq_true', Bool.not_eq_false] at hproof
        constructor
        · intro h
          cases h
          exact ⟨⟨root, rfl, hproof⟩, rfl, hzero, by omega, rfl⟩
        · rintro ⟨-, -, -, -, rfl⟩
          rfl

end Zul.Settlement
