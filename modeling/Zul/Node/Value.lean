import Zul.Node.Bridge
import Zul.Node.Pool

/-! # Deposits and withdrawals in a block

Deposits credit native lamports or wrapped tokens and leave a receipt account; withdrawals burn
them and yield the leaves of the withdrawals tree. Both read an account through the block's
writes, where a deleted account falls back to the committed one. A token buffer too short for
its field panics, here `none`.
-/

namespace Zul.Node

open Bridge WrappedSpl

/-- An account through the block's writes: `writes.get(k).cloned().flatten().or(store)`. -/
def loadThrough (store : Store) (writes : AccountWrites) (k : Pubkey) : Option StoredAccount :=
  (writes k).join.or (store.getAccount k)

theorem loadThrough_insert (store : Store) (writes : AccountWrites) (k j : Pubkey)
    (account : StoredAccount) :
    loadThrough store (writes.insert k (some account)) j =
      if j = k then some account else loadThrough store writes j := by
  unfold loadThrough
  rw [PartialMap.insert_apply]
  split <;> rfl

/-- The lamports of an account; a missing one has none. -/
def lamportsOf (account : Option StoredAccount) : ℕ := (account.map (·.lamports.toNat)).getD 0

section Deposits

variable (P : Prims) (store : Store)

def mintWithSupply (amount : UInt64) (decimals : UInt8) :
    Option StoredAccount → Option StoredAccount
  | some account =>
    let supply := ((mintSupply account.data).getD 0).saturatingAdd amount
    (setMintSupply account.data supply).map fun data => { account with data }
  | none => some {
      lamports := rentExemptLamports MINT_LEN
      data := packMint BRIDGE_MINT_AUTHORITY amount decimals
      owner := TOKEN_PROGRAM_ID
      executable := false
      rentEpoch := UInt64.maxValue }

/-- A token account with its amount bumped, or created for the owner. -/
def tokenWithAmount (wmint recipient : Pubkey) (amount : UInt64) :
    Option StoredAccount → Option StoredAccount
  | some account =>
    let bal := ((tokenAccountAmount account.data).getD 0).saturatingAdd amount
    (setTokenAccountAmount account.data bal).map fun data => { account with data }
  | none => some {
      lamports := rentExemptLamports ACCOUNT_LEN
      data := packTokenAccount wmint recipient amount
      owner := TOKEN_PROGRAM_ID
      executable := false
      rentEpoch := UInt64.maxValue }

def creditMint (l1Mint : Pubkey) (amount : UInt64) (decimals : UInt8) (writes : AccountWrites) :
    Option AccountWrites :=
  let wmint := wrappedMintAddress P l1Mint
  (mintWithSupply amount decimals (loadThrough store writes wmint)).map fun account =>
    writes.insert wmint (some account)

def creditTokenAccount (l1Mint recipient : Pubkey) (amount : UInt64) (writes : AccountWrites) :
    Option AccountWrites :=
  let wmint := wrappedMintAddress P l1Mint
  let ata := associatedTokenAddress P recipient wmint
  (tokenWithAmount wmint recipient amount (loadThrough store writes ata)).map fun account =>
    writes.insert ata (some account)

/-- Credit wrapped tokens: the mint's supply, then the recipient's account. -/
def creditWrappedSpl (l1Mint recipient : Pubkey) (amount : UInt64) (decimals : UInt8)
    (writes : AccountWrites) : Option AccountWrites := do
  let writes ← creditMint P store l1Mint amount decimals writes
  creditTokenAccount P store l1Mint recipient amount writes

def creditNative (recipient : Pubkey) (amount : UInt64) (writes : AccountWrites) : AccountWrites :=
  let account := (loadThrough store writes recipient).getD (StoredAccount.newSystem 0)
  writes.insert recipient (some { account with lamports := account.lamports.saturatingAdd amount })

/-- The gas mint's deposits are native; native SOL is too while no gas mint is configured. -/
def creditsNativeGas (gasMint mint : Option Pubkey) : Bool :=
  match mint with
  | some m => some m = gasMint
  | none => gasMint.isNone

def receiptAccount (deposit : DepositEvent) : StoredAccount where
  lamports := 0
  data := LittleEndian.u64 deposit.amount ++ deposit.l2Recipient.toList
  owner := BRIDGE_RECEIPT_OWNER
  executable := false
  rentEpoch := UInt64.maxValue

/-- Whether a deposit was credited in this block or a committed one. -/
def isCredited (writes : AccountWrites) (deposit : DepositEvent) : Bool :=
  let receipt := depositReceiptAddress P deposit.l1Signature
  (writes receipt).isSome || (store.getAccount receipt).isSome

variable (gasMint : Option Pubkey)

/-- The L1 mint and decimals a wrapped deposit is credited under; native SOL is the canonical
wrapped SOL. -/
def wrappedAs (deposit : DepositEvent) : Pubkey × UInt8 :=
  match deposit.mint with
  | some mint => (mint, deposit.decimals)
  | none => (nativeSolMint, 9)

def wrappedMint (d : DepositEvent) : Pubkey := wrappedMintAddress P (wrappedAs d).1

def wrappedAccount (d : DepositEvent) : Pubkey :=
  associatedTokenAddress P d.l2Recipient (wrappedMint P d)

/-- Credit one deposit: native lamports, or the wrapped token of its mint. -/
def creditDeposit (writes : AccountWrites) (deposit : DepositEvent) : Option AccountWrites :=
  if creditsNativeGas gasMint deposit.mint then
    some (creditNative store deposit.l2Recipient deposit.amount writes)
  else
    creditWrappedSpl P store (wrappedAs deposit).1 deposit.l2Recipient deposit.amount
      (wrappedAs deposit).2 writes

/-- One round of the deposit loop; the credited deposits are kept in order. -/
def applyDeposit (acc : AccountWrites × List DepositEvent) (deposit : DepositEvent) :
    Option (AccountWrites × List DepositEvent) :=
  if isCredited P store acc.1 deposit then some acc
  else do
    let writes ← creditDeposit P store gasMint acc.1 deposit
    let receipt := depositReceiptAddress P deposit.l1Signature
    return (writes.insert receipt (some (receiptAccount deposit)), acc.2 ++ [deposit])

/-- Apply queued deposits to the block's writes. The source returns the number of deposits
credited; the model returns the deposits themselves. -/
def applyDeposits (deposits : List DepositEvent) (writes : AccountWrites) :
    Option (AccountWrites × List DepositEvent) :=
  deposits.foldlM (applyDeposit P store gasMint) (writes, [])

variable {P store gasMint}

/-- A credit adds lamports to the recipient, or writes the wrapped mint and then the recipient's
token account. -/
theorem creditDeposit_cases {d : DepositEvent} {writes writes' : AccountWrites}
    (h : creditDeposit P store gasMint writes d = some writes') :
    creditsNativeGas gasMint d.mint = true ∧
        writes' = creditNative store d.l2Recipient d.amount writes ∨
      creditsNativeGas gasMint d.mint = false ∧ ∃ mint token,
        mintWithSupply d.amount (wrappedAs d).2 (loadThrough store writes (wrappedMint P d)) =
          some mint ∧
        tokenWithAmount (wrappedMint P d) d.l2Recipient d.amount
          (loadThrough store (writes.insert (wrappedMint P d) (some mint)) (wrappedAccount P d)) =
            some token ∧
        writes' = (writes.insert (wrappedMint P d) (some mint)).insert (wrappedAccount P d)
          (some token) := by
  unfold creditDeposit at h
  split at h
  · rename_i hnative
    cases h
    exact .inl ⟨hnative, rfl⟩
  · rename_i hwrapped
    simp only [creditWrappedSpl, Option.bind_eq_bind, Option.bind_eq_some_iff] at h
    obtain ⟨minted, hminted, hcredited⟩ := h
    obtain ⟨mint, hmint, rfl⟩ := Option.map_eq_some_iff.mp hminted
    obtain ⟨token, htoken, rfl⟩ := Option.map_eq_some_iff.mp hcredited
    exact .inr ⟨by simpa using hwrapped, mint, token, hmint, htoken, rfl⟩

theorem applyDeposit_cases {acc out : AccountWrites × List DepositEvent} {d : DepositEvent}
    (h : applyDeposit P store gasMint acc d = some out) :
    isCredited P store acc.1 d = true ∧ out = acc ∨
      isCredited P store acc.1 d = false ∧
        ∃ writes, creditDeposit P store gasMint acc.1 d = some writes ∧
          out = (writes.insert (depositReceiptAddress P d.l1Signature) (some (receiptAccount d)),
            acc.2 ++ [d]) := by
  unfold applyDeposit at h
  split at h
  · rename_i hold
    cases h
    exact .inl ⟨hold, rfl⟩
  · rename_i hnew
    simp only [Option.bind_eq_bind, Option.bind_eq_some_iff] at h
    obtain ⟨writes, hcredit, h⟩ := h
    cases h
    exact .inr ⟨by simpa using hnew, writes, hcredit, rfl⟩

end Deposits

section Withdrawals

variable (P : Prims) (store : Store)

/-- Take burned tokens off the mint's supply; a missing mint is left alone. -/
def burnSupply (l1Mint : Pubkey) (amount : UInt64) (writes : AccountWrites) :
    Option AccountWrites :=
  let wmint := wrappedMintAddress P l1Mint
  match loadThrough store writes wmint with
  | none => some writes
  | some mint =>
    let supply := ((mintSupply mint.data).getD 0).saturatingSub amount
    (setMintSupply mint.data supply).map fun data => writes.insert wmint (some { mint with data })

/-- Burn wrapped tokens from an owner's account and the mint's supply; `false` is a missing
account or a shortfall, and nothing is written then. -/
def burnWrappedSpl (l1Mint owner : Pubkey) (amount : UInt64) (writes : AccountWrites) :
    Option (AccountWrites × Bool) :=
  if amount = 0 then some (writes, false)
  else
    let ata := associatedTokenAddress P owner (wrappedMintAddress P l1Mint)
    match loadThrough store writes ata with
    | none => some (writes, false)
    | some account =>
      let bal := (tokenAccountAmount account.data).getD 0
      if bal < amount then some (writes, false)
      else do
        let data ← setTokenAccountAmount account.data (bal - amount)
        let writes ← burnSupply P store l1Mint amount
          (writes.insert ata (some { account with data }))
        return (writes, true)

variable (gasMint : Option Pubkey) (feeCollector : Pubkey)

/-- A withdrawal burns lamports for the native asset id or the gas mint. -/
def WithdrawTx.isNative (w : WithdrawTx) : Bool :=
  w.assetId = NATIVE_ASSET_ID || gasMint = some w.assetId

def WithdrawTx.neededNative (w : WithdrawTx) : UInt64 :=
  if w.isNative gasMint then w.amount.saturatingAdd POOL_TX_FEE else POOL_TX_FEE

/-- The wrapped mint and token account a token withdrawal burns from. -/
def WithdrawTx.wrappedMint (w : WithdrawTx) : Pubkey := wrappedMintAddress P w.assetId

def WithdrawTx.wrappedAccount (w : WithdrawTx) : Pubkey :=
  associatedTokenAddress P w.feePayer (w.wrappedMint P)

/-- Burn the exiting tokens; lamports are taken with the fee. -/
def burnAsset (w : WithdrawTx) (writes : AccountWrites) : Option (AccountWrites × Bool) :=
  if w.isNative gasMint then some (writes, true)
  else burnWrappedSpl P store w.assetId w.feePayer w.amount writes

/-- Burn what a withdrawal exits with and take its fee from the payer: the payer's lamports
afterwards, or `none` when it cannot be paid for. The payer's account is read before the tokens
are burned and written after. -/
def burnWithdrawal (w : WithdrawTx) (writes : AccountWrites) :
    Option (AccountWrites × Option UInt64) :=
  match loadThrough store writes w.feePayer with
  | none => some (writes, none)
  | some account =>
    if w.neededNative gasMint ≤ account.lamports ∧ 0 < w.amount then
      match burnAsset P store gasMint w writes with
      | none => none
      | some (writes, false) => some (writes, none)
      | some (writes, true) =>
        let post := account.lamports - w.neededNative gasMint
        some (writes.insert w.feePayer (some { account with lamports := post }), some post)
    else some (writes, none)

def creditFee (writes : AccountWrites) : AccountWrites :=
  creditNative store feeCollector POOL_TX_FEE writes

def WithdrawTx.leaf (w : WithdrawTx) : Pubkey × H256 :=
  (withdrawalPubkey P w.recipient w.nonce,
    withdrawalAccountHash P w.recipient w.assetId w.amount w.nonce)

/-- What the withdrawal loop accumulates; the accepted withdrawals stand for their leaves. -/
structure Withdrawn where
  writes : AccountWrites
  included : List (VersionedTransaction × ExecutedTransactionMeta)
  accepted : List WithdrawTx

def applyWithdraw (acc : Withdrawn) (w : WithdrawTx) : Option Withdrawn := do
  match ← burnWithdrawal P store gasMint w acc.writes with
  | (writes, some post) =>
    some {
      writes := creditFee store feeCollector writes
      accepted := acc.accepted ++ [w]
      included := acc.included ++ [(w.transaction, poolMeta true none POOL_TX_FEE 0 post
        ["Program log: withdraw " ++ toString w.amount ++ " to L1, nonce " ++ toString w.nonce])] }
  | (writes, none) =>
    some { acc with
      writes
      included := acc.included ++ [(w.transaction,
        poolMeta false (some "insufficient balance for withdrawal") 0 0 0 [])] }

def applyWithdraws (withdraws : List WithdrawTx) (writes : AccountWrites)
    (included : List (VersionedTransaction × ExecutedTransactionMeta)) : Option Withdrawn :=
  withdraws.foldlM (applyWithdraw P store gasMint feeCollector) ⟨writes, included, []⟩

variable {P store gasMint feeCollector}

theorem burnSupply_spec {l1Mint : Pubkey} {amount : UInt64} {writes writes' : AccountWrites}
    (h : burnSupply P store l1Mint amount writes = some writes') :
    writes' = writes ∨
      ∃ mint, writes' = writes.insert (wrappedMintAddress P l1Mint) (some mint) := by
  unfold burnSupply at h
  dsimp only at h
  split at h
  · cases h
    exact .inl rfl
  · obtain ⟨data, -, rfl⟩ := Option.map_eq_some_iff.mp h
    exact .inr ⟨_, rfl⟩

theorem burnWrappedSpl_spec {l1Mint owner : Pubkey} {amount : UInt64}
    {writes writes' : AccountWrites} {ok : Bool}
    (h : burnWrappedSpl P store l1Mint owner amount writes = some (writes', ok)) :
    let ata := associatedTokenAddress P owner (wrappedMintAddress P l1Mint)
    ok = false ∧ writes' = writes ∨
      ok = true ∧ ∃ account data, loadThrough store writes ata = some account ∧
        amount ≤ (tokenAccountAmount account.data).getD 0 ∧
        setTokenAccountAmount account.data ((tokenAccountAmount account.data).getD 0 - amount) =
          some data ∧
        burnSupply P store l1Mint amount (writes.insert ata (some { account with data })) =
          some writes' := by
  unfold burnWrappedSpl at h
  dsimp only at h
  split at h
  · cases h
    exact .inl ⟨rfl, rfl⟩
  · split at h
    · cases h
      exact .inl ⟨rfl, rfl⟩
    · rename_i account haccount
      split at h
      · cases h
        exact .inl ⟨rfl, rfl⟩
      · rename_i hbal
        simp only [Option.bind_eq_bind, Option.bind_eq_some_iff] at h
        obtain ⟨data, hdata, burned, hburn, h⟩ := h
        cases h
        exact .inr ⟨rfl, account, data, haccount, UInt64.not_lt.mp hbal, hdata, hburn⟩

/-- The burn of an accepted withdrawal: nothing for lamports, the amount off the token account
and the mint's supply for tokens. -/
theorem burnAsset_spec {w : WithdrawTx} {writes burned : AccountWrites}
    (h : burnAsset P store gasMint w writes = some (burned, true)) :
    w.isNative gasMint = true ∧ burned = writes ∨
      w.isNative gasMint = false ∧
        ∃ account data, loadThrough store writes (w.wrappedAccount P) = some account ∧
          w.amount ≤ (tokenAccountAmount account.data).getD 0 ∧
          setTokenAccountAmount account.data
            ((tokenAccountAmount account.data).getD 0 - w.amount) = some data ∧
          (burned = writes.insert (w.wrappedAccount P) (some { account with data }) ∨
            ∃ mint, burned = (writes.insert (w.wrappedAccount P)
              (some { account with data })).insert (w.wrappedMint P) (some mint)) := by
  unfold burnAsset at h
  split at h
  · rename_i hnative
    cases h
    exact .inl ⟨hnative, rfl⟩
  · rename_i hwrapped
    refine .inr ⟨by simpa using hwrapped, ?_⟩
    rcases burnWrappedSpl_spec h with ⟨hok, -⟩ | ⟨-, account, data, haccount, hbal, hdata, hburn⟩
    · cases hok
    · exact ⟨account, data, haccount, hbal, hdata, burnSupply_spec hburn⟩

theorem burnWithdrawal_none {w : WithdrawTx} {writes writes' : AccountWrites}
    (h : burnWithdrawal P store gasMint w writes = some (writes', none)) : writes' = writes := by
  unfold burnWithdrawal at h
  split at h
  · cases h
    rfl
  · split at h
    · split at h
      · cases h
      · rename_i burned hburn
        cases h
        unfold burnAsset at hburn
        split at hburn
        · cases hburn
        · rcases burnWrappedSpl_spec hburn with ⟨-, rfl⟩ | ⟨hok, -⟩
          · rfl
          · cases hok
      · cases h
    · cases h
      rfl

theorem burnWithdrawal_some {w : WithdrawTx} {writes writes' : AccountWrites} {post : UInt64}
    (h : burnWithdrawal P store gasMint w writes = some (writes', some post)) :
    ∃ account burned, loadThrough store writes w.feePayer = some account ∧
      w.neededNative gasMint ≤ account.lamports ∧ 0 < w.amount ∧
      burnAsset P store gasMint w writes = some (burned, true) ∧
      post = account.lamports - w.neededNative gasMint ∧
      writes' = burned.insert w.feePayer (some { account with lamports := post }) := by
  unfold burnWithdrawal at h
  split at h
  · cases h
  · rename_i account haccount
    split at h
    · rename_i hfunds
      split at h
      · cases h
      · cases h
      · rename_i burned hburn
        cases h
        exact ⟨account, burned, haccount, hfunds.1, hfunds.2, hburn, rfl, rfl⟩
    · cases h

/-- A round of the withdrawal loop refuses the withdrawal and writes nothing, or burns it and
pays the collector. -/
theorem applyWithdraw_cases {acc out : Withdrawn} {w : WithdrawTx}
    (h : applyWithdraw P store gasMint feeCollector acc w = some out) :
    out.writes = acc.writes ∧ out.accepted = acc.accepted ∨
      ∃ burned post, burnWithdrawal P store gasMint w acc.writes = some (burned, some post) ∧
        out.writes = creditFee store feeCollector burned ∧ out.accepted = acc.accepted ++ [w] := by
  simp only [applyWithdraw, Option.bind_eq_bind, Option.bind_eq_some_iff] at h
  obtain ⟨⟨writes, post⟩, hburn, h⟩ := h
  cases post with
  | none =>
    cases h
    exact .inl ⟨burnWithdrawal_none hburn, rfl⟩
  | some post =>
    cases h
    exact .inr ⟨writes, post, hburn, rfl, rfl⟩

end Withdrawals

end Zul.Node
