import Zul.Node.Conservation
import Zul.Node.Credits
import Zul.Node.Routing
import Zul.Node.WithdrawView

/-! # What a block's deposits add up to

Three kinds of totals are read off the accounts: all lamports, the supply a wrapped mint records,
and the tokens its token accounts hold. Crediting deposits moves each by the credited amounts, and
the lamports also by the rent of the accounts created, exactly where what a credit loads is worth
what stands. A credit loads the committed account where the block has deleted it.
-/

namespace Zul.Node

open Bridge Privacy PoolService WrappedSpl

/-! ## Totals -/

/-- The totals of the lamports and of the wrapped tokens of some L1 mints. -/
inductive Meter (mints : Set Pubkey)
  | lamports
  | supply (l1Mint : mints)
  | tokens (l1Mint : mints)

/-- A token account of a mint: of the token program, in full length, with the mint in its first
32 bytes. -/
structure HoldsMint (mint : Pubkey) (account : StoredAccount) : Prop where
  program : account.owner = TOKEN_PROGRAM_ID
  length : account.data.length = ACCOUNT_LEN
  mint : account.data.range? 0 32 = some mint.toList

open Classical in
/-- The tokens of a mint that the account at an address holds. The mint itself holds none. -/
noncomputable def tokensHeld (mint k : Pubkey) (account : Option StoredAccount) : ℕ :=
  if k ≠ mint ∧ ∃ a, account = some a ∧ HoldsMint mint a then (amountOf account).toNat else 0

section Definitions

variable (P : Prims) (store : Store) (gasMint : Option Pubkey) {mints : Set Pubkey}

noncomputable def weigh : Meter mints → Pubkey → Option StoredAccount → ℕ
  | .lamports, _, account => lamportsOf account
  | .supply l1Mint, k, account =>
    if k = wrappedMintAddress P l1Mint then (supplyOf account).toNat else 0
  | .tokens l1Mint, k, account => tokensHeld (wrappedMintAddress P l1Mint) k account

noncomputable def reading (view : PartialMap Pubkey StoredAccount) (q : Meter mints) : ℕ :=
  ∑ k, weigh P q k (view k)

def creditedTo (d : DepositEvent) : Meter mints → ℕ
  | .lamports => if creditsNativeGas gasMint d.mint then d.amount.toNat else 0
  | .supply l1Mint =>
    if creditsNativeGas gasMint d.mint = false ∧ wrappedMint P d = wrappedMintAddress P l1Mint then
      d.amount.toNat
    else 0
  | .tokens l1Mint =>
    if creditsNativeGas gasMint d.mint = false ∧ wrappedMint P d = wrappedMintAddress P l1Mint then
      d.amount.toNat
    else 0

/-- The rent of an account of `n` bytes, if it has to be created. -/
def rentOf (n : ℕ) (account : Option StoredAccount) : ℕ :=
  if account.isSome then 0 else (rentExemptLamports n).toNat

/-- The rent of the wrapped mint and the token account that a deposit creates. -/
def createdRent (view : PartialMap Pubkey StoredAccount) (d : DepositEvent) : Meter mints → ℕ
  | .lamports =>
    if creditsNativeGas gasMint d.mint then 0
    else rentOf MINT_LEN (view (wrappedMint P d)) + rentOf ACCOUNT_LEN (view (wrappedAccount P d))
  | _ => 0

def rentAlong (acc : AccountWrites × List DepositEvent) (deposits : List DepositEvent) :
    Meter mints → ℕ :=
  List.tally (applyDeposit P store gasMint)
    (fun acc d => if isCredited P store acc.1 d then 0
      else createdRent P gasMint (viewOf store acc.1) d) acc deposits

/-- The totals after a list of deposits: those before, the amounts newly credited and the rent of
the accounts created. -/
def DepositsAccounted (mints : Set Pubkey) (writes : AccountWrites)
    (deposits : List DepositEvent) : Prop :=
  ∃ writes' credited, applyDeposits P store gasMint deposits writes = some (writes', credited) ∧
    ∀ q : Meter mints, reading P (viewOf store writes') q = reading P (viewOf store writes) q +
      (credited.map fun d => creditedTo P gasMint d q).sum +
      rentAlong P store gasMint (writes, []) deposits q

/-! ## The conditions of one credit -/

def CreditFits (writes : AccountWrites) (d : DepositEvent) : Prop :=
  if creditsNativeGas gasMint d.mint then
    lamportsOf (loadThrough store writes d.l2Recipient) + d.amount.toNat < 2 ^ 64
  else
    (supplyOf (loadThrough store writes (wrappedMint P d))).toNat + d.amount.toNat < 2 ^ 64 ∧
      (amountOf (loadThrough store writes (wrappedAccount P d))).toNat + d.amount.toNat < 2 ^ 64

def SameWorth (writes : AccountWrites) (k : Pubkey) (q : Meter mints) : Prop :=
  weigh P q k (loadThrough store writes k) = weigh P q k (viewOf store writes k)

/-- The lamports of a mint and a token account, with the rent of the ones to be created. -/
def fundedLamports (mint token : Option StoredAccount) : ℕ :=
  lamportsOf mint + rentOf MINT_LEN mint + (lamportsOf token + rentOf ACCOUNT_LEN token)

/-- What a native deposit finds: its recipient is not its receipt, and loaded as it stands. -/
structure NativeExact (mints : Set Pubkey) (writes : AccountWrites) (d : DepositEvent) :
    Prop where
  apart : d.l2Recipient = depositReceiptAddress P d.l1Signature → d.amount = 0
  worth : ∀ q : Meter mints, SameWorth P store writes d.l2Recipient q

/-- What a wrapped deposit finds: a mint and a token account long enough, loaded as they stand,
and the token account one of the mint. -/
structure WrappedExact (mints : Set Pubkey) (writes : AccountWrites) (d : DepositEvent) :
    Prop where
  mintFits : AtLeast 44 (loadThrough store writes (wrappedMint P d))
  tokenFits : AtLeast 72 (loadThrough store writes (wrappedAccount P d))
  lamports : fundedLamports (loadThrough store writes (wrappedMint P d))
      (loadThrough store writes (wrappedAccount P d)) =
    fundedLamports (viewOf store writes (wrappedMint P d))
      (viewOf store writes (wrappedAccount P d))
  supply : supplyOf (loadThrough store writes (wrappedMint P d)) =
    supplyOf (viewOf store writes (wrappedMint P d))
  tokens : ∀ l1Mint : mints, SameWorth P store writes (wrappedMint P d) (.tokens l1Mint) ∧
    SameWorth P store writes (wrappedAccount P d) (.tokens l1Mint)
  holder : d.amount ≠ 0 → ∀ account, loadThrough store writes (wrappedAccount P d) = some account →
    HoldsMint (wrappedMint P d) account

/-- A deposit to be credited finds accounts on which the credit is exact. -/
def CreditExact (mints : Set Pubkey) (writes : AccountWrites) (d : DepositEvent) : Prop :=
  isCredited P store writes d = false →
    if creditsNativeGas gasMint d.mint then NativeExact P store mints writes d
    else WrappedExact P store mints writes d

def wrappedCredit (writes : AccountWrites) (d : DepositEvent) (mint token : StoredAccount) :
    AccountWrites :=
  ((writes.insert (wrappedMint P d) (some mint)).insert (wrappedAccount P d) (some token)).insert
    (depositReceiptAddress P d.l1Signature) (some (receiptAccount d))

/-- A deposit's wrapped mint is one of the mints measured, and its receipt and token account are at
addresses of their own: not at its wrapped mint's, and the token account at none of those
measured. -/
structure DerivedApart (mints : Set Pubkey) (d : DepositEvent) : Prop where
  listed : (wrappedAs d).1 ∈ mints
  token_mint : ∀ l1Mint ∈ mints, wrappedAccount P d ≠ wrappedMintAddress P l1Mint
  receipt_mint : depositReceiptAddress P d.l1Signature ≠ wrappedMint P d
  receipt_token : depositReceiptAddress P d.l1Signature ≠ wrappedAccount P d

end Definitions

section Credit

variable {P : Prims} {store : Store} {gasMint : Option Pubkey} {writes : AccountWrites}
  {d : DepositEvent} {mints : Set Pubkey}

/-! ## Weights -/

theorem viewOf_cases (store : Store) (writes : AccountWrites) (k : Pubkey) :
    viewOf store writes k = loadThrough store writes k ∨ viewOf store writes k = none := by
  cases h : viewOf store writes k with
  | none => exact .inr rfl
  | some account => exact .inl (loadThrough_of_viewOf h).symm

theorem tokensHeld_of_holds {mint k : Pubkey} {account : StoredAccount} (hk : k ≠ mint)
    (h : HoldsMint mint account) :
    tokensHeld mint k (some account) = (amountOf (some account)).toNat := by
  rw [tokensHeld, if_pos ⟨hk, account, rfl, h⟩]

theorem tokensHeld_of_not_holds {mint k : Pubkey} {account : StoredAccount}
    (h : ¬ HoldsMint mint account) : tokensHeld mint k (some account) = 0 := by
  rw [tokensHeld, if_neg]
  rintro ⟨-, a, ha, hholds⟩
  cases ha
  exact h hholds

@[simp] theorem weigh_none (q : Meter mints) (k : Pubkey) : weigh P q k none = 0 := by
  cases q with
  | lamports => rfl
  | supply l1Mint => simp [weigh, supplyOf]
  | tokens l1Mint => simp [weigh, tokensHeld]

theorem weigh_view_le (q : Meter mints) (k : Pubkey) :
    weigh P q k (viewOf store writes k) ≤ weigh P q k (loadThrough store writes k) := by
  rcases viewOf_cases store writes k with h | h
  · rw [h]
  · rw [h, weigh_none]
    exact Nat.zero_le _

theorem weigh_short {q : Meter mints} {k : Pubkey} {account : StoredAccount}
    (hshort : account.data.length < 44) (hzero : account.lamports = 0) :
    weigh P q k (some account) = 0 := by
  cases q with
  | lamports => simp [weigh, lamportsOf, hzero]
  | supply l1Mint =>
    have hnone : mintSupply account.data = none := by
      rw [← Option.not_isSome_iff_eq_none, mintSupply_isSome]
      omega
    simp [weigh, supplyOf, hnone]
  | tokens l1Mint =>
    apply tokensHeld_of_not_holds
    rintro ⟨-, hlength, -⟩
    rw [hlength] at hshort
    exact absurd hshort (by decide)

theorem weigh_receipt (q : Meter mints) (k : Pubkey) (d : DepositEvent) :
    weigh P q k (some (receiptAccount d)) = 0 :=
  weigh_short (by simp [receiptAccount]) rfl

theorem reading_insert (view : PartialMap Pubkey StoredAccount) (k : Pubkey)
    (account : StoredAccount) (q : Meter mints) :
    reading P (view.insert k account) q + weigh P q k (view k) =
      reading P view q + weigh P q k (some account) := by
  have h := Finset.sum_add_of_eq_off (f := fun j => weigh P q j (view j))
    (g := fun j => weigh P q j (view.insert k account j)) k fun j hj => by
      rw [PartialMap.insert_of_ne _ _ hj]
  rw [PartialMap.insert_self] at h
  exact h

theorem reading_receipt {view : PartialMap Pubkey StoredAccount} {k : Pubkey} (h : view k = none)
    (q : Meter mints) : reading P (view.insert k (receiptAccount d)) q = reading P view q := by
  have hinsert := reading_insert (P := P) view k (receiptAccount d) q
  rwa [h, weigh_none, weigh_receipt, Nat.add_zero, Nat.add_zero] at hinsert

theorem view_of_not_credited (h : isCredited P store writes d = false) :
    viewOf store writes (depositReceiptAddress P d.l1Signature) = none ∧
      loadThrough store writes (depositReceiptAddress P d.l1Signature) = none := by
  simp only [isCredited, Bool.or_eq_false_iff, Option.isSome_eq_false_iff,
    Option.isNone_iff_eq_none] at h
  constructor
  · rw [viewOf, AccountWrites.applyTo_none h.1, h.2]
  · simp [loadThrough, h.1, h.2]

/-! ## Native credits -/

theorem tokensHeld_congr {mint : Pubkey} {a b : StoredAccount} (k : Pubkey)
    (hholds : HoldsMint mint a ↔ HoldsMint mint b)
    (hamount : amountOf (some a) = amountOf (some b)) :
    tokensHeld mint k (some a) = tokensHeld mint k (some b) := by
  by_cases h : HoldsMint mint b
  · simp only [tokensHeld, Option.some.injEq, exists_eq_left', hholds.mpr h, h, hamount]
  · rw [tokensHeld_of_not_holds h, tokensHeld_of_not_holds (mt hholds.mp h)]

theorem weigh_congr {q : Meter mints} (hq : q ≠ .lamports) (k : Pubkey) {a b : StoredAccount}
    (hdata : a.data = b.data) (howner : a.owner = b.owner) :
    weigh P q k (some a) = weigh P q k (some b) := by
  cases q with
  | lamports => exact absurd rfl hq
  | supply l1Mint => rw [weigh, weigh, supplyOf_congr hdata]
  | tokens l1Mint =>
    apply tokensHeld_congr k _ (amountOf_congr hdata)
    constructor
    · rintro ⟨hprogram, hlength, hmint⟩
      exact ⟨howner ▸ hprogram, hdata ▸ hlength, hdata ▸ hmint⟩
    · rintro ⟨hprogram, hlength, hmint⟩
      exact ⟨howner ▸ hprogram, hdata ▸ hlength, hdata ▸ hmint⟩

theorem weigh_newSystem (q : Meter mints) (k : Pubkey) :
    weigh P q k (some (StoredAccount.newSystem 0)) = 0 :=
  weigh_short (by decide) rfl

theorem weigh_credited (k : Pubkey) (account : Option StoredAccount)
    (hnative : creditsNativeGas gasMint d.mint = true)
    (hfits : lamportsOf account + d.amount.toNat < 2 ^ 64) (q : Meter mints) :
    weigh P q k (some { account.getD (StoredAccount.newSystem 0) with
        lamports := (account.getD (StoredAccount.newSystem 0)).lamports.saturatingAdd d.amount }) =
      weigh P q k account + creditedTo P gasMint d q := by
  have hsame : weigh P q k account = weigh P q k (some (account.getD (.newSystem 0))) := by
    cases account with
    | none => rw [weigh_none, Option.getD_none, weigh_newSystem]
    | some a => rfl
  cases q with
  | lamports =>
    have hlamports : (account.getD (StoredAccount.newSystem 0)).lamports.toNat =
        lamportsOf account := by cases account <;> rfl
    simp only [weigh, creditedTo, hnative, if_true, lamportsOf, Option.map_some, Option.getD_some]
    rw [UInt64.toNat_saturatingAdd_of_lt (by rwa [hlamports]), hlamports]
    rfl
  | supply l1Mint =>
    rw [hsame]
    simp only [creditedTo, hnative, Bool.true_eq_false, false_and, if_false, Nat.add_zero]
    exact weigh_congr (by simp) k rfl rfl
  | tokens l1Mint =>
    rw [hsame]
    simp only [creditedTo, hnative, Bool.true_eq_false, false_and, if_false, Nat.add_zero]
    exact weigh_congr (by simp) k rfl rfl

theorem reading_native (hnative : creditsNativeGas gasMint d.mint = true)
    (hnew : isCredited P store writes d = false)
    (hfits : lamportsOf (loadThrough store writes d.l2Recipient) + d.amount.toNat < 2 ^ 64)
    (hne : d.l2Recipient ≠ depositReceiptAddress P d.l1Signature) (q : Meter mints) :
    reading P (viewOf store ((creditNative store d.l2Recipient d.amount writes).insert
        (depositReceiptAddress P d.l1Signature) (some (receiptAccount d)))) q +
        weigh P q d.l2Recipient (viewOf store writes d.l2Recipient) =
      reading P (viewOf store writes) q +
        (weigh P q d.l2Recipient (loadThrough store writes d.l2Recipient) +
          creditedTo P gasMint d q) := by
  obtain ⟨hview, -⟩ := view_of_not_credited hnew
  rw [viewOf_insert, creditNative, viewOf_insert, reading_receipt, reading_insert,
    weigh_credited _ _ hnative hfits]
  rw [PartialMap.insert_of_ne _ _ hne.symm, hview]

theorem creditExact_native (hnative : creditsNativeGas gasMint d.mint = true)
    (hnew : isCredited P store writes d = false)
    (hfits : lamportsOf (loadThrough store writes d.l2Recipient) + d.amount.toNat < 2 ^ 64) :
    (∀ q : Meter mints, reading P (viewOf store ((creditNative store d.l2Recipient d.amount
        writes).insert (depositReceiptAddress P d.l1Signature) (some (receiptAccount d)))) q =
      reading P (viewOf store writes) q + creditedTo P gasMint d q) ↔
      NativeExact P store mints writes d := by
  by_cases hsame : d.l2Recipient = depositReceiptAddress P d.l1Signature
  · -- the receipt replaces what was credited
    obtain ⟨hview, hload⟩ := view_of_not_credited hnew
    have hlost : ∀ q : Meter mints, reading P (viewOf store ((creditNative store d.l2Recipient
        d.amount writes).insert (depositReceiptAddress P d.l1Signature)
          (some (receiptAccount d)))) q =
        reading P (viewOf store writes) q := by
      intro q
      have htwice : (creditNative store d.l2Recipient d.amount writes).insert
          (depositReceiptAddress P d.l1Signature) (some (receiptAccount d)) =
          writes.insert (depositReceiptAddress P d.l1Signature) (some (receiptAccount d)) := by
        funext k
        rw [creditNative, hsame, PartialMap.insert_apply, PartialMap.insert_apply,
          PartialMap.insert_apply]
        split <;> rfl
      rw [htwice, viewOf_insert, reading_receipt hview]
    constructor
    · intro h
      refine ⟨fun _ => ?_, fun q => ?_⟩
      · have hlamports := h .lamports
        rw [hlost, creditedTo, hnative, if_pos rfl] at hlamports
        exact UInt64.toNat_inj.mp (by simpa using hlamports)
      · rw [SameWorth, hsame, hview, hload]
    · rintro ⟨hzero, -⟩ q
      rw [hlost]
      cases q <;> simp [creditedTo, hnative, hzero hsame]
  · constructor
    · intro h
      refine ⟨fun hreceipt => absurd hreceipt hsame, fun q => ?_⟩
      have htotal := reading_native hnative hnew hfits hsame q
      rw [h q] at htotal
      unfold SameWorth
      omega
    · rintro ⟨-, hworth⟩ q
      have htotal := reading_native hnative hnew hfits hsame q
      have hq := hworth q
      unfold SameWorth at hq
      omega

/-! ## Wrapped credits -/

theorem holdsMint_congr {mint : Pubkey} {account : StoredAccount} {data : List UInt8}
    (hlength : data.length = account.data.length)
    (hfield : data.range? 0 32 = account.data.range? 0 32) :
    HoldsMint mint { account with data } ↔ HoldsMint mint account := by
  constructor
  · rintro ⟨hprogram, hlen, hmint⟩
    exact ⟨hprogram, hlength ▸ hlen, hfield ▸ hmint⟩
  · rintro ⟨hprogram, hlen, hmint⟩
    exact ⟨hprogram, hlength.trans hlen, hfield.trans hmint⟩

theorem holdsMint_setMintSupply {mint : Pubkey} {account : StoredAccount} {data : List UInt8}
    {supply : UInt64} (h : setMintSupply account.data supply = some data) :
    HoldsMint mint { account with data } ↔ HoldsMint mint account :=
  holdsMint_congr (length_setMintSupply h) (List.range?_writeAt?_of_disjoint h (.inl (by decide)))

theorem holdsMint_setTokenAccountAmount {mint : Pubkey} {account : StoredAccount}
    {data : List UInt8} {amount : UInt64}
    (h : setTokenAccountAmount account.data amount = some data) :
    HoldsMint mint { account with data } ↔ HoldsMint mint account :=
  holdsMint_congr (length_setTokenAccountAmount h)
    (List.range?_writeAt?_of_disjoint h (.inl (by decide)))

theorem HoldsMint.unique {mint mint' : Pubkey} {account : StoredAccount}
    (h : HoldsMint mint account) (h' : HoldsMint mint' account) : mint = mint' :=
  Bytes.ext (Option.some.inj (h.mint.symm.trans h'.mint))

theorem lamportsOf_mintWithSupply {amount : UInt64} {decimals : UInt8} {mint : StoredAccount}
    {old : Option StoredAccount} (h : mintWithSupply amount decimals old = some mint) :
    lamportsOf (some mint) = lamportsOf old + rentOf MINT_LEN old := by
  cases old with
  | none =>
    cases h
    simp [lamportsOf, rentOf]
  | some account =>
    obtain ⟨data, -, rfl⟩ := Option.map_eq_some_iff.mp h
    simp [lamportsOf, rentOf]

theorem weigh_mint {mint : StoredAccount} {old : Option StoredAccount}
    (hwrapped : creditsNativeGas gasMint d.mint = false)
    (h : mintWithSupply d.amount (wrappedAs d).2 old = some mint)
    (hfits : (supplyOf old).toNat + d.amount.toNat < 2 ^ 64) :
    (∀ l1Mint : mints, weigh P (.supply l1Mint) (wrappedMint P d) (some mint) =
        weigh P (.supply l1Mint) (wrappedMint P d) old +
          creditedTo P gasMint d (.supply l1Mint)) ∧
      ∀ l1Mint : mints, weigh P (.tokens l1Mint) (wrappedMint P d) (some mint) =
        weigh P (.tokens l1Mint) (wrappedMint P d) old := by
  refine ⟨fun l1Mint => ?_, fun l1Mint => ?_⟩
  · simp only [weigh, creditedTo, hwrapped, true_and]
    split
    · rw [supplyOf_mintWithSupply h, UInt64.toNat_saturatingAdd_of_lt hfits]
    · rfl
  · cases old with
    | none =>
      cases h
      rw [weigh_none]
      refine tokensHeld_of_not_holds fun hholds => ?_
      have hlength := hholds.length
      rw [length_packMint] at hlength
      exact absurd hlength (by decide)
    | some account =>
      obtain ⟨data, hdata, rfl⟩ := Option.map_eq_some_iff.mp h
      exact tokensHeld_congr _ (holdsMint_setMintSupply hdata)
        (congrArg (·.getD 0) (tokenAccountAmount_setMintSupply hdata))

theorem holdsMint_fresh (mint owner : Pubkey) (amount lamports rentEpoch : UInt64) :
    HoldsMint mint ⟨lamports, packTokenAccount mint owner amount, TOKEN_PROGRAM_ID, false,
      rentEpoch⟩ := by
  refine ⟨rfl, length_packTokenAccount .., ?_⟩
  rw [List.range?, if_pos (by rw [length_packTokenAccount]; decide), List.drop_zero,
    packTokenAccount]
  simp only [List.append_assoc]
  rw [List.take_left' (by simp)]

theorem lamportsOf_tokenWithAmount {token : StoredAccount} {old : Option StoredAccount}
    {mint owner : Pubkey} {amount : UInt64}
    (h : tokenWithAmount mint owner amount old = some token) :
    lamportsOf (some token) = lamportsOf old + rentOf ACCOUNT_LEN old := by
  cases old with
  | none =>
    cases h
    simp [lamportsOf, rentOf]
  | some account =>
    obtain ⟨data, -, rfl⟩ := Option.map_eq_some_iff.mp h
    simp [lamportsOf, rentOf]

/-- If what is loaded is a token account of the mint, or nothing is added, the credit reaches the
mint's tokens and no others. -/
theorem weigh_token {token : StoredAccount} {old : Option StoredAccount} {k : Pubkey}
    (hwrapped : creditsNativeGas gasMint d.mint = false)
    (h : tokenWithAmount (wrappedMint P d) d.l2Recipient d.amount old = some token)
    (hfits : (amountOf old).toNat + d.amount.toNat < 2 ^ 64)
    (hk : ∀ l1Mint ∈ mints, k ≠ wrappedMintAddress P l1Mint)
    (hholder : d.amount ≠ 0 → ∀ account, old = some account → HoldsMint (wrappedMint P d) account)
    (l1Mint : mints) :
    weigh P (.tokens l1Mint) k (some token) =
      weigh P (.tokens l1Mint) k old + creditedTo P gasMint d (.tokens l1Mint) := by
  have hamount : (amountOf (some token)).toNat = (amountOf old).toNat + d.amount.toNat := by
    rw [amountOf_tokenWithAmount h, UInt64.toNat_saturatingAdd_of_lt hfits]
  simp only [creditedTo, hwrapped, true_and]
  cases old with
  | none =>
    cases h
    rw [weigh_none, Nat.zero_add]
    have hfresh := holdsMint_fresh (wrappedMint P d) d.l2Recipient d.amount
      (rentExemptLamports ACCOUNT_LEN) UInt64.maxValue
    split
    · rename_i hmint
      rw [weigh, tokensHeld_of_holds (hk _ l1Mint.2) (hmint ▸ hfresh), hamount]
      simp [amountOf]
    · rename_i hmint
      exact tokensHeld_of_not_holds fun hother => hmint (hfresh.unique hother)
  | some account =>
    obtain ⟨data, hdata, rfl⟩ := Option.map_eq_some_iff.mp h
    by_cases hholds : HoldsMint (wrappedMintAddress P l1Mint) account
    · have hholds' := (holdsMint_setTokenAccountAmount hdata).mpr hholds
      rw [weigh, weigh, tokensHeld_of_holds (hk _ l1Mint.2) hholds',
        tokensHeld_of_holds (hk _ l1Mint.2) hholds, hamount]
      split
      · rfl
      · rename_i hmint
        by_cases hzero : d.amount = 0
        · simp [hzero]
        · exact absurd ((hholder hzero account rfl).unique hholds) hmint
    · have hholds' := mt (holdsMint_setTokenAccountAmount hdata).mp hholds
      rw [weigh, weigh, tokensHeld_of_not_holds hholds', tokensHeld_of_not_holds hholds]
      split
      · rename_i hmint
        by_cases hzero : d.amount = 0
        · simp [hzero]
        · exact absurd (hmint ▸ hholder hzero account rfl) hholds
      · rfl

/-- A foreign account at the token account's address holds none of the mint's tokens, before or
after the credit. -/
theorem weigh_foreign {token account : StoredAccount} {mint owner : Pubkey} {amount : UInt64}
    (l1Mint : mints) {k : Pubkey}
    (h : tokenWithAmount mint owner amount (some account) = some token)
    (hforeign : ¬ HoldsMint (wrappedMintAddress P l1Mint) account) :
    weigh P (.tokens l1Mint) k (some token) = 0 := by
  obtain ⟨data, hdata, rfl⟩ := Option.map_eq_some_iff.mp h
  exact tokensHeld_of_not_holds (mt (holdsMint_setTokenAccountAmount hdata).mp hforeign)

def DerivedApart.own (hapart : DerivedApart P mints d) : mints :=
  ⟨(wrappedAs d).1, hapart.listed⟩

theorem DerivedApart.account_wrappedMint (hapart : DerivedApart P mints d) :
    wrappedAccount P d ≠ wrappedMint P d :=
  hapart.token_mint _ hapart.listed

theorem creditDeposit_wrapped (hapart : DerivedApart P mints d)
    (hwrapped : creditsNativeGas gasMint d.mint = false) {writes' : AccountWrites} :
    creditDeposit P store gasMint writes d = some writes' ↔ ∃ mint token,
      mintWithSupply d.amount (wrappedAs d).2 (loadThrough store writes (wrappedMint P d)) =
          some mint ∧
        tokenWithAmount (wrappedMint P d) d.l2Recipient d.amount
          (loadThrough store writes (wrappedAccount P d)) = some token ∧
        (writes.insert (wrappedMint P d) (some mint)).insert (wrappedAccount P d) (some token) =
          writes' := by
  have hload : ∀ mint, loadThrough store (writes.insert (wrappedMint P d) (some mint))
      (wrappedAccount P d) = loadThrough store writes (wrappedAccount P d) := fun mint => by
    rw [loadThrough_insert, if_neg (hapart.account_wrappedMint)]
  rw [creditDeposit, hwrapped, if_neg Bool.false_ne_true, creditWrappedSpl, Option.bind_eq_bind,
    Option.bind_eq_some_iff]
  constructor
  · rintro ⟨minted, hminted, hcredited⟩
    obtain ⟨mint, hmint, rfl⟩ := Option.map_eq_some_iff.mp hminted
    obtain ⟨token, htoken, rfl⟩ := Option.map_eq_some_iff.mp hcredited
    exact ⟨mint, token, hmint, (congrArg _ (hload mint)).symm.trans htoken, rfl⟩
  · rintro ⟨mint, token, hmint, htoken, rfl⟩
    exact ⟨_, Option.map_eq_some_iff.mpr ⟨mint, hmint, rfl⟩,
      Option.map_eq_some_iff.mpr ⟨token, (congrArg _ (hload mint)).trans htoken, rfl⟩⟩

theorem reading_wrapped (hapart : DerivedApart P mints d)
    (hnew : isCredited P store writes d = false) (mint token : StoredAccount) (q : Meter mints) :
    reading P (viewOf store (wrappedCredit P writes d mint token)) q +
        (weigh P q (wrappedMint P d) (viewOf store writes (wrappedMint P d)) +
          weigh P q (wrappedAccount P d) (viewOf store writes (wrappedAccount P d))) =
      reading P (viewOf store writes) q +
        (weigh P q (wrappedMint P d) (some mint) +
          weigh P q (wrappedAccount P d) (some token)) := by
  obtain ⟨hview, -⟩ := view_of_not_credited hnew
  have htoken := reading_insert (P := P) ((viewOf store writes).insert (wrappedMint P d) mint)
    (wrappedAccount P d) token q
  have hmint := reading_insert (P := P) (viewOf store writes) (wrappedMint P d) mint q
  rw [PartialMap.insert_of_ne _ _ (hapart.account_wrappedMint)] at htoken
  rw [wrappedCredit, viewOf_insert, viewOf_insert, viewOf_insert, reading_receipt]
  · omega
  · rw [PartialMap.insert_of_ne _ _ (hapart.receipt_token),
      PartialMap.insert_of_ne _ _ (hapart.receipt_mint), hview]

theorem weigh_supply_token (hapart : DerivedApart P mints d) (l1Mint : mints)
    (account : Option StoredAccount) :
    weigh P (.supply l1Mint) (wrappedAccount P d) account = 0 :=
  if_neg (hapart.token_mint _ l1Mint.2)

section Wrapped

variable {mint token : StoredAccount} (hapart : DerivedApart P mints d)
  (hwrapped : creditsNativeGas gasMint d.mint = false)
  (hnew : isCredited P store writes d = false)
  (hsupply : (supplyOf (loadThrough store writes (wrappedMint P d))).toNat + d.amount.toNat <
    2 ^ 64)
  (hmint : mintWithSupply d.amount (wrappedAs d).2 (loadThrough store writes (wrappedMint P d)) =
    some mint)
  (htoken : tokenWithAmount (wrappedMint P d) d.l2Recipient d.amount
    (loadThrough store writes (wrappedAccount P d)) = some token)

include hapart hwrapped hnew hsupply hmint

omit hsupply in
include htoken in
theorem wrapped_lamports_iff :
    reading P (viewOf store (wrappedCredit P writes d mint token)) (.lamports : Meter mints) =
      reading P (viewOf store writes) (.lamports : Meter mints) +
        (creditedTo P gasMint d (.lamports : Meter mints) +
          createdRent P gasMint (viewOf store writes) d (.lamports : Meter mints)) ↔
      fundedLamports (loadThrough store writes (wrappedMint P d))
          (loadThrough store writes (wrappedAccount P d)) =
        fundedLamports (viewOf store writes (wrappedMint P d))
          (viewOf store writes (wrappedAccount P d)) := by
  have htotal := reading_wrapped hapart hnew mint token .lamports
  have hm := lamportsOf_mintWithSupply hmint
  have ha := lamportsOf_tokenWithAmount htoken
  simp only [weigh, hm, ha] at htotal
  simp only [creditedTo, createdRent, hwrapped, Bool.false_eq_true, if_false, fundedLamports]
  omega

theorem wrapped_supply_iff :
    (∀ l1Mint : mints,
        reading P (viewOf store (wrappedCredit P writes d mint token)) (.supply l1Mint) =
      reading P (viewOf store writes) (.supply l1Mint) + creditedTo P gasMint d (.supply l1Mint)) ↔
      supplyOf (loadThrough store writes (wrappedMint P d)) =
        supplyOf (viewOf store writes (wrappedMint P d)) := by
  have htotal : ∀ l1Mint : mints, _ := fun l1Mint =>
    reading_wrapped hapart hnew mint token (.supply l1Mint)
  simp only [weigh_supply_token hapart, Nat.add_zero,
    (weigh_mint (P := P) hwrapped hmint hsupply).1] at htotal
  constructor
  · intro h
    have hown := htotal hapart.own
    rw [h] at hown
    simp only [weigh, wrappedMint, DerivedApart.own, if_true] at hown
    exact UInt64.toNat_inj.mp (by unfold wrappedMint; omega)
  · intro h l1Mint
    have hother := htotal l1Mint
    have hsame : weigh P (.supply l1Mint) (wrappedMint P d)
        (loadThrough store writes (wrappedMint P d)) =
        weigh P (.supply l1Mint) (wrappedMint P d) (viewOf store writes (wrappedMint P d)) := by
      rw [weigh, weigh, h]
    omega

include htoken in
theorem wrapped_tokens_iff
    (hamount : (amountOf (loadThrough store writes (wrappedAccount P d))).toNat + d.amount.toNat <
      2 ^ 64) :
    (∀ l1Mint : mints,
        reading P (viewOf store (wrappedCredit P writes d mint token)) (.tokens l1Mint) =
      reading P (viewOf store writes) (.tokens l1Mint) + creditedTo P gasMint d (.tokens l1Mint)) ↔
      (∀ l1Mint : mints, SameWorth P store writes (wrappedMint P d) (.tokens l1Mint) ∧
        SameWorth P store writes (wrappedAccount P d) (.tokens l1Mint)) ∧
      (d.amount ≠ 0 → ∀ account, loadThrough store writes (wrappedAccount P d) = some account →
        HoldsMint (wrappedMint P d) account) := by
  have htotal : ∀ l1Mint : mints, _ := fun l1Mint =>
    reading_wrapped hapart hnew mint token (.tokens l1Mint)
  simp only [(weigh_mint (P := P) hwrapped hmint hsupply).2] at htotal
  constructor
  · intro h
    have hholder : d.amount ≠ 0 → ∀ account,
        loadThrough store writes (wrappedAccount P d) = some account →
          HoldsMint (wrappedMint P d) account := by
      intro hpos account hload
      by_contra hforeign
      -- no token of the mint is held at the mint or at the foreign account
      have hown := htotal hapart.own
      rw [hload] at htoken
      rw [h, weigh_foreign hapart.own htoken hforeign] at hown
      have hat : ∀ a, weigh P (.tokens hapart.own) (wrappedMint P d) a = 0 := fun a => by
        simp [weigh, tokensHeld, wrappedMint, DerivedApart.own]
      have hcredited : creditedTo P gasMint d (.tokens hapart.own) = d.amount.toNat := by
        simp [creditedTo, hwrapped, wrappedMint, DerivedApart.own]
      rw [hat, hat, hcredited] at hown
      exact hpos (UInt64.toNat_inj.mp (by simp; omega))
    refine ⟨fun l1Mint => ?_, hholder⟩
    have hsame := htotal l1Mint
    rw [h, weigh_token hwrapped htoken hamount hapart.token_mint hholder] at hsame
    have hm := @weigh_view_le P store writes mints (.tokens l1Mint) (wrappedMint P d)
    have ha := @weigh_view_le P store writes mints (.tokens l1Mint) (wrappedAccount P d)
    unfold SameWorth
    omega
  · rintro ⟨hsame, hholder⟩ l1Mint
    obtain ⟨hm, ha⟩ := hsame l1Mint
    have hown := htotal l1Mint
    rw [weigh_token hwrapped htoken hamount hapart.token_mint hholder, hm, ha] at hown
    omega

end Wrapped

theorem creditExact_wrapped (hapart : DerivedApart P mints d)
    (hwrapped : creditsNativeGas gasMint d.mint = false)
    (hnew : isCredited P store writes d = false)
    (hsupply : (supplyOf (loadThrough store writes (wrappedMint P d))).toNat + d.amount.toNat <
      2 ^ 64)
    (hamount : (amountOf (loadThrough store writes (wrappedAccount P d))).toNat + d.amount.toNat <
      2 ^ 64) :
    (∃ writes', creditDeposit P store gasMint writes d = some writes' ∧
      ∀ q : Meter mints, reading P (viewOf store (writes'.insert
          (depositReceiptAddress P d.l1Signature) (some (receiptAccount d)))) q =
        reading P (viewOf store writes) q +
          (creditedTo P gasMint d q + createdRent P gasMint (viewOf store writes) d q)) ↔
      WrappedExact P store mints writes d := by
  constructor
  · rintro ⟨writes', hcredit, h⟩
    obtain ⟨hmintFits, htokenFits⟩ := (creditDeposit_isSome hwrapped).mp (by rw [hcredit]; rfl)
    obtain ⟨mint, token, hmint, htoken, rfl⟩ := (creditDeposit_wrapped hapart hwrapped).mp hcredit
    obtain ⟨htokens, hholder⟩ :=
      (wrapped_tokens_iff hapart hwrapped hnew hsupply hmint htoken hamount).mp
        fun l1Mint => h (.tokens l1Mint)
    exact {
      mintFits := hmintFits
      tokenFits := htokenFits
      lamports := (wrapped_lamports_iff hapart hwrapped hnew hmint htoken).mp (h .lamports)
      supply := (wrapped_supply_iff hapart hwrapped hnew hsupply hmint).mp
        fun l1Mint => h (.supply l1Mint)
      tokens := htokens
      holder := hholder }
  · intro h
    obtain ⟨mint, hmint⟩ := Option.isSome_iff_exists.mp (mintWithSupply_isSome.mpr h.mintFits)
    obtain ⟨token, htoken⟩ := Option.isSome_iff_exists.mp (tokenWithAmount_isSome.mpr h.tokenFits)
    refine ⟨_, (creditDeposit_wrapped hapart hwrapped).mpr ⟨mint, token, hmint, htoken, rfl⟩,
      fun q => ?_⟩
    cases q with
    | lamports =>
      exact (wrapped_lamports_iff hapart hwrapped hnew hmint htoken).mpr h.lamports
    | supply l1Mint =>
      exact (wrapped_supply_iff hapart hwrapped hnew hsupply hmint).mpr h.supply l1Mint
    | tokens l1Mint =>
      exact (wrapped_tokens_iff hapart hwrapped hnew hsupply hmint htoken hamount).mpr
        ⟨h.tokens, h.holder⟩ l1Mint

end Credit

/-! ## The loop -/

section Loop

variable (P : Prims) (store : Store) (gasMint : Option Pubkey) {mints : Set Pubkey}

/-- What one round of the loop adds to a total: nothing for a deposit credited before. -/
def gain (acc : AccountWrites × List DepositEvent) (d : DepositEvent) (q : Meter mints) : ℕ :=
  if isCredited P store acc.1 d then 0
  else creditedTo P gasMint d q + createdRent P gasMint (viewOf store acc.1) d q

variable {P store gasMint} {acc out : AccountWrites × List DepositEvent} {d : DepositEvent}

theorem applyDeposit_of_new (hnew : isCredited P store acc.1 d = false) :
    applyDeposit P store gasMint acc d = some out ↔
      ∃ writes, creditDeposit P store gasMint acc.1 d = some writes ∧
        (writes.insert (depositReceiptAddress P d.l1Signature) (some (receiptAccount d)),
          acc.2 ++ [d]) = out := by
  rw [applyDeposit, hnew, if_neg Bool.false_ne_true, Option.bind_eq_bind, Option.bind_eq_some_iff]
  simp

theorem applyDeposit_gain_iff (hapart : DerivedApart P mints d)
    (hfits : isCredited P store acc.1 d = false → CreditFits P store gasMint acc.1 d) :
    (∃ out, applyDeposit P store gasMint acc d = some out ∧
      ∀ q : Meter mints, reading P (viewOf store out.1) q =
        reading P (viewOf store acc.1) q + gain P store gasMint acc d q) ↔
      CreditExact P store gasMint mints acc.1 d := by
  unfold CreditExact gain
  cases hcredited : isCredited P store acc.1 d with
  | true => simp [applyDeposit, hcredited]
  | false =>
    have hfits := hfits hcredited
    unfold CreditFits at hfits
    simp only [applyDeposit_of_new hcredited, Bool.false_eq_true, if_false, forall_const]
    cases hroute : creditsNativeGas gasMint d.mint with
    | true =>
      rw [hroute, if_pos rfl] at hfits
      rw [if_pos rfl, ← creditExact_native hroute hcredited hfits]
      have hrent : ∀ q : Meter mints,
          createdRent P gasMint (viewOf store acc.1) d q = 0 := fun q => by
        cases q <;> simp [createdRent, hroute]
      simp [creditDeposit, hroute, hrent]
    | false =>
      rw [hroute, if_neg Bool.false_ne_true] at hfits
      rw [if_neg Bool.false_ne_true,
        ← creditExact_wrapped hapart hroute hcredited hfits.1 hfits.2]
      constructor
      · rintro ⟨out, ⟨writes, hcredit, rfl⟩, h⟩
        exact ⟨writes, hcredit, h⟩
      · rintro ⟨writes, hcredit, h⟩
        exact ⟨_, ⟨writes, hcredit, rfl⟩, h⟩

theorem tally_gain {deposits : List DepositEvent}
    (hrun : deposits.foldlM (applyDeposit P store gasMint) acc = some out) :
    ∃ credited, out.2 = acc.2 ++ credited ∧
      ∀ q : Meter mints,
        List.tally (applyDeposit P store gasMint) (gain P store gasMint) acc deposits q =
        (credited.map fun d => creditedTo P gasMint d q).sum +
          rentAlong P store gasMint acc deposits q := by
  induction deposits generalizing acc with
  | nil =>
    cases hrun
    exact ⟨[], by simp, fun q => rfl⟩
  | cons d deposits ih =>
    rw [List.foldlM_cons, Option.bind_eq_bind, Option.bind_eq_some_iff] at hrun
    obtain ⟨next, hstep, hrest⟩ := hrun
    obtain ⟨credited, hout, hgain⟩ := ih hrest
    obtain ⟨hold, rfl⟩ | ⟨hnew, writes, -, rfl⟩ := applyDeposit_cases hstep
    · refine ⟨credited, hout, fun q => ?_⟩
      rw [rentAlong, List.tally, List.tally, hstep, Option.elim_some, Option.elim_some, hgain,
        rentAlong, gain, hold, if_pos rfl, if_pos rfl, Pi.zero_apply]
      omega
    · refine ⟨d :: credited, by rw [hout]; simp, fun q => ?_⟩
      rw [rentAlong, List.tally, List.tally, hstep, Option.elim_some, Option.elim_some, hgain,
        rentAlong, gain, hnew, if_neg Bool.false_ne_true, if_neg Bool.false_ne_true, List.map_cons,
        List.sum_cons]
      omega

/-- Deposits that overflow no field are accounted for, after every number of them and in the tokens
of all the mints measured, exactly if each new one finds accounts on which its credit is exact. -/
theorem deposits_accounted_iff (P : Prims) (store : Store) (gasMint : Option Pubkey)
    (mints : Set Pubkey) (writes : AccountWrites) (deposits : List DepositEvent)
    (hapart : ∀ d ∈ deposits, DerivedApart P mints d)
    (hfits : List.Along (applyDeposit P store gasMint)
      (fun acc d => isCredited P store acc.1 d = false → CreditFits P store gasMint acc.1 d)
      (writes, []) deposits) :
    (∀ before, before <+: deposits → DepositsAccounted P store gasMint mints writes before) ↔
      List.Along (applyDeposit P store gasMint)
        (fun acc d => CreditExact P store gasMint mints acc.1 d) (writes, []) deposits := by
  refine Iff.trans (forall₂_congr fun before _ => ?_)
    ((List.tally_iff_along (fun acc => reading P (viewOf store acc.1)) (writes, []) deposits).trans
      (List.along_congr (hfits.and_forall hapart) fun acc d h => applyDeposit_gain_iff h.2 h.1))
  constructor
  · rintro ⟨writes', credited, hrun, h⟩
    obtain ⟨new, hnew, htally⟩ := tally_gain hrun
    obtain rfl : credited = new := hnew
    refine ⟨_, hrun, fun q => ?_⟩
    rw [h, htally, Nat.add_assoc]
  · rintro ⟨⟨writes', credited⟩, hrun, h⟩
    obtain ⟨new, hnew, htally⟩ := tally_gain hrun
    obtain rfl : credited = new := hnew
    refine ⟨writes', credited, hrun, fun q => ?_⟩
    rw [h, htally, Nat.add_assoc]

end Loop

namespace Sample

def apartPrims : Prims where
  blake3 bytes := Bytes.replicate 32 (bytes.getD 11 0)
  findProgramAddress _ _ := Bytes.replicate 32 1
  poseidon _ := 0

theorem blake3_apartPrims (domain data : List UInt8) (h : 11 < domain.length) :
    apartPrims.blake3_32 domain data = Bytes.replicate 32 (domain.getD 11 0) :=
  congrArg (Bytes.replicate 32) (List.getD_append _ _ _ _ h)

theorem receipt_apartPrims (sig : String) :
    depositReceiptAddress apartPrims sig = Bytes.replicate 32 100 :=
  (blake3_apartPrims _ _ (by decide)).trans (by decide)

theorem wrappedMint_apartPrims (l1Mint : Pubkey) :
    wrappedMintAddress apartPrims l1Mint = Bytes.replicate 32 119 :=
  (blake3_apartPrims _ _ (by decide)).trans (by decide)

theorem derivedApart (d : DepositEvent) : DerivedApart apartPrims Set.univ d where
  listed := Set.mem_univ _
  token_mint l1Mint _ := by
    rw [wrappedMint_apartPrims]
    exact (by decide : (Bytes.replicate 32 1 : Pubkey) ≠ Bytes.replicate 32 119)
  receipt_mint := by
    rw [receipt_apartPrims, wrappedMint, wrappedMint_apartPrims]
    decide
  receipt_token := by
    rw [receipt_apartPrims]
    exact (by decide : (Bytes.replicate 32 100 : Pubkey) ≠ Bytes.replicate 32 1)

def otherGas : Option Pubkey := some (Bytes.replicate 32 7)

def payerDeposit : DepositEvent := { deposit with l2Recipient := payer }

end Sample

/-- The first deposit of wrapped SOL creates the mint and the recipient's token account, and is
accounted for with their rent. -/
theorem first_deposit_accounted :
    DerivedApart Sample.apartPrims Set.univ Sample.deposit ∧
      creditsNativeGas Sample.otherGas Sample.deposit.mint = false ∧
      DepositsAccounted Sample.apartPrims Store.empty Sample.otherGas Set.univ
        (fun _ => none) [Sample.deposit] := by
  have hroute : creditsNativeGas Sample.otherGas Sample.deposit.mint = false := by decide
  refine ⟨Sample.derivedApart _, hroute,
    (deposits_accounted_iff Sample.apartPrims Store.empty Sample.otherGas Set.univ
      (fun _ => none) [Sample.deposit] (fun d _ => Sample.derivedApart d) ?_).mpr ?_ _
        (List.prefix_refl _)⟩
  · refine ⟨fun _ => ?_, fun _ _ => trivial⟩
    rw [CreditFits, hroute, if_neg Bool.false_ne_true]
    exact ⟨by decide, by decide⟩
  · refine ⟨fun _ => ?_, fun _ _ => trivial⟩
    rw [hroute, if_neg Bool.false_ne_true]
    exact {
      mintFits := atLeast_none 44
      tokenFits := atLeast_none 72
      lamports := rfl
      supply := rfl
      tokens := fun _ => ⟨rfl, rfl⟩
      holder := fun _ account h => by cases h }

/-- A deposit to an account the block has deleted writes the committed account back: the lamports
grow by what it held before the block too. -/
theorem deleted_recipient_revived :
    viewOf Sample.payerStore Sample.payerDeleted Sample.payer = none ∧ ∀ mints : Set Pubkey,
      ¬ DepositsAccounted Sample.apartPrims Sample.payerStore none mints Sample.payerDeleted
        [Sample.payerDeposit] ∧
      ∃ writes, applyDeposits Sample.apartPrims Sample.payerStore none [Sample.payerDeposit]
          Sample.payerDeleted = some (writes, [Sample.payerDeposit]) ∧
        reading Sample.apartPrims (viewOf Sample.payerStore writes) (.lamports : Meter mints) =
          reading Sample.apartPrims (viewOf Sample.payerStore Sample.payerDeleted)
            (.lamports : Meter mints) + (1000000000 + 500) := by
  have hnew : isCredited Sample.apartPrims Sample.payerStore Sample.payerDeleted
      Sample.payerDeposit = false := by
    rw [isCredited, Sample.receipt_apartPrims]
    decide
  have hapart : Sample.payerDeposit.l2Recipient ≠
      depositReceiptAddress Sample.apartPrims Sample.payerDeposit.l1Signature := by
    rw [Sample.receipt_apartPrims]
    decide
  have hgone : viewOf Sample.payerStore Sample.payerDeleted Sample.payer = none := by decide
  refine ⟨hgone, fun mints => ?_⟩
  have htotal := @reading_native Sample.apartPrims Sample.payerStore none Sample.payerDeleted
    Sample.payerDeposit mints (by decide) hnew (by decide) hapart .lamports
  have hbefore : weigh Sample.apartPrims (.lamports : Meter mints) Sample.payer
      (loadThrough Sample.payerStore Sample.payerDeleted Sample.payer) = 1000000000 := by
    rw [weigh]
    decide
  have hrecipient : Sample.payerDeposit.l2Recipient = Sample.payer := rfl
  rw [hrecipient, hgone, hbefore, weigh_none, Nat.add_zero] at htotal
  have hrun : applyDeposits Sample.apartPrims Sample.payerStore none [Sample.payerDeposit]
      Sample.payerDeleted = some (_, [Sample.payerDeposit]) :=
    (bind_pure _).trans ((applyDeposit_of_new hnew).mpr ⟨_, rfl, rfl⟩)
  refine ⟨?_, _, hrun, htotal⟩
  rintro ⟨writes, credited, hagain, h⟩
  obtain ⟨rfl, rfl⟩ := Prod.mk.inj (Option.some.inj (hrun.symm.trans hagain))
  have hlamports := htotal.symm.trans (h .lamports)
  have hrent : rentAlong Sample.apartPrims Sample.payerStore none (Sample.payerDeleted, [])
      [Sample.payerDeposit] (.lamports : Meter mints) = 0 := by
    rw [rentAlong, List.tally, hnew]
    rfl
  rw [hrent, List.map_singleton, List.sum_singleton] at hlamports
  omega

end Zul.Node
