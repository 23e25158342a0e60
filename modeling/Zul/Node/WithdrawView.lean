import Zul.Node.Buffers

/-! # Withdrawals on the current view

A reference for the withdrawal loop: it works on the accounts as the block's writes leave them,
where a deleted account is gone, and does what it says in exact amounts or not at all. The loop
itself falls back to the committed account where the block deleted one, saturates, and writes
the payer as it was read before the burn. It follows the reference exactly where none of this
shows.
-/

namespace Zul.Node

open Bridge Privacy PoolService WrappedSpl

def viewOf (store : Store) (writes : AccountWrites) : PartialMap Pubkey StoredAccount :=
  writes.applyTo store.getAccount

def supplyOf (account : Option StoredAccount) : UInt64 :=
  (account.bind fun a => mintSupply a.data).getD 0

/-! ## The reference -/

namespace Reference

def debitTokens (v : PartialMap Pubkey StoredAccount) (k : Pubkey) (amount : UInt64) :
    Option (PartialMap Pubkey StoredAccount) :=
  match v k with
  | none => none
  | some account =>
    if amount ≤ amountOf (some account) then
      (setTokenAccountAmount account.data (amountOf (some account) - amount)).map fun data =>
        v.insert k { account with data }
    else none

def lowerSupply (v : PartialMap Pubkey StoredAccount) (k : Pubkey) (amount : UInt64) :
    Option (PartialMap Pubkey StoredAccount) :=
  match v k with
  | none => none
  | some mint =>
    if amount ≤ supplyOf (some mint) then
      (setMintSupply mint.data (supplyOf (some mint) - amount)).map fun data =>
        v.insert k { mint with data }
    else none

def debitLamports (v : PartialMap Pubkey StoredAccount) (k : Pubkey) (n : ℕ) :
    Option (PartialMap Pubkey StoredAccount) :=
  match v k with
  | none => none
  | some account =>
    if n ≤ account.lamports.toNat then
      some (v.insert k { account with lamports := UInt64.ofNat (account.lamports.toNat - n) })
    else none

/-- Give lamports to an account, creating it if needed, if it can hold them. -/
def creditLamports (v : PartialMap Pubkey StoredAccount) (k : Pubkey) (n : ℕ) :
    Option (PartialMap Pubkey StoredAccount) :=
  let account := (v k).getD (StoredAccount.newSystem 0)
  if account.lamports.toNat + n < 2 ^ 64 then
    some (v.insert k { account with lamports := UInt64.ofNat (account.lamports.toNat + n) })
  else none

section Inversion

variable {v v' : PartialMap Pubkey StoredAccount} {k : Pubkey}

theorem debitTokens_eq_some {amount : UInt64} (h : debitTokens v k amount = some v') :
    ∃ account data, v k = some account ∧ amount ≤ amountOf (some account) ∧
      setTokenAccountAmount account.data (amountOf (some account) - amount) = some data ∧
      v' = v.insert k { account with data } := by
  unfold debitTokens at h
  split at h
  · cases h
  · rename_i account haccount
    split at h
    · rename_i hcovered
      obtain ⟨data, hdata, rfl⟩ := Option.map_eq_some_iff.mp h
      exact ⟨account, data, haccount, hcovered, hdata, rfl⟩
    · cases h

theorem lowerSupply_eq_some {amount : UInt64} (h : lowerSupply v k amount = some v') :
    ∃ mint data, v k = some mint ∧ amount ≤ supplyOf (some mint) ∧
      setMintSupply mint.data (supplyOf (some mint) - amount) = some data ∧
      v' = v.insert k { mint with data } := by
  unfold lowerSupply at h
  split at h
  · cases h
  · rename_i mint hmint
    split at h
    · rename_i hcovered
      obtain ⟨data, hdata, rfl⟩ := Option.map_eq_some_iff.mp h
      exact ⟨mint, data, hmint, hcovered, hdata, rfl⟩
    · cases h

theorem debitLamports_eq_some {n : ℕ} (h : debitLamports v k n = some v') :
    ∃ account lamports, v k = some account ∧ v' = v.insert k { account with lamports } := by
  unfold debitLamports at h
  split at h
  · cases h
  · rename_i account haccount
    split at h
    · cases h
      exact ⟨account, _, haccount, rfl⟩
    · cases h

theorem creditLamports_eq_some {n : ℕ} (h : creditLamports v k n = some v') :
    ((v k).getD (StoredAccount.newSystem 0)).lamports.toNat + n < 2 ^ 64 ∧
      v' = v.insert k { (v k).getD (StoredAccount.newSystem 0) with
        lamports := UInt64.ofNat
          (((v k).getD (StoredAccount.newSystem 0)).lamports.toNat + n) } := by
  unfold creditLamports at h
  dsimp only at h
  split at h
  · rename_i hfits
    cases h
    exact ⟨hfits, rfl⟩
  · cases h

end Inversion

variable (P : Prims) (gasMint : Option Pubkey) (feeCollector : Pubkey)

/-- What a withdrawal costs its payer: the fee, and the amount if it is native. -/
def cost (w : WithdrawTx) : ℕ :=
  POOL_TX_FEE.toNat + if w.isNative gasMint then w.amount.toNat else 0

def burn (v : PartialMap Pubkey StoredAccount) (w : WithdrawTx) :
    Option (PartialMap Pubkey StoredAccount) :=
  if w.isNative gasMint then some v
  else (debitTokens v (w.wrappedAccount P) w.amount).bind fun v =>
    lowerSupply v (w.wrappedMint P) w.amount

/-- One withdrawal on a view, with the leaves emitted so far. A withdrawal the view does not
cover changes nothing; `none` is a covered one that has no exact result. -/
def withdraw (acc : PartialMap Pubkey StoredAccount × List (Pubkey × H256)) (w : WithdrawTx) :
    Option (PartialMap Pubkey StoredAccount × List (Pubkey × H256)) :=
  if Covers P gasMint acc.1 (cost gasMint w) w then do
    let v ← burn P gasMint acc.1 w
    let v ← debitLamports v w.feePayer (cost gasMint w)
    let v ← creditLamports v feeCollector POOL_TX_FEE.toNat
    return (v, acc.2 ++ [w.leaf P])
  else some acc

variable {P gasMint feeCollector}

theorem withdraw_eq_some_iff {acc out : PartialMap Pubkey StoredAccount × List (Pubkey × H256)}
    {w : WithdrawTx} (h : Covers P gasMint acc.1 (cost gasMint w) w) :
    withdraw P gasMint feeCollector acc w = some out ↔
      ∃ v, burn P gasMint acc.1 w = some v ∧
        ((debitLamports v w.feePayer (cost gasMint w)).bind fun v =>
          creditLamports v feeCollector POOL_TX_FEE.toNat) = some out.1 ∧
        out.2 = acc.2 ++ [w.leaf P] := by
  obtain ⟨view, leaves⟩ := out
  rw [withdraw, if_pos h]
  simp only [Option.bind_eq_bind, Option.pure_def, Option.bind_eq_some_iff, Option.some.injEq,
    Prod.mk.injEq]
  constructor
  · rintro ⟨v, hv, vd, hvd, vc, hvc, rfl, rfl⟩
    exact ⟨v, hv, ⟨vd, hvd, hvc⟩, rfl⟩
  · rintro ⟨v, hv, ⟨vd, hvd, hvc⟩, rfl⟩
    exact ⟨v, hv, vd, hvd, _, hvc, rfl, rfl⟩

structure Burned (P : Prims) (w : WithdrawTx) (v v' : PartialMap Pubkey StoredAccount) : Prop where
  covered : w.amount ≤ amountOf (v (w.wrappedAccount P))
  recorded : w.amount ≤ supplyOf (v (w.wrappedMint P))
  amount : amountOf (v' (w.wrappedAccount P)) = amountOf (v (w.wrappedAccount P)) - w.amount
  supply : supplyOf (v' (w.wrappedMint P)) = supplyOf (v (w.wrappedMint P)) - w.amount
  lamports : ∀ k, lamportsOf (v' k) = lamportsOf (v k)
  others : ∀ k, k ≠ w.wrappedAccount P → k ≠ w.wrappedMint P → v' k = v k

theorem burned_of_burn {v v' : PartialMap Pubkey StoredAccount} {w : WithdrawTx}
    (hwrapped : w.isNative gasMint = false) (h : burn P gasMint v w = some v') :
    Burned P w v v' := by
  rw [burn, hwrapped, if_neg Bool.false_ne_true, Option.bind_eq_some_iff] at h
  obtain ⟨v₁, hdebit, hlower⟩ := h
  obtain ⟨token, data, htoken, hcovered, hdata, rfl⟩ := debitTokens_eq_some hdebit
  obtain ⟨mint, lowered, hmint, hrecorded, hlowered, rfl⟩ := lowerSupply_eq_some hlower
  -- the mint before the burn; it may be the token account itself
  obtain ⟨before, hbefore, hsupply, hlamports⟩ : ∃ before, v (w.wrappedMint P) = some before ∧
      supplyOf (some before) = supplyOf (some mint) ∧ before.lamports = mint.lamports := by
    rw [PartialMap.insert_apply] at hmint
    split at hmint
    · rename_i hsame
      cases hmint
      refine ⟨token, by rw [hsame, htoken], ?_, rfl⟩
      simp [supplyOf, mintSupply_setTokenAccountAmount hdata]
    · exact ⟨mint, hmint, rfl, rfl⟩
  refine ⟨by rwa [htoken], by rwa [hbefore, hsupply], ?_, ?_, fun k => ?_, fun k hata hwmint => ?_⟩
  · rw [htoken, PartialMap.insert_apply]
    split
    · rename_i hsame
      rw [← hsame, PartialMap.insert_self] at hmint
      cases hmint
      simp [amountOf, tokenAccountAmount_setMintSupply hlowered, tokenAccountAmount_set hdata]
    · rw [PartialMap.insert_self]
      simp [amountOf, tokenAccountAmount_set hdata]
  · rw [hbefore, PartialMap.insert_self, hsupply]
    simp [supplyOf, mintSupply_set hlowered]
  · rw [PartialMap.insert_apply]
    split
    · rename_i hk
      rw [hk, hbefore]
      simp [lamportsOf, hlamports]
    · rw [PartialMap.insert_apply]
      split
      · rename_i hk
        rw [hk, htoken]
        rfl
      · rfl
  · rw [PartialMap.insert_of_ne _ _ hwmint, PartialMap.insert_of_ne _ _ hata]

end Reference

section Refinement

variable (P : Prims) (store : Store) (gasMint : Option Pubkey) (feeCollector : Pubkey)

def withdrawnView (acc : Withdrawn) : PartialMap Pubkey StoredAccount × List (Pubkey × H256) :=
  (viewOf store acc.writes, acc.accepted.map (·.leaf P))

/-- The loop reads what the reference reads: if the accounts as loaded cover the withdrawal, no
account it uses was deleted in this block, the sums fit, the mint records the burned amount, and
the payer is not the token account or the mint. A deleted collector does no harm if the
committed one was an empty system account. -/
structure ReadsCurrent (writes : AccountWrites) (w : WithdrawTx) : Prop where
  payer : loadThrough store writes w.feePayer = viewOf store writes w.feePayer
  native : w.isNative gasMint = true → w.amount.toNat + POOL_TX_FEE.toNat < 2 ^ 64
  tokens : w.isNative gasMint = false →
    loadThrough store writes (w.wrappedAccount P) = viewOf store writes (w.wrappedAccount P) ∧
    loadThrough store writes (w.wrappedMint P) = viewOf store writes (w.wrappedMint P) ∧
    w.amount ≤ supplyOf (loadThrough store writes (w.wrappedMint P)) ∧
    w.feePayer ≠ w.wrappedAccount P ∧ w.feePayer ≠ w.wrappedMint P
  collector : (loadThrough store writes feeCollector).getD (StoredAccount.newSystem 0) =
    (viewOf store writes feeCollector).getD (StoredAccount.newSystem 0)
  fits : feeCollector ≠ w.feePayer →
    lamportsOf (viewOf store writes feeCollector) + POOL_TX_FEE.toNat < 2 ^ 64

variable {P store gasMint feeCollector}

theorem viewOf_insert (writes : AccountWrites) (k : Pubkey) (account : StoredAccount) :
    viewOf store (writes.insert k (some account)) = (viewOf store writes).insert k account := by
  funext j
  rw [viewOf, AccountWrites.applyTo, PartialMap.insert_apply, PartialMap.insert_apply]
  split <;> rfl

theorem loadThrough_of_viewOf {writes : AccountWrites} {k : Pubkey} {account : StoredAccount}
    (h : viewOf store writes k = some account) : loadThrough store writes k = some account := by
  rw [viewOf, AccountWrites.applyTo] at h
  rw [loadThrough]
  cases hk : writes k with
  | none => simpa [hk] using h
  | some written => simp_all

theorem neededNative_le_cost (w : WithdrawTx) :
    (w.neededNative gasMint).toNat ≤ Reference.cost gasMint w := by
  unfold WithdrawTx.neededNative Reference.cost
  split
  · exact (UInt64.toNat_saturatingAdd_le _ _).trans (Nat.add_comm _ _).le
  · exact Nat.le_refl _

theorem neededNative_eq_cost {w : WithdrawTx}
    (h : w.isNative gasMint = true → w.amount.toNat + POOL_TX_FEE.toNat < 2 ^ 64) :
    (w.neededNative gasMint).toNat = Reference.cost gasMint w := by
  unfold WithdrawTx.neededNative Reference.cost
  split
  · rename_i hnative
    rw [UInt64.toNat_saturatingAdd_of_lt (h hnative), Nat.add_comm]
  · rfl

theorem covers_loadThrough {writes : AccountWrites} {w : WithdrawTx}
    (h : Covers P gasMint (viewOf store writes) (Reference.cost gasMint w) w) :
    Covers P gasMint (loadThrough store writes) (w.neededNative gasMint).toNat w := by
  obtain ⟨hpos, hlamports, htokens⟩ := h
  refine ⟨hpos, (neededNative_le_cost w).trans ?_, fun hwrapped => ?_⟩
  · cases hpayer : viewOf store writes w.feePayer with
    | none =>
      rw [hpayer] at hlamports
      exact absurd ((neededNative_le_cost w).trans hlamports) (Nat.not_le.mpr (neededNative_pos w))
    | some payer =>
      rw [hpayer] at hlamports
      rwa [loadThrough_of_viewOf hpayer]
  · have hcovered := htokens hwrapped
    cases htoken : viewOf store writes (w.wrappedAccount P) with
    | none =>
      rw [htoken] at hcovered
      exact absurd hpos (UInt64.not_lt.mpr hcovered)
    | some token =>
      rw [htoken] at hcovered
      rwa [loadThrough_of_viewOf htoken]

theorem viewOf_creditFee (writes : AccountWrites) :
    viewOf store (creditFee store feeCollector writes) =
      (viewOf store writes).insert feeCollector
        { (loadThrough store writes feeCollector).getD (StoredAccount.newSystem 0) with
          lamports := (((loadThrough store writes feeCollector).getD
            (StoredAccount.newSystem 0)).lamports).saturatingAdd POOL_TX_FEE } :=
  viewOf_insert ..

/-! ## Where the loop follows the reference -/

theorem lamportsOf_eq_getD (account : Option StoredAccount) :
    lamportsOf account = (account.getD (StoredAccount.newSystem 0)).lamports.toNat := by
  cases account <;> rfl

theorem credit_exact {writes : AccountWrites}
    (hcollector : (loadThrough store writes feeCollector).getD (StoredAccount.newSystem 0) =
      (viewOf store writes feeCollector).getD (StoredAccount.newSystem 0))
    (hfits : lamportsOf (viewOf store writes feeCollector) + POOL_TX_FEE.toNat < 2 ^ 64) :
    Reference.creditLamports (viewOf store writes) feeCollector POOL_TX_FEE.toNat =
      some (viewOf store (creditFee store feeCollector writes)) := by
  rw [lamportsOf_eq_getD] at hfits
  rw [viewOf_creditFee, hcollector]
  simp only [Reference.creditLamports, hfits, if_true, UInt64.saturatingAdd,
    Nat.min_eq_left (Nat.le_sub_one_of_lt hfits)]

/-- Charging the payer and paying the collector is exact on a view that has the payer as it was
read and the collector as it is loaded. -/
theorem charge_exact {writes : AccountWrites} {k : Pubkey} {payer : StoredAccount}
    {needed : UInt64} (hpayer : viewOf store writes k = some payer)
    (hneeded : needed ≤ payer.lamports) (hfee : POOL_TX_FEE ≤ needed)
    (hcollector : (loadThrough store writes feeCollector).getD (StoredAccount.newSystem 0) =
      (viewOf store writes feeCollector).getD (StoredAccount.newSystem 0))
    (hfits : feeCollector ≠ k →
      lamportsOf (viewOf store writes feeCollector) + POOL_TX_FEE.toNat < 2 ^ 64) :
    ((Reference.debitLamports (viewOf store writes) k needed.toNat).bind fun v =>
        Reference.creditLamports v feeCollector POOL_TX_FEE.toNat) =
      some (viewOf store (creditFee store feeCollector
        (writes.insert k (some { payer with lamports := payer.lamports - needed })))) := by
  have hle := UInt64.le_iff_toNat_le.mp hneeded
  have hsub : UInt64.ofNat (payer.lamports.toNat - needed.toNat) = payer.lamports - needed := by
    rw [← UInt64.toNat_sub_of_ge hneeded, UInt64.ofNat_toNat]
  have hdebit : Reference.debitLamports (viewOf store writes) k needed.toNat =
      some (viewOf store
        (writes.insert k (some { payer with lamports := payer.lamports - needed }))) := by
    simp only [Reference.debitLamports, hpayer, hle, if_true, hsub, viewOf_insert]
  rw [hdebit, Option.bind_some]
  refine credit_exact ?_ ?_
  · rw [loadThrough_insert, viewOf_insert, PartialMap.insert_apply]
    split
    · rfl
    · exact hcollector
  · rw [viewOf_insert, PartialMap.insert_apply]
    split
    · have hlt := payer.lamports.toNat_lt
      have hcost := UInt64.le_iff_toNat_le.mp hfee
      rw [lamportsOf, Option.map_some, Option.getD_some, UInt64.toNat_sub_of_ge hneeded]
      omega
    · rename_i hother
      exact hfits hother

theorem fee_le_needed (w : WithdrawTx) : POOL_TX_FEE ≤ w.neededNative gasMint := by
  rw [UInt64.le_iff_toNat_le]
  unfold WithdrawTx.neededNative
  split
  · rw [UInt64.toNat_saturatingAdd]
    have : POOL_TX_FEE.toNat = 5000 := rfl
    omega
  · exact Nat.le_refl _

theorem applyWithdraw_accepted {acc : Withdrawn} {w : WithdrawTx} {writes : AccountWrites}
    {post : UInt64} (h : burnWithdrawal P store gasMint w acc.writes = some (writes, some post)) :
    ∃ out, applyWithdraw P store gasMint feeCollector acc w = some out ∧
      withdrawnView P store out = (viewOf store (creditFee store feeCollector writes),
        acc.accepted.map (·.leaf P) ++ [w.leaf P]) := by
  refine ⟨_, by rw [applyWithdraw, h]; rfl, ?_⟩
  simp [withdrawnView]

theorem applyWithdraw_refused {acc : Withdrawn} {w : WithdrawTx}
    (h : burnWithdrawal P store gasMint w acc.writes = some (acc.writes, none)) :
    ∃ out, applyWithdraw P store gasMint feeCollector acc w = some out ∧
      withdrawnView P store out = withdrawnView P store acc := by
  refine ⟨_, by rw [applyWithdraw, h]; rfl, ?_⟩
  rfl

theorem burn_exact {writes : AccountWrites} {w : WithdrawTx} {token : StoredAccount}
    {data : List UInt8} (hwrapped : w.isNative gasMint = false)
    (htoken : viewOf store writes (w.wrappedAccount P) = some token)
    (hbal : w.amount ≤ (tokenAccountAmount token.data).getD 0)
    (hdata : setTokenAccountAmount token.data
      ((tokenAccountAmount token.data).getD 0 - w.amount) = some data)
    (hmint : loadThrough store writes (w.wrappedMint P) = viewOf store writes (w.wrappedMint P))
    (hsupply : w.amount ≤ supplyOf (loadThrough store writes (w.wrappedMint P)))
    (hpos : 0 < w.amount) :
    ∃ burned mint, burnSupply P store w.assetId w.amount
        (writes.insert (w.wrappedAccount P) (some { token with data })) = some burned ∧
      burned = (writes.insert (w.wrappedAccount P) (some { token with data })).insert
        (w.wrappedMint P) (some mint) ∧
      lamportsOf (some mint) = lamportsOf (viewOf store writes (w.wrappedMint P)) ∧
      Reference.burn P gasMint (viewOf store writes) w = some (viewOf store burned) := by
  let writes₁ : AccountWrites := writes.insert (w.wrappedAccount P) (some { token with data })
  -- the mint as the second step finds it, which may be the token account itself
  obtain ⟨mint, hload, hview, hmintSupply, hlamports⟩ : ∃ mint,
      loadThrough store writes₁ (w.wrappedMint P) = some mint ∧
      viewOf store writes₁ (w.wrappedMint P) = some mint ∧
      supplyOf (some mint) = supplyOf (loadThrough store writes (w.wrappedMint P)) ∧
      lamportsOf (some mint) = lamportsOf (viewOf store writes (w.wrappedMint P)) := by
    rw [loadThrough_insert, viewOf_insert, PartialMap.insert_apply, hmint]
    split
    · rename_i hsame
      refine ⟨_, rfl, rfl, ?_, ?_⟩
      · rw [hsame, htoken]
        simp [supplyOf, mintSupply_setTokenAccountAmount hdata]
      · rw [hsame, htoken]
        rfl
    · cases hmint' : viewOf store writes (w.wrappedMint P) with
      | none =>
        rw [hmint, hmint'] at hsupply
        exact absurd hpos (UInt64.not_lt.mpr hsupply)
      | some mint => exact ⟨mint, rfl, rfl, rfl, rfl⟩
  rw [← hmintSupply] at hsupply
  have hlength : 44 ≤ mint.data.length := by
    rw [← mintSupply_isSome]
    cases hread : mintSupply mint.data with
    | some _ => rfl
    | none =>
      simp only [supplyOf, Option.bind_some, hread, Option.getD_none] at hsupply
      exact absurd hpos (UInt64.not_lt.mpr hsupply)
  obtain ⟨lowered, hlowered⟩ := Option.isSome_iff_exists.mp
    ((setMintSupply_isSome (s := supplyOf (some mint) - w.amount)).mpr hlength)
  have hsat : ((mintSupply mint.data).getD 0).saturatingSub w.amount =
      supplyOf (some mint) - w.amount := by
    rw [← UInt64.toNat_inj, UInt64.toNat_saturatingSub, UInt64.toNat_sub_of_ge hsupply]
    rfl
  have hburn : burnSupply P store w.assetId w.amount writes₁ =
      some (writes₁.insert (w.wrappedMint P) (some { mint with data := lowered })) := by
    unfold burnSupply
    rw [show wrappedMintAddress P w.assetId = w.wrappedMint P from rfl]
    simp only [hload, hsat, hlowered, Option.map_some]
  refine ⟨_, { mint with data := lowered }, hburn, rfl, hlamports, ?_⟩
  have hdebit : Reference.debitTokens (viewOf store writes) (w.wrappedAccount P) w.amount =
      some (viewOf store writes₁) := by
    have hamount : amountOf (some token) = (tokenAccountAmount token.data).getD 0 := rfl
    simp only [Reference.debitTokens, htoken, hamount, hbal, if_true, hdata, Option.map_some,
      writes₁, viewOf_insert]
  rw [Reference.burn, hwrapped, if_neg Bool.false_ne_true, hdebit, Option.bind_some]
  simp only [Reference.lowerSupply, hview, hsupply, if_true, hlowered, Option.map_some,
    viewOf_insert]

theorem withdraw_of_readsCurrent {acc : Withdrawn} {w : WithdrawTx}
    (hcovers : Covers P gasMint (loadThrough store acc.writes) (w.neededNative gasMint).toNat w)
    (h : ReadsCurrent P store gasMint feeCollector acc.writes w) :
    ∃ out, applyWithdraw P store gasMint feeCollector acc w = some out ∧
      Reference.withdraw P gasMint feeCollector (withdrawnView P store acc) w =
        some (withdrawnView P store out) := by
  have hcost := neededNative_eq_cost h.native
  have hview : Covers P gasMint (viewOf store acc.writes) (Reference.cost gasMint w) w := by
    refine ⟨hcovers.1, ?_, fun hwrapped => ?_⟩
    · rw [← h.payer, ← hcost]
      exact hcovers.2.1
    · rw [← (h.tokens hwrapped).1]
      exact hcovers.2.2 hwrapped
  obtain ⟨payer, hpayer, hneeded, ⟨hnative, hburn⟩ | ⟨hwrapped, token, data, htoken, hbal, hdata,
    hburn⟩⟩ := burnWithdrawal_of_covers hcovers
  · obtain ⟨out, hout, hstate⟩ := applyWithdraw_accepted hburn
    refine ⟨out, hout, (Reference.withdraw_eq_some_iff hview).mpr ?_⟩
    rw [hstate, ← hcost]
    refine ⟨viewOf store acc.writes, by rw [Reference.burn, if_pos hnative]; rfl, ?_, rfl⟩
    exact charge_exact (h.payer.symm.trans hpayer) hneeded (fee_le_needed w) h.collector h.fits
  · obtain ⟨-, hmint, hsupply, hata, hwmint⟩ := h.tokens hwrapped
    have htokenView := (h.tokens hwrapped).1.symm.trans htoken
    obtain ⟨burned, mint, hsupplied, rfl, hlamports, hreference⟩ :=
      burn_exact hwrapped htokenView hbal hdata hmint hsupply hcovers.1
    rw [hsupplied, Option.map_some] at hburn
    obtain ⟨out, hout, hstate⟩ := applyWithdraw_accepted hburn
    refine ⟨out, hout, (Reference.withdraw_eq_some_iff hview).mpr ?_⟩
    rw [hstate, ← hcost]
    refine ⟨_, hreference, charge_exact ?_ hneeded (fee_le_needed w) ?_ fun hother => ?_, rfl⟩
    · rw [viewOf_insert, viewOf_insert, PartialMap.insert_of_ne _ _ hwmint,
        PartialMap.insert_of_ne _ _ hata, ← h.payer, hpayer]
    · rw [loadThrough_insert, loadThrough_insert, viewOf_insert, viewOf_insert,
        PartialMap.insert_apply, PartialMap.insert_apply]
      split
      · rfl
      · split
        · rfl
        · exact h.collector
    · have hfits := h.fits hother
      rw [viewOf_insert, viewOf_insert, PartialMap.insert_apply, PartialMap.insert_apply]
      split
      · rename_i hsame
        rwa [hlamports, ← hsame]
      · split
        · rename_i hsame
          rw [hsame, htokenView] at hfits
          exact hfits
        · exact hfits

/-! ## Where it does not -/

theorem burnWithdrawal_charges {writes : AccountWrites} {w : WithdrawTx}
    (hcovers : Covers P gasMint (loadThrough store writes) (w.neededNative gasMint).toNat w)
    (hsome : (burnWithdrawal P store gasMint w writes).isSome) :
    ∃ (payer : StoredAccount) (burned : AccountWrites) (post : UInt64),
      loadThrough store writes w.feePayer = some payer ∧
      burnWithdrawal P store gasMint w writes =
        some (burned.insert w.feePayer (some { payer with lamports := post }), some post) ∧
      ∀ k, (w.isNative gasMint = false → k ≠ w.wrappedAccount P ∧ k ≠ w.wrappedMint P) →
        burned k = writes k := by
  obtain ⟨payer, hpayer, -, ⟨-, hburn⟩ | ⟨hwrapped, token, data, -, -, -, hburn⟩⟩ :=
    burnWithdrawal_of_covers hcovers
  · exact ⟨payer, writes, _, hpayer, hburn, fun _ _ => rfl⟩
  · rw [hburn, Option.isSome_map] at hsome
    obtain ⟨burned, hburned⟩ := Option.isSome_iff_exists.mp hsome
    rw [hburned, Option.map_some] at hburn
    refine ⟨payer, burned, _, hpayer, hburn, fun k hk => ?_⟩
    obtain ⟨hata, hwmint⟩ := hk hwrapped
    rcases burnSupply_spec hburned with rfl | ⟨mint, rfl⟩
    · exact PartialMap.insert_of_ne _ _ hata
    · rw [PartialMap.insert_of_ne _ _ (show k ≠ wrappedMintAddress P w.assetId from hwmint),
        PartialMap.insert_of_ne _ _ hata]

theorem amountOf_congr {a b : StoredAccount} (h : a.data = b.data) :
    amountOf (some a) = amountOf (some b) := by
  rw [amountOf, amountOf, Option.bind_some, Option.bind_some, h]

theorem supplyOf_congr {a b : StoredAccount} (h : a.data = b.data) :
    supplyOf (some a) = supplyOf (some b) := by
  rw [supplyOf, supplyOf, Option.bind_some, Option.bind_some, h]

theorem sub_ne_self {a b : UInt64} (hpos : 0 < b) (hle : b ≤ a) : a ≠ a - b :=
  (UInt64.ne_of_lt (UInt64.sub_lt hpos hle)).symm

theorem eq_newSystem_of_credited {a : StoredAccount}
    (h : ({ a with lamports := a.lamports.saturatingAdd POOL_TX_FEE } : StoredAccount) =
      { StoredAccount.newSystem 0 with
        lamports := UInt64.ofNat ((StoredAccount.newSystem 0).lamports.toNat +
          POOL_TX_FEE.toNat) }) : a = StoredAccount.newSystem 0 := by
  obtain ⟨lamports, data, owner, executable, rentEpoch⟩ := a
  simp only [StoredAccount.newSystem, StoredAccount.mk.injEq] at h ⊢
  refine ⟨?_, h.2⟩
  have hsum := congrArg UInt64.toNat h.1
  have hfee : POOL_TX_FEE.toNat = 5000 := rfl
  rw [UInt64.toNat_saturatingAdd, hfee, UInt64.toNat_zero, UInt64.toNat_ofNat_of_lt' (by decide)]
    at hsum
  rw [← UInt64.toNat_inj, UInt64.toNat_zero]
  omega

/-- What is known once the loop did what the reference does: `charged` is the payer after the
reference's burn, whose data must be that of the payer as read. -/
structure Followed (P : Prims) (store : Store) (gasMint : Option Pubkey) (feeCollector : Pubkey)
    (writes : AccountWrites) (w : WithdrawTx) (payer charged : StoredAccount)
    (burned : AccountWrites) (v : PartialMap Pubkey StoredAccount) : Prop where
  covers : Covers P gasMint (viewOf store writes) (Reference.cost gasMint w) w
  loaded : loadThrough store writes w.feePayer = some payer
  paid : viewOf store writes w.feePayer = some payer
  burn : Reference.burn P gasMint (viewOf store writes) w = some v
  debited : v w.feePayer = some charged
  data : charged.data = payer.data
  kept : ∀ k, (w.isNative gasMint = false → k ≠ w.wrappedAccount P ∧ k ≠ w.wrappedMint P) →
    burned k = writes k
  fits : feeCollector ≠ w.feePayer → lamportsOf (v feeCollector) + POOL_TX_FEE.toNat < 2 ^ 64
  collector : feeCollector ≠ w.feePayer →
    ({ (loadThrough store burned feeCollector).getD (StoredAccount.newSystem 0) with
      lamports := (((loadThrough store burned feeCollector).getD
        (StoredAccount.newSystem 0)).lamports).saturatingAdd POOL_TX_FEE } : StoredAccount) =
    { (v feeCollector).getD (StoredAccount.newSystem 0) with
      lamports := UInt64.ofNat (((v feeCollector).getD
        (StoredAccount.newSystem 0)).lamports.toNat + POOL_TX_FEE.toNat) }

theorem followed_of_agrees {acc out : Withdrawn} {w : WithdrawTx}
    (hcovers : Covers P gasMint (loadThrough store acc.writes) (w.neededNative gasMint).toNat w)
    (hout : applyWithdraw P store gasMint feeCollector acc w = some out)
    (hreference : Reference.withdraw P gasMint feeCollector (withdrawnView P store acc) w =
      some (withdrawnView P store out)) :
    ∃ payer charged burned v,
      Followed P store gasMint feeCollector acc.writes w payer charged burned v := by
  have hsome : (burnWithdrawal P store gasMint w acc.writes).isSome := by
    rw [burnWithdrawal_isSome, ← applyWithdraw_isSome, hout]
    rfl
  obtain ⟨payer, burned, post, hpayer, hburn, hkept⟩ := burnWithdrawal_charges hcovers hsome
  obtain ⟨out', hout', hstate⟩ := applyWithdraw_accepted hburn
  obtain rfl : out = out' := Option.some.inj (hout.symm.trans hout')
  rw [hstate] at hreference
  -- a refusal would emit no leaf
  have hview : Covers P gasMint (viewOf store acc.writes) (Reference.cost gasMint w) w := by
    by_contra hnot
    have hleaves := congrArg (·.2.length)
      (Option.some.inj ((if_neg hnot).symm.trans hreference))
    simp [withdrawnView] at hleaves
  obtain ⟨v, hv, hcharge, -⟩ := (Reference.withdraw_eq_some_iff hview).mp hreference
  obtain ⟨vd, hvd, hvc⟩ := Option.bind_eq_some_iff.mp hcharge
  obtain ⟨charged, lamports, hcharged, rfl⟩ := Reference.debitLamports_eq_some hvd
  obtain ⟨hfits, hfinal⟩ := Reference.creditLamports_eq_some hvc
  dsimp only [withdrawnView] at hv hfinal
  rw [viewOf_creditFee, viewOf_insert] at hfinal
  refine ⟨payer, charged, burned, v, hview, hpayer, ?_, hv, hcharged, ?_, hkept, fun hother => ?_,
    fun hother => ?_⟩
  · cases hpayerView : viewOf store acc.writes w.feePayer with
    | none =>
      have hcost := hview.2.1
      rw [hpayerView] at hcost
      exact absurd ((neededNative_le_cost w).trans hcost) (Nat.not_le.mpr (neededNative_pos w))
    | some payer' => rw [← hpayer, loadThrough_of_viewOf hpayerView]
  · -- neither the charge nor the fee touches the payer's data
    have hat := congrFun hfinal w.feePayer
    by_cases hsame : feeCollector = w.feePayer
    · rw [hsame, PartialMap.insert_self, PartialMap.insert_self, PartialMap.insert_self,
        loadThrough_insert, if_pos rfl] at hat
      exact (congrArg StoredAccount.data (Option.some.inj hat)).symm
    · rw [PartialMap.insert_of_ne _ _ (Ne.symm hsame), PartialMap.insert_of_ne _ _ (Ne.symm hsame),
        PartialMap.insert_self, PartialMap.insert_self] at hat
      exact (congrArg StoredAccount.data (Option.some.inj hat)).symm
  · rwa [PartialMap.insert_of_ne _ _ hother, ← lamportsOf_eq_getD] at hfits
  · have hat := congrFun hfinal feeCollector
    rw [PartialMap.insert_self, PartialMap.insert_self, loadThrough_insert, if_neg hother,
      PartialMap.insert_of_ne _ _ hother] at hat
    exact Option.some.inj hat

namespace Followed

variable {writes burned : AccountWrites} {w : WithdrawTx} {payer charged : StoredAccount}
  {v : PartialMap Pubkey StoredAccount}

theorem burnedView (h : Followed P store gasMint feeCollector writes w payer charged burned v)
    (hwrapped : w.isNative gasMint = false) :
    Reference.Burned P w (viewOf store writes) v :=
  Reference.burned_of_burn hwrapped h.burn

theorem view_eq (h : Followed P store gasMint feeCollector writes w payer charged burned v)
    (hnative : w.isNative gasMint = true) : v = viewOf store writes := by
  have hburn := h.burn
  rw [Reference.burn, if_pos hnative] at hburn
  exact (Option.some.inj hburn).symm

theorem exists_tokens (h : Followed P store gasMint feeCollector writes w payer charged burned v)
    (hwrapped : w.isNative gasMint = false) :
    (∃ token, viewOf store writes (w.wrappedAccount P) = some token) ∧
      ∃ mint, viewOf store writes (w.wrappedMint P) = some mint := by
  have hb := h.burnedView hwrapped
  constructor
  · cases hview : viewOf store writes (w.wrappedAccount P) with
    | none =>
      exact absurd h.covers.1 (UInt64.not_lt.mpr (by simpa [hview, amountOf] using hb.covered))
    | some token => exact ⟨token, rfl⟩
  · cases hview : viewOf store writes (w.wrappedMint P) with
    | none =>
      exact absurd h.covers.1 (UInt64.not_lt.mpr (by simpa [hview, supplyOf] using hb.recorded))
    | some mint => exact ⟨mint, rfl⟩

theorem payer_apart (h : Followed P store gasMint feeCollector writes w payer charged burned v)
    (hwrapped : w.isNative gasMint = false) :
    w.feePayer ≠ w.wrappedAccount P ∧ w.feePayer ≠ w.wrappedMint P := by
  have hb := h.burnedView hwrapped
  constructor
  · intro hsame
    have hamount := hb.amount
    rw [← hsame, h.debited, h.paid, amountOf_congr h.data] at hamount
    refine sub_ne_self h.covers.1 ?_ hamount
    rw [← h.paid, hsame]
    exact hb.covered
  · intro hsame
    have hsupply := hb.supply
    rw [← hsame, h.debited, h.paid, supplyOf_congr h.data] at hsupply
    refine sub_ne_self h.covers.1 ?_ hsupply
    rw [← h.paid, hsame]
    exact hb.recorded

theorem collector_current
    (h : Followed P store gasMint feeCollector writes w payer charged burned v) :
    (loadThrough store writes feeCollector).getD (StoredAccount.newSystem 0) =
      (viewOf store writes feeCollector).getD (StoredAccount.newSystem 0) := by
  cases hview : viewOf store writes feeCollector with
  | some account => rw [loadThrough_of_viewOf hview]
  | none =>
    have hother : feeCollector ≠ w.feePayer := by
      rintro rfl
      cases hview.symm.trans h.paid
    have hapart : w.isNative gasMint = false →
        feeCollector ≠ w.wrappedAccount P ∧ feeCollector ≠ w.wrappedMint P := by
      intro hwrapped
      obtain ⟨⟨token, htoken⟩, mint, hmint⟩ := h.exists_tokens hwrapped
      constructor
      · rintro rfl
        cases hview.symm.trans htoken
      · rintro rfl
        cases hview.symm.trans hmint
    have hburnedView : v feeCollector = none := by
      cases hkind : w.isNative gasMint with
      | true => rw [h.view_eq hkind, hview]
      | false => rw [(h.burnedView hkind).others _ (hapart hkind).1 (hapart hkind).2, hview]
    have hloaded : loadThrough store burned feeCollector =
      loadThrough store writes feeCollector := by
      rw [loadThrough, loadThrough, h.kept _ hapart]
    have hcollector := h.collector hother
    rw [hloaded, hburnedView] at hcollector
    cases hload : loadThrough store writes feeCollector with
    | none => rfl
    | some account =>
      rw [hload] at hcollector
      exact eq_newSystem_of_credited hcollector

theorem readsCurrent (h : Followed P store gasMint feeCollector writes w payer charged burned v) :
    ReadsCurrent P store gasMint feeCollector writes w where
  payer := by rw [h.loaded, h.paid]
  native hnative := by
    have hcost := h.covers.2.1
    rw [h.paid, Reference.cost, if_pos hnative] at hcost
    have hlt := payer.lamports.toNat_lt
    have hle : POOL_TX_FEE.toNat + w.amount.toNat ≤ payer.lamports.toNat := hcost
    omega
  tokens hwrapped := by
    obtain ⟨⟨token, htoken⟩, mint, hmint⟩ := h.exists_tokens hwrapped
    refine ⟨by rw [loadThrough_of_viewOf htoken, htoken],
      by rw [loadThrough_of_viewOf hmint, hmint], ?_, h.payer_apart hwrapped⟩
    rw [loadThrough_of_viewOf hmint, ← hmint]
    exact (h.burnedView hwrapped).recorded
  collector := h.collector_current
  fits hother := by
    have hfits := h.fits hother
    cases hkind : w.isNative gasMint with
    | true => rwa [h.view_eq hkind] at hfits
    | false => rwa [(h.burnedView hkind).lamports] at hfits

end Followed

/-- One round of the loop is a step of the reference exactly if a withdrawal that the accounts
as loaded cover reads what the reference reads. -/
theorem applyWithdraw_agrees_iff {acc : Withdrawn} {w : WithdrawTx} :
    (∃ out, applyWithdraw P store gasMint feeCollector acc w = some out ∧
        Reference.withdraw P gasMint feeCollector (withdrawnView P store acc) w =
          some (withdrawnView P store out)) ↔
      (Covers P gasMint (loadThrough store acc.writes) (w.neededNative gasMint).toNat w →
        ReadsCurrent P store gasMint feeCollector acc.writes w) := by
  by_cases hcovers : Covers P gasMint (loadThrough store acc.writes)
      (w.neededNative gasMint).toNat w
  · constructor
    · rintro ⟨out, hout, hreference⟩ -
      obtain ⟨payer, charged, burned, v, h⟩ := followed_of_agrees hcovers hout hreference
      exact h.readsCurrent
    · intro h
      exact withdraw_of_readsCurrent hcovers (h hcovers)
  · obtain ⟨out, hout, hstate⟩ := applyWithdraw_refused (burnWithdrawal_of_not_covers hcovers)
    refine iff_of_true ⟨out, hout, ?_⟩ fun h => absurd h hcovers
    rw [hstate]
    exact if_neg fun h => hcovers (covers_loadThrough h)

end Refinement

/-- The withdrawal loop follows the reference, withdrawal by withdrawal, exactly if each
withdrawal that the accounts as loaded cover reads what the reference reads. -/
theorem withdrawals_follow_view_iff (P : Prims) (store : Store) (gasMint : Option Pubkey)
    (feeCollector : Pubkey) (writes : AccountWrites) (withdraws : List WithdrawTx)
    (included : List (VersionedTransaction × ExecutedTransactionMeta)) :
    (∀ before, before <+: withdraws →
        ∃ out, applyWithdraws P store gasMint feeCollector before writes included = some out ∧
          before.foldlM (Reference.withdraw P gasMint feeCollector) (viewOf store writes, []) =
            some (viewOf store out.writes, out.accepted.map (·.leaf P))) ↔
      List.Along (applyWithdraw P store gasMint feeCollector)
        (fun acc w =>
          Covers P gasMint (loadThrough store acc.writes) (w.neededNative gasMint).toNat w →
            ReadsCurrent P store gasMint feeCollector acc.writes w)
        ⟨writes, included, []⟩ withdraws := by
  simp only [← applyWithdraw_agrees_iff]
  exact List.lockstep_iff_along (withdrawnView P store) ⟨writes, included, []⟩ withdraws

namespace Sample

def payerStore : Store :=
  { Store.empty with accounts := PartialMap.insert (fun _ => none) payer (.newSystem 1000000000) }

def payerDeleted : AccountWrites := PartialMap.insert (fun _ => none) payer none

/-- A native withdrawal of 100 lamports. -/
def nativeWithdrawal : WithdrawTx :=
  ⟨withdrawTx 7 (Bytes.replicate 32 9) 100 0 (Bytes.replicate 32 0), payer, Bytes.replicate 32 9,
    NATIVE_ASSET_ID, 100, 0⟩

end Sample

/-- A payer that the block has deleted still withdraws: the loop falls back to the committed
account, emits the leaf and writes the account back with what it held before the block. -/
theorem deleted_payer_withdraws :
    viewOf Sample.payerStore Sample.payerDeleted Sample.payer = none ∧
    [Sample.nativeWithdrawal].foldlM
        (Reference.withdraw Sample.prims Sample.options.gasMint Sample.collector)
        (viewOf Sample.payerStore Sample.payerDeleted, []) =
      some (viewOf Sample.payerStore Sample.payerDeleted, []) ∧
    ∃ out, applyWithdraws Sample.prims Sample.payerStore Sample.options.gasMint Sample.collector
        [Sample.nativeWithdrawal] Sample.payerDeleted [] = some out ∧
      out.accepted = [Sample.nativeWithdrawal] ∧
      lamportsOf (viewOf Sample.payerStore out.writes Sample.payer) = 1000000000 - 100 - 5000 := by
  refine ⟨by decide, ?_, ?_⟩
  · rw [List.foldlM_cons, Reference.withdraw, if_neg (by decide)]
    rfl
  · have hresult : (applyWithdraws Sample.prims Sample.payerStore Sample.options.gasMint
        Sample.collector [Sample.nativeWithdrawal] Sample.payerDeleted []).map (fun out =>
          (out.accepted, lamportsOf (viewOf Sample.payerStore out.writes Sample.payer))) =
        some ([Sample.nativeWithdrawal], 1000000000 - 100 - 5000) := by decide
    obtain ⟨out, hout, hpair⟩ := Option.map_eq_some_iff.mp hresult
    exact ⟨out, hout, Prod.mk.inj hpair⟩

end Zul.Node
