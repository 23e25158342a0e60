import Zul.Lib.Ledger
import Zul.Node.Routing
import Zul.Node.Watcher

/-! # Solvency of the vaults

What the accounts of an asset hold on the L2, together with what was withdrawn of it, stays
within what was deposited: a deposit adds its amount, an accepted withdrawal takes it away
again. This needs the round trips of all assets, and of a block that its transactions create
nothing, that no account deleted in it is read back by the bridge stages, and that the rent of
the token accounts the bridge creates does not circulate.
-/

namespace Zul.Node

open Bridge Executor Privacy PoolService Settlement WrappedSpl

/-! ## Holders -/

def worth : L1Asset → Option StoredAccount → ℕ
  | .sol => lamportsOf
  | .spl _ => fun account => (amountOf account).toNat

@[simp] theorem worth_sol (account : Option StoredAccount) :
    worth .sol account = lamportsOf account :=
  rfl

@[simp] theorem worth_spl (mint : Mint) (account : Option StoredAccount) :
    worth (.spl mint) account = (amountOf account).toNat := rfl

/-- The accounts that hold each asset on the L2: those whose lamports circulate, and the token
accounts of each mint. Genesis accounts are none of them, and token accounts are not fee payers. -/
structure Holders (E : Env) where
  of : L1Asset → Finset Pubkey
  genesis : ∀ asset, ∀ k ∈ of asset,
    k ∉ E.genesisAccounts.map Prod.fst ∧ k ≠ E.poolConfig.poolState
  disjoint : ∀ mint, Disjoint (of .sol) (of (.spl mint))

namespace Holders

variable {E : Env} (H : Holders E)

def held (asset : L1Asset) (accounts : Pubkey → Option StoredAccount) : ℕ :=
  Ledger.held (H.of asset) (worth asset) accounts

end Holders

/-! ## Reads through a block's writes -/

def seen (store : Store) (writes : AccountWrites) : Pubkey → Option StoredAccount :=
  writes.applyTo store.getAccount

/-- An account is not deleted by the block's writes while the store still has it. -/
def Live (store : Store) (writes : AccountWrites) (k : Pubkey) : Prop :=
  writes k = some none → store.getAccount k = none

section Reads

variable {store : Store} {writes writes' : AccountWrites} {k : Pubkey}

theorem loadThrough_of_live (h : Live store writes k) :
    loadThrough store writes k = seen store writes k := by
  unfold loadThrough seen AccountWrites.applyTo
  cases hw : writes k with
  | none => rfl
  | some w =>
    cases w with
    | none => exact h hw
    | some account => rfl

theorem Live.mono (hext : Extends writes writes') (h : Live store writes k) :
    Live store writes' k := by
  intro hdeleted
  rcases hext k with heq | ⟨account, hsome⟩
  · exact h (heq ▸ hdeleted)
  · cases hsome.symm.trans hdeleted

theorem seen_insert (store : Store) (writes : AccountWrites) (k : Pubkey)
    (account : StoredAccount) :
    seen store (writes.insert k (some account)) =
      Function.update (seen store writes) k (some account) := by
  funext j
  rw [seen, AccountWrites.applyTo, PartialMap.insert_apply, Function.update_apply]
  split <;> rfl

end Reads

/-! ## Deposits -/

section Deposits

variable {E : Env} {H : Holders E} {store : Store} {writes writes' : AccountWrites}

/-- The bridge can credit a deposit without touching other assets: lamports go to an account
that is not deleted, tokens to an account of their mint alone, and no mint is a holder. -/
structure DepositAccounted (H : Holders E) (store : Store) (writes : AccountWrites)
    (d : DepositEvent) : Prop where
  native : d.mint = none → Live store writes d.l2Recipient
  wrapped : d.mint ≠ none → Live store writes (wrappedAccount E.prims d) ∧
    ∀ asset, wrappedMint E.prims d ∉ H.of asset ∧
      (d.mint ≠ asset.mint → wrappedAccount E.prims d ∉ H.of asset)

theorem DepositAccounted.mono (hext : Extends writes writes') {d : DepositEvent}
    (h : DepositAccounted H store writes d) : DepositAccounted H store writes' d where
  native hd := (h.native hd).mono hext
  wrapped hd := ⟨(h.wrapped hd).1.mono hext, (h.wrapped hd).2⟩

def creditOf (asset : L1Asset) (d : DepositEvent) : ℕ :=
  if d.mint = asset.mint then d.amount.toNat else 0

theorem held_creditNative {recipient : Pubkey} (hlive : Live store writes recipient)
    (amount : UInt64) (asset : L1Asset) :
    H.held asset (seen store (creditNative store recipient amount writes)) ≤
      H.held asset (seen store writes) + if asset = .sol then amount.toNat else 0 := by
  unfold creditNative
  rw [loadThrough_of_live hlive, seen_insert]
  apply Ledger.held_update_le
  cases asset with
  | sol =>
    have hle := UInt64.toNat_saturatingAdd_le
      ((seen store writes recipient).getD (StoredAccount.newSystem 0)).lamports amount
    cases haccount : seen store writes recipient <;>
      simpa [worth, lamportsOf, haccount] using hle
  | spl mint =>
    cases haccount : seen store writes recipient <;>
      simp [worth, amountOf, StoredAccount.newSystem, tokenAccountAmount, List.range?]

theorem held_creditDeposit {d : DepositEvent} (hd : DepositAccounted H store writes d)
    (h : creditDeposit E.prims store none writes d = some writes') (asset : L1Asset) :
    H.held asset (seen store writes') ≤ H.held asset (seen store writes) + creditOf asset d := by
  rcases creditDeposit_cases h with ⟨hnative, rfl⟩ | ⟨hwrapped, mint, token, -, htoken, rfl⟩
  · have hnone : d.mint = none := by
      cases hmint : d.mint with
      | none => rfl
      | some m => simp [creditsNativeGas, hmint] at hnative
    refine (held_creditNative (hd.native hnone) d.amount asset).trans ?_
    cases asset <;> simp [creditOf, hnone, L1Asset.mint]
  · have hsome : d.mint ≠ none := by
      intro hnone
      simp [creditsNativeGas, hnone] at hwrapped
    obtain ⟨hlive, hapart⟩ := hd.wrapped hsome
    obtain ⟨hmint, haccount⟩ := hapart asset
    have hminted : H.held asset (seen store (writes.insert (wrappedMint E.prims d) (some mint))) =
        H.held asset (seen store writes) := by
      rw [seen_insert]
      exact Ledger.held_update_of_notMem hmint
    rw [seen_insert, ← hminted]
    by_cases hmem : wrappedAccount E.prims d ∈ H.of asset
    · have hasset : d.mint = asset.mint := by
        by_contra hne
        exact haccount hne hmem
      rw [loadThrough_of_live (hlive.mono (Extends.insert _ _ _))] at htoken
      apply Ledger.held_update_le
      cases asset with
      | sol => exact absurd hasset hsome
      | spl m =>
        rw [creditOf, if_pos hasset, worth_spl, worth_spl, amountOf_tokenWithAmount htoken]
        exact UInt64.toNat_saturatingAdd_le _ _
    · exact (Ledger.held_update_of_notMem hmem).le.trans (Nat.le_add_right _ _)

theorem worth_receiptAccount (asset : L1Asset) (d : DepositEvent) :
    worth asset (some (receiptAccount d)) = 0 := by
  cases asset <;> simp [worth, lamportsOf, amountOf, receiptAccount, tokenAccountAmount,
    List.range?]

def depositsOf (asset : L1Asset) (deposits : List DepositEvent) : ℕ :=
  ((deposits.filter fun d => d.mint = asset.mint).map fun d => d.amount.toNat).sum

theorem depositsOf_append (asset : L1Asset) (l l' : List DepositEvent) :
    depositsOf asset (l ++ l') = depositsOf asset l + depositsOf asset l' := by
  simp [depositsOf]

theorem depositsOf_singleton (asset : L1Asset) (d : DepositEvent) :
    depositsOf asset [d] = creditOf asset d := by
  unfold depositsOf creditOf
  by_cases h : d.mint = asset.mint <;> simp [h]

theorem held_applyDeposit {d : DepositEvent} {acc out : AccountWrites × List DepositEvent}
    (hd : DepositAccounted H store acc.1 d)
    (h : applyDeposit E.prims store none acc d = some out) (asset : L1Asset) :
    H.held asset (seen store out.1) + depositsOf asset acc.2 ≤
      H.held asset (seen store acc.1) + depositsOf asset out.2 := by
  rcases applyDeposit_cases h with ⟨-, rfl⟩ | ⟨-, writes, hcredit, rfl⟩
  · exact le_rfl
  · have hcredited := held_creditDeposit hd hcredit asset
    have hreceipt : H.held asset (seen store (writes.insert
          (depositReceiptAddress E.prims d.l1Signature) (some (receiptAccount d)))) ≤
        H.held asset (seen store writes) := by
      rw [seen_insert]
      apply Ledger.held_update_anti
      rw [worth_receiptAccount]
      exact Nat.zero_le _
    rw [depositsOf_append, depositsOf_singleton]
    dsimp only
    omega

theorem held_applyDeposits {deposits : List DepositEvent}
    {acc out : AccountWrites × List DepositEvent}
    (hdeposits : ∀ d ∈ deposits, DepositAccounted H store acc.1 d)
    (h : deposits.foldlM (applyDeposit E.prims store none) acc = some out) (asset : L1Asset) :
    H.held asset (seen store out.1) + depositsOf asset acc.2 ≤
      H.held asset (seen store acc.1) + depositsOf asset out.2 := by
  induction deposits generalizing acc with
  | nil =>
    cases h
    exact le_rfl
  | cons d deposits ih =>
    rw [List.foldlM_cons, Option.bind_eq_bind, Option.bind_eq_some_iff] at h
    obtain ⟨acc₁, hone, h⟩ := h
    obtain ⟨hd, hrest⟩ := List.forall_mem_cons.mp hdeposits
    have hstep := held_applyDeposit hd hone asset
    have hloop := ih (fun d' hd' => (hrest d' hd').mono (extends_applyDeposit hone)) h
    omega

end Deposits

/-! ## Withdrawals -/

section Withdrawals

variable {E : Env} {H : Holders E} {store : Store} {writes writes' burned : AccountWrites}
  {w : WithdrawTx}

/-- The bridge can burn a withdrawal without touching other assets: its payer holds circulating
lamports, its token account is one of its mint, neither they nor the collector are deleted, and
the amount with the fee does not overflow. -/
structure WithdrawAccounted (H : Holders E) (store : Store) (writes : AccountWrites)
    (w : WithdrawTx) : Prop where
  payer : w.feePayer ∈ H.of .sol
  livePayer : Live store writes w.feePayer
  liveCollector : Live store writes E.feeCollector
  native : w.assetId = NATIVE_ASSET_ID → w.amount.toNat + POOL_TX_FEE.toNat < 2 ^ 64
  wrapped : w.assetId ≠ NATIVE_ASSET_ID → Live store writes (w.wrappedAccount E.prims) ∧
    w.wrappedAccount E.prims ∈ H.of (.ofId w.assetId) ∧
    ∀ asset, w.wrappedMint E.prims ∉ H.of asset

theorem WithdrawAccounted.mono (hext : Extends writes writes')
    (h : WithdrawAccounted H store writes w) : WithdrawAccounted H store writes' w where
  payer := h.payer
  livePayer := h.livePayer.mono hext
  liveCollector := h.liveCollector.mono hext
  native := h.native
  wrapped hw := ⟨(h.wrapped hw).1.mono hext, (h.wrapped hw).2⟩

/-- The amount of a withdrawal counts towards the asset its claim pays. -/
def exitOf (asset : L1Asset) (w : WithdrawTx) : ℕ :=
  if L1Asset.ofId w.assetId = asset then w.amount.toNat else 0

theorem isNative_none_iff : w.isNative none = true ↔ w.assetId = NATIVE_ASSET_ID := by
  simp [WithdrawTx.isNative]

/-- Burning tokens takes the amount from the holders of their mint, adds nothing elsewhere, and
leaves the payer's account alone. -/
theorem held_burnTokens (hw : WithdrawAccounted H store writes w)
    (hnative : w.assetId ≠ NATIVE_ASSET_ID)
    (h : burnAsset E.prims store none w writes = some (burned, true)) (asset : L1Asset) :
    H.held asset (seen store burned) + exitOf asset w ≤ H.held asset (seen store writes) ∧
      seen store burned w.feePayer = seen store writes w.feePayer := by
  obtain ⟨hlive, haccount, hmint⟩ := hw.wrapped hnative
  rcases burnAsset_spec h with ⟨hsol, -⟩ | ⟨-, old, data, hload, hbal, hdata, hburned⟩
  · exact absurd (isNative_none_iff.mp hsol) hnative
  rw [loadThrough_of_live hlive] at hload
  have hbal' := UInt64.le_iff_toNat_le.mp hbal
  have hpayer : w.feePayer ≠ w.wrappedAccount E.prims := by
    intro heq
    have hspl : ∃ mint, L1Asset.ofId w.assetId = .spl mint := ⟨⟨_, hnative⟩, dif_neg hnative⟩
    obtain ⟨mint, hspl⟩ := hspl
    rw [hspl] at haccount
    exact Finset.disjoint_left.mp (H.disjoint mint) hw.payer (heq ▸ haccount)
  -- the token account alone
  have htokens : H.held asset (seen store (writes.insert (w.wrappedAccount E.prims)
        (some { old with data }))) + exitOf asset w ≤ H.held asset (seen store writes) := by
    rw [seen_insert]
    unfold exitOf
    split
    · rename_i hasset
      subst hasset
      have hsum : H.held (.ofId w.assetId) (Function.update (seen store writes)
            (w.wrappedAccount E.prims) (some { old with data })) +
          worth (.ofId w.assetId) (seen store writes (w.wrappedAccount E.prims)) =
          H.held (.ofId w.assetId) (seen store writes) +
            worth (.ofId w.assetId) (some { old with data }) :=
        Ledger.held_update_of_mem haccount
      rw [hload] at hsum
      have hspl : ∀ account, worth (.ofId w.assetId) account = (amountOf account).toNat := by
        intro account
        rw [L1Asset.ofId, dif_neg hnative, worth_spl]
      simp only [hspl, amountOf, Option.bind_some, tokenAccountAmount_set hdata, Option.getD_some,
        UInt64.toNat_sub_of_ge hbal] at hsum
      omega
    · rw [Nat.add_zero]
      apply Ledger.held_update_anti
      cases asset with
      | sol => simp [hload, lamportsOf]
      | spl mint =>
        simp only [worth_spl, hload, amountOf, Option.bind_some, tokenAccountAmount_set hdata,
          Option.getD_some, UInt64.toNat_sub_of_ge hbal]
        omega
  rcases hburned with rfl | ⟨mint, rfl⟩
  · refine ⟨htokens, ?_⟩
    rw [seen_insert, Function.update_of_ne hpayer]
  · constructor
    · rw [seen_insert]
      refine le_trans (Nat.add_le_add_right (Eq.le ?_) _) htokens
      exact Ledger.held_update_of_notMem (hmint asset)
    · have hne : w.feePayer ≠ w.wrappedMint E.prims := by
        intro heq
        exact hmint .sol (heq ▸ hw.payer)
      rw [seen_insert, seen_insert, Function.update_of_ne hne, Function.update_of_ne hpayer]

theorem exitOf_native (hnative : w.assetId = NATIVE_ASSET_ID) (asset : L1Asset) :
    exitOf asset w = if asset = .sol then w.amount.toNat else 0 := by
  have hsol : L1Asset.ofId w.assetId = .sol := by
    rw [L1Asset.ofId, dif_pos hnative]
  rw [exitOf, hsol]
  simp only [eq_comm]

theorem held_payLamports {k : Pubkey} {account : StoredAccount} {amount : UInt64}
    (hk : k ∈ H.of .sol) (hload : seen store writes k = some account)
    (hfunds : amount ≤ account.lamports) (asset : L1Asset) :
    H.held asset (Function.update (seen store writes) k
        (some { account with lamports := account.lamports - amount })) +
      (if asset = .sol then amount.toNat else 0) ≤ H.held asset (seen store writes) := by
  have hle := UInt64.le_iff_toNat_le.mp hfunds
  have hpost := UInt64.toNat_sub_of_ge hfunds
  cases asset with
  | sol =>
    have hsum : H.held .sol (Function.update (seen store writes) k
          (some { account with lamports := account.lamports - amount })) +
        worth .sol (seen store writes k) = H.held .sol (seen store writes) +
          worth .sol (some { account with lamports := account.lamports - amount }) :=
      Ledger.held_update_of_mem hk
    simp only [worth_sol, hload, lamportsOf, Option.map_some, Option.getD_some, hpost] at hsum
    rw [if_pos rfl]
    omega
  | spl mint =>
    rw [if_neg L1Asset.noConfusion, Nat.add_zero]
    apply Ledger.held_update_anti
    rw [worth_spl, worth_spl, hload]
    rfl

/-- An accepted withdrawal takes its amount from the holders of its asset, and its fee from the
circulating lamports. -/
theorem held_burnWithdrawal (hw : WithdrawAccounted H store writes w) {post : UInt64}
    (h : burnWithdrawal E.prims store none w writes = some (writes', some post))
    (asset : L1Asset) :
    H.held asset (seen store writes') + exitOf asset w +
        (if asset = .sol then POOL_TX_FEE.toNat else 0) ≤ H.held asset (seen store writes) := by
  obtain ⟨account, burned, hload, hfunds, -, hburn, rfl, rfl⟩ := burnWithdrawal_some h
  rw [loadThrough_of_live hw.livePayer] at hload
  rw [seen_insert]
  by_cases hnative : w.assetId = NATIVE_ASSET_ID
  · have hsol := isNative_none_iff.mpr hnative
    rcases burnAsset_spec hburn with ⟨-, rfl⟩ | ⟨hspl, -⟩
    · have hpaid := held_payLamports hw.payer hload hfunds asset
      have hneeded : (w.neededNative none).toNat = w.amount.toNat + POOL_TX_FEE.toNat := by
        rw [WithdrawTx.neededNative, if_pos hsol]
        exact UInt64.toNat_saturatingAdd_of_lt (hw.native hnative)
      rw [exitOf_native hnative]
      by_cases hasset : asset = .sol
      · simp only [if_pos hasset] at hpaid ⊢
        omega
      · simp only [if_neg hasset] at hpaid ⊢
        omega
    · cases hspl.symm.trans hsol
  · obtain ⟨hburned, hsame⟩ := held_burnTokens hw hnative hburn asset
    have hneeded : w.neededNative none = POOL_TX_FEE := by
      rw [WithdrawTx.neededNative, if_neg (mt isNative_none_iff.mp hnative)]
    rw [← hsame] at hload
    have hpaid := held_payLamports hw.payer hload hfunds asset
    rw [hneeded] at hpaid ⊢
    omega

/-- What a list of withdrawals takes out of the vault of an asset. -/
def withdrawalsOf (asset : L1Asset) (withdraws : List WithdrawTx) : ℕ :=
  ((withdraws.filter fun w => L1Asset.ofId w.assetId = asset).map fun w => w.amount.toNat).sum

theorem withdrawalsOf_append (asset : L1Asset) (l l' : List WithdrawTx) :
    withdrawalsOf asset (l ++ l') = withdrawalsOf asset l + withdrawalsOf asset l' := by
  simp [withdrawalsOf]

theorem withdrawalsOf_singleton (asset : L1Asset) (w : WithdrawTx) :
    withdrawalsOf asset [w] = exitOf asset w := by
  unfold withdrawalsOf exitOf
  by_cases h : L1Asset.ofId w.assetId = asset <;> simp [h]

theorem held_applyWithdraw {acc out : Withdrawn} (hw : WithdrawAccounted H store acc.writes w)
    (h : applyWithdraw E.prims store none E.feeCollector acc w = some out) (asset : L1Asset) :
    H.held asset (seen store out.writes) + withdrawalsOf asset out.accepted ≤
      H.held asset (seen store acc.writes) + withdrawalsOf asset acc.accepted := by
  rcases applyWithdraw_cases h with ⟨hwrites, haccepted⟩ | ⟨burned, post, hburn, hwrites, haccepted⟩
  · rw [hwrites, haccepted]
  · have htaken := held_burnWithdrawal hw hburn asset
    have hfee := held_creditNative (H := H)
      (hw.liveCollector.mono (extends_burnWithdrawal hburn)) POOL_TX_FEE asset
    rw [hwrites, haccepted, creditFee, withdrawalsOf_append, withdrawalsOf_singleton]
    omega

theorem held_applyWithdraws {withdraws : List WithdrawTx} {acc out : Withdrawn}
    (hwithdraws : ∀ w ∈ withdraws, WithdrawAccounted H store acc.writes w)
    (h : withdraws.foldlM (applyWithdraw E.prims store none E.feeCollector) acc = some out)
    (asset : L1Asset) :
    H.held asset (seen store out.writes) + withdrawalsOf asset out.accepted ≤
      H.held asset (seen store acc.writes) + withdrawalsOf asset acc.accepted := by
  induction withdraws generalizing acc with
  | nil =>
    cases h
    exact le_rfl
  | cons w withdraws ih =>
    rw [List.foldlM_cons, Option.bind_eq_bind, Option.bind_eq_some_iff] at h
    obtain ⟨acc₁, hone, h⟩ := h
    obtain ⟨hw, hrest⟩ := List.forall_mem_cons.mp hwithdraws
    have hstep := held_applyWithdraw hw hone asset
    have hloop := ih (fun w' hw' => (hrest w' hw').mono (extends_applyWithdraw hone)) h
    omega

end Withdrawals

/-! ## Blocks -/

section Runs

variable {E : Env} {H : Holders E}

/-- The writes of a block's transactions create nothing, and the bridge can apply the block's
deposits and withdrawals over them. -/
structure Accounted (H : Holders E) (store : Store) (writes : AccountWrites)
    (deposits : List DepositEvent) (withdraws : List WithdrawTx) : Prop where
  transactions : ∀ asset, H.held asset (seen store writes) ≤ H.held asset store.getAccount
  deposits : ∀ d ∈ deposits, DepositAccounted H store writes d
  withdraws : ∀ w ∈ withdraws, WithdrawAccounted H store writes w

theorem held_draftBlock (hgas : E.options.gasMint = none) {choice : BlockChoice} {store : Store}
    {tip : ChainTip} {transactions : List VersionedTransaction} {deposits : List DepositEvent}
    {draft : BlockDraft}
    (hdraft : draftBlock E choice store tip transactions deposits = .ok draft)
    (haccounted : ∀ output pool,
      executeBlock E.svm E.feeCollector store
        (blockInput choice tip (partition (partitionWithdraws transactions).2).2) = .ok output →
      poolStage E choice.order store (partition (partitionWithdraws transactions).2).1
        output.accountWrites output.included = .ok pool →
      Accounted H store pool.writes deposits (partitionWithdraws transactions).1)
    (asset : L1Asset) :
    H.held asset (seen store draft.writes) + withdrawalsOf asset draft.accepted ≤
        H.held asset store.getAccount + depositsOf asset draft.credited := by
  obtain ⟨output, pool, depositWrites, withdrawn, hd⟩ := draftBlock_spec hdraft
  obtain ⟨htransactions, hdeposits, hwithdraws⟩ := haccounted output pool hd.executed hd.pooled
  have hdeposited := hd.deposited
  have hwithdrew := hd.withdrew
  rw [hgas] at hdeposited hwithdrew
  have hext : Extends pool.writes depositWrites :=
    (applyDeposits_spec ⟨by simp, by simp, by simp⟩ hdeposited).2
  have hafter := held_applyDeposits hdeposits hdeposited asset
  have hlast := held_applyWithdraws (fun w hw => (hwithdraws w hw).mono hext) hwithdrew asset
  have hbefore := htransactions asset
  rw [hd.writes, hd.accepted]
  have hnil : withdrawalsOf asset [] = 0 := rfl
  have hnil' : depositsOf asset [] = 0 := rfl
  dsimp only at hafter hlast
  omega

/-! ## Runs -/

/-- Only deposits made on the L1 are queued, and every block keeps the receipts and the books. -/
def Custody (H : Holders E) (made : List DepositEvent) (s : RunState) (drafts : List BlockDraft) :
    Action → Prop
  | .enqueue deposits => deposits ⊆ made
  | .commit choice => LeavesReceipts E s drafts (.commit choice) ∧
      ∀ transactions deposits output pool, s.inFlight = some (transactions, deposits) →
        executeBlock E.svm E.feeCollector s.node.store
          (blockInput choice s.node.tip (partition (partitionWithdraws transactions).2).2) =
            .ok output →
        poolStage E choice.order s.node.store (partition (partitionWithdraws transactions).2).1
          output.accountWrites output.included = .ok pool →
        Accounted H s.node.store pool.writes deposits (partitionWithdraws transactions).1
  | _ => True

theorem held_boot (halloc : E.genesis.allocations = []) {store : Store} {nowMs : UInt64}
    {node : Node} (h : boot E store nowMs = .ok node) (asset : L1Asset) :
    H.held asset node.store.getAccount = H.held asset store.getAccount := by
  refine Finset.sum_congr rfl fun k hk => ?_
  obtain ⟨hgenesis, hpool⟩ := H.genesis asset k hk
  rw [boot_getAccount h]
  simpa [halloc, hpool] using hgenesis

/-- In every state of a run, what is held and withdrawn of an asset is covered by the deposits
credited. -/
theorem held_of_history (hgas : E.options.gasMint = none) (halloc : E.genesis.allocations = [])
    {made : List DepositEvent} {s : RunState} {drafts : List BlockDraft}
    (hist : History E (Custody H made) s drafts) :
    ∀ asset, H.held asset s.node.store.getAccount +
        withdrawalsOf asset (acceptedWithdrawals drafts) ≤
      depositsOf asset (creditedDeposits drafts) := by
  induction hist with
  | initial h =>
    obtain ⟨nowMs, node, hboot, rfl⟩ := h
    intro asset
    have hempty : H.held asset Store.empty.getAccount = 0 := by
      refine Finset.sum_eq_zero fun k _ => ?_
      cases asset <;> rfl
    rw [held_boot halloc hboot, hempty]
    exact le_rfl
  | commit _ ha hflight _ hdraft hcommit ih =>
    obtain ⟨block, store, hp⟩ := commitDraft_spec hcommit
    have hblock := held_draftBlock (H := H) hgas hdraft fun output pool =>
      ha.2 _ _ output pool hflight
    simp only [acceptedWithdrawals, creditedDeposits, List.flatMap_append, List.flatMap_singleton]
    intro asset
    have hafter := hblock asset
    have hbefore := ih asset
    rw [hp.getAccount, withdrawalsOf_append, depositsOf_append]
    simp only [acceptedWithdrawals, creditedDeposits] at hbefore
    unfold seen at hafter
    omega
  | step _ _ hother hstep ih =>
    cases hstep with
    | commit _ _ _ => exact absurd rfl (hother _)
    | restart hboot =>
      intro asset
      rw [held_boot halloc hboot]
      exact ih asset
    | _ => exact ih

/-- What the claims of an asset's vault can pay: the accepted withdrawals whose leaf such a
claim recomputes. -/
def payable (P : Prims) (asset : L1Asset) (drafts : List BlockDraft) : ℕ :=
  (((acceptedWithdrawals drafts).filter fun w =>
    claimedLeaf P asset w.recipient w.amount w.nonce = w.leaf P).map fun w => w.amount.toNat).sum

theorem payable_eq_withdrawalsOf {asset : L1Asset} {drafts : List BlockDraft}
    (hfree : ∀ w ∈ acceptedWithdrawals drafts, ¬ LeafCollision E.prims w asset.assetId) :
    payable E.prims asset drafts = withdrawalsOf asset (acceptedWithdrawals drafts) := by
  unfold payable withdrawalsOf
  congr 2
  refine List.filter_congr fun w hw => ?_
  have hiff : claimedLeaf E.prims asset w.recipient w.amount w.nonce = w.leaf E.prims ↔
      L1Asset.ofId w.assetId = asset := by
    rw [claimedLeaf_eq_iff, or_iff_left (hfree w hw)]
    constructor
    · intro h
      rw [← h, L1Asset.ofId_assetId]
    · intro h
      rw [← h, L1Asset.assetId_ofId]
  exact decide_eq_decide.mpr hiff

theorem depositsOf_credited_le {made : List DepositEvent} {s : RunState}
    {drafts : List BlockDraft} (hist : History E (Custody H made) s drafts) (asset : L1Asset) :
    depositsOf asset (creditedDeposits drafts) ≤ depositsOf asset made := by
  have hreceipts : History E (LeavesReceipts E) s drafts := by
    refine hist.mono fun s drafts a ha => ?_
    cases a with
    | commit choice => exact ha.1
    | _ => trivial
  have hnodup := (receiptsHeld_of_leavesReceipts hreceipts).nodup.of_map
  have hmade := (depositsSatisfy_of_enqueued
    (fun _ _ deposits ha d hd => (ha : deposits ⊆ made) hd) hist).credited
  exact List.sum_filter_le_of_subset hnodup hmade _ _

end Runs

/-! ## A bridge without genesis allocations -/

namespace Sample

def bridgeEnv (gasMint : Option Pubkey) : Env :=
  { env with
    genesis := { env.genesis with allocations := [] }
    options := { options with gasMint } }

/-- A deposit of 10000 units of an asset for the payer. -/
def bridgeDeposit (mint : Option Pubkey) : DepositEvent := ⟨"5xBridge", mint, 9, 10000, payer⟩

/-- The payer withdraws 1000 lamports. -/
def bridgeTx : VersionedTransaction :=
  withdrawTx 9 (Bytes.replicate 32 7) 1000 1 ((bridgeEnv none).genesis.genesisHash prims)

def bridgeWithdraw : WithdrawTx :=
  ⟨bridgeTx, payer, Bytes.replicate 32 7, NATIVE_ASSET_ID, 1000, 1⟩

def bridgeReceipt : Pubkey := depositReceiptAddress prims "5xBridge"

theorem partitionWithdraws_bridgeTx : partitionWithdraws [bridgeTx] = ([bridgeWithdraw], []) := by
  simp [partitionWithdraws, bridgeTx, parseWithdraw_withdrawTx, bridgeWithdraw]

theorem draftBlock_bridge {gasMint mint : Option Pubkey}
    (hgas : creditsNativeGas gasMint mint = true) (choice : BlockChoice) {store : Store}
    (tip : ChainTip) (hpayer : store.getAccount payer = none)
    (hreceipt : store.getAccount bridgeReceipt = none) :
    ∃ draft, draftBlock (bridgeEnv gasMint) choice store tip [bridgeTx] [bridgeDeposit mint] =
        .ok draft ∧
      draft.credited = [bridgeDeposit mint] ∧ draft.accepted = [bridgeWithdraw] ∧
      draft.included.map Prod.fst = [bridgeTx] := by
  have hsplit := partitionWithdraws_bridgeTx
  obtain ⟨writes, hexec, hnone⟩ := executeBlock_nil (bridgeEnv gasMint).svm
    (bridgeEnv gasMint).feeCollector store (tip.slot + 1) choice.timestampMs tip.blockhash tip.queue
  have hload : loadThrough store writes payer = none := by
    simp [loadThrough, hnone payer (by decide), hpayer]
  obtain ⟨writes', hwrites'⟩ : ∃ writes' : AccountWrites, writes' =
      (creditNative store payer 10000 writes).insert bridgeReceipt
        (some (receiptAccount (bridgeDeposit mint))) := ⟨_, rfl⟩
  have happly : applyDeposits prims store gasMint [bridgeDeposit mint] writes =
      some (writes', [bridgeDeposit mint]) := by
    have hnew : isCredited prims store writes (bridgeDeposit mint) = false := by
      rw [isCredited, show depositReceiptAddress prims (bridgeDeposit mint).l1Signature =
        bridgeReceipt from rfl, hnone _ (by decide +kernel), hreceipt]
      rfl
    simp only [applyDeposits, List.foldlM_cons, List.foldlM_nil, applyDeposit, hnew, hwrites',
      creditDeposit, show (bridgeDeposit mint).mint = mint from rfl, hgas]
    rfl
  have hfunded : loadThrough store writes' payer = some (StoredAccount.newSystem 10000) := by
    rw [hwrites', loadThrough_insert, if_neg (by decide +kernel), creditNative, loadThrough_insert,
      if_pos rfl, hload]
    rfl
  have hburn : burnWithdrawal prims store gasMint bridgeWithdraw writes' =
      some (writes'.insert payer (some (StoredAccount.newSystem 4000)), some 4000) := by
    have hsol : bridgeWithdraw.isNative gasMint = true := by
      simp [WithdrawTx.isNative, bridgeWithdraw]
    have hneeded : bridgeWithdraw.neededNative gasMint = 6000 := by
      rw [WithdrawTx.neededNative, if_pos hsol]
      rfl
    simp only [burnWithdrawal, burnAsset, hsol, hneeded, hfunded,
      show bridgeWithdraw.feePayer = payer from rfl, if_true]
    rfl
  obtain ⟨withdrawn, hwithdrawn, haccepted⟩ : ∃ withdrawn,
      applyWithdraws prims store gasMint (bridgeEnv gasMint).feeCollector [bridgeWithdraw]
        writes' [] = some withdrawn ∧ withdrawn.accepted = [bridgeWithdraw] := by
    simp [applyWithdraws, applyWithdraw, hburn]
  have hincluded := applyWithdraws_included hwithdrawn
  have hd : Drafted (bridgeEnv gasMint) choice store tip [bridgeTx] [bridgeDeposit mint]
      ⟨withdrawn.writes, withdrawn.included, [], [bridgeDeposit mint], withdrawn.accepted⟩
      ⟨[], [], writes, 0⟩ ⟨writes, [], []⟩ writes' withdrawn :=
    ⟨by simpa [hsplit, partition, blockInput] using hexec, by simp [hsplit, partition, poolStage],
      happly, by rw [hsplit]; exact hwithdrawn, rfl, rfl, rfl, rfl⟩
  exact ⟨_, draftBlock_eq hd, rfl, haccepted, hincluded⟩

theorem history_bridge (gasMint mint : Option Pubkey)
    (hgas : creditsNativeGas gasMint mint = true)
    (allowed : RunState → List BlockDraft → Action → Prop) (order : MapOrder)
    (hother : ∀ s, allowed s [] (.enqueue [bridgeDeposit mint]) ∧ allowed s [] (.admitTx bridgeTx) ∧
      allowed s [] (.push bridgeTx) ∧ allowed s [] .drain)
    (hcommit : ∀ s choice, s.inFlight = some ([bridgeTx], [bridgeDeposit mint]) →
      allowed s [] (.commit choice)) :
    ∃ s draft, History (bridgeEnv gasMint) allowed s [draft] ∧
      draft.credited = [bridgeDeposit mint] ∧ draft.accepted = [bridgeWithdraw] := by
  obtain ⟨node₀, hboot, haccounts, hloc, hlatest, htip, hmem, hdep, -⟩ :=
    boot_empty (bridgeEnv gasMint) 0
  have hmissing : ∀ k, k ∉ [POOL_STATE_ADDRESS] → node₀.store.getAccount k = none := by
    intro k hk
    rw [Store.getAccount, haccounts]
    exact (PartialMap.insertAll_eq_none_iff _ _).mpr hk
  have hpayer := hmissing payer (by decide)
  have hreceipt := hmissing bridgeReceipt (by decide +kernel)
  let node₁ := enqueueDeposits node₀ [bridgeDeposit mint]
  have h₁ : History (bridgeEnv gasMint) allowed ⟨node₁, [], none⟩ [] :=
    (History.initial ⟨0, node₀, hboot, rfl⟩).step (hother _).1 (by simp) (.enqueue _)
  have hadmits : admitTx (bridgeEnv gasMint) node₁ bridgeTx = .ok (Bytes.replicate 64 9) := by
    have hfresh : node₀.store.getTransaction (Bytes.replicate 64 9) = .ok none :=
      Store.getTransaction_eq_none_iff.mpr (congrFun hloc _)
    have hgenesis : (BlockhashQueue.new.register 0 bridgeTx.message.recentBlockhash).isValid
        bridgeTx.message.recentBlockhash = true := by decide +kernel
    have hvalid : node₀.tip.queue.isValid bridgeTx.message.recentBlockhash = true := by
      rw [htip]
      exact hgenesis
    simp only [admitTx, show bridgeTx.signature = some (Bytes.replicate 64 9) from rfl, node₁,
      enqueueDeposits, hvalid, hfresh, Bool.not_true, Bool.false_eq_true, if_false]
    rfl
  have h₂ : History (bridgeEnv gasMint) allowed ⟨node₁, [bridgeTx], none⟩ [] :=
    h₁.step (hother _).2.1 (by simp) (.admitTx hadmits)
  let node₃ := pushTransaction node₁ bridgeTx
  have h₃ : History (bridgeEnv gasMint) allowed ⟨node₃, [], none⟩ [] :=
    h₂.step (hother _).2.2.1 (by simp) (.push_singleton rfl)
  let s₄ : RunState :=
    ⟨(drainForBlock (bridgeEnv gasMint) node₃).1, [],
      some (drainForBlock (bridgeEnv gasMint) node₃).2⟩
  have h₄ : History (bridgeEnv gasMint) allowed s₄ [] :=
    h₃.step (hother _).2.2.2 (by simp) (.drain rfl)
  have hflight : s₄.inFlight = some ([bridgeTx], [bridgeDeposit mint]) := by
    have hnew : (((Mempool.new options.mempoolCapacity options.maxPerPayer).push bridgeTx).1.drain
        options.maxBlockTransactions).2 = [bridgeTx] := by decide +kernel
    have hdrain : ((node₀.mempool.push bridgeTx).1.drain
        (bridgeEnv gasMint).options.maxBlockTransactions).2 = [bridgeTx] := by
      rw [hmem]
      exact hnew
    simp only [s₄, node₃, node₁, drainForBlock, pushTransaction, enqueueDeposits, hdrain, hdep,
      List.nil_append]
  obtain ⟨draft, hdraft, hcredited, haccepted, hincluded⟩ := draftBlock_bridge hgas ⟨0, order⟩
    s₄.node.tip hpayer hreceipt
  obtain ⟨node, block, store, hcommitted, -⟩ := commitDraft_isOk (E := bridgeEnv gasMint) ⟨0, order⟩
    s₄.node draft (fun latest h => by cases hlatest.symm.trans h) (by rw [hincluded]; decide)
  exact ⟨_, draft, h₄.commit (hcommit _ _ hflight) hflight (by simp [isDue]) hdraft hcommitted,
    hcredited, haccepted⟩

def bridgeHolders : Holders (bridgeEnv none) where
  of
    | .sol => {payer, collector}
    | .spl _ => ∅
  genesis := by
    intro asset k hk
    cases asset with
    | sol =>
      rcases Finset.mem_insert.mp hk with rfl | hk
      · decide
      · rw [Finset.mem_singleton.mp hk]
        decide
    | spl _ => cases hk
  disjoint := fun _ => Finset.disjoint_empty_right _

theorem custody_bridge (s : RunState) (choice : BlockChoice)
    (hflight : s.inFlight = some ([bridgeTx], [bridgeDeposit none])) :
    Custody bridgeHolders [bridgeDeposit none] s [] (.commit choice) := by
  refine ⟨by simp [LeavesReceipts, creditedDeposits], ?_⟩
  intro transactions deposits output pool hflight' hexec hpool
  cases hflight.symm.trans hflight'
  obtain ⟨writes, hexec', hnone⟩ := executeBlock_nil (bridgeEnv none).svm
    (bridgeEnv none).feeCollector s.node.store (s.node.tip.slot + 1) choice.timestampMs
    s.node.tip.blockhash s.node.tip.queue
  simp only [partitionWithdraws_bridgeTx] at hexec hpool ⊢
  cases hexec.symm.trans hexec'
  cases hpool
  have hlive : ∀ k, k ≠ CLOCK_ID → Live s.node.store writes k := by
    intro k hk hdeleted
    cases (hnone k hk).symm.trans hdeleted
  refine ⟨fun asset => ?_, ?_, ?_⟩
  · refine (Finset.sum_congr rfl fun k hk => ?_).le
    have hclock : k ≠ CLOCK_ID := by
      cases asset with
      | sol =>
        rcases Finset.mem_insert.mp hk with rfl | hk
        · decide
        · rw [Finset.mem_singleton.mp hk]
          decide
      | spl _ => cases hk
    rw [seen, AccountWrites.applyTo_none (hnone k hclock)]
  · intro d hd
    rw [List.mem_singleton.mp hd]
    exact ⟨fun _ => hlive _ (by decide), fun h => absurd rfl h⟩
  · intro w hw
    rw [List.mem_singleton.mp hw]
    exact ⟨Finset.mem_insert_self _ _, hlive _ (by decide), hlive _ (by decide), fun _ => by decide,
      fun h => absurd rfl h⟩

def gasMint : Mint := ⟨Bytes.replicate 32 11, by decide⟩

end Sample

/-- All assets make the round trip exactly when no gas mint is configured. Then, on a chain
without genesis allocations, the claims payable from the vault of an asset stay within the
deposits of it, in every state of every run that keeps the books, or the leaf of an accepted
withdrawal collides with that of the asset. -/
theorem round_trips_iff_and_solvent (E : Env) :
    ((∀ asset, RoundTrips E.prims E.options.gasMint asset) ↔ E.options.gasMint = none) ∧
      ((∀ asset, RoundTrips E.prims E.options.gasMint asset) → E.genesis.allocations = [] →
        ∀ (H : Holders E) (made : List DepositEvent) (s : RunState) (drafts : List BlockDraft),
          History E (Custody H made) s drafts →
            ∀ asset, payable E.prims asset drafts ≤ depositsOf asset made ∨
              ∃ w ∈ acceptedWithdrawals drafts, LeafCollision E.prims w asset.assetId) := by
  refine ⟨roundTrips_iff, ?_⟩
  intro htrips halloc H made s drafts hist asset
  rw [or_iff_not_imp_right]
  intro hfree
  push Not at hfree
  rw [payable_eq_withdrawalsOf hfree]
  have hcovered := held_of_history (roundTrips_iff.mp htrips) halloc hist asset
  have hcredited := depositsOf_credited_le hist asset
  omega

/-- Without a gas mint the deposit of 10000 covers the withdrawal of 1000, whose leaf is that of
the asset itself. -/
theorem bridge_solvent :
    (∀ asset, RoundTrips Sample.prims none asset) ∧
      ∃ s drafts, History (Sample.bridgeEnv none)
          (Custody Sample.bridgeHolders [Sample.bridgeDeposit none]) s drafts ∧
        payable Sample.prims .sol drafts = 1000 ∧
        (∀ w ∈ acceptedWithdrawals drafts, ¬ LeafCollision Sample.prims w L1Asset.sol.assetId) ∧
        payable Sample.prims .sol drafts ≤ depositsOf .sol [Sample.bridgeDeposit none] := by
  obtain ⟨order⟩ := MapOrder.nonempty
  obtain ⟨hiff, hsolvent⟩ := round_trips_iff_and_solvent (Sample.bridgeEnv none)
  have htrips := hiff.mpr rfl
  obtain ⟨s, draft, hist, -, haccepted⟩ := Sample.history_bridge none none rfl _ order
    (fun _ => ⟨List.Subset.refl _, trivial, trivial, trivial⟩) Sample.custody_bridge
  have hfree : ∀ w ∈ acceptedWithdrawals [draft],
      ¬ LeafCollision Sample.prims w L1Asset.sol.assetId := by
    intro w hw hcollision
    simp only [acceptedWithdrawals, List.flatMap_cons, List.flatMap_nil, haccepted,
      List.append_nil, List.mem_singleton] at hw
    rw [hw] at hcollision
    exact hcollision.1 rfl
  refine ⟨htrips, s, [draft], hist, ?_, hfree, ?_⟩
  · simp only [payable, acceptedWithdrawals, List.flatMap_cons, List.flatMap_nil, haccepted]
    decide +kernel
  · rcases hsolvent htrips rfl _ _ _ _ hist .sol with hle | ⟨w, hw, hcollision⟩
    · exact hle
    · exact absurd hcollision (hfree w hw)

/-- With a gas mint its deposit is withdrawn from the SOL vault, which no deposit filled. -/
theorem gas_withdrawn_from_sol_vault :
    (¬ RoundTrips Sample.prims (some Sample.gasMint.1) (.spl Sample.gasMint)) ∧
      (Sample.bridgeEnv (some Sample.gasMint.1)).genesis.allocations = [] ∧
      ∃ s drafts, History (Sample.bridgeEnv (some Sample.gasMint.1)) (fun _ _ _ => True) s drafts ∧
        creditedDeposits drafts = [Sample.bridgeDeposit (some Sample.gasMint.1)] ∧
        depositsOf .sol (creditedDeposits drafts) = 0 ∧
        payable Sample.prims .sol drafts = 1000 := by
  obtain ⟨order⟩ := MapOrder.nonempty
  obtain ⟨s, draft, hist, hcredited, haccepted⟩ := Sample.history_bridge
    (some Sample.gasMint.1) (some Sample.gasMint.1) (by decide) (fun _ _ _ => True) order
    (fun _ => ⟨trivial, trivial, trivial, trivial⟩) (fun _ _ _ => trivial)
  have hall : creditedDeposits [draft] = [Sample.bridgeDeposit (some Sample.gasMint.1)] := by
    simp [creditedDeposits, hcredited]
  refine ⟨not_roundTrips_gasMint _, rfl, s, [draft], hist, hall, ?_, ?_⟩
  · rw [hall]
    decide
  · simp only [payable, acceptedWithdrawals, List.flatMap_cons, List.flatMap_nil, haccepted]
    decide +kernel

end Zul.Node
