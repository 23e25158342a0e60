import Zul.Node.Receipts
import Zul.Node.Tokens

/-! # Token buffers

The readers of the token layouts tolerate short data, the writers panic on it. Whether a block
panics is decided by what stands at the wrapped mints and token accounts its steps write: a
missing account is created in full length, but an account that was given lamports and nothing
else is too short.
-/

namespace Zul

open WrappedSpl

theorem length_of_amount_le {data : List UInt8} {amount : UInt64} (hpos : 0 < amount)
    (h : amount ≤ (tokenAccountAmount data).getD 0) : 72 ≤ data.length := by
  rw [← tokenAccountAmount_isSome]
  cases hread : tokenAccountAmount data with
  | some _ => rfl
  | none =>
    rw [hread, Option.getD_none] at h
    exact absurd hpos (UInt64.not_lt.mpr h)

namespace Privacy.PoolService

variable {P : Prims} {V : ProofVerifier} {cfg : PoolConfig} {store : Store}

/-- What a pool transaction finds: if it is accepted, the token account it credits has an amount
field. -/
def PoolFits (P : Prims) (V : ProofVerifier) (cfg : PoolConfig) (store : Store) (r : Running)
    (tx : Pubkey × PoolInstruction) : Prop :=
  checkFunds P cfg store r tx.1 tx.2 = .ok () →
    isOk (PoolProcessor.process P V store.isNullifierSpent r.ctx tx.2).2 = true →
    ∀ m ∈ tokenMoves cfg tx,
      AtLeast 72 (r.tokenOverlay.onto store.getAccount (tokenKey P m.1 m.2.target))

theorem moveWrapped_isSome_of_covered {tokens : PartialMap Pubkey StoredAccount} {mint : Bytes 32}
    {source target : Pubkey} {amount : UInt64} (hpos : 0 < amount)
    (hcovered : amount ≤ amountOf (tokens.onto store.getAccount (tokenKey P mint source))) :
    (moveWrapped P store tokens mint source target amount).isSome ↔
      AtLeast 72 (tokens.onto store.getAccount (tokenKey P mint target)) := by
  rw [moveWrapped_isSome, and_iff_right]
  intro account haccount
  rw [haccount] at hcovered
  exact length_of_amount_le hpos hcovered

theorem applyEffects_isSome {feePayer : Pubkey} {r : Running} {effects : List PoolEffect} :
    (effects.foldlM (applyEffect P cfg store feePayer) r).isSome ↔
      (moveAllWrapped P store r.tokenOverlay
        (effects.flatMap (wrappedMoves cfg feePayer))).isSome := by
  induction effects generalizing r with
  | nil => simp [moveAllWrapped]
  | cons effect effects ih =>
    rw [List.foldlM_cons, List.flatMap_cons, moveAllWrapped_append]
    cases hone : applyEffect P cfg store feePayer r effect with
    | some r' =>
      obtain ⟨-, -, htoken⟩ := applyEffect_spec hone
      rw [htoken]
      exact ih
    | none =>
      have hpanic : moveAllWrapped P store r.tokenOverlay (wrappedMoves cfg feePayer effect) =
          none := by
        rcases effect with ⟨_ | mint, amount⟩ | ⟨_ | mint, amount, recipient⟩ | amount
        all_goals simp only [applyEffect, Option.bind_eq_bind, Option.bind_eq_none_iff,
          reduceCtorEq] at hone
        all_goals simp only [moveAllWrapped, wrappedMoves, List.foldlM_cons, List.foldlM_nil]
        · rw [Option.eq_none_iff_forall_ne_some.mpr hone]
          rfl
        · rw [Option.eq_none_iff_forall_ne_some.mpr hone]
          rfl
      rw [hpanic]
      rfl

theorem amount_pos_of_process (cfg : PoolConfig) {spent : H256 → Bool} {ctx ctx' : PoolContext}
    {tx : Pubkey × PoolInstruction} {outcome : PoolOutcome}
    (h : PoolProcessor.process P V spent ctx tx.2 = (ctx', .ok outcome)) :
    ∀ m ∈ tokenMoves cfg tx, 0 < m.2.amount := by
  obtain ⟨feePayer, instruction⟩ := tx
  cases instruction with
  | shield asset amount secret note =>
    simp only [PoolProcessor.process, PoolProcessor.shield] at h
    split at h
    · cases h
    · rename_i hzero
      cases asset with
      | native => exact List.forall_mem_nil _
      | spl mint =>
        rintro m hm
        rw [List.mem_singleton.mp hm]
        exact UInt64.pos_iff_ne_zero.mpr hzero
  | transfer proof root nfs commitments fee notes =>
    simp only [tokenMoves, PoolInstruction.effects]
    split <;> exact List.forall_mem_nil _
  | unshield proof root nullifier change asset amount recipient note =>
    simp only [PoolProcessor.process, PoolProcessor.unshield] at h
    split at h
    · cases h
    · rename_i hcheck
      cases asset with
      | native => exact List.forall_mem_nil _
      | spl mint =>
        rintro m hm
        rw [List.mem_singleton.mp hm]
        refine UInt64.pos_iff_ne_zero.mpr ?_
        rintro rfl
        cases hcheck

theorem tokenMoves_cases (cfg : PoolConfig) (tx : Pubkey × PoolInstruction) :
    tokenMoves cfg tx = [] ∨ ∃ m, tokenMoves cfg tx = [m] := by
  obtain ⟨feePayer, instruction⟩ := tx
  cases instruction with
  | shield asset amount secret note =>
    cases asset with
    | native => exact .inl rfl
    | spl mint => exact .inr ⟨_, rfl⟩
  | transfer proof root nfs commitments fee notes =>
    refine .inl ?_
    simp only [tokenMoves, PoolInstruction.effects]
    split <;> rfl
  | unshield proof root nullifier change asset amount recipient note =>
    cases asset with
    | native => exact .inl rfl
    | spl mint => exact .inr ⟨_, rfl⟩

theorem applyOne_isSome {r : Running} {tx : Pubkey × PoolInstruction} :
    (applyOne P V cfg store r tx.1 tx.2).isSome ↔ PoolFits P V cfg store r tx := by
  unfold applyOne PoolFits
  split
  · rename_i hfunds
    simp [hfunds]
  · rename_i hfunds
    split
    · rename_i hprocess
      simp [hprocess, isOk]
    · rename_i ctx outcome hprocess
      have hmoves : (moveAllWrapped P store r.tokenOverlay (tokenMoves cfg tx)).isSome ↔
          ∀ m ∈ tokenMoves cfg tx,
            AtLeast 72 (r.tokenOverlay.onto store.getAccount (tokenKey P m.1 m.2.target)) := by
        have hcovered := covered_tokenMoves hfunds
        have hpos := amount_pos_of_process cfg hprocess
        rcases tokenMoves_cases cfg tx with hnone | ⟨m, hm⟩
        · simp [hnone, moveAllWrapped]
        · rw [hm] at hcovered hpos ⊢
          simp [moveAllWrapped, moveWrapped_isSome_of_covered (hpos m (by simp)) hcovered.1]
      have hrun := @applyEffects_isSome P cfg store tx.1
        { r with
          ctx
          overlay := moveLamports store r.overlay tx.1 cfg.feeCollector cfg.flatFee }
        outcome.effects
      rw [PoolProcessor.process_effects hprocess] at hrun
      simp only [hfunds, hprocess, isOk, true_imp_iff, ← hmoves, Option.bind_eq_bind,
        Option.isSome_bind]
      rw [PoolProcessor.process_effects hprocess]
      refine Iff.trans ?_ hrun
      cases tx.2.effects.foldlM (applyEffect P cfg store tx.1) _ <;> rfl

theorem applyNext_isSome {acc : Running × List (Except PoolServiceError Unit)}
    {tx : Pubkey × PoolInstruction} :
    (applyNext P V cfg store acc tx).isSome ↔ PoolFits P V cfg store acc.1 tx := by
  rw [← applyOne_isSome, applyNext]
  cases applyOne P V cfg store acc.1 tx.1 tx.2 <;> rfl

end Privacy.PoolService

namespace Node

open Bridge Privacy PoolService

section Steps

variable (P : Prims) (store : Store) (gasMint : Option Pubkey)

/-- What a deposit finds: if it is credited in tokens, the wrapped mint has a supply field and
the recipient's token account an amount field. -/
def DepositFits (writes : AccountWrites) (d : DepositEvent) : Prop :=
  isCredited P store writes d = false → creditsNativeGas gasMint d.mint = false →
    AtLeast 44 (loadThrough store writes (wrappedMint P d)) ∧
      AtLeast 72 (loadThrough store writes (wrappedAccount P d))

/-- Whether accounts, as read, cover a withdrawal that costs its payer `needed` lamports. -/
def Covers (read : Pubkey → Option StoredAccount) (needed : ℕ) (w : WithdrawTx) : Prop :=
  0 < w.amount ∧ needed ≤ lamportsOf (read w.feePayer) ∧
    (w.isNative gasMint = false → w.amount ≤ amountOf (read (w.wrappedAccount P)))

instance (read : Pubkey → Option StoredAccount) (needed : ℕ) (w : WithdrawTx) :
    Decidable (Covers P gasMint read needed w) :=
  inferInstanceAs (Decidable (_ ∧ _ ∧ _))

/-- What a withdrawal finds: if it burns tokens, the wrapped mint has a supply field. -/
def WithdrawFits (writes : AccountWrites) (w : WithdrawTx) : Prop :=
  w.isNative gasMint = false →
    Covers P gasMint (loadThrough store writes) (w.neededNative gasMint).toNat w →
    AtLeast 44 (loadThrough store writes (w.wrappedMint P))

variable {P store gasMint}

theorem mintWithSupply_isSome {amount : UInt64} {decimals : UInt8}
    {account : Option StoredAccount} :
    (mintWithSupply amount decimals account).isSome ↔ AtLeast 44 account := by
  cases account with
  | none => simp [mintWithSupply]
  | some a => simp [mintWithSupply, setMintSupply_isSome]

theorem tokenWithAmount_isSome {wmint recipient : Pubkey} {amount : UInt64}
    {account : Option StoredAccount} :
    (tokenWithAmount wmint recipient amount account).isSome ↔ AtLeast 72 account := by
  cases account with
  | none => simp [tokenWithAmount]
  | some a => simp [tokenWithAmount, setTokenAccountAmount_isSome]

theorem length_mintWithSupply {amount : UInt64} {decimals : UInt8} {account : Option StoredAccount}
    {mint : StoredAccount} (h : mintWithSupply amount decimals account = some mint) :
    72 ≤ mint.data.length ↔ AtLeast 72 account := by
  cases account with
  | none =>
    cases h
    simp [length_packMint, MINT_LEN]
  | some a =>
    obtain ⟨data, hdata, rfl⟩ := Option.map_eq_some_iff.mp h
    simp [length_setMintSupply hdata]

theorem creditDeposit_isSome {writes : AccountWrites} {d : DepositEvent}
    (htokens : creditsNativeGas gasMint d.mint = false) :
    (creditDeposit P store gasMint writes d).isSome ↔
      AtLeast 44 (loadThrough store writes (wrappedMint P d)) ∧
        AtLeast 72 (loadThrough store writes (wrappedAccount P d)) := by
  rw [creditDeposit, htokens, if_neg Bool.false_ne_true,
    ← @mintWithSupply_isSome d.amount (wrappedAs d).2, creditWrappedSpl, creditMint]
  change ((((mintWithSupply d.amount (wrappedAs d).2
    (loadThrough store writes (wrappedMint P d))).map _).bind _).isSome ↔ _)
  cases hmint : mintWithSupply d.amount (wrappedAs d).2
      (loadThrough store writes (wrappedMint P d)) with
  | none => simp
  | some mint =>
    rw [Option.map_some, Option.bind_some, creditTokenAccount, Option.isSome_map,
      tokenWithAmount_isSome, Option.isSome_some, eq_self_iff_true, true_and]
    change AtLeast 72 (loadThrough store (writes.insert (wrappedMint P d) (some mint))
      (wrappedAccount P d)) ↔ _
    rw [loadThrough_insert]
    split
    · rename_i hsame
      rw [atLeast_some, length_mintWithSupply hmint, hsame]
    · rfl

theorem applyDeposit_isSome {acc : AccountWrites × List DepositEvent} {d : DepositEvent} :
    (applyDeposit P store gasMint acc d).isSome ↔ DepositFits P store gasMint acc.1 d := by
  unfold applyDeposit DepositFits
  cases isCredited P store acc.1 d with
  | true => simp
  | false =>
    rw [if_neg Bool.false_ne_true, Option.bind_eq_bind, Option.isSome_bind]
    have hcredit : (creditDeposit P store gasMint acc.1 d).any (fun _ => true) =
        (creditDeposit P store gasMint acc.1 d).isSome := by
      cases creditDeposit P store gasMint acc.1 d <;> rfl
    refine (Eq.congr hcredit rfl).trans ?_
    cases htokens : creditsNativeGas gasMint d.mint with
    | true => simp [creditDeposit, htokens]
    | false => simp [creditDeposit_isSome htokens]

theorem burnSupply_isSome {l1Mint : Pubkey} {amount : UInt64} {writes : AccountWrites} :
    (burnSupply P store l1Mint amount writes).isSome ↔
      AtLeast 44 (loadThrough store writes (wrappedMintAddress P l1Mint)) := by
  unfold burnSupply
  dsimp only
  cases loadThrough store writes (wrappedMintAddress P l1Mint) with
  | none => simp
  | some mint => simp [setMintSupply_isSome]

theorem neededNative_pos (w : WithdrawTx) : 0 < (w.neededNative gasMint).toNat := by
  have hfee : POOL_TX_FEE.toNat = 5000 := rfl
  unfold WithdrawTx.neededNative
  split
  · rw [UInt64.toNat_saturatingAdd, hfee]
    omega
  · rw [hfee]
    decide

theorem burnWithdrawal_of_not_covers {writes : AccountWrites} {w : WithdrawTx}
    (h : ¬ Covers P gasMint (loadThrough store writes) (w.neededNative gasMint).toNat w) :
    burnWithdrawal P store gasMint w writes = some (writes, none) := by
  unfold burnWithdrawal
  cases hpayer : loadThrough store writes w.feePayer with
  | none => rfl
  | some payer =>
    dsimp only
    split
    · rename_i hfunds
      -- only the tokens can be missing
      have htokens : ¬ (w.isNative gasMint = false →
          w.amount ≤ amountOf (loadThrough store writes (w.wrappedAccount P))) := by
        intro htokens
        refine h ⟨hfunds.2, ?_, htokens⟩
        rw [hpayer]
        exact UInt64.le_iff_toNat_le.mp hfunds.1
      obtain ⟨hwrapped, hshort⟩ := Classical.not_imp.mp htokens
      have hburn : burnAsset P store gasMint w writes = some (writes, false) := by
        rw [burnAsset, hwrapped, if_neg Bool.false_ne_true, burnWrappedSpl,
          if_neg (UInt64.pos_iff_ne_zero.mp hfunds.2)]
        have hata : associatedTokenAddress P w.feePayer (wrappedMintAddress P w.assetId) =
          w.wrappedAccount P := rfl
        dsimp only
        rw [hata]
        cases htoken : loadThrough store writes (w.wrappedAccount P) with
        | none => rfl
        | some token =>
          rw [htoken] at hshort
          exact if_pos (UInt64.not_le.mp hshort)
      rw [hburn]
    · rfl

/-- A covered withdrawal burns its tokens, if it is not native, and charges the payer as it was
read before. It panics on the mint only: a balance that covers a nonzero amount was read from a
full buffer. -/
theorem burnWithdrawal_of_covers {writes : AccountWrites} {w : WithdrawTx}
    (h : Covers P gasMint (loadThrough store writes) (w.neededNative gasMint).toNat w) :
    ∃ payer, loadThrough store writes w.feePayer = some payer ∧
      w.neededNative gasMint ≤ payer.lamports ∧
      (w.isNative gasMint = true ∧ burnWithdrawal P store gasMint w writes =
          some (writes.insert w.feePayer (some { payer with
            lamports := payer.lamports - w.neededNative gasMint }),
            some (payer.lamports - w.neededNative gasMint)) ∨
        w.isNative gasMint = false ∧ ∃ token data,
          loadThrough store writes (w.wrappedAccount P) = some token ∧
          w.amount ≤ (tokenAccountAmount token.data).getD 0 ∧
          setTokenAccountAmount token.data ((tokenAccountAmount token.data).getD 0 - w.amount) =
            some data ∧
          burnWithdrawal P store gasMint w writes =
            (burnSupply P store w.assetId w.amount
              (writes.insert (w.wrappedAccount P) (some { token with data }))).map fun burned =>
              (burned.insert w.feePayer (some { payer with
                lamports := payer.lamports - w.neededNative gasMint }),
                some (payer.lamports - w.neededNative gasMint))) := by
  obtain ⟨hpos, hlamports, htokens⟩ := h
  cases hpayer : loadThrough store writes w.feePayer with
  | none =>
    rw [hpayer] at hlamports
    exact absurd hlamports (Nat.not_le.mpr (neededNative_pos w))
  | some payer =>
    rw [hpayer] at hlamports
    have hfunds : w.neededNative gasMint ≤ payer.lamports := UInt64.le_iff_toNat_le.mpr hlamports
    refine ⟨payer, rfl, hfunds, ?_⟩
    cases hwrapped : w.isNative gasMint with
    | true => exact .inl ⟨rfl, by simp [burnWithdrawal, hpayer, hfunds, hpos, burnAsset, hwrapped]⟩
    | false =>
      have hcovered := htokens hwrapped
      cases htoken : loadThrough store writes (w.wrappedAccount P) with
      | none =>
        rw [htoken] at hcovered
        exact absurd hpos (UInt64.not_lt.mpr hcovered)
      | some token =>
        rw [htoken] at hcovered
        have hbal : w.amount ≤ (tokenAccountAmount token.data).getD 0 := hcovered
        obtain ⟨data, hdata⟩ := Option.isSome_iff_exists.mp ((setTokenAccountAmount_isSome
          (a := (tokenAccountAmount token.data).getD 0 - w.amount)).mpr
            (length_of_amount_le hpos hbal))
        have hburn : burnAsset P store gasMint w writes =
            (burnSupply P store w.assetId w.amount
              (writes.insert (w.wrappedAccount P) (some { token with data }))).map (·, true) := by
          rw [burnAsset, hwrapped, if_neg Bool.false_ne_true, burnWrappedSpl,
            if_neg (UInt64.pos_iff_ne_zero.mp hpos)]
          have hata : associatedTokenAddress P w.feePayer (wrappedMintAddress P w.assetId) =
            w.wrappedAccount P := rfl
          simp only [hata, htoken, UInt64.not_lt.mpr hbal, if_false, hdata]
          exact Option.map_eq_bind.symm
        refine .inr ⟨rfl, token, data, rfl, hbal, hdata, ?_⟩
        simp only [burnWithdrawal, hpayer, hfunds, hpos, and_self, if_true, hburn]
        cases burnSupply P store w.assetId w.amount _ <;> rfl

theorem burnWithdrawal_isSome {writes : AccountWrites} {w : WithdrawTx} :
    (burnWithdrawal P store gasMint w writes).isSome ↔ WithdrawFits P store gasMint writes w := by
  unfold WithdrawFits
  by_cases hcovers : Covers P gasMint (loadThrough store writes) (w.neededNative gasMint).toNat w
  · obtain ⟨payer, -, -, ⟨hnative, hburn⟩ | ⟨hwrapped, token, data, htoken, -, hdata, hburn⟩⟩ :=
      burnWithdrawal_of_covers hcovers
    · simp [hburn, hnative]
    · rw [hburn, Option.isSome_map, burnSupply_isSome, loadThrough_insert]
      simp only [hwrapped, hcovers, true_imp_iff]
      split
      · rename_i hsame
        rw [show w.wrappedMint P = w.wrappedAccount P from hsame, htoken, atLeast_some,
          atLeast_some, length_setTokenAccountAmount hdata]
      · rfl
  · simp [burnWithdrawal_of_not_covers hcovers, hcovers]

theorem applyWithdraw_isSome {feeCollector : Pubkey} {acc : Withdrawn} {w : WithdrawTx} :
    (applyWithdraw P store gasMint feeCollector acc w).isSome ↔
      WithdrawFits P store gasMint acc.writes w := by
  rw [← burnWithdrawal_isSome, applyWithdraw]
  rcases burnWithdrawal P store gasMint w acc.writes with _ | ⟨writes, _ | post⟩ <;> rfl

end Steps

namespace Sample

def mintFunding : DepositEvent := ⟨"4xFunding", none, 9, 500, wrappedMintAddress prims mint⟩

def tokenDeposit : DepositEvent := ⟨"5xToken", some mint, 6, 100, payer⟩

end Sample

/-- The stages of a block run through exactly if each step, in the state it runs in, finds token
buffers long enough for the fields it writes. -/
theorem stages_run_through_iff (P : Prims) (V : ProofVerifier) (cfg : PoolConfig)
    (order : MapOrder) (gasMint : Option Pubkey) (feeCollector : Pubkey) (store : Store)
    (writes : AccountWrites) (seed : PartialMap Pubkey UInt64)
    (txs : List (Pubkey × PoolInstruction)) (deposits : List DepositEvent)
    (withdraws : List WithdrawTx)
    (included : List (VersionedTransaction × ExecutedTransactionMeta)) :
    ((processBlockSeeded P V cfg order store txs seed).isSome ↔
      ∀ state, loadState P cfg store = .ok state →
        List.Along (applyNext P V cfg store) (fun acc tx => PoolFits P V cfg store acc.1 tx)
          (⟨⟨state, BlockNullifiers.empty⟩, seed, fun _ => none, []⟩, []) txs) ∧
    ((applyDeposits P store gasMint deposits writes).isSome ↔
      List.Along (applyDeposit P store gasMint)
        (fun acc d => DepositFits P store gasMint acc.1 d) (writes, []) deposits) ∧
    ((applyWithdraws P store gasMint feeCollector withdraws writes included).isSome ↔
      List.Along (applyWithdraw P store gasMint feeCollector)
        (fun acc w => WithdrawFits P store gasMint acc.writes w) ⟨writes, included, []⟩
        withdraws) := by
  refine ⟨?_, List.foldlM_isSome_iff_along (fun _ _ => applyDeposit_isSome) _ _,
    List.foldlM_isSome_iff_along (fun _ _ => applyWithdraw_isSome) _ _⟩
  cases txs with
  | nil => simp [processBlockSeeded, List.Along]
  | cons tx txs =>
    rw [processBlockSeeded, if_neg (by simp)]
    cases hload : loadState P cfg store with
    | error e => simp
    | ok state =>
      simp only [Except.ok.injEq, forall_eq', ← List.foldlM_isSome_iff_along
        (fun acc tx => @applyNext_isSome P V cfg store acc tx)]
      cases (tx :: txs).foldlM (applyNext P V cfg store) _ <;> rfl

/-- Lamports sent to the address of a wrapped mint make the next deposit of its token panic, in
every attempt to produce the block. -/
theorem funded_mint_panics :
    ∃ s drafts, History Sample.env (fun _ _ _ => True) s drafts ∧
      s.inFlight = some ([], [Sample.tokenDeposit]) ∧
      ∀ choice, produce Sample.env choice s.node [] [Sample.tokenDeposit] = .error .panic := by
  obtain ⟨order⟩ := MapOrder.nonempty
  obtain ⟨node₀, hboot, haccounts, -, hlatest, -, hmem, hdep, -⟩ := boot_empty Sample.env 0
  have habsent : node₀.store.getAccount (wrappedMintAddress Sample.prims Sample.mint) = none ∧
      node₀.store.getAccount (depositReceiptAddress Sample.prims "4xFunding") = none ∧
      node₀.store.getAccount (depositReceiptAddress Sample.prims "5xToken") = none := by
    simp only [Store.getAccount, haccounts]
    decide +kernel
  have hist₀ : History Sample.env (fun _ _ _ => True) ⟨node₀, [], none⟩ [] :=
    .initial ⟨0, node₀, hboot, rfl⟩
  -- block 1 funds the mint's address
  obtain ⟨node₁, draft, clock, hist₁, hblock, -, -, hfunded, hkept⟩ := hist₀.nativeDeposit
    (d := Sample.mintFunding) order (fun _ => ⟨trivial, trivial, fun _ => trivial⟩) rfl hdep
    (by rw [hmem]; rfl) (fun latest h => by cases hlatest.symm.trans h) rfl (by decide +kernel)
    habsent.2.1
  have hmint := hfunded (by decide +kernel) (by decide +kernel) habsent.1
  have hreceipt := (hkept (depositReceiptAddress Sample.prims "5xToken") (by decide +kernel)
    (by decide +kernel) (by decide +kernel)).trans habsent.2.2
  -- the token deposit is queued and drained
  have hqueue : node₁.mempool.queue = [] := by
    rw [hblock.mempool, hmem]
    rfl
  have hist₂ := (hist₁.step trivial (by simp) (.enqueue [Sample.tokenDeposit])).step trivial
    (by simp) (.drain rfl)
  rw [drainForBlock_enqueue [Sample.tokenDeposit] hqueue hblock.pendingDeposits] at hist₂
  refine ⟨_, _, hist₂, rfl, fun choice => ?_⟩
  obtain ⟨writes, hclock, -, hpanic⟩ := draftBlock_deposits Sample.env choice node₁.store node₁.tip
    [Sample.tokenDeposit]
  have hnone : applyDeposits Sample.env.prims node₁.store Sample.env.options.gasMint
      [Sample.tokenDeposit] writes = none := by
    rw [← Option.not_isSome_iff_eq_none, applyDeposits,
      List.foldlM_isSome_iff_along (fun _ _ => applyDeposit_isSome)]
    rintro ⟨hfits, -⟩
    have hnew : isCredited Sample.env.prims node₁.store writes Sample.tokenDeposit = false := by
      rw [isCredited, show depositReceiptAddress Sample.env.prims Sample.tokenDeposit.l1Signature =
        depositReceiptAddress Sample.prims "5xToken" from rfl, hreceipt,
        hclock _ (by decide +kernel)]
      rfl
    have hshort : AtLeast 44 (loadThrough node₁.store writes
        (wrappedMintAddress Sample.prims Sample.mint)) := (hfits hnew rfl).1
    rw [loadThrough, hclock _ (by decide +kernel)] at hshort
    exact absurd (hshort _ hmint) (by decide)
  rw [produce, hpanic hnone]

end Node

end Zul
