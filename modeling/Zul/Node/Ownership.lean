import Zul.Node.Routing
import Zul.Node.WithdrawView
import Zul.Privacy.Commitments

/-! # Who may debit an account

A regular transaction debits an account only under the rules of the program that owns it: lamports
of a fee payer that the system program owns, tokens of an account whose recorded authority signs.
Shields, pool fees and withdrawals are applied outside the virtual machine and check balances
only. What they debit obeys the rules exactly where the accounts they can reach are in order.
-/

namespace Zul.Node

open Bridge Executor Privacy PoolService WrappedSpl

/-! ## The rules -/

def SystemOwned (account : Option StoredAccount) : Prop :=
  ∃ a, account = some a ∧ a.owner = StoredAccount.systemProgramId

/-- A token account the token program lets `payer` debit: its recorded owner, in bytes 32 to 64,
is the payer, and its state, in byte 108, is neither uninitialized nor frozen. -/
structure Debitable (payer : Pubkey) (account : StoredAccount) : Prop where
  program : account.owner = TOKEN_PROGRAM_ID
  length : account.data.length = ACCOUNT_LEN
  authority : (account.data.drop 32).take 32 = payer.toList
  initialized : account.data[108]? = some 1

/-- A token account that stands and that `payer` may debit. -/
def TokensOf (payer : Pubkey) (account : Option StoredAccount) : Prop :=
  ∃ a, account = some a ∧ Debitable payer a

structure Debits where
  lamports : List (Option StoredAccount)
  tokens : List (Option StoredAccount)

structure Debits.Disciplined (payer : Pubkey) (d : Debits) : Prop where
  lamports : ∀ account ∈ d.lamports, SystemOwned account
  tokens : ∀ account ∈ d.tokens, TokensOf payer account

/-! ## What the enshrined operations debit -/

section Debits

variable (P : Prims) (V : ProofVerifier) (cfg : PoolConfig) (store : Store)
  (gasMint : Option Pubkey) (writes : AccountWrites)

/-- A withdrawal that is accepted takes the fee, and what exits natively, from its payer, and
wrapped tokens from the payer's token account. -/
def withdrawDebits (w : WithdrawTx) : Debits :=
  match burnWithdrawal P store gasMint w writes with
  | some (_, some _) =>
    ⟨[viewOf store writes w.feePayer],
      if w.isNative gasMint then [] else [viewOf store writes (w.wrappedAccount P)]⟩
  | _ => ⟨[], []⟩

/-- An account as the block leaves it after the pool transactions so far moved lamports. -/
def standing (r : Running) (k : Pubkey) : Option StoredAccount :=
  match r.overlay k with
  | some lamports => mergedWrite (writes k) (lamportWrite store k lamports)
  | none => viewOf store writes k

/-- A token account as the block leaves it after the pool transactions so far moved tokens. -/
def standingTokens (r : Running) (k : Pubkey) : Option StoredAccount :=
  match r.tokenOverlay k with
  | some account => mergedWrite (writes k) (some account)
  | none => viewOf store writes k

/-- The lamports a pool transaction takes: the flat fee, a native shield, and the fee a transfer
pays out of the vault. -/
def lamportsTaken (tx : Pubkey × PoolInstruction) : List Pubkey :=
  (if 0 < cfg.flatFee then [tx.1] else []) ++
    match tx.2 with
    | .shield .native _ _ _ => [tx.1]
    | .transfer _ _ _ _ fee _ => if 0 < fee then [cfg.vault] else []
    | _ => []

def tokensTaken (tx : Pubkey × PoolInstruction) : List Pubkey :=
  match tx.2 with
  | .shield (.spl mint) _ _ _ => [tokenKey P mint tx.1]
  | _ => []

/-- What an unshield releases from the vault, to its recipient and under the proof. -/
def lamportsReleased (tx : Pubkey × PoolInstruction) : List Pubkey :=
  match tx.2 with
  | .unshield _ _ _ _ .native amount _ _ => if 0 < amount then [cfg.vault] else []
  | _ => []

def tokensReleased (tx : Pubkey × PoolInstruction) : List Pubkey :=
  match tx.2 with
  | .unshield _ _ _ _ (.spl mint) amount _ _ =>
    if 0 < amount then [tokenKey P mint cfg.vault] else []
  | _ => []

def poolDebits (r : Running) (tx : Pubkey × PoolInstruction) : Debits :=
  match applyOne P V cfg store r tx.1 tx.2 with
  | some (_, .ok ()) =>
    ⟨(lamportsTaken cfg tx).map (standing store writes r),
      (tokensTaken P tx).map (standingTokens store writes r)⟩
  | _ => ⟨[], []⟩

/-! ## Accounts in order -/

/-- The accounts a payer's withdrawals reach: whoever can pay for a native withdrawal has a live
system account, and whoever can pay for one of wrapped tokens also a token account to debit. -/
structure WithdrawsInOrder (payer : Pubkey) : Prop where
  native : POOL_TX_FEE.toNat < lamportsOf (loadThrough store writes payer) →
    SystemOwned (viewOf store writes payer)
  wrapped : ∀ assetId : Pubkey, assetId ≠ NATIVE_ASSET_ID → gasMint ≠ some assetId →
    POOL_TX_FEE.toNat ≤ lamportsOf (loadThrough store writes payer) →
    0 < amountOf (loadThrough store writes (tokenKey P assetId payer)) →
    AtLeast 44 (loadThrough store writes (wrappedMintAddress P assetId)) →
    SystemOwned (viewOf store writes payer) ∧
      TokensOf payer (viewOf store writes (tokenKey P assetId payer))

structure ShieldsInOrder (r : Running) (payer : Pubkey) : Prop where
  native : (1 : UInt64).saturatingAdd cfg.flatFee ≤ balance store r.overlay payer →
    SystemOwned (standing store writes r payer)
  wrapped : ∀ mint : Bytes 32, cfg.flatFee ≤ balance store r.overlay payer →
    0 < tokenBalance P store r.tokenOverlay mint payer →
    AtLeast 72 (r.tokenOverlay.onto store.getAccount (tokenKey P mint cfg.vault)) →
    (0 < cfg.flatFee → SystemOwned (standing store writes r payer)) ∧
      TokensOf payer (standingTokens store writes r (tokenKey P mint payer))

end Debits

section Discipline

variable {P : Prims} {V : ProofVerifier} {cfg : PoolConfig} {store : Store}
  {gasMint : Option Pubkey} {writes : AccountWrites} {payer : Pubkey}

/-! ## The debits are what the balances lose -/

theorem burnSupply_keeps {assetId : Pubkey} {amount : UInt64} {burned : AccountWrites}
    (h : burnSupply P store assetId amount writes = some burned) (k : Pubkey) :
    lamportsOf (loadThrough store burned k) = lamportsOf (loadThrough store writes k) ∧
      amountOf (loadThrough store burned k) = amountOf (loadThrough store writes k) := by
  unfold burnSupply at h
  dsimp only at h
  split at h
  · cases h
    exact ⟨rfl, rfl⟩
  · rename_i mint hmint
    obtain ⟨data, hdata, rfl⟩ := Option.map_eq_some_iff.mp h
    rw [loadThrough_insert]
    split
    · rename_i hk
      rw [hk, hmint]
      exact ⟨rfl, by simp [amountOf, tokenAccountAmount_setMintSupply hdata]⟩
    · exact ⟨rfl, rfl⟩

theorem burnAsset_lowers_iff {w : WithdrawTx} {burned : AccountWrites}
    (h : burnAsset P store gasMint w writes = some (burned, true)) (hpos : 0 < w.amount)
    (k : Pubkey) :
    lamportsOf (loadThrough store burned k) = lamportsOf (loadThrough store writes k) ∧
      (amountOf (loadThrough store burned k) < amountOf (loadThrough store writes k) ↔
        k = w.wrappedAccount P ∧ w.isNative gasMint = false) := by
  unfold burnAsset at h
  split at h
  · rename_i hnative
    cases h
    refine ⟨rfl, iff_of_false (UInt64.lt_irrefl _) ?_⟩
    rintro ⟨-, hwrapped⟩
    exact Bool.false_ne_true (hwrapped.symm.trans hnative)
  · rename_i hwrapped
    rcases burnWrappedSpl_spec h with ⟨hok, -⟩ | ⟨-, token, data, htoken, hbal, hdata, hsupply⟩
    · cases hok
    · obtain ⟨hlamports, hamount⟩ := burnSupply_keeps hsupply k
      rw [hlamports, hamount, loadThrough_insert]
      split
      · rename_i hk
        rw [hk, htoken]
        refine ⟨rfl, iff_of_true ?_ ⟨rfl, Bool.eq_false_of_not_eq_true hwrapped⟩⟩
        rw [amountOf, amountOf, Option.bind_some, Option.bind_some, tokenAccountAmount_set hdata]
        exact UInt64.sub_lt hpos hbal
      · rename_i hk
        exact ⟨rfl, iff_of_false (UInt64.lt_irrefl _) fun h => hk h.1⟩

/-- An accepted withdrawal lowers the lamports of its payer and no others, and wrapped tokens on
the payer's token account and on no other. The payer's account is written last, as it was read:
if it is the token account, its tokens are back. -/
theorem withdraw_lowers_iff {w : WithdrawTx} {burned : AccountWrites} {post : UInt64}
    (h : burnWithdrawal P store gasMint w writes = some (burned, some post)) (k : Pubkey) :
    (lamportsOf (loadThrough store burned k) < lamportsOf (loadThrough store writes k) ↔
      k = w.feePayer) ∧
    (amountOf (loadThrough store burned k) < amountOf (loadThrough store writes k) ↔
      k = w.wrappedAccount P ∧ w.isNative gasMint = false ∧ w.wrappedAccount P ≠ w.feePayer) := by
  obtain ⟨payer, taken, hpayer, hfunds, hpos, hburn, rfl, rfl⟩ := burnWithdrawal_some h
  obtain ⟨hlamports, hamount⟩ := burnAsset_lowers_iff hburn hpos k
  rw [loadThrough_insert]
  split
  · rename_i hk
    subst hk
    rw [hpayer]
    refine ⟨iff_of_true ?_ rfl, iff_of_false (UInt64.lt_irrefl _) ?_⟩
    · exact UInt64.lt_iff_toNat_lt.mp
        (UInt64.sub_lt (UInt64.lt_iff_toNat_lt.mpr (neededNative_pos w)) hfunds)
    · rintro ⟨hsame, -, hne⟩
      exact hne hsame.symm
  · rename_i hk
    rw [hlamports, hamount]
    refine ⟨iff_of_false (Nat.lt_irrefl _) hk, ?_⟩
    constructor
    · rintro ⟨rfl, hwrapped⟩
      exact ⟨rfl, hwrapped, hk⟩
    · rintro ⟨hata, hwrapped, -⟩
      exact ⟨hata, hwrapped⟩

theorem shield_pos {r r' : Running} {tx : Pubkey × PoolInstruction}
    (h : applyOne P V cfg store r tx.1 tx.2 = some (r', .ok ())) {asset : Asset} {amount : UInt64}
    {secret : FieldBytes} {note : List UInt8} (hshield : tx.2 = .shield asset amount secret note) :
    0 < amount := by
  obtain ⟨-, ⟨outcome, hprocess⟩, -⟩ := applyOne_ok h
  rw [hshield] at hprocess
  rw [UInt64.pos_iff_ne_zero]
  rintro rfl
  simp [PoolProcessor.process, PoolProcessor.shield] at hprocess

/-- The accounts an accepted transaction moves lamports from are those listed. -/
theorem exists_nativeMove_iff {r r' : Running} {tx : Pubkey × PoolInstruction}
    (h : applyOne P V cfg store r tx.1 tx.2 = some (r', .ok ())) {k : Pubkey} :
    (∃ m ∈ nativeMoves cfg tx, m.source = k ∧ 0 < m.amount) ↔
      k ∈ lamportsTaken cfg tx ++ lamportsReleased cfg tx := by
  have hpos := fun {asset amount secret note} => @shield_pos P V cfg store r r' tx h asset amount
    secret note
  obtain ⟨payer, instruction⟩ := tx
  cases instruction with
  | shield asset amount secret note =>
    have := hpos rfl
    cases asset <;> by_cases hflat : 0 < cfg.flatFee <;>
      simp_all [nativeMoves, lamportsTaken, lamportsReleased, PoolInstruction.effects,
        lamportMoves, eq_comm]
  | transfer proof root nfs commitments fee notes =>
    by_cases hflat : 0 < cfg.flatFee <;> by_cases hfee : 0 < fee <;>
      simp [nativeMoves, lamportsTaken, lamportsReleased, PoolInstruction.effects, lamportMoves,
        hflat, hfee, eq_comm]
  | unshield proof root nullifier change asset amount recipient note =>
    cases asset <;> by_cases hflat : 0 < cfg.flatFee <;> by_cases hamount : 0 < amount <;>
      simp [nativeMoves, lamportsTaken, lamportsReleased, PoolInstruction.effects, lamportMoves,
        hflat, hamount, eq_comm]

theorem exists_tokenMove_iff {r r' : Running} {tx : Pubkey × PoolInstruction}
    (h : applyOne P V cfg store r tx.1 tx.2 = some (r', .ok ())) {k : Pubkey} :
    (∃ m ∈ (tokenMoves cfg tx).map (accountMove P), m.source = k ∧ 0 < m.amount) ↔
      k ∈ tokensTaken P tx ++ tokensReleased P cfg tx := by
  have hpos := fun {asset amount secret note} => @shield_pos P V cfg store r r' tx h asset amount
    secret note
  obtain ⟨payer, instruction⟩ := tx
  cases instruction with
  | shield asset amount secret note =>
    have := hpos rfl
    cases asset <;>
      simp_all [tokenMoves, tokensTaken, tokensReleased, PoolInstruction.effects, wrappedMoves,
        accountMove, eq_comm]
  | transfer proof root nfs commitments fee notes =>
    by_cases hfee : 0 < fee <;>
      simp [tokenMoves, tokensTaken, tokensReleased, PoolInstruction.effects, wrappedMoves, hfee]
  | unshield proof root nullifier change asset amount recipient note =>
    cases asset <;> by_cases hamount : 0 < amount <;>
      simp [tokenMoves, tokensTaken, tokensReleased, PoolInstruction.effects, wrappedMoves,
        accountMove, hamount, eq_comm]

/-- An accepted pool transaction lowers only balances it is listed to take from, and the vault's
where it releases; a listed one it lowers, if it held anything and is not credited as well. -/
theorem pool_lowers {r r' : Running} {tx : Pubkey × PoolInstruction}
    (h : applyOne P V cfg store r tx.1 tx.2 = some (r', .ok ())) (k : Pubkey) :
    ((balance store r'.overlay k < balance store r.overlay k →
        k ∈ lamportsTaken cfg tx ++ lamportsReleased cfg tx) ∧
      ((∀ m ∈ nativeMoves cfg tx, m.target ≠ k) → 0 < balance store r.overlay k →
        k ∈ lamportsTaken cfg tx ++ lamportsReleased cfg tx →
        balance store r'.overlay k < balance store r.overlay k)) ∧
    (amountOf (r'.tokenOverlay.onto store.getAccount k) <
          amountOf (r.tokenOverlay.onto store.getAccount k) →
        k ∈ tokensTaken P tx ++ tokensReleased P cfg tx) ∧
      ((∀ m ∈ (tokenMoves cfg tx).map (accountMove P), m.target ≠ k) →
        0 < amountOf (r.tokenOverlay.onto store.getAccount k) →
        k ∈ tokensTaken P tx ++ tokensReleased P cfg tx →
        amountOf (r'.tokenOverlay.onto store.getAccount k) <
          amountOf (r.tokenOverlay.onto store.getAccount k)) := by
  obtain ⟨-, -, hlamports, htokens⟩ := applyOne_ok h
  have hamounts := congrFun (moveAllWrapped_spec htokens).2.2 k
  rw [hlamports, balance_moveAllLamports, ← exists_nativeMove_iff h, ← exists_tokenMove_iff h,
    hamounts]
  exact ⟨⟨Ledger.debiting_move.exists_source_of_foldl_lt,
      fun hin hheld => (Ledger.debiting_move.foldl_lt_iff hin hheld).mpr⟩,
    Ledger.debiting_shift.exists_source_of_foldl_lt,
      fun hin hheld => (Ledger.debiting_shift.foldl_lt_iff hin hheld).mpr⟩

/-! ## The rules hold of them -/

theorem disciplined_nil : Debits.Disciplined payer ⟨[], []⟩ := ⟨nofun, nofun⟩

/-! ## Withdrawals -/

/-- A withdrawal is accepted exactly if the accounts as loaded cover it and the supply can be
recorded. -/
theorem burnWithdrawal_accepts_iff {w : WithdrawTx} :
    (∃ burned post, burnWithdrawal P store gasMint w writes = some (burned, some post)) ↔
      Covers P gasMint (loadThrough store writes) (w.neededNative gasMint).toNat w ∧
        WithdrawFits P store gasMint writes w := by
  rw [← burnWithdrawal_isSome]
  constructor
  · rintro ⟨burned, post, h⟩
    refine ⟨?_, by rw [h]; rfl⟩
    by_contra hcovers
    rw [burnWithdrawal_of_not_covers hcovers] at h
    cases h
  · rintro ⟨hcovers, hsome⟩
    obtain ⟨payer, -, -, ⟨-, h⟩ | ⟨-, token, data, -, -, -, h⟩⟩ := burnWithdrawal_of_covers hcovers
    · exact ⟨_, _, h⟩
    · rw [h, Option.isSome_map] at hsome
      obtain ⟨burned, hburned⟩ := Option.isSome_iff_exists.mp hsome
      rw [hburned] at h
      exact ⟨_, _, h⟩

theorem withdrawDebits_disciplined_iff {w : WithdrawTx} :
    (withdrawDebits P store gasMint writes w).Disciplined w.feePayer ↔
      (Covers P gasMint (loadThrough store writes) (w.neededNative gasMint).toNat w →
        WithdrawFits P store gasMint writes w →
        SystemOwned (viewOf store writes w.feePayer) ∧
          (w.isNative gasMint = false →
            TokensOf w.feePayer (viewOf store writes (w.wrappedAccount P)))) := by
  rw [← and_imp, ← burnWithdrawal_accepts_iff]
  unfold withdrawDebits
  split
  · rename_i burned post h
    constructor
    · rintro ⟨hlamports, htokens⟩ -
      refine ⟨hlamports _ (List.mem_singleton.mpr rfl), fun hwrapped => htokens _ ?_⟩
      rw [hwrapped]
      exact List.mem_singleton.mpr rfl
    · intro hrules
      obtain ⟨hpayer, htokens⟩ := hrules ⟨burned, post, h⟩
      refine ⟨fun account haccount => ?_, fun account haccount => ?_⟩
      · rwa [List.mem_singleton.mp haccount]
      · cases hnative : w.isNative gasMint with
        | true => simp [hnative] at haccount
        | false =>
          rw [hnative, if_neg Bool.false_ne_true, List.mem_singleton] at haccount
          rw [haccount]
          exact htokens hnative
  · rename_i hrefused
    refine ⟨?_, fun _ => disciplined_nil⟩
    rintro - ⟨burned, post, h⟩
    exact absurd h (hrefused burned post)

def unitWithdrawal (payer : Pubkey) (asset : Settlement.L1Asset) : WithdrawTx :=
  ⟨withdrawalOf payer asset (Bytes.replicate 32 0) 1 0, payer, Bytes.replicate 32 0, asset.assetId,
    1, 0⟩

theorem withdraws_disciplined_iff :
    (∀ tx w, parseWithdraw tx = some w → w.feePayer = payer →
        (withdrawDebits P store gasMint writes w).Disciplined payer) ↔
      WithdrawsInOrder P store gasMint writes payer := by
  have hfee : POOL_TX_FEE.toNat = 5000 := rfl
  constructor
  · intro hall
    have hunit : ∀ asset, (withdrawDebits P store gasMint writes
        (unitWithdrawal payer asset)).Disciplined (unitWithdrawal payer asset).feePayer :=
      fun asset => hall _ _ (parseWithdraw_withdrawalOf ..) rfl
    refine ⟨fun hfunds => ?_, fun assetId hnative hgas hfunds htokens hmint => ?_⟩
    · have hnative : (unitWithdrawal payer .sol).isNative gasMint = true := by
        simp [unitWithdrawal, WithdrawTx.isNative, Settlement.L1Asset.assetId]
      have hneeded : ((unitWithdrawal payer .sol).neededNative gasMint).toNat = 5001 := by
        rw [WithdrawTx.neededNative, hnative, if_pos rfl]
        exact (by decide : ((1 : UInt64).saturatingAdd POOL_TX_FEE).toNat = 5001)
      refine (withdrawDebits_disciplined_iff.mp (hunit .sol)
        ⟨(by decide : (0 : UInt64) < 1), ?_, ?_⟩ ?_).1
      · rw [hneeded]
        exact hfunds
      · simp [hnative]
      · simp [WithdrawFits, hnative]
    · have hwrapped : (unitWithdrawal payer (.spl ⟨assetId, hnative⟩)).isNative gasMint =
          false := by
        simp [unitWithdrawal, WithdrawTx.isNative, Settlement.L1Asset.assetId, hnative, hgas]
      have hcovers : Covers P gasMint (loadThrough store writes)
          ((unitWithdrawal payer (.spl ⟨assetId, hnative⟩)).neededNative gasMint).toNat
          (unitWithdrawal payer (.spl ⟨assetId, hnative⟩)) := by
        refine ⟨(by decide : (0 : UInt64) < 1), ?_, fun _ => ?_⟩
        · rw [WithdrawTx.neededNative, hwrapped]
          exact hfunds
        · exact UInt64.le_iff_toNat_le.mpr (UInt64.lt_iff_toNat_lt.mp htokens)
      obtain ⟨hpayer, htoken⟩ := withdrawDebits_disciplined_iff.mp
        (hunit (.spl ⟨assetId, hnative⟩)) hcovers fun _ _ => hmint
      exact ⟨hpayer, htoken hwrapped⟩
  · rintro ⟨hnative, hwrapped⟩ - w - rfl
    apply withdrawDebits_disciplined_iff.mpr
    rintro ⟨hpos, hfunds, htokens⟩ hfits
    cases hkind : w.isNative gasMint with
    | true =>
      refine ⟨hnative (lt_of_lt_of_le ?_ hfunds), fun h => by simp at h⟩
      have hamount := UInt64.lt_iff_toNat_lt.mp hpos
      rw [WithdrawTx.neededNative, hkind, if_pos rfl, UInt64.toNat_saturatingAdd, hfee]
      rw [UInt64.toNat_zero] at hamount
      omega
    | false =>
      have hasset := hkind
      simp only [WithdrawTx.isNative, Bool.or_eq_false_iff, decide_eq_false_iff_not] at hasset
      have hmint := hfits hkind ⟨hpos, hfunds, htokens⟩
      rw [WithdrawTx.neededNative, hkind, if_neg Bool.false_ne_true] at hfunds
      obtain ⟨hpayer, htoken⟩ := hwrapped w.assetId hasset.1 hasset.2 hfunds
        (UInt64.lt_of_lt_of_le hpos (htokens hkind)) hmint
      exact ⟨hpayer, fun _ => htoken⟩

/-! ## Pool transactions -/

theorem poolDebits_of_refused {r : Running} {tx : Pubkey × PoolInstruction}
    (h : ¬ ∃ r', applyOne P V cfg store r tx.1 tx.2 = some (r', .ok ())) :
    poolDebits P V cfg store writes r tx = ⟨[], []⟩ := by
  unfold poolDebits
  split
  · rename_i r' h'
    exact absurd ⟨r', h'⟩ h
  · rfl

theorem poolDebits_of_accepted {r r' : Running} (tx : Pubkey × PoolInstruction)
    (h : applyOne P V cfg store r tx.1 tx.2 = some (r', .ok ())) :
    (poolDebits P V cfg store writes r tx).Disciplined payer ↔
      (∀ k ∈ lamportsTaken cfg tx, SystemOwned (standing store writes r k)) ∧
        ∀ k ∈ tokensTaken P tx, TokensOf payer (standingTokens store writes r k) := by
  rw [poolDebits, h]
  constructor
  · rintro ⟨hlamports, htokens⟩
    exact ⟨fun k hk => hlamports _ (List.mem_map_of_mem hk),
      fun k hk => htokens _ (List.mem_map_of_mem hk)⟩
  · rintro ⟨hlamports, htokens⟩
    exact ⟨List.forall_mem_map.mpr hlamports, List.forall_mem_map.mpr htokens⟩

theorem checkFunds_shield {r : Running} {asset : Asset} {amount : UInt64} {secret : FieldBytes}
    {note : List UInt8} :
    checkFunds P cfg store r payer (.shield asset amount secret note) = .ok () ↔
      (match asset with
        | .native => amount.saturatingAdd cfg.flatFee ≤ balance store r.overlay payer
        | .spl mint => cfg.flatFee ≤ balance store r.overlay payer ∧
            amount ≤ tokenBalance P store r.tokenOverlay mint payer) := by
  cases asset with
  | native =>
    dsimp only [checkFunds]
    split
    · rename_i hshort
      exact ⟨nofun, fun h => absurd hshort (UInt64.not_lt.mpr h)⟩
    · rename_i hfunds
      exact ⟨fun _ => UInt64.not_lt.mp hfunds, fun _ => rfl⟩
  | spl mint =>
    dsimp only [checkFunds]
    split
    · rename_i hshort
      exact ⟨nofun, fun h => absurd hshort (UInt64.not_lt.mpr h.1)⟩
    · rename_i hfunds
      dsimp only [bind, Except.bind, pure, Except.pure]
      split
      · rename_i hshort
        exact ⟨nofun, fun h => absurd hshort (UInt64.not_lt.mpr h.2)⟩
      · rename_i htokens
        exact ⟨fun _ => ⟨UInt64.not_lt.mp hfunds, UInt64.not_lt.mp htokens⟩, fun _ => rfl⟩

theorem accepted_shield {r r' : Running} {asset : Asset} {amount : UInt64} {secret : FieldBytes}
    {note : List UInt8}
    (h : applyOne P V cfg store r payer (.shield asset amount secret note) = some (r', .ok ())) :
    0 < amount ∧ checkFunds P cfg store r payer (.shield asset amount secret note) = .ok () ∧
      ∀ mint, asset = .spl mint →
        AtLeast 72 (r.tokenOverlay.onto store.getAccount (tokenKey P mint cfg.vault)) := by
  obtain ⟨hfunds, ⟨outcome, hprocess⟩, -, hmoves⟩ :=
    @applyOne_ok P V cfg store r r' (payer, .shield asset amount secret note) h
  refine ⟨@shield_pos P V cfg store r r' (payer, _) h _ _ _ _ rfl, hfunds, ?_⟩
  rintro mint rfl
  have hfits := (@applyOne_isSome P V cfg store r
    (payer, .shield (.spl mint) amount secret note)).mp
    (by rw [h]; rfl) hfunds
  rw [hprocess] at hfits
  exact hfits rfl _ (List.mem_singleton.mpr rfl)

theorem accepts_unit_shield {r : Running} (hcanonical : r.ctx.state.Canonical)
    (hroom : r.ctx.state.nextLeafIndex.toNat < PoolState.capacity) (asset : Asset)
    (hfunds : checkFunds P cfg store r payer (.shield asset 1 (Bytes.replicate 32 0) []) = .ok ())
    (hvault : ∀ mint, asset = .spl mint →
      AtLeast 72 (r.tokenOverlay.onto store.getAccount (tokenKey P mint cfg.vault))) :
    ∃ r', applyOne P V cfg store r payer (.shield asset 1 (Bytes.replicate 32 0) []) =
      some (r', .ok ()) := by
  have hinsert : ∀ leaf, ∃ index, (r.ctx.state.insert P leaf).2 = .ok index := by
    intro leaf
    obtain ⟨s, hs, -⟩ := PoolState.insert_of_room hcanonical hroom leaf
    exact ⟨_, congrArg Prod.snd hs⟩
  refine applyOne_shield_of_insert hfunds (by decide) rfl hinsert ?_
  cases asset with
  | native => rfl
  | spl mint =>
    have hcovered := (checkFunds_shield.mp hfunds).2
    rw [tokenBalance_eq] at hcovered
    simpa [moveAllWrapped, tokenMoves, PoolInstruction.effects, wrappedMoves] using
      (moveWrapped_isSome_of_covered (by decide : (0 : UInt64) < 1) hcovered).mpr (hvault mint rfl)

theorem refuses_shield_of_full {r : Running}
    (hfull : PoolState.capacity ≤ r.ctx.state.nextLeafIndex.toNat) {asset : Asset}
    {amount : UInt64} {secret : FieldBytes} {note : List UInt8} :
    ¬ ∃ r', applyOne P V cfg store r payer (.shield asset amount secret note) =
      some (r', .ok ()) := by
  rintro ⟨r', h⟩
  obtain ⟨-, ⟨outcome, hprocess⟩, -⟩ :=
    @applyOne_ok P V cfg store r r' (payer, .shield asset amount secret note) h
  have hok : isOk (PoolProcessor.shield P r.ctx asset amount secret note).2 = true :=
    congrArg (fun out => isOk out.2) hprocess
  simp only [PoolProcessor.shield, PoolProcessor.insertNote,
    PoolState.insert_of_full hfull] at hok
  split at hok
  · cases hok
  · split at hok <;> cases hok

theorem shields_disciplined_iff {r : Running} (hcanonical : r.ctx.state.Canonical) :
    (∀ asset amount secret note, (poolDebits P V cfg store writes r
        (payer, .shield asset amount secret note)).Disciplined payer) ↔
      (r.ctx.state.nextLeafIndex.toNat < PoolState.capacity →
        ShieldsInOrder P cfg store writes r payer) := by
  constructor
  · intro hall hroom
    refine ⟨fun hfunds => ?_, fun mint hfee htokens hvault => ?_⟩
    · obtain ⟨r', haccepted⟩ := accepts_unit_shield (P := P) (V := V)
        hcanonical hroom .native (checkFunds_shield.mpr hfunds) nofun
      have hdebits := (poolDebits_of_accepted (payer, .shield .native 1 _ [])
        haccepted).mp (hall ..)
      exact hdebits.1 payer (List.mem_append_right _ (List.mem_singleton.mpr rfl))
    · have hone : 1 ≤ tokenBalance P store r.tokenOverlay mint payer :=
        UInt64.le_iff_toNat_le.mpr (UInt64.lt_iff_toNat_lt.mp htokens)
      obtain ⟨r', haccepted⟩ := accepts_unit_shield (P := P) (V := V)
        hcanonical hroom (.spl mint) (checkFunds_shield.mpr ⟨hfee, hone⟩)
          (by rintro _ ⟨⟩; exact hvault)
      have hdebits := (poolDebits_of_accepted (payer, .shield (.spl mint) 1 _ [])
        haccepted).mp (hall ..)
      refine ⟨fun hpos => hdebits.1 payer ?_, hdebits.2 _ (List.mem_singleton.mpr rfl)⟩
      simp [lamportsTaken, hpos]
  · intro horder asset amount secret note
    by_cases haccepted : ∃ r', applyOne P V cfg store r payer
        (.shield asset amount secret note) = some (r', .ok ())
    · obtain ⟨hnative, hwrapped⟩ := horder (by
        by_contra hfull
        exact refuses_shield_of_full (Nat.not_lt.mp hfull) haccepted)
      obtain ⟨r', haccepted⟩ := haccepted
      obtain ⟨hpos, hfunds, hvault⟩ := accepted_shield haccepted
      rw [checkFunds_shield] at hfunds
      refine (poolDebits_of_accepted (payer, .shield asset amount secret note)
        haccepted).mpr ?_
      cases asset with
      | native =>
        have hone : (1 : UInt64).saturatingAdd cfg.flatFee ≤ balance store r.overlay payer := by
          have hamount := UInt64.lt_iff_toNat_lt.mp hpos
          have hle := UInt64.le_iff_toNat_le.mp hfunds
          rw [UInt64.toNat_zero] at hamount
          rw [UInt64.toNat_saturatingAdd] at hle
          rw [UInt64.le_iff_toNat_le, UInt64.toNat_saturatingAdd, UInt64.toNat_one]
          omega
        refine ⟨fun k hk => ?_, nofun⟩
        have hk : k = payer := by
          simp only [lamportsTaken, List.mem_append, List.mem_singleton] at hk
          rcases hk with hk | hk
          · split at hk
            · exact List.mem_singleton.mp hk
            · cases hk
          · exact hk
        rw [hk]
        exact hnative hone
      | spl mint =>
        obtain ⟨hfee, htokens⟩ := hfunds
        obtain ⟨hpayer, htoken⟩ := hwrapped mint hfee (UInt64.lt_of_lt_of_le hpos htokens)
          (hvault mint rfl)
        refine ⟨fun k hk => ?_, fun k hk => ?_⟩
        · simp only [lamportsTaken, List.append_nil] at hk
          split at hk
          · rename_i hfeePos
            rw [List.mem_singleton.mp hk]
            exact hpayer hfeePos
          · cases hk
        · rw [List.mem_singleton.mp hk]
          exact htoken
    · rw [poolDebits_of_refused haccepted]
      exact disciplined_nil

theorem fees_disciplined_iff {r r' : Running} {instruction : PoolInstruction}
    (haccepted : applyOne P V cfg store r payer instruction = some (r', .ok ()))
    (hkind : ∀ asset amount secret note, instruction ≠ .shield asset amount secret note) :
    (poolDebits P V cfg store writes r (payer, instruction)).Disciplined payer ↔
      (0 < cfg.flatFee → SystemOwned (standing store writes r payer)) ∧
        ∀ m ∈ instruction.effects, ∀ fee, m = .payFee fee →
          SystemOwned (standing store writes r cfg.vault) := by
  rw [poolDebits_of_accepted (payer, instruction) haccepted]
  cases instruction with
  | shield asset amount secret note => exact absurd rfl (hkind asset amount secret note)
  | transfer proof root nfs commitments fee notes =>
    by_cases hflat : 0 < cfg.flatFee <;> by_cases hfee : 0 < fee <;>
      simp [lamportsTaken, tokensTaken, PoolInstruction.effects, hflat, hfee]
  | unshield proof root nullifier change asset amount recipient note =>
    by_cases hflat : 0 < cfg.flatFee <;>
      simp [lamportsTaken, tokensTaken, PoolInstruction.effects, hflat]

end Discipline

/-- A payer's withdrawals and shields debit by the rules exactly if the accounts they can reach
are in order; an accepted transfer or unshield exactly if the accounts its fees come from are. -/
theorem enshrined_debits_disciplined_iff (P : Prims) (V : ProofVerifier) (cfg : PoolConfig)
    (store : Store) (gasMint : Option Pubkey) (writes : AccountWrites) (r : Running)
    (payer : Pubkey) :
    ((∀ tx w, parseWithdraw tx = some w → w.feePayer = payer →
        (withdrawDebits P store gasMint writes w).Disciplined payer) ↔
      WithdrawsInOrder P store gasMint writes payer) ∧
    (r.ctx.state.Canonical →
      ((∀ asset amount secret note, (poolDebits P V cfg store writes r
          (payer, .shield asset amount secret note)).Disciplined payer) ↔
        (r.ctx.state.nextLeafIndex.toNat < PoolState.capacity →
          ShieldsInOrder P cfg store writes r payer))) ∧
    ∀ instruction r', applyOne P V cfg store r payer instruction = some (r', .ok ()) →
      (∀ asset amount secret note, instruction ≠ .shield asset amount secret note) →
      ((poolDebits P V cfg store writes r (payer, instruction)).Disciplined payer ↔
        (0 < cfg.flatFee → SystemOwned (standing store writes r payer)) ∧
          ∀ m ∈ instruction.effects, ∀ fee, m = .payFee fee →
            SystemOwned (standing store writes r cfg.vault)) := by
  refine ⟨withdraws_disciplined_iff, fun hcanonical => shields_disciplined_iff hcanonical, ?_⟩
  intro instruction r' haccepted hkind
  exact fees_disciplined_iff haccepted hkind

namespace Sample

/-- The result of a transaction that assigns its payer's account to the token program. -/
def assigned (view : PartialMap Pubkey StoredAccount) (c : CheckedTransaction) :
    ExecutedTransaction where
  fee := 0
  accounts := c.transaction.message.staticAccountKeys.map fun k =>
    (k, { (view k).getD (StoredAccount.newSystem 0) with owner := TOKEN_PROGRAM_ID })
  rollbackAccounts := []
  status := .ok ()
  executedUnits := 150
  logMessages := none

/-- The sample chain with a machine for such transactions; the payer's key is writable. -/
def assignEnv : Env :=
  { env with
    svm := { svm with
      isWritable := fun _ i => i < 1
      loadAndExecute := fun view _ _ batch =>
        batch.map fun c => .ok (.executed (assigned view c)) } }

/-- The payer's `Assign` to the token program. -/
def assignTx : VersionedTransaction where
  signatures := [Bytes.replicate 64 9]
  message := {
    header := ⟨1, 0, 1⟩
    staticAccountKeys := [payer, StoredAccount.systemProgramId]
    recentBlockhash := env.genesis.genesisHash prims
    instructions := [⟨1, [0], [1, 0, 0, 0] ++ TOKEN_PROGRAM_ID.toList⟩] }

theorem checkTransaction_assignTx {queue : BlockhashQueue}
    (hvalid : queue.isValid (env.genesis.genesisHash prims) = true) :
    ∃ fee, checkTransaction assignEnv.svm queue assignTx = .ok ⟨assignTx, fee, 0⟩ := by
  simp only [checkTransaction, hvalid,
    show assignEnv.svm.verifyAndHashMessage assignTx = true from rfl,
    show assignTx.message.recentBlockhash = env.genesis.genesisHash prims from rfl]
  exact ⟨_, rfl⟩

theorem writable_assigned (view : PartialMap Pubkey StoredAccount) (fee : UInt64) :
    writableAccounts assignEnv.svm assignTx (assigned view ⟨assignTx, fee, 0⟩).accounts =
      [(payer, { (view payer).getD (StoredAccount.newSystem 0) with owner := TOKEN_PROGRAM_ID })] :=
  rfl

end Sample

/-- On the freshly opened chain, a payer assigns its account to another program and withdraws in
the same block: the withdrawal is accepted, and debits an account that is not the system
program's. -/
theorem assigned_payer_debited :
    ∃ s, Initial Sample.assignEnv s ∧ ∀ choice, ∃ output draft,
      executeBlock Sample.assignEnv.svm Sample.collector s.node.store
        (blockInput choice s.node.tip [Sample.assignTx]) = .ok output ∧
      draftBlock Sample.assignEnv choice s.node.store s.node.tip
        [Sample.assignTx, Sample.nativeWithdrawal.transaction] [] = .ok draft ∧
      draft.accepted = [Sample.nativeWithdrawal] ∧
      ¬ (withdrawDebits Sample.prims s.node.store Sample.options.gasMint output.accountWrites
        Sample.nativeWithdrawal).Disciplined Sample.payer := by
  obtain ⟨node, hboot, haccounts, hloc, -, htip, -⟩ := boot_empty Sample.assignEnv 0
  refine ⟨⟨node, [], none⟩, ⟨0, node, hboot, rfl⟩, fun choice => ?_⟩
  have hpayer : node.store.getAccount Sample.payer = some (.newSystem 1000000000) := by
    rw [Store.getAccount, haccounts]
    decide
  have hfresh : node.store.getTransaction (Bytes.replicate 64 9) = .ok none :=
    Store.getTransaction_eq_none_iff.mpr (congrFun hloc _)
  have hvalid : node.tip.queue.isValid (Sample.env.genesis.genesisHash Sample.prims) = true := by
    rw [htip]
    decide +kernel
  obtain ⟨fee, hchecked⟩ := Sample.checkTransaction_assignTx hvalid
  obtain ⟨output, hexec, -, hwrites⟩ := executeBlock_regular (E := Sample.assignEnv) choice
    node.store node.tip _ rfl hfresh hchecked rfl
  -- the machine leaves the payer to the token program
  have hassigned : output.accountWrites Sample.payer = some (some
      { StoredAccount.newSystem 1000000000 with owner := TOKEN_PROGRAM_ID }) := by
    have hview : callback Sample.assignEnv.svm node.store
        (blockInput choice node.tip [Sample.assignTx]) Sample.payer =
          some (.newSystem 1000000000) := by
      rw [callback, PartialMap.onto_apply, blockOverlay,
        PartialMap.insert_of_ne _ _ (by decide), Option.none_or, hpayer]
    rw [hwrites Sample.payer (by decide), Sample.writable_assigned, hview,
      PartialMap.onto_apply, PartialMap.insertAll_cons, PartialMap.insertAll_nil,
      PartialMap.insert_self]
    rfl
  have hload : loadThrough node.store output.accountWrites Sample.payer =
      some { StoredAccount.newSystem 1000000000 with owner := TOKEN_PROGRAM_ID } := by
    simp [loadThrough, hassigned]
  obtain ⟨burned, post, hburn⟩ : ∃ burned post, burnWithdrawal Sample.prims node.store
      Sample.options.gasMint Sample.nativeWithdrawal output.accountWrites =
        some (burned, some post) := by
    refine burnWithdrawal_accepts_iff.mpr
      ⟨⟨by decide, ?_, fun h => absurd h (by decide)⟩, fun h => absurd h (by decide)⟩
    change _ ≤ lamportsOf (loadThrough node.store output.accountWrites Sample.payer)
    rw [hload]
    decide
  obtain ⟨withdrawn, hwithdrawn, haccepted⟩ : ∃ withdrawn,
      applyWithdraws Sample.prims node.store Sample.options.gasMint Sample.collector
        [Sample.nativeWithdrawal] output.accountWrites output.included = some withdrawn ∧
      withdrawn.accepted = [Sample.nativeWithdrawal] := by
    simp [applyWithdraws, applyWithdraw, hburn]
  have hsplit : partitionWithdraws [Sample.assignTx, Sample.nativeWithdrawal.transaction] =
      ([Sample.nativeWithdrawal], [Sample.assignTx]) := by decide +kernel
  have hsplit' : partition [Sample.assignTx] = ([], [Sample.assignTx]) := by decide +kernel
  have hd : Drafted Sample.assignEnv choice node.store node.tip
      [Sample.assignTx, Sample.nativeWithdrawal.transaction] []
      ⟨withdrawn.writes, withdrawn.included, [], [], withdrawn.accepted⟩ output
      ⟨output.accountWrites, output.included, []⟩ output.accountWrites withdrawn :=
    ⟨by rw [hsplit, hsplit']; exact hexec, by rw [hsplit, hsplit']; rfl, rfl,
      by rw [hsplit]; exact hwithdrawn, rfl, rfl, rfl, rfl⟩
  refine ⟨output, _, hexec, draftBlock_eq hd, haccepted, ?_⟩
  rw [withdrawDebits, hburn]
  rintro ⟨hlamports, -⟩
  obtain ⟨account, haccount, howner⟩ := hlamports _ (List.mem_singleton.mpr rfl)
  have hview : viewOf node.store output.accountWrites Sample.payer =
      some { StoredAccount.newSystem 1000000000 with owner := TOKEN_PROGRAM_ID } :=
    AccountWrites.applyTo_some hassigned _
  cases hview.symm.trans haccount
  exact absurd howner (by decide)

end Zul.Node
