import Zul.Node.Claimable
import Zul.Privacy.Moves
import Zul.Settlement.Program

/-! # Asset routing across the bridge

A deposit credits one L2 balance, lamports or wrapped tokens, and a withdrawal burns one and
commits a leaf that a claim of one L1 asset proves. An asset makes the round trip when the
balance its deposits credit is burned only into leaves of that asset, and into one of them by
some withdrawal. All assets do exactly when no gas mint is configured: with one, lamports leave
into the SOL vault and wrapped SOL into a token vault. Where the addresses of two mints or the
leaves of two asset ids collide, the collision is named.
-/

namespace Zul.Node

open Bridge Privacy PoolService Settlement WrappedSpl

/-! ## Balances -/

/-- A place an L2 balance is held. -/
inductive Balance
  | lamports (owner : Pubkey)
  | tokens (account : Pubkey)
  deriving DecidableEq

def balanceOf (store : Store) (writes : AccountWrites) : Balance → UInt64
  | .lamports owner =>
    ((loadThrough store writes owner).getD (StoredAccount.newSystem 0)).lamports
  | .tokens account => amountOf (loadThrough store writes account)

section

variable (P : Prims) (gasMint : Option Pubkey)

def creditedBalance (d : DepositEvent) : Balance :=
  if creditsNativeGas gasMint d.mint then .lamports d.l2Recipient
  else .tokens (wrappedAccount P d)

def WithdrawTx.burnedBalance (w : WithdrawTx) : Balance :=
  if w.isNative gasMint then .lamports w.feePayer else .tokens (w.wrappedAccount P)

end

variable {P : Prims} {gasMint : Option Pubkey} {store : Store}

theorem amountOf_tokenWithAmount {wmint recipient : Pubkey} {amount : UInt64}
    {old : Option StoredAccount} {new : StoredAccount}
    (h : tokenWithAmount wmint recipient amount old = some new) :
    amountOf (some new) = (amountOf old).saturatingAdd amount := by
  cases old with
  | none =>
    cases h
    simp [amountOf, UInt64.zero_saturatingAdd]
  | some account =>
    obtain ⟨data, hdata, rfl⟩ := Option.map_eq_some_iff.mp h
    simp [amountOf, tokenAccountAmount_set hdata]

theorem amountOf_mintWithSupply {amount : UInt64} {decimals : UInt8} {old : Option StoredAccount}
    {new : StoredAccount} (h : mintWithSupply amount decimals old = some new) :
    amountOf (some new) = amountOf old := by
  cases old with
  | none =>
    cases h
    simp [amountOf, tokenAccountAmount_packMint]
  | some account =>
    obtain ⟨data, hdata, rfl⟩ := Option.map_eq_some_iff.mp h
    simp [amountOf, tokenAccountAmount_setMintSupply hdata]

theorem balanceOf_creditDeposit {d : DepositEvent} {writes writes' : AccountWrites}
    (h : creditDeposit P store gasMint writes d = some writes') :
    balanceOf store writes' (creditedBalance P gasMint d) =
      (balanceOf store writes (creditedBalance P gasMint d)).saturatingAdd d.amount := by
  unfold creditedBalance
  rcases creditDeposit_cases h with ⟨hnative, rfl⟩ | ⟨hwrapped, mint, token, hmint, htoken, rfl⟩
  · simp [hnative, balanceOf, creditNative, loadThrough_insert]
  · simp only [hwrapped, Bool.false_eq_true, if_false, balanceOf]
    rw [loadThrough_insert, if_pos rfl, amountOf_tokenWithAmount htoken, loadThrough_insert]
    split
    · rename_i hsame
      rw [amountOf_mintWithSupply hmint, hsame]
    · rfl

theorem amountOf_burnAsset {w : WithdrawTx} {writes burned : AccountWrites}
    (h : burnAsset P store gasMint w writes = some (burned, true))
    (hwrapped : w.isNative gasMint = false) (hmint : w.wrappedAccount P ≠ w.wrappedMint P) :
    (amountOf (loadThrough store writes (w.wrappedAccount P))).toNat =
      (amountOf (loadThrough store burned (w.wrappedAccount P))).toNat + w.amount.toNat := by
  rcases burnAsset_spec h with ⟨hnative, -⟩ | ⟨-, account, data, haccount, hbal, hdata, hburned⟩
  · rw [hwrapped] at hnative
    cases hnative
  · have htokens : loadThrough store burned (w.wrappedAccount P) =
        some { account with data } := by
      rcases hburned with rfl | ⟨mint, rfl⟩
      · rw [loadThrough_insert, if_pos rfl]
      · rw [loadThrough_insert, if_neg hmint, loadThrough_insert, if_pos rfl]
    have hle := UInt64.le_iff_toNat_le.mp hbal
    simp only [htokens, haccount, amountOf, Option.bind_some, tokenAccountAmount_set hdata,
      Option.getD_some, UInt64.toNat_sub_of_ge hbal]
    omega

theorem balanceOf_burnWithdrawal {w : WithdrawTx} {writes writes' : AccountWrites} {post : UInt64}
    (h : burnWithdrawal P store gasMint w writes = some (writes', some post))
    (hpayer : w.wrappedAccount P ≠ w.feePayer) (hmint : w.wrappedAccount P ≠ w.wrappedMint P) :
    (balanceOf store writes (w.burnedBalance P gasMint)).toNat =
      (balanceOf store writes' (w.burnedBalance P gasMint)).toNat +
        if w.isNative gasMint then (w.amount.saturatingAdd POOL_TX_FEE).toNat
        else w.amount.toNat := by
  obtain ⟨account, burned, haccount, hfunds, -, hburn, rfl, rfl⟩ := burnWithdrawal_some h
  unfold WithdrawTx.burnedBalance
  cases hnative : w.isNative gasMint with
  | true =>
    simp only [WithdrawTx.neededNative, hnative, if_true] at hfunds ⊢
    have hle := UInt64.le_iff_toNat_le.mp hfunds
    simp only [balanceOf, loadThrough_insert, if_true, haccount, Option.getD_some,
      UInt64.toNat_sub_of_ge hfunds]
    omega
  | false =>
    simp only [Bool.false_eq_true, if_false, balanceOf]
    rw [loadThrough_insert, if_neg hpayer]
    exact amountOf_burnAsset hburn hnative hmint

/-! ## Withdrawal encodings -/

/-- The transaction that withdraws an asset, in the native or the token layout. -/
def withdrawalOf (feePayer : Pubkey) (asset : L1Asset) (recipient : Bytes 32)
    (amount nonce : UInt64) : VersionedTransaction where
  signatures := []
  message := {
    header := ⟨1, 0, 1⟩
    staticAccountKeys := [feePayer, BRIDGE_WITHDRAW_PROGRAM_ID]
    recentBlockhash := Bytes.replicate 32 0
    instructions := [⟨1, [0], match asset with
      | .sol => recipient.toList ++ LittleEndian.u64 amount ++ LittleEndian.u64 nonce
      | .spl mint => recipient.toList ++ mint.1.toList ++ LittleEndian.u64 amount ++
          LittleEndian.u64 nonce⟩] }

theorem parseWithdraw_withdrawalOf (feePayer : Pubkey) (asset : L1Asset) (recipient : Bytes 32)
    (amount nonce : UInt64) :
    parseWithdraw (withdrawalOf feePayer asset recipient amount nonce) =
      some ⟨withdrawalOf feePayer asset recipient amount nonce, feePayer, recipient,
        asset.assetId, amount, nonce⟩ := by
  have htake : (LittleEndian.u64 nonce).take 8 = LittleEndian.u64 nonce :=
    List.take_of_length_le (by simp)
  cases asset with
  | sol =>
    have hdrop : recipient.toList.drop 40 = [] := List.drop_of_length_le (by simp)
    simp [parseWithdraw, withdrawalOf, List.drop_append, hdrop, htake, L1Asset.assetId]
  | spl mint =>
    have hdrop : ∀ n, 32 ≤ n → recipient.toList.drop n = [] :=
      fun n hn => List.drop_of_length_le (by simpa using hn)
    have hmint : mint.1.toList.drop 40 = [] := List.drop_of_length_le (by simp)
    simp [parseWithdraw, withdrawalOf, List.drop_append, hdrop, hmint, htake, L1Asset.assetId]

/-! ## Round trips -/

/-- A withdrawal of tokens whose token account is that of another mint. -/
def TokenCollision (P : Prims) (gasMint : Option Pubkey) (w : WithdrawTx) (mint : Pubkey) : Prop :=
  w.isNative gasMint = false ∧ mint ≠ w.assetId ∧
    associatedTokenAddress P w.feePayer (wrappedMintAddress P mint) = w.wrappedAccount P

/-- The leaf of a withdrawal has the hash it would have under another asset id. -/
def LeafCollision (P : Prims) (w : WithdrawTx) (assetId : Bytes 32) : Prop :=
  assetId ≠ w.assetId ∧ withdrawalAccountHash P w.recipient assetId w.amount w.nonce =
    withdrawalAccountHash P w.recipient w.assetId w.amount w.nonce

/-- What a deposit of an asset credits is burned only into leaves whose claim pays from the vault
of the asset, or the addresses or hashes derived for the withdrawal collide; and some withdrawal
of any amount does so. -/
structure RoundTrips (P : Prims) (gasMint : Option Pubkey) (asset : L1Asset) : Prop where
  only : ∀ d tx w, d.mint = asset.mint → parseWithdraw tx = some w → 0 < w.amount →
    w.feePayer = d.l2Recipient → w.burnedBalance P gasMint = creditedBalance P gasMint d →
    ∀ claimed, claimedLeaf P claimed w.recipient w.amount w.nonce = w.leaf P →
      claimed = asset ∨ TokenCollision P gasMint w (wrappedAs d).1 ∨
        LeafCollision P w claimed.assetId
  exit : ∀ d recipient amount nonce, d.mint = asset.mint → 0 < amount →
    ∃ tx w, parseWithdraw tx = some w ∧ w.feePayer = d.l2Recipient ∧ w.recipient = recipient ∧
      w.amount = amount ∧ w.nonce = nonce ∧
      w.burnedBalance P gasMint = creditedBalance P gasMint d ∧
      claimedLeaf P asset w.recipient w.amount w.nonce = w.leaf P

theorem claimedLeaf_eq_iff {asset : L1Asset} {w : WithdrawTx} :
    claimedLeaf P asset w.recipient w.amount w.nonce = w.leaf P ↔
      asset.assetId = w.assetId ∨ LeafCollision P w asset.assetId := by
  rw [claimedLeaf, WithdrawTx.leaf, Prod.mk.injEq, and_iff_right rfl, LeafCollision]
  by_cases h : asset.assetId = w.assetId <;> simp [h]

def homeBalance (P : Prims) (owner : Pubkey) : L1Asset → Balance
  | .sol => .lamports owner
  | .spl mint => .tokens (associatedTokenAddress P owner (wrappedMintAddress P mint.1))

theorem creditedBalance_none {d : DepositEvent} (asset : L1Asset) (h : d.mint = asset.mint) :
    creditedBalance P none d = homeBalance P d.l2Recipient asset := by
  cases asset <;>
    simp_all [creditedBalance, creditsNativeGas, L1Asset.mint, wrappedAccount, wrappedMint,
      wrappedAs, homeBalance]

theorem burnedBalance_none (w : WithdrawTx) :
    w.burnedBalance P none = homeBalance P w.feePayer (.ofId w.assetId) := by
  unfold WithdrawTx.burnedBalance WithdrawTx.isNative L1Asset.ofId
  by_cases h : w.assetId = NATIVE_ASSET_ID <;>
    simp [h, WithdrawTx.wrappedAccount, WithdrawTx.wrappedMint, homeBalance]

/-- A withdrawal that burns what a deposit of an asset credits is one of that asset, unless the
token accounts of two mints are one. -/
theorem assetId_of_burned {d : DepositEvent} {w : WithdrawTx} {asset : L1Asset}
    (hd : d.mint = asset.mint) (hpayer : w.feePayer = d.l2Recipient)
    (h : w.burnedBalance P none = creditedBalance P none d) :
    w.assetId = asset.assetId ∨ TokenCollision P none w (wrappedAs d).1 := by
  have hnative : w.isNative none = decide (w.assetId = NATIVE_ASSET_ID) := by
    simp [WithdrawTx.isNative]
  rw [creditedBalance_none asset hd, ← hpayer, WithdrawTx.burnedBalance, hnative] at h
  cases asset with
  | sol =>
    left
    by_contra hne
    change w.assetId ≠ NATIVE_ASSET_ID at hne
    rw [if_neg (by simpa using hne)] at h
    cases h
  | spl mint =>
    have hwrapped : (wrappedAs d).1 = mint.1 := by rw [wrappedAs, hd]; rfl
    by_cases hsol : w.assetId = NATIVE_ASSET_ID
    · rw [if_pos (by simpa using hsol)] at h
      cases h
    · rw [if_neg (by simpa using hsol)] at h
      rw [or_iff_not_imp_left, hwrapped]
      intro hne
      exact ⟨by simpa [hnative] using hsol, Ne.symm hne, (Balance.tokens.inj h).symm⟩

theorem roundTrips_none (asset : L1Asset) : RoundTrips P none asset where
  only := by
    intro d tx w hd hw hamount hpayer hbalance claimed hclaimed
    rcases claimedLeaf_eq_iff.mp hclaimed with hclaimed | hcollision
    · rcases assetId_of_burned hd hpayer hbalance with hid | hcollision
      · left
        rw [← L1Asset.ofId_assetId claimed, hclaimed, hid, L1Asset.ofId_assetId]
      · exact Or.inr (Or.inl hcollision)
    · exact Or.inr (Or.inr hcollision)
  exit := by
    intro d recipient amount nonce hd hamount
    refine ⟨_, _, parseWithdraw_withdrawalOf d.l2Recipient asset recipient amount nonce, rfl, rfl,
      rfl, rfl, ?_, rfl⟩
    rw [burnedBalance_none, creditedBalance_none asset hd, L1Asset.ofId_assetId]

def depositOf (asset : L1Asset) (owner : Pubkey) : DepositEvent := ⟨"", asset.mint, 9, 1, owner⟩

def unitExit (asset : L1Asset) (owner : Pubkey) : WithdrawTx :=
  ⟨withdrawalOf owner asset owner 1 0, owner, owner, asset.assetId, 1, 0⟩

/-- When a withdrawal of one asset burns what a deposit of another credits, without a collision,
the two are one. -/
theorem RoundTrips.eq_of_burned {asset : L1Asset} (h : RoundTrips P gasMint asset)
    (exited : L1Asset) (owner : Pubkey)
    (hburned : (unitExit exited owner).burnedBalance P gasMint =
      creditedBalance P gasMint (depositOf asset owner))
    (hmint : (unitExit exited owner).isNative gasMint = true ∨
      (wrappedAs (depositOf asset owner)).1 = exited.assetId) :
    exited = asset := by
  have hparse : parseWithdraw (unitExit exited owner).transaction = some (unitExit exited owner) :=
    parseWithdraw_withdrawalOf ..
  rcases h.only (depositOf asset owner) _ _ rfl hparse (by decide : (0 : UInt64) < 1) rfl hburned
    exited rfl with heq | hcollision | hcollision
  · exact heq
  · rcases hmint with hnative | hmint
    · cases hnative.symm.trans hcollision.1
    · exact absurd hmint hcollision.2.1
  · exact absurd rfl hcollision.1

theorem not_roundTrips_gasMint (gas : Mint) : ¬ RoundTrips P (some gas.1) (.spl gas) := by
  intro h
  have heq : L1Asset.sol = .spl gas := by
    refine h.eq_of_burned .sol gas.1 ?_ (Or.inl ?_)
    · simp [WithdrawTx.burnedBalance, WithdrawTx.isNative, creditedBalance, creditsNativeGas,
        depositOf, unitExit, L1Asset.mint, L1Asset.assetId]
    · simp [WithdrawTx.isNative, unitExit, L1Asset.assetId]
  cases heq

theorem not_roundTrips_sol {gas : Pubkey} (hgas : gas ≠ nativeSolMint) :
    ¬ RoundTrips P (some gas) .sol := by
  intro h
  have hne : nativeSolMint ≠ NATIVE_ASSET_ID := by decide
  have heq : L1Asset.spl ⟨nativeSolMint, hne⟩ = .sol := by
    refine h.eq_of_burned (.spl ⟨nativeSolMint, hne⟩) gas ?_ (Or.inr rfl)
    simp [WithdrawTx.burnedBalance, WithdrawTx.isNative, creditedBalance, creditsNativeGas,
      depositOf, unitExit, L1Asset.mint, L1Asset.assetId, WithdrawTx.wrappedAccount,
      WithdrawTx.wrappedMint, wrappedAccount, wrappedMint, wrappedAs, hne, hgas]
  cases heq

theorem roundTrips_iff : (∀ asset, RoundTrips P gasMint asset) ↔ gasMint = none := by
  constructor
  · intro h
    cases gasMint with
    | none => rfl
    | some gas =>
      exfalso
      by_cases hgas : gas = nativeSolMint
      · have hne : gas ≠ NATIVE_ASSET_ID := by
          rw [hgas]
          decide
        exact not_roundTrips_gasMint ⟨gas, hne⟩ (h _)
      · exact not_roundTrips_sol hgas (h .sol)
  · rintro rfl
    exact roundTrips_none

/-! ## Claims of served proofs -/

/-- The proof the node serves for a withdrawal lets the claim of its asset through, and the vault
of that asset pays. -/
theorem claim_of_served {s : ProgramState} {batchNo : UInt64} {w : WithdrawTx}
    {withdrawals : PartialMap Smt.NodeKey H256} {root : H256} {proof : Smt.SmtProof}
    (hserved : computeWithdrawalProof P withdrawals w.recipient w.assetId w.amount w.nonce =
      .ok (root, proof))
    (hposted : s.withdrawalsRoots batchNo = some root)
    (hnew : s.claims (w.recipient, w.nonce) = none) (hamount : 0 < w.amount)
    (hfunds : w.amount.toNat ≤ s.vaults (.ofId w.assetId)) :
    ∃ s', claim P (.ofId w.assetId) s batchNo w.recipient w.amount w.nonce proof = .ok s' ∧
      s'.vaults = Function.update s.vaults (.ofId w.assetId)
        (s.vaults (.ofId w.assetId) - w.amount.toNat) := by
  have hverify : WithdrawSmt.verify P root (withdrawalPubkey P w.recipient w.nonce)
      (withdrawalAccountHash P w.recipient w.assetId w.amount w.nonce) proof = true := by
    unfold computeWithdrawalProof at hserved
    dsimp only at hserved
    split at hserved
    · cases hserved
      assumption
    · cases hserved
  refine ⟨_, claim_eq_ok_iff.mpr ⟨⟨root, hposted, ?_⟩, hnew, ?_, hfunds, rfl⟩, rfl⟩
  · rw [claimedLeaf, L1Asset.assetId_ofId]
    exact hverify
  · rintro hzero
    rw [hzero] at hamount
    exact absurd hamount (by decide)

end Zul.Node
