import Zul.Node.PoolWrites

/-! # Wrapped tokens through the pool stage

The pool reads the committed token accounts and writes them back through a merge made for
lamports: over an account that the block has already written only the lamports are taken. A
group of token accounts, such as those of one mint, ends with what the accepted transactions
credit and debit exactly when no such update is dropped and no deleted account is read.
-/

namespace Zul.Node

open Privacy PoolService

variable {E : Env} {store : Store} {writes : AccountWrites}

def tokensAt (store : Store) (writes : AccountWrites) (k : Pubkey) : ℕ :=
  (amountOf (writes.applyTo store.getAccount k)).toNat

def committedTokens (store : Store) (k : Pubkey) : ℕ := (amountOf (store.getAccount k)).toNat

/-- The token moves of accepted transactions, between token accounts. -/
def accountFlow (E : Env) (txs : List (Pubkey × PoolInstruction)) : List (Move Pubkey) :=
  (tokenFlow E txs).map (accountMove E.prims)

/-- The lamport overlay writes an account: the block touched its lamports, and it is committed
or is left with some. -/
def LamportWritten (E : Env) (store : Store) (writes : AccountWrites)
    (txs : List (Pubkey × PoolInstruction)) (k : Pubkey) : Prop :=
  ∃ v, moveAllLamports store (seedOf writes) (lamportFlow E txs) k = some v ∧
    (lamportWrite store k v).isSome

/-- The pool's update of a token account reaches the merged writes. -/
def Survives (E : Env) (store : Store) (writes : AccountWrites)
    (txs : List (Pubkey × PoolInstruction)) (k : Pubkey) : Prop :=
  match writes k with
  | some (some account) =>
    -- the account is kept as the regular transactions left it, or dropped without lamports
    (LamportWritten E store writes txs k →
      Ledger.debits (accountFlow E txs) k = Ledger.credits (accountFlow E txs) k) ∧
    (¬ LamportWritten E store writes txs k → amountOf (some account) = 0)
  | some none =>
    -- the account comes back as it was committed, by a lamport move or by the token update
    (LamportWritten E store writes txs k →
      committedTokens store k + Ledger.debits (accountFlow E txs) k =
        Ledger.credits (accountFlow E txs) k) ∧
    (¬ LamportWritten E store writes txs k →
      k ∈ tokenEndpoints E.prims (tokenFlow E txs) → committedTokens store k = 0)
  | none =>
    LamportWritten E store writes txs k →
      Ledger.debits (accountFlow E txs) k = Ledger.credits (accountFlow E txs) k

/-! ## Amounts key by key -/

theorem amountOf_lamportWrite (k : Pubkey) (v : UInt64) :
    amountOf (lamportWrite store k v) = amountOf (store.getAccount k) := by
  unfold lamportWrite
  cases store.getAccount k with
  | some account => rfl
  | none =>
    dsimp only
    split <;> rfl

theorem lamportWritten_iff {txs : List (Pubkey × PoolInstruction)} (k : Pubkey) :
    LamportWritten E store writes txs k ↔
      ∃ account, layer writes (lamportWrites store
        (moveAllLamports store (seedOf writes) (lamportFlow E txs))) k = some (some account) := by
  unfold LamportWritten
  cases hover : moveAllLamports store (seedOf writes) (lamportFlow E txs) k with
  | none =>
    rw [lamportLayer_none hover]
    constructor
    · rintro ⟨v, hv, -⟩
      cases hv
    · rintro ⟨account, haccount⟩
      have hseed : (moveAllLamports store (seedOf writes) (lamportFlow E txs) k).isSome :=
        (moveAllLamports_isSome_iff _ _ _ k).mpr (.inl (by simp [seedOf, haccount]))
      rw [hover] at hseed
      cases hseed
  | some v =>
    rw [lamportLayer_some hover]
    simp only [Option.some.injEq, exists_eq_left', ← Option.isSome_iff_exists, mergedWrite_isSome]

/-- What a live account of the lamport layer holds: what the regular transactions left, or what
was committed. -/
theorem amountOf_lamportLayer {overlay : PartialMap Pubkey UInt64} {k : Pubkey}
    {account : StoredAccount}
    (h : layer writes (lamportWrites store overlay) k = some (some account)) :
    amountOf (some account) = match writes k with
      | some (some left) => amountOf (some left)
      | _ => amountOf (store.getAccount k) := by
  cases hover : overlay k with
  | none =>
    rw [lamportLayer_none hover] at h
    rw [h]
  | some v =>
    rw [lamportLayer_some hover, Option.some.injEq] at h
    have hamount : amountOf (lamportWrite store k v) = _ := amountOf_lamportWrite k v
    rcases hw : writes k with _ | _ | left
    · rw [← hamount, ← h, hw]
      rfl
    · rw [← hamount, ← h, hw]
      rfl
    · cases hwrite : lamportWrite store k v with
      | none =>
        rw [hw, hwrite] at h
        cases h
      | some written =>
        rw [hw, hwrite] at h
        cases h
        rfl

section Stage

variable {poolTxs : List PoolTx} {stage : PoolStage} {state : PoolState} {r : Running}

theorem tokensAt_stage_of_live (hp : Pooled E store poolTxs writes stage state r) {k : Pubkey}
    (hk : k ≠ E.poolConfig.poolState) {account : StoredAccount}
    (hlive : layer writes (lamportWrites store r.overlay) k = some (some account)) :
    tokensAt store stage.writes k = (amountOf (some account)).toNat := by
  rw [tokensAt, AccountWrites.applyTo, stage_writes_of_ne hp hk]
  cases htoken : r.tokenOverlay k with
  | none =>
    rw [tokenLayer_none htoken, hlive]
    rfl
  | some token =>
    rw [tokenLayer_some htoken, hlive]
    rfl

theorem lamportWrite_of_not_live {overlay : PartialMap Pubkey UInt64} {k : Pubkey} {v : UInt64}
    (hlive : ¬ ∃ account, layer writes (lamportWrites store overlay) k = some (some account))
    (hover : overlay k = some v) : lamportWrite store k v = none := by
  rw [lamportLayer_some hover] at hlive
  rw [← Option.not_isSome_iff_eq_none]
  intro hsome
  obtain ⟨account, haccount⟩ := Option.isSome_iff_exists.mp (mergedWrite_isSome.trans hsome)
  exact hlive ⟨account, congrArg some haccount⟩

theorem committedTokens_of_deleted {k : Pubkey} {v : UInt64} (h : lamportWrite store k v = none) :
    committedTokens store k = 0 := by
  rw [committedTokens, ← amountOf_lamportWrite k v, h]
  rfl

theorem tokensAt_stage_of_not_live (hp : Pooled E store poolTxs writes stage state r) {k : Pubkey}
    (hk : k ≠ E.poolConfig.poolState)
    (hlive : ¬ ∃ account, layer writes (lamportWrites store r.overlay) k = some (some account)) :
    tokensAt store stage.writes k =
      if (r.tokenOverlay k).isSome then (amountOf (r.tokenOverlay.onto store.getAccount k)).toNat
      else if (writes k).isSome then 0 else committedTokens store k := by
  rw [tokensAt, AccountWrites.applyTo, stage_writes_of_ne hp hk]
  cases htoken : r.tokenOverlay k with
  | some token =>
    rw [tokenLayer_some htoken]
    rcases hfirst : layer writes (lamportWrites store r.overlay) k with _ | _ | account
    · simp [mergedWrite, htoken]
    · simp [mergedWrite, htoken]
    · exact absurd ⟨account, hfirst⟩ hlive
  | none =>
    rw [tokenLayer_none htoken]
    cases hover : r.overlay k with
    | none =>
      rw [lamportLayer_none hover] at hlive ⊢
      rcases hw : writes k with _ | _ | account
      · rfl
      · rfl
      · exact absurd ⟨account, hw⟩ hlive
    | some v =>
      have hnone := lamportWrite_of_not_live hlive hover
      rw [lamportLayer_some hover, hnone, committedTokens_of_deleted hnone]
      rcases writes k with _ | _ | account <;> rfl

theorem tokenOverlay_flow (hp : Pooled E store poolTxs writes stage state r) {A : Finset Pubkey}
    (hgroup : ∀ m ∈ accountFlow E (acceptedPool E store writes poolTxs), Ledger.Within A m)
    (hsupply : ∑ k ∈ A, committedTokens store k < 2 ^ 64) {k : Pubkey} (hk : k ∈ A) :
    (amountOf (r.tokenOverlay.onto store.getAccount k)).toNat +
        Ledger.debits (accountFlow E (acceptedPool E store writes poolTxs)) k =
      committedTokens store k +
        Ledger.credits (accountFlow E (acceptedPool E store writes poolTxs)) k := by
  obtain ⟨statuses, hran⟩ := hp.ran
  obtain ⟨-, -, hamount⟩ := moveAllWrapped_spec hp.tokens
  have haccepted : acceptedPool E store writes poolTxs = accepted E.prims E.verifier E.poolConfig
      store (poolStart state writes) (payersAndInstructions poolTxs) := by
    rw [acceptedPool, hp.loaded]
  rw [congrFun hamount k]
  refine Ledger.foldl_shift_apply hgroup ?_ hsupply hk
  rw [accountFlow, tokenFlow, haccepted]
  exact covered_accepted hran

theorem tokensAt_stage_iff (hp : Pooled E store poolTxs writes stage state r) {k : Pubkey}
    (hk : k ≠ E.poolConfig.poolState)
    (hflow : (amountOf (r.tokenOverlay.onto store.getAccount k)).toNat +
        Ledger.debits (accountFlow E (acceptedPool E store writes poolTxs)) k =
      committedTokens store k +
        Ledger.credits (accountFlow E (acceptedPool E store writes poolTxs)) k) :
    tokensAt store stage.writes k +
        Ledger.debits (accountFlow E (acceptedPool E store writes poolTxs)) k =
      tokensAt store writes k +
        Ledger.credits (accountFlow E (acceptedPool E store writes poolTxs)) k ↔
      Survives E store writes (acceptedPool E store writes poolTxs) k := by
  have hwritten : LamportWritten E store writes (acceptedPool E store writes poolTxs) k ↔ _ :=
    lamportWritten_iff k
  rw [← hp.overlay] at hwritten
  have hkeys := (moveAllWrapped_spec hp.tokens).1 k
  simp only [Option.isSome_none, Bool.false_eq_true, false_or] at hkeys
  -- without a token update the moves leave the account alone
  have hidle : ¬ (r.tokenOverlay k).isSome →
      Ledger.debits (accountFlow E (acceptedPool E store writes poolTxs)) k =
        Ledger.credits (accountFlow E (acceptedPool E store writes poolTxs)) k := by
    intro hnone
    rw [PartialMap.onto_apply, Option.not_isSome_iff_eq_none.mp hnone, Option.none_or] at hflow
    exact Nat.add_left_cancel hflow
  unfold Survives
  by_cases hlive : ∃ account, layer writes (lamportWrites store r.overlay) k = some (some account)
  · have hlw := hwritten.mpr hlive
    obtain ⟨account, haccount⟩ := hlive
    rw [tokensAt_stage_of_live hp hk haccount, amountOf_lamportLayer haccount, tokensAt,
      AccountWrites.applyTo]
    rcases writes k with _ | _ | left
    · simp [hlw]
    · simp only [hlw, true_imp_iff, not_true_eq_false, false_imp_iff, and_true]
      simp [committedTokens, amountOf]
    · simp [hlw]
  · have hlw := mt hwritten.mp hlive
    have hdropped : (∃ left, writes k = some (some left)) → committedTokens store k = 0 := by
      rintro ⟨left, hleft⟩
      cases hover : r.overlay k with
      | none => exact absurd ⟨left, by
          rw [lamportLayer_none hover, hleft]⟩ hlive
      | some v => exact committedTokens_of_deleted (lamportWrite_of_not_live hlive hover)
    rw [tokensAt_stage_of_not_live hp hk hlive, tokensAt, AccountWrites.applyTo]
    by_cases htoken : (r.tokenOverlay k).isSome
    · rw [if_pos htoken, hflow]
      rcases hw : writes k with _ | _ | left
      · simp [hlw, committedTokens]
      · simp only [hlw, hkeys.mp htoken, false_imp_iff, true_and, not_false_eq_true, true_imp_iff]
        simp [amountOf]
      · rw [hdropped ⟨left, hw⟩]
        simp only [hlw, false_imp_iff, true_and, not_false_eq_true, true_imp_iff, Option.getD_some,
          ← UInt64.toNat_inj, UInt64.toNat_zero]
        omega
    · rw [if_neg htoken, hidle htoken, Nat.add_right_cancel_iff]
      rcases hw : writes k with _ | _ | left
      · simp [hlw, committedTokens]
      · simp only [hlw, mt hkeys.mpr htoken, false_imp_iff, implies_true, and_self, iff_true]
        rfl
      · simp only [hlw, false_imp_iff, true_and, not_false_eq_true, true_imp_iff, Option.getD_some,
          ← UInt64.toNat_inj, UInt64.toNat_zero]
        simp [eq_comm]

end Stage

namespace Sample

def mint : Pubkey := Bytes.replicate 32 9

def payerTokens : Pubkey := tokenKey prims mint payer

def vaultTokens : Pubkey := tokenKey prims mint POOL_VAULT_ADDRESS

/-- The payer's token account with 500 tokens. -/
def tokenAccount500 : StoredAccount :=
  { freshTokenAccount (WrappedSpl.wrappedMintAddress prims mint) payer with
    data := WrappedSpl.packTokenAccount (WrappedSpl.wrappedMintAddress prims mint) payer 500 }

def tokenStore : Store :=
  { poolStore with accounts := poolStore.accounts.insert payerTokens tokenAccount500 }

theorem tokenStore_apart :
    payer ≠ payerTokens ∧ vaultTokens ≠ payerTokens ∧ env.poolConfig.poolState ≠ payerTokens ∧
      env.poolConfig.poolState ≠ vaultTokens ∧
      payerTokens ∉ [payer, collector] ∧ vaultTokens ∉ [payer, collector] ∧
      balance tokenStore (fun _ => none) payer = 1000000000 ∧
      tokenStore.getAccount vaultTokens = none ∧
      amountOf (some tokenAccount500) = 500 ∧
      (moveAllWrapped prims tokenStore (fun _ => none)
        [(mint, ⟨payer, POOL_VAULT_ADDRESS, 100⟩)]).isSome := by
  decide +kernel

theorem getAccount_tokenStore {k : Pubkey} (h : k ≠ payerTokens) :
    tokenStore.getAccount k = poolStore.getAccount k :=
  PartialMap.insert_of_ne _ _ h

theorem getAccount_payerTokens : tokenStore.getAccount payerTokens = some tokenAccount500 := by
  simp only [Store.getAccount, tokenStore, PartialMap.insert_self]

theorem committedTokens_tokenStore :
    committedTokens tokenStore payerTokens = 500 ∧ committedTokens tokenStore vaultTokens = 0 := by
  obtain ⟨-, -, -, -, -, -, -, hvault, hamount, -⟩ := tokenStore_apart
  constructor
  · rw [committedTokens, getAccount_payerTokens, hamount]
    rfl
  · rw [committedTokens, hvault]
    rfl

theorem loadState_tokenStore :
    loadState prims env.poolConfig tokenStore = .ok (PoolState.new prims) := by
  rw [← loadState_poolStore, loadState, loadState, getAccount_tokenStore tokenStore_apart.2.2.1]

theorem poolStage_shieldTokens (order : MapOrder) (writes : AccountWrites)
    (hpayer : writes payer = none) :
    (∃ stage, poolStage env order tokenStore [shieldTx payer (.spl mint) 100] writes [] =
        .ok stage) ∧
      acceptedPool env tokenStore writes [shieldTx payer (.spl mint) 100] =
        [(payer, .shield (.spl mint) 100 (Bytes.replicate 32 0) [])] := by
  obtain ⟨-, -, -, -, -, -, hbalance, -, hamount, hmoves⟩ := tokenStore_apart
  have hcovered : (100 : UInt64) ≤ amountOf (tokenStore.getAccount payerTokens) := by
    rw [getAccount_payerTokens, hamount]
    decide
  refine poolStage_shield order [] loadState_tokenStore rfl ?_ (by decide) (x := 0)
    (frFromBytes_frToBytes 0) hmoves
  have hfee : ¬ balance tokenStore (seedOf writes) payer < env.poolConfig.flatFee := by
    rw [balance, seedOf, hpayer]
    rw [balance] at hbalance
    rw [hbalance]
    decide
  have hcovered' : ¬ tokenBalance prims tokenStore (fun _ => none) mint payer < 100 := by
    rw [tokenBalance_eq]
    exact UInt64.not_lt.mpr hcovered
  exact (if_neg hfee).trans (if_neg hcovered')

theorem shieldTokens_endpoints {k : Pubkey} (hk : k = payerTokens ∨ k = vaultTokens) :
    k ∉ endpoints (lamportFlow env
      [(payer, .shield (.spl mint) 100 (Bytes.replicate 32 0) [])]) := by
  obtain ⟨-, -, -, -, hpayer, hvault, -⟩ := tokenStore_apart
  rcases hk with rfl | rfl
  · exact hpayer
  · exact hvault

theorem accountFlow_shieldTokens :
    accountFlow env [(payer, .shield (.spl mint) 100 (Bytes.replicate 32 0) [])] =
      [⟨payerTokens, vaultTokens, 100⟩] :=
  rfl

theorem not_lamportWritten {writes : AccountWrites} {k : Pubkey}
    (hk : k = payerTokens ∨ k = vaultTokens) (hw : writes k = none) :
    ¬ LamportWritten env tokenStore writes
      [(payer, .shield (.spl mint) 100 (Bytes.replicate 32 0) [])] k := by
  rintro ⟨v, hv, -⟩
  rw [moveAllLamports_of_notMem (shieldTokens_endpoints hk), seedOf, hw] at hv
  cases hv

end Sample

/-- A group of token accounts ends with what the accepted transactions credit and debit, and so
with the tokens it had, exactly when every update survives. A group is closed under token moves,
as the accounts of one mint are. -/
theorem tokens_conserved_iff {order : MapOrder} {poolTxs : List PoolTx}
    {included : List (VersionedTransaction × ExecutedTransactionMeta)} {stage : PoolStage}
    (h : poolStage E order store poolTxs writes included = .ok stage) (A : Finset Pubkey)
    (hgroup : ∀ m ∈ accountFlow E (acceptedPool E store writes poolTxs), Ledger.Within A m)
    (hstate : E.poolConfig.poolState ∉ A)
    (hsupply : ∑ k ∈ A, committedTokens store k < 2 ^ 64) :
    (∑ k ∈ A, tokensAt store stage.writes k = ∑ k ∈ A, tokensAt store writes k ∧
      ∀ k ∈ A, tokensAt store stage.writes k +
          Ledger.debits (accountFlow E (acceptedPool E store writes poolTxs)) k =
        tokensAt store writes k +
          Ledger.credits (accountFlow E (acceptedPool E store writes poolTxs)) k) ↔
      poolTxs = [] ∨ ∀ k ∈ A, Survives E store writes (acceptedPool E store writes poolTxs) k := by
  by_cases hne : poolTxs = []
  · subst hne
    cases h
    simp [acceptedPool_nil, accountFlow, tokenFlow, Ledger.debits, Ledger.credits]
  · obtain ⟨state, r, hp⟩ := poolStage_spec hne h
    have hkey : ∀ k ∈ A, _ := fun k hk =>
      tokensAt_stage_iff hp (fun heq => hstate (heq ▸ hk)) (tokenOverlay_flow hp hgroup hsupply hk)
    rw [or_iff_right hne, ← forall₂_congr hkey]
    refine and_iff_right_of_imp fun hall => ?_
    have hsum := Finset.sum_congr rfl hall
    rw [Finset.sum_add_distrib, Finset.sum_add_distrib,
      Ledger.sum_credits_eq_sum_debits hgroup] at hsum
    exact Nat.add_right_cancel hsum

/-- A shield moves tokens from the payer to the vault of the sample chain. -/
theorem shield_conserves_tokens :
    ∃ order stage, poolStage Sample.env order Sample.tokenStore
        [Sample.shieldTx Sample.payer (.spl Sample.mint) 100] (fun _ => none) [] = .ok stage ∧
      ∑ k ∈ {Sample.payerTokens, Sample.vaultTokens}, tokensAt Sample.tokenStore stage.writes k =
        ∑ k ∈ {Sample.payerTokens, Sample.vaultTokens},
          tokensAt Sample.tokenStore (fun _ => none) k := by
  obtain ⟨order⟩ := MapOrder.nonempty
  obtain ⟨⟨stage, hstage⟩, haccepted⟩ :=
    Sample.poolStage_shieldTokens order (fun _ => none) rfl
  obtain ⟨-, hne, hstate, hstate', -⟩ := Sample.tokenStore_apart
  refine ⟨order, stage, hstage, ?_⟩
  refine ((tokens_conserved_iff hstage _ ?_ ?_ ?_).mpr (.inr ?_)).1
  · rw [haccepted, Sample.accountFlow_shieldTokens]
    simp [Ledger.Within]
  · simp [hstate, hstate']
  · rw [Finset.sum_pair hne.symm, Sample.committedTokens_tokenStore.1,
      Sample.committedTokens_tokenStore.2]
    decide
  · intro k hk
    rw [haccepted]
    exact fun h => absurd h (Sample.not_lamportWritten (by simpa using hk) rfl)

/-- A payer's token account that a regular transaction wrote is not debited by a shield in the
same block, while the vault is credited. -/
theorem touched_tokens_not_debited :
    ∃ order stage, poolStage Sample.env order Sample.tokenStore
        [Sample.shieldTx Sample.payer (.spl Sample.mint) 100]
        (PartialMap.insert (fun _ => none) Sample.payerTokens (some Sample.tokenAccount500)) [] =
          .ok stage ∧
      tokensAt Sample.tokenStore stage.writes Sample.payerTokens = 500 ∧
      tokensAt Sample.tokenStore stage.writes Sample.vaultTokens = 100 ∧
      ∑ k ∈ {Sample.payerTokens, Sample.vaultTokens}, tokensAt Sample.tokenStore stage.writes k ≠
        ∑ k ∈ {Sample.payerTokens, Sample.vaultTokens}, tokensAt Sample.tokenStore
          (PartialMap.insert (fun _ => none) Sample.payerTokens
            (some Sample.tokenAccount500)) k := by
  obtain ⟨order⟩ := MapOrder.nonempty
  obtain ⟨hpayerKey, hne, hstate, hstate', -, -, -, hvaultNone, hamount, -⟩ :=
    Sample.tokenStore_apart
  obtain ⟨writes, hwrites⟩ : ∃ writes : AccountWrites, writes =
      PartialMap.insert (fun _ => none) Sample.payerTokens (some Sample.tokenAccount500) := ⟨_, rfl⟩
  have hpayerWrite : writes Sample.payerTokens = some (some Sample.tokenAccount500) := by
    rw [hwrites, PartialMap.insert_self]
  have hvaultWrite : writes Sample.vaultTokens = none := by
    rw [hwrites, PartialMap.insert_of_ne _ _ hne]
  rw [← hwrites]
  obtain ⟨⟨stage, hstage⟩, haccepted⟩ := Sample.poolStage_shieldTokens order writes (by
    rw [hwrites, PartialMap.insert_of_ne _ _ hpayerKey])
  obtain ⟨state, r, hp⟩ := poolStage_spec (by simp) hstage
  have hpayer : tokensAt Sample.tokenStore stage.writes Sample.payerTokens = 500 := by
    obtain ⟨account, haccount⟩ := (lamportWritten_iff _).mp (⟨Sample.tokenAccount500.lamports, by
      rw [moveAllLamports_of_notMem (Sample.shieldTokens_endpoints (.inl rfl)), seedOf,
        hpayerWrite],
      by rw [lamportWrite, Sample.getAccount_payerTokens]; rfl⟩ :
        LamportWritten Sample.env Sample.tokenStore writes
        [(Sample.payer, .shield (.spl Sample.mint) 100 (Bytes.replicate 32 0) [])]
        Sample.payerTokens)
    rw [← haccepted, ← hp.overlay] at haccount
    rw [tokensAt_stage_of_live hp hstate.symm haccount, amountOf_lamportLayer haccount,
      hpayerWrite]
    dsimp only
    rw [hamount]
    rfl
  have hvault : tokensAt Sample.tokenStore stage.writes Sample.vaultTokens = 100 := by
    have hgroup : ∀ m ∈ accountFlow Sample.env (acceptedPool Sample.env Sample.tokenStore writes
        [Sample.shieldTx Sample.payer (.spl Sample.mint) 100]),
        Ledger.Within {Sample.payerTokens, Sample.vaultTokens} m := by
      rw [haccepted, Sample.accountFlow_shieldTokens]
      simp [Ledger.Within]
    have hsupply : ∑ k ∈ {Sample.payerTokens, Sample.vaultTokens},
        committedTokens Sample.tokenStore k < 2 ^ 64 := by
      rw [Finset.sum_pair hne.symm, Sample.committedTokens_tokenStore.1,
        Sample.committedTokens_tokenStore.2]
      decide
    have hiff := tokensAt_stage_iff hp hstate'.symm (tokenOverlay_flow hp hgroup hsupply (by simp))
    rw [haccepted, tokensAt, tokensAt, AccountWrites.applyTo_none hvaultWrite, hvaultNone,
      Sample.accountFlow_shieldTokens] at hiff
    have hdebits : Ledger.debits [⟨Sample.payerTokens, Sample.vaultTokens, 100⟩]
        Sample.vaultTokens = 0 := by simp [Ledger.debits, hne.symm]
    have hcredits : Ledger.credits [⟨Sample.payerTokens, Sample.vaultTokens, 100⟩]
        Sample.vaultTokens = 100 := by simp [Ledger.credits]
    rw [hdebits, hcredits] at hiff
    refine hiff.mpr ?_
    unfold Survives
    rw [hvaultWrite]
    exact fun h => absurd h (Sample.not_lamportWritten (.inr rfl) hvaultWrite)
  refine ⟨order, stage, hstage, hpayer, hvault, ?_⟩
  rw [Finset.sum_pair hne.symm, Finset.sum_pair hne.symm, hpayer, hvault,
    tokensAt, tokensAt, AccountWrites.applyTo_none hvaultWrite,
    AccountWrites.applyTo_some hpayerWrite, hvaultNone, hamount]
  decide

end Zul.Node
