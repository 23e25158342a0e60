import Zul.Node.PoolWrites

/-! # Lamports through the pool stage

The pool stage moves lamports between accounts and pays rent for the token accounts it creates.
It keeps the total when the lamports its token and state writes carry are those the accounts
hold, every move is between distinct accounts with the amount at hand, and no account the
block's regular transactions deleted is written back with its committed balance.
-/

namespace Zul.Node

open Privacy PoolService

variable {E : Env} {store : Store} {writes : AccountWrites}

noncomputable def totalLamports (store : Store) (writes : AccountWrites) : ℕ :=
  ∑ k, lamportsOf (writes.applyTo store.getAccount k)

def createdTokens (E : Env) (store : Store) (writes : AccountWrites)
    (txs : List (Pubkey × PoolInstruction)) : Finset Pubkey :=
  ((tokenEndpoints E.prims (tokenFlow E txs)).filter fun k =>
    (writes.applyTo store.getAccount k).isNone).toFinset

/-- The token accounts and the pool state are written with the lamports they hold. -/
structure Separated (E : Env) (store : Store) (writes : AccountWrites)
    (txs : List (Pubkey × PoolInstruction)) : Prop where
  /-- A token account is not moved natively, and holds its committed lamports or is absent. -/
  tokens : ∀ k ∈ tokenEndpoints E.prims (tokenFlow E txs),
    k ∉ endpoints (lamportFlow E txs) ∧ k ≠ E.poolConfig.poolState ∧
      ((∃ account, writes.applyTo store.getAccount k = some account ∧
          account.lamports = carriedLamports store k) ∨
        writes.applyTo store.getAccount k = none ∧ store.getAccount k = none)
  /-- The pool state is not moved natively, and holds its committed lamports. -/
  state : txs ≠ [] → E.poolConfig.poolState ∉ endpoints (lamportFlow E txs) ∧
    lamportsOf (writes.applyTo store.getAccount E.poolConfig.poolState) =
      (stateAccount E store (PoolState.new E.prims)).lamports.toNat

/-- No account deleted in the block is moved natively unless its committed balance was zero. -/
def NoneRevived (E : Env) (store : Store) (writes : AccountWrites)
    (txs : List (Pubkey × PoolInstruction)) : Prop :=
  ∀ k ∈ endpoints (lamportFlow E txs), writes k = some none → lamportsOf (store.getAccount k) = 0

/-! ## Lamports key by key -/

@[simp] theorem lamportsOf_none : lamportsOf none = 0 := rfl

@[simp] theorem lamportsOf_some (account : StoredAccount) :
    lamportsOf (some account) = account.lamports.toNat := rfl

theorem lamportsOf_mergedWrite (before : Option (Option StoredAccount))
    (write : Option StoredAccount) : lamportsOf (mergedWrite before write) = lamportsOf write := by
  rcases before with _ | _ | _ <;> cases write <;> rfl

theorem lamportsOf_lamportWrite (k : Pubkey) (lamports : UInt64) :
    lamportsOf (lamportWrite store k lamports) = lamports.toNat := by
  unfold lamportWrite
  split
  · rfl
  · split
    · rename_i hzero
      rw [hzero]
      rfl
    · rfl

def lamportsAfterMoves (store : Store) (writes : AccountWrites)
    (overlay : PartialMap Pubkey UInt64) (k : Pubkey) : ℕ :=
  match overlay k with
  | some lamports => lamports.toNat
  | none => lamportsOf (writes.applyTo store.getAccount k)

theorem lamportsOf_layer (m : AccountWrites) (k : Pubkey) :
    lamportsOf ((layer writes m).applyTo store.getAccount k) =
      match m k with
      | some write => lamportsOf write
      | none => lamportsOf (writes.applyTo store.getAccount k) := by
  cases hm : m k with
  | some write =>
    rw [AccountWrites.applyTo_some (layer_some hm)]
    exact lamportsOf_mergedWrite _ _
  | none =>
    simp only [AccountWrites.applyTo]
    rw [layer_none hm]

theorem lamportsOf_lamportLayer (overlay : PartialMap Pubkey UInt64) (k : Pubkey) :
    lamportsOf ((layer writes (lamportWrites store overlay)).applyTo store.getAccount k) =
      lamportsAfterMoves store writes overlay k := by
  rw [lamportsOf_layer, lamportWrites, lamportsAfterMoves]
  cases overlay k with
  | none => rfl
  | some lamports => exact lamportsOf_lamportWrite k lamports

/-! ## Before and after the moves -/

theorem balance_seedOf (k : Pubkey) :
    (balance store (seedOf writes) k).toNat =
      lamportsOf (writes.applyTo store.getAccount k) +
        if writes k = some none then lamportsOf (store.getAccount k) else 0 := by
  rw [balance, seedOf, AccountWrites.applyTo]
  rcases writes k with _ | _ | account
  · cases store.getAccount k <;> simp
  · cases store.getAccount k <;> simp
  · simp

theorem balance_moved (ms : List (Move Pubkey)) (k : Pubkey) :
    (balance store (moveAllLamports store (seedOf writes) ms) k).toNat =
      lamportsAfterMoves store writes (moveAllLamports store (seedOf writes) ms) k +
        if writes k = some none ∧ k ∉ endpoints ms then lamportsOf (store.getAccount k) else 0 := by
  by_cases hk : k ∈ endpoints ms
  · obtain ⟨v, hv⟩ := Option.isSome_iff_exists.mp
      ((moveAllLamports_isSome_iff store (seedOf writes) ms k).mpr (.inr hk))
    simp [balance, lamportsAfterMoves, hv, hk]
  · have hsame : moveAllLamports store (seedOf writes) ms k = seedOf writes k :=
      moveAllLamports_of_notMem hk
    simp only [balance, lamportsAfterMoves, hsame, hk, not_false_eq_true, and_true]
    have h : (balance store (seedOf writes) k).toNat = _ := balance_seedOf k
    cases hseed : seedOf writes k with
    | none => simpa [balance, hseed] using h
    | some v =>
      have hlive : writes k ≠ some none := by
        intro hdel
        simp [seedOf, hdel] at hseed
      simp [hlive]

theorem sum_lamportsAfterMoves_iff {ms : List (Move Pubkey)}
    (hbound : Ledger.total (balance store (seedOf writes)) +
      (ms.map fun m => m.amount.toNat).sum < 2 ^ 64) :
    ∑ k, lamportsAfterMoves store writes (moveAllLamports store (seedOf writes) ms) k =
        totalLamports store writes ↔
      Ledger.SoundAll (balance store (seedOf writes)) ms ∧
        ∀ k ∈ endpoints ms, writes k = some none → lamportsOf (store.getAccount k) = 0 := by
  obtain ⟨hle, hsound⟩ := Ledger.total_foldl_move _ hbound
  rw [← balance_moveAllLamports] at hle hsound
  have hbefore : Ledger.total (balance store (seedOf writes)) = totalLamports store writes +
      ∑ k, if writes k = some none then lamportsOf (store.getAccount k) else 0 := by
    rw [totalLamports, ← Finset.sum_add_distrib]
    exact Finset.sum_congr rfl fun k _ => balance_seedOf k
  have hafter : Ledger.total (balance store (moveAllLamports store (seedOf writes) ms)) =
      ∑ k, lamportsAfterMoves store writes (moveAllLamports store (seedOf writes) ms) k +
        ∑ k, if writes k = some none ∧ k ∉ endpoints ms
          then lamportsOf (store.getAccount k) else 0 := by
    rw [← Finset.sum_add_distrib]
    exact Finset.sum_congr rfl fun k _ => balance_moved ms k
  -- the deleted accounts are those a move names, which come back, and the others
  have hdeleted : (∑ k, if writes k = some none then lamportsOf (store.getAccount k) else 0) =
      (∑ k, if writes k = some none ∧ k ∉ endpoints ms
        then lamportsOf (store.getAccount k) else 0) +
      ∑ k, if k ∈ endpoints ms ∧ writes k = some none
        then lamportsOf (store.getAccount k) else 0 := by
    rw [← Finset.sum_add_distrib]
    refine Finset.sum_congr rfl fun k _ => ?_
    by_cases hw : writes k = some none <;> by_cases hk : k ∈ endpoints ms <;> simp [hw, hk]
  have hrevived : (∑ k, if k ∈ endpoints ms ∧ writes k = some none
        then lamportsOf (store.getAccount k) else 0) = 0 ↔
      ∀ k ∈ endpoints ms, writes k = some none → lamportsOf (store.getAccount k) = 0 := by
    rw [Finset.sum_eq_zero_iff]
    simp only [Finset.mem_univ, true_imp_iff, ite_eq_right_iff, and_imp]
  rw [← hsound, ← hrevived]
  omega

/-- Where the lamports written are those held, the stage adds the rent of what it creates to
what the moves leave. -/
theorem totalLamports_stage {poolTxs : List PoolTx} {stage : PoolStage} {state : PoolState}
    {r : Running} (hp : Pooled E store poolTxs writes stage state r)
    (hsep : Separated E store writes (acceptedPool E store writes poolTxs)) :
    totalLamports store stage.writes =
      ∑ k, lamportsAfterMoves store writes r.overlay k +
        (createdTokens E store writes (acceptedPool E store writes poolTxs)).card *
          (WrappedSpl.rentExemptLamports WrappedSpl.ACCOUNT_LEN).toNat := by
  obtain ⟨hkeys, hcarries, -⟩ := moveAllWrapped_spec hp.tokens
  have hcarries := hcarries fun _ _ h => by cases h
  -- an account no lamport move names keeps its lamports
  have hunmoved : ∀ k, k ∉ endpoints (lamportFlow E (acceptedPool E store writes poolTxs)) →
      lamportsAfterMoves store writes r.overlay k =
        lamportsOf (writes.applyTo store.getAccount k) := by
    intro k hk
    rw [lamportsAfterMoves, hp.overlay, moveAllLamports_of_notMem hk, seedOf]
    rcases hw : writes k with _ | _ | account <;> simp [AccountWrites.applyTo, hw]
  have hkey : ∀ k, lamportsOf (stage.writes.applyTo store.getAccount k) =
      lamportsAfterMoves store writes r.overlay k +
        if k ∈ createdTokens E store writes (acceptedPool E store writes poolTxs)
          then (WrappedSpl.rentExemptLamports WrappedSpl.ACCOUNT_LEN).toNat else 0 := by
    intro k
    have hcreated : k ∈ createdTokens E store writes (acceptedPool E store writes poolTxs) ↔
        (r.tokenOverlay k).isSome ∧ writes.applyTo store.getAccount k = none := by
      rw [hkeys k]
      simp [createdTokens]
    rw [hp.writes_eq, lamportsOf_layer, lamportsOf_layer, lamportsOf_lamportLayer]
    by_cases hstate : acceptedPool E store writes poolTxs ≠ [] ∧ k = E.poolConfig.poolState
    · obtain ⟨hne, rfl⟩ := hstate
      obtain ⟨hfree, hlamports⟩ := hsep.state hne
      have hnot : E.poolConfig.poolState ∉
          createdTokens E store writes (acceptedPool E store writes poolTxs) := by
        rw [hcreated, hkeys]
        rintro ⟨h | h, -⟩
        · cases h
        · exact (hsep.tokens _ h).2.1 rfl
      rw [if_neg hnot, hunmoved _ hfree, hlamports]
      simp only [stateWrites, hne, ne_eq, not_false_eq_true, decide_true, if_true,
        PartialMap.insert_self]
      rfl
    · have hskip : stateWrites E store (acceptedPool E store writes poolTxs ≠ []) r.ctx.state k =
          none := by
        unfold stateWrites
        split
        · rename_i hne
          exact PartialMap.insert_of_ne _ _ fun h => hstate ⟨by simpa using hne, h⟩
        · rfl
      rw [hskip]
      cases htoken : r.tokenOverlay k with
      | none => simp [tokenWrites, htoken, hcreated]
      | some account =>
        have hmem := (hkeys k).mp (by rw [htoken]; rfl)
        obtain ⟨hfree, -, hheld⟩ := hsep.tokens k (hmem.resolve_left (by simp))
        have hcarry := hcarries k account htoken
        simp only [tokenWrites, htoken, Option.map_some, lamportsOf_some, hcreated,
          hunmoved k hfree, Option.isSome_some, true_and]
        rcases hheld with ⟨held, hheld, heq⟩ | ⟨hheld, habsent⟩
        · simp [hheld, heq, hcarry]
        · simp [hheld, hcarry, carriedLamports, habsent]
  rw [totalLamports, Finset.sum_congr rfl fun k _ => hkey k, Finset.sum_add_distrib,
    Finset.sum_ite_mem, Finset.univ_inter, Finset.sum_const, smul_eq_mul]

namespace Sample

theorem balance_poolStore :
    balance poolStore (seedOf fun _ => none) =
      Function.update (Function.update (Function.update (fun _ => 0) POOL_STATE_ADDRESS 1) payer
        1000000000) collector 1000000000 := by
  funext k
  simp only [balance, seedOf, Store.getAccount, poolStore, PartialMap.insert_apply,
    Function.update_apply]
  split_ifs <;> rfl

theorem total_poolStore : Ledger.total (balance poolStore (seedOf fun _ => none)) = 2000000001 := by
  have h₁ := Ledger.total_update (fun _ => 0) POOL_STATE_ADDRESS 1
  have h₂ := Ledger.total_update (Function.update (fun _ => 0) POOL_STATE_ADDRESS 1)
    payer 1000000000
  have h₃ := Ledger.total_update
    (Function.update (Function.update (fun _ => 0) POOL_STATE_ADDRESS 1)
    payer 1000000000) collector 1000000000
  have hzero : Ledger.total (fun _ : Pubkey => 0) = 0 := Finset.sum_eq_zero fun _ _ => rfl
  rw [Function.update_of_ne (by decide)] at h₂
  rw [Function.update_of_ne (by decide), Function.update_of_ne (by decide)] at h₃
  rw [balance_poolStore]
  simp only [hzero, UInt64.toNat_ofNat] at h₁ h₂ h₃
  omega

theorem poolStage_shieldTx (order : MapOrder) (feePayer : Pubkey)
    (hfunds : 1000000000 ≤ balance poolStore (seedOf fun _ => none) feePayer) :
    (∃ stage, poolStage env order poolStore [shieldTx feePayer .native 1000] (fun _ => none) [] =
        .ok stage) ∧
      acceptedPool env poolStore (fun _ => none) [shieldTx feePayer .native 1000] =
        [(feePayer, .shield .native 1000 (Bytes.replicate 32 0) [])] := by
  refine poolStage_shield order [] loadState_poolStore rfl ?_ (by decide) (x := 0) ?_ rfl
  · have hneed : ¬ balance poolStore (seedOf fun _ => none) feePayer <
        (1000 : UInt64).saturatingAdd env.poolConfig.flatFee := by
      rw [UInt64.not_lt]
      exact UInt64.le_trans (by decide) hfunds
    exact if_neg hneed
  · exact frFromBytes_frToBytes 0

end Sample

/-- The pool stage keeps the lamports of all accounts, up to the rent of the token accounts it
creates, exactly when every lamport move is sound in its turn and no deleted account is revived;
the lamports its token and state writes carry being those the accounts hold. -/
theorem lamports_conserved_iff {order : MapOrder} {poolTxs : List PoolTx}
    {included : List (VersionedTransaction × ExecutedTransactionMeta)} {stage : PoolStage}
    (h : poolStage E order store poolTxs writes included = .ok stage)
    (hsep : Separated E store writes (acceptedPool E store writes poolTxs))
    (hbound : Ledger.total (balance store (seedOf writes)) +
      ((lamportFlow E (acceptedPool E store writes poolTxs)).map fun m => m.amount.toNat).sum <
        2 ^ 64) :
    totalLamports store stage.writes = totalLamports store writes +
        (createdTokens E store writes (acceptedPool E store writes poolTxs)).card *
          (WrappedSpl.rentExemptLamports WrappedSpl.ACCOUNT_LEN).toNat ↔
      Ledger.SoundAll (balance store (seedOf writes))
          (lamportFlow E (acceptedPool E store writes poolTxs)) ∧
        NoneRevived E store writes (acceptedPool E store writes poolTxs) := by
  by_cases hne : poolTxs = []
  · subst hne
    cases h
    simp [acceptedPool_nil, createdTokens, tokenFlow, tokenEndpoints, lamportFlow,
      NoneRevived, endpoints, Ledger.SoundAll]
  · obtain ⟨state, r, hp⟩ := poolStage_spec hne h
    rw [totalLamports_stage hp hsep, Nat.add_right_cancel_iff, hp.overlay]
    exact sum_lamportsAfterMoves_iff hbound

/-- A payer's shield keeps the lamports of the sample chain. -/
theorem shield_conserves :
    ∃ order stage, poolStage Sample.env order Sample.poolStore
        [Sample.shieldTx Sample.payer .native 1000] (fun _ => none) [] = .ok stage ∧
      totalLamports Sample.poolStore stage.writes =
        totalLamports Sample.poolStore (fun _ => none) := by
  obtain ⟨order⟩ := MapOrder.nonempty
  obtain ⟨⟨stage, hstage⟩, haccepted⟩ :=
    Sample.poolStage_shieldTx order Sample.payer (by decide)
  have hsep : Separated Sample.env Sample.poolStore (fun _ => none) (acceptedPool Sample.env
      Sample.poolStore (fun _ => none) [Sample.shieldTx Sample.payer .native 1000]) := by
    rw [haccepted]
    exact ⟨by simp [tokenFlow, tokenMoves, PoolInstruction.effects, wrappedMoves, tokenEndpoints],
      fun _ => ⟨by decide, by decide⟩⟩
  refine ⟨order, stage, hstage, ?_⟩
  rw [(lamports_conserved_iff hstage hsep ?_).mpr ⟨?_, ?_⟩, haccepted]
  · rfl
  · rw [haccepted, Sample.total_poolStore]
    decide
  · rw [haccepted, Sample.balance_poolStore]
    exact ⟨.inr ⟨by decide, by decide⟩, .inr ⟨by decide, by decide⟩, trivial⟩
  · rintro k - ⟨⟩

/-- A shield the fee collector pays for creates lamports. -/
theorem collector_shield_mints :
    ∃ order stage, poolStage Sample.env order Sample.poolStore
        [Sample.shieldTx Sample.collector .native 1000] (fun _ => none) [] = .ok stage ∧
      createdTokens Sample.env Sample.poolStore (fun _ => none) (acceptedPool Sample.env
        Sample.poolStore (fun _ => none) [Sample.shieldTx Sample.collector .native 1000]) = ∅ ∧
      totalLamports Sample.poolStore stage.writes ≠
        totalLamports Sample.poolStore (fun _ => none) := by
  obtain ⟨order⟩ := MapOrder.nonempty
  obtain ⟨⟨stage, hstage⟩, haccepted⟩ :=
    Sample.poolStage_shieldTx order Sample.collector (by decide)
  obtain ⟨state, r, hp⟩ := poolStage_spec (by simp) hstage
  have hsep : Separated Sample.env Sample.poolStore (fun _ => none) (acceptedPool Sample.env
      Sample.poolStore (fun _ => none) [Sample.shieldTx Sample.collector .native 1000]) := by
    rw [haccepted]
    exact ⟨by simp [tokenFlow, tokenMoves, PoolInstruction.effects, wrappedMoves, tokenEndpoints],
      fun _ => ⟨by decide, by decide⟩⟩
  have hcreated : createdTokens Sample.env Sample.poolStore (fun _ => none) (acceptedPool Sample.env
      Sample.poolStore (fun _ => none) [Sample.shieldTx Sample.collector .native 1000]) = ∅ := by
    rw [haccepted]
    rfl
  refine ⟨order, stage, hstage, hcreated, ?_⟩
  rw [totalLamports_stage hp hsep, hcreated, Finset.card_empty, Nat.zero_mul, Nat.add_zero,
    hp.overlay, Ne, sum_lamportsAfterMoves_iff (by
      rw [haccepted, Sample.total_poolStore]
      decide), haccepted]
  -- the fee goes from the collector to itself
  rintro ⟨⟨hfee | ⟨hself, -⟩, -⟩, -⟩
  · exact absurd hfee (by decide)
  · exact hself rfl

end Zul.Node
