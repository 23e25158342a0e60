import Zul.Node.Completeness
import Zul.Node.PoolWrites
import Zul.Privacy.Commitments

/-! # The committed pool state

The pool state is written last in the pool stage, through the merge made for lamports, and the
deposits and withdrawals of the block come after it. The data committed at its address is the
state of the accepted pool transactions exactly when no other write of the block reached the
account first, and the committed nullifiers are theirs exactly when every checked transaction
found room in the tree.
-/

namespace Zul.Node

open Bridge Executor Privacy PoolService

variable {E : Env} {store : Store}

/-! ## The deposit and withdrawal stages -/

/-- Later writes that keep an account's data, and bring it back if they touch it deleted. -/
structure SameData (store : Store) (k : Pubkey) (writes writes' : AccountWrites) (touched : Prop) :
    Prop where
  data : (loadThrough store writes' k).map (·.data) = (loadThrough store writes k).map (·.data)
  deleted : writes' k = some none ↔ writes k = some none ∧ ¬ touched

theorem SameData.refl (store : Store) (k : Pubkey) (writes : AccountWrites) :
    SameData store k writes writes False :=
  ⟨rfl, by simp⟩

theorem SameData.trans {k : Pubkey} {w₁ w₂ w₃ : AccountWrites} {t t' : Prop}
    (h : SameData store k w₁ w₂ t) (h' : SameData store k w₂ w₃ t') :
    SameData store k w₁ w₃ (t ∨ t') :=
  ⟨h'.data.trans h.data, by rw [h'.deleted, h.deleted, not_or, and_assoc]⟩

theorem SameData.congr {k : Pubkey} {w w' : AccountWrites} {t t' : Prop}
    (h : SameData store k w w' t)
    (ht : t ↔ t') : SameData store k w w' t' :=
  ⟨h.data, by rw [h.deleted, ht]⟩

theorem SameData.insert_of_ne {k j : Pubkey} (h : k ≠ j) (writes : AccountWrites)
    (account : StoredAccount) :
    SameData store k writes (writes.insert j (some account)) False := by
  constructor
  · rw [loadThrough_insert, if_neg h]
  · rw [PartialMap.insert_of_ne _ _ h]
    simp

theorem SameData.insert_self {k : Pubkey} {writes : AccountWrites} {old new : StoredAccount}
    (hold : loadThrough store writes k = some old) (hdata : new.data = old.data) :
    SameData store k writes (writes.insert k (some new)) True := by
  constructor
  · rw [loadThrough_insert, if_pos rfl, hold, Option.map_some, Option.map_some, hdata]
  · rw [PartialMap.insert_self]
    simp

theorem loadThrough_of_committed {k : Pubkey} {account : StoredAccount}
    (h : store.getAccount k = some account) (writes : AccountWrites) :
    ∃ old, loadThrough store writes k = some old := by
  unfold loadThrough
  rw [h]
  cases (writes k).join with
  | none => exact ⟨account, rfl⟩
  | some old => exact ⟨old, rfl⟩

section Stages

variable {P : Prims} {gasMint : Option Pubkey} {feeCollector k : Pubkey} {account : StoredAccount}

theorem sameData_creditNative (hk : store.getAccount k = some account) (recipient : Pubkey)
    (amount : UInt64) (writes : AccountWrites) :
    SameData store k writes (creditNative store recipient amount writes) (recipient = k) := by
  unfold creditNative
  by_cases h : recipient = k
  · subst h
    obtain ⟨old, hold⟩ := loadThrough_of_committed hk writes
    refine (SameData.insert_self hold ?_).congr (by simp)
    rw [hold, Option.getD_some]
  · exact (SameData.insert_of_ne (Ne.symm h) _ _).congr (by simp [h])

def DepositAvoids (P : Prims) (gasMint : Option Pubkey) (k : Pubkey) (d : DepositEvent) : Prop :=
  depositReceiptAddress P d.l1Signature ≠ k ∧
    (creditsNativeGas gasMint d.mint = false →
      wrappedMint P d ≠ k ∧ wrappedAccount P d ≠ k)

def WithdrawAvoids (P : Prims) (k : Pubkey) (w : WithdrawTx) : Prop :=
  w.wrappedMint P ≠ k ∧ w.wrappedAccount P ≠ k

theorem sameData_creditDeposit (hk : store.getAccount k = some account) {d : DepositEvent}
    (havoid : DepositAvoids P gasMint k d) {writes writes' : AccountWrites}
    (h : creditDeposit P store gasMint writes d = some writes') :
    SameData store k writes writes' (creditsNativeGas gasMint d.mint ∧ d.l2Recipient = k) := by
  rcases creditDeposit_cases h with ⟨hgas, rfl⟩ | ⟨hgas, mint, token, -, -, rfl⟩
  · exact (sameData_creditNative hk _ _ _).congr (by simp [hgas])
  · obtain ⟨hmint, htoken⟩ := havoid.2 hgas
    exact ((SameData.insert_of_ne hmint.symm _ _).trans
      (SameData.insert_of_ne htoken.symm _ _)).congr (by simp [hgas])

theorem sameData_applyDeposits (hk : store.getAccount k = some account)
    {deposits : List DepositEvent} (havoid : ∀ d ∈ deposits, DepositAvoids P gasMint k d)
    {acc out : AccountWrites × List DepositEvent}
    (h : deposits.foldlM (applyDeposit P store gasMint) acc = some out) :
    ∃ credited, out.2 = acc.2 ++ credited ∧
      SameData store k acc.1 out.1
        (∃ d ∈ credited, creditsNativeGas gasMint d.mint ∧ d.l2Recipient = k) := by
  induction deposits generalizing acc with
  | nil =>
    cases h
    exact ⟨[], (List.append_nil _).symm, (SameData.refl _ _ _).congr (by simp)⟩
  | cons d deposits ih =>
    rw [List.foldlM_cons, Option.bind_eq_bind, Option.bind_eq_some_iff] at h
    obtain ⟨acc₁, hone, h⟩ := h
    obtain ⟨hd, hdeposits⟩ := List.forall_mem_cons.mp havoid
    obtain ⟨credited, hout, hsame⟩ := ih hdeposits h
    rcases applyDeposit_cases hone with ⟨-, rfl⟩ | ⟨-, writes, hcredit, rfl⟩
    · exact ⟨credited, hout, hsame⟩
    · refine ⟨d :: credited, by rw [hout, List.append_assoc, List.singleton_append], ?_⟩
      refine (((sameData_creditDeposit hk hd hcredit).trans
        (SameData.insert_of_ne hd.1.symm _ _)).trans hsame).congr ?_
      simp

theorem sameData_burnAsset {w : WithdrawTx} (havoid : WithdrawAvoids P k w)
    {writes burned : AccountWrites}
    (h : burnAsset P store gasMint w writes = some (burned, true)) :
    SameData store k writes burned False := by
  rcases burnAsset_spec h with ⟨-, rfl⟩ | ⟨-, held, data, -, -, -, rfl | ⟨mint, rfl⟩⟩
  · exact SameData.refl _ _ _
  · exact SameData.insert_of_ne havoid.2.symm _ _
  · exact ((SameData.insert_of_ne havoid.2.symm _ _).trans
      (SameData.insert_of_ne havoid.1.symm _ _)).congr (by simp)

theorem sameData_burnWithdrawal {w : WithdrawTx} (havoid : WithdrawAvoids P k w)
    {writes writes' : AccountWrites} {post : UInt64}
    (h : burnWithdrawal P store gasMint w writes = some (writes', some post)) :
    SameData store k writes writes' (w.feePayer = k) := by
  obtain ⟨payer, burned, hpayer, -, -, hburn, -, rfl⟩ := burnWithdrawal_some h
  have hsame := sameData_burnAsset havoid hburn
  by_cases hk : w.feePayer = k
  · subst hk
    have hdata := hsame.data
    rw [hpayer, Option.map_some] at hdata
    obtain ⟨old, hold, heq⟩ := Option.map_eq_some_iff.mp hdata
    refine (hsame.trans (SameData.insert_self hold ?_)).congr (by simp)
    exact heq.symm
  · exact (hsame.trans (SameData.insert_of_ne (Ne.symm hk) _ _)).congr (by simp [hk])

theorem sameData_applyWithdraws (hk : store.getAccount k = some account)
    {withdraws : List WithdrawTx} (havoid : ∀ w ∈ withdraws, WithdrawAvoids P k w)
    {acc out : Withdrawn}
    (h : withdraws.foldlM (applyWithdraw P store gasMint feeCollector) acc = some out) :
    ∃ accepted, out.accepted = acc.accepted ++ accepted ∧
      SameData store k acc.writes out.writes
        (∃ w ∈ accepted, w.feePayer = k ∨ feeCollector = k) := by
  induction withdraws generalizing acc with
  | nil =>
    cases h
    exact ⟨[], (List.append_nil _).symm, (SameData.refl _ _ _).congr (by simp)⟩
  | cons w withdraws ih =>
    rw [List.foldlM_cons, Option.bind_eq_bind, Option.bind_eq_some_iff] at h
    obtain ⟨acc₁, hone, h⟩ := h
    obtain ⟨hw, hwithdraws⟩ := List.forall_mem_cons.mp havoid
    obtain ⟨accepted, hout, hsame⟩ := ih hwithdraws h
    rcases applyWithdraw_cases hone with ⟨hwrites, haccepted⟩ | ⟨burned, post, hburn,
      hwrites, haccepted⟩
    · rw [hwrites] at hsame
      exact ⟨accepted, by rw [hout, haccepted], hsame⟩
    · rw [hwrites] at hsame
      refine ⟨w :: accepted, by rw [hout, haccepted, List.append_assoc, List.singleton_append], ?_⟩
      refine (((sameData_burnWithdrawal hw hburn).trans
        (sameData_creditNative hk _ _ _)).trans hsame).congr ?_
      simp

end Stages

/-! ## The pool stage -/

/-- What the deposits and withdrawals bring back when they are applied over the pool stage: a
deposit is credited to the account as lamports, or the account pays for an accepted withdrawal or
collects its fee. -/
def Restored (E : Env) (store : Store) (pool : PoolStage) (deposits : List DepositEvent)
    (withdraws : List WithdrawTx) (k : Pubkey) : Prop :=
  ∃ writes credited withdrawn,
    applyDeposits E.prims store E.options.gasMint deposits pool.writes = some (writes, credited) ∧
    applyWithdraws E.prims store E.options.gasMint E.feeCollector withdraws writes pool.included =
      some withdrawn ∧
    ((∃ d ∈ credited, creditsNativeGas E.options.gasMint d.mint ∧ d.l2Recipient = k) ∨
      ∃ w ∈ withdrawn.accepted, w.feePayer = k ∨ E.feeCollector = k)

/-- No other write of the block reaches the pool state: the regular transactions leave it alone
or with the folded state, and no accepted transaction moves its lamports. -/
def Unclobbered (E : Env) (writes : AccountWrites) (state : PoolState)
    (txs : List (Pubkey × PoolInstruction)) (restored : Prop) : Prop :=
  match writes POOL_STATE_ADDRESS with
  | some (some account) => account.data = (foldedState E.prims state txs).toBytes
  | some none => (txs = [] → restored) ∧ POOL_STATE_ADDRESS ∉ endpoints (lamportFlow E txs)
  | none => POOL_STATE_ADDRESS ∉ endpoints (lamportFlow E txs)

section Pool

variable {poolTxs : List PoolTx} {writes : AccountWrites} {stage : PoolStage}
  {state : PoolState} {r : Running} {account : StoredAccount}

theorem stage_state_of_none (hp : Pooled E store poolTxs writes stage state r)
    (haccount : store.getAccount POOL_STATE_ADDRESS = some account)
    (hnone : acceptedPool E store writes poolTxs = []) :
    stage.writes POOL_STATE_ADDRESS = writes POOL_STATE_ADDRESS := by
  have htokens : r.tokenOverlay = fun _ => none := by
    have h := hp.tokens
    rw [hnone] at h
    exact (Option.some.inj h).symm
  have hover : r.overlay = seedOf writes := by
    rw [hp.overlay, hnone]
    rfl
  have hlamports : layer writes (lamportWrites store (seedOf writes)) POOL_STATE_ADDRESS =
      writes POOL_STATE_ADDRESS := by
    rcases hw : writes POOL_STATE_ADDRESS with _ | _ | left
    · rw [layer_none (by simp [lamportWrites, seedOf, hw]), hw]
    · rw [layer_none (by simp [lamportWrites, seedOf, hw]), hw]
    · rw [layer_some (by simp only [lamportWrites, seedOf, hw, Option.map_some]; rfl), hw]
      simp only [lamportWrite, haccount]
      rfl
  rw [hp.writes_eq, htokens, hover, hnone]
  exact hlamports

theorem stage_state_of_some (hp : Pooled E store poolTxs writes stage state r)
    (haccount : store.getAccount POOL_STATE_ADDRESS = some account)
    (htoken : POOL_STATE_ADDRESS ∉
      tokenEndpoints E.prims (tokenFlow E (acceptedPool E store writes poolTxs)))
    (hsome : acceptedPool E store writes poolTxs ≠ []) :
    ∃ new, stage.writes POOL_STATE_ADDRESS = some (some new) ∧
      new.data = match writes POOL_STATE_ADDRESS with
        | some (some left) => left.data
        | _ =>
          if POOL_STATE_ADDRESS ∈ endpoints (lamportFlow E (acceptedPool E store writes poolTxs))
          then account.data else r.ctx.state.toBytes := by
  have hnoToken : r.tokenOverlay POOL_STATE_ADDRESS = none := by
    have hkeys := (moveAllWrapped_spec hp.tokens).1 POOL_STATE_ADDRESS
    rw [← Option.not_isSome_iff_eq_none, hkeys]
    rintro (h | h)
    · cases h
    · exact htoken h
  have hstate : stage.writes POOL_STATE_ADDRESS = some (mergedWrite
      (layer writes (lamportWrites store r.overlay) POOL_STATE_ADDRESS)
      (some (stateAccount E store r.ctx.state))) := by
    have hwrite : stateWrites E store
        (decide (acceptedPool E store writes poolTxs ≠ [])) r.ctx.state POOL_STATE_ADDRESS =
          some (some (stateAccount E store r.ctx.state)) := by
      simp only [stateWrites, hsome, ne_eq, not_false_eq_true, decide_true, if_true]
      exact PartialMap.insert_self _ _ _
    rw [hp.writes_eq, layer_some hwrite, tokenLayer_none hnoToken]
  -- the lamport overlay writes the account if a regular transaction or a lamport move did
  have hwritten : ∀ v, r.overlay POOL_STATE_ADDRESS = some v →
      layer writes (lamportWrites store r.overlay) POOL_STATE_ADDRESS =
        some (mergedWrite (writes POOL_STATE_ADDRESS) (some { account with lamports := v })) := by
    intro v hv
    rw [lamportLayer_some hv, lamportWrite, haccount]
  have htouched := moveAllLamports_isSome_iff store (seedOf writes)
    (lamportFlow E (acceptedPool E store writes poolTxs)) POOL_STATE_ADDRESS
  rw [← hp.overlay] at htouched
  rw [hstate]
  cases hv : r.overlay POOL_STATE_ADDRESS with
  | some v =>
    rw [hv] at htouched
    have hmem := htouched.mp rfl
    rw [hwritten v hv]
    rcases hw : writes POOL_STATE_ADDRESS with _ | _ | left
    · exact ⟨_, rfl, (if_pos (hmem.resolve_left (by simp [seedOf, hw]))).symm⟩
    · exact ⟨_, rfl, (if_pos (hmem.resolve_left (by simp [seedOf, hw]))).symm⟩
    · exact ⟨_, rfl, rfl⟩
  | none =>
    rw [hv, Option.isSome_none, Bool.false_eq_true, false_iff, not_or] at htouched
    obtain ⟨hseed, hmem⟩ := htouched
    rw [lamportLayer_none hv]
    rcases hw : writes POOL_STATE_ADDRESS with _ | _ | left
    · exact ⟨_, rfl, (if_neg hmem).symm⟩
    · exact ⟨_, rfl, (if_neg hmem).symm⟩
    · exact absurd (by simp [seedOf, hw]) hseed

theorem unclobbered_nil_iff (haccount : store.getAccount POOL_STATE_ADDRESS = some account)
    (hdata : account.data = state.toBytes) (writes : AccountWrites) (restored : Prop) :
    (¬ (writes POOL_STATE_ADDRESS = some none ∧ ¬ restored) ∧
        (loadThrough store writes POOL_STATE_ADDRESS).map (·.data) =
          some (foldedState E.prims state []).toBytes) ↔
      Unclobbered E writes state [] restored := by
  rw [loadThrough, Unclobbered, haccount]
  rcases writes POOL_STATE_ADDRESS with _ | _ | left
  · simp [lamportFlow, endpoints, foldedState, PoolState.appendAll, hdata]
  · simp [lamportFlow, endpoints, foldedState, PoolState.appendAll, hdata]
  · simp

theorem stage_state_iff (hp : Pooled E store poolTxs writes stage state r)
    (haccount : store.getAccount POOL_STATE_ADDRESS = some account)
    (hdata : account.data = state.toBytes)
    (htoken : POOL_STATE_ADDRESS ∉
      tokenEndpoints E.prims (tokenFlow E (acceptedPool E store writes poolTxs)))
    (hfolded : r.ctx.state =
      foldedState E.prims state (acceptedPool E store writes poolTxs))
    (hgrew : acceptedPool E store writes poolTxs ≠ [] → r.ctx.state ≠ state) (restored : Prop) :
    (¬ (stage.writes POOL_STATE_ADDRESS = some none ∧ ¬ restored) ∧
        (loadThrough store stage.writes POOL_STATE_ADDRESS).map (·.data) =
          some (foldedState E.prims state (acceptedPool E store writes poolTxs)).toBytes) ↔
      Unclobbered E writes state (acceptedPool E store writes poolTxs) restored := by
  by_cases hnone : acceptedPool E store writes poolTxs = []
  · rw [hnone, ← unclobbered_nil_iff haccount hdata, loadThrough, loadThrough,
      stage_state_of_none hp haccount hnone]
  · obtain ⟨new, hnew, hnewData⟩ := stage_state_of_some hp haccount htoken hnone
    have hold : account.data ≠
        (foldedState E.prims state (acceptedPool E store writes poolTxs)).toBytes := by
      rw [hdata, ← hfolded]
      exact fun h => hgrew hnone (PoolState.toBytes_injective h).symm
    rw [loadThrough, hnew, Unclobbered]
    simp only [Option.join_some, Option.some_or, Option.map_some, Option.some.injEq, hnewData,
      reduceCtorEq, false_and, not_false_eq_true, true_and]
    have hwritten : (if POOL_STATE_ADDRESS ∈
          endpoints (lamportFlow E (acceptedPool E store writes poolTxs))
        then account.data else r.ctx.state.toBytes) =
          (foldedState E.prims state (acceptedPool E store writes poolTxs)).toBytes ↔
        POOL_STATE_ADDRESS ∉ endpoints (lamportFlow E (acceptedPool E store writes poolTxs)) := by
      rw [hfolded]
      split <;> simp_all
    rcases writes POOL_STATE_ADDRESS with _ | _ | left
    · exact hwritten
    · exact hwritten.trans (and_iff_right fun h => absurd h hnone).symm
    · rfl

end Pool

/-! ## A block -/

structure AvoidsPoolState (E : Env) (store : Store) (writes : AccountWrites)
    (transactions : List VersionedTransaction) (deposits : List DepositEvent) : Prop where
  tokens : POOL_STATE_ADDRESS ∉ tokenEndpoints E.prims (tokenFlow E
    (acceptedPool E store writes (partition (partitionWithdraws transactions).2).1))
  deposits : ∀ d ∈ deposits, DepositAvoids E.prims E.options.gasMint POOL_STATE_ADDRESS d
  withdraws : ∀ w ∈ (partitionWithdraws transactions).1,
    WithdrawAvoids E.prims POOL_STATE_ADDRESS w

theorem sameData_draft {choice : BlockChoice} {tip : ChainTip}
    {transactions : List VersionedTransaction} {deposits : List DepositEvent} {draft : BlockDraft}
    {output : BlockExecutionOutput} {pool : PoolStage} {depositWrites : AccountWrites}
    {withdrawn : Withdrawn} {account : StoredAccount}
    (hd : Drafted E choice store tip transactions deposits draft output pool depositWrites
      withdrawn)
    (haccount : store.getAccount POOL_STATE_ADDRESS = some account)
    (havoid : AvoidsPoolState E store output.accountWrites transactions deposits) :
    SameData store POOL_STATE_ADDRESS pool.writes draft.writes (Restored E store pool deposits
      (partitionWithdraws transactions).1 POOL_STATE_ADDRESS) := by
  obtain ⟨credited, hcredited, hdeposits⟩ :=
    sameData_applyDeposits haccount havoid.deposits hd.deposited
  obtain ⟨accepted, haccepted, hwithdraws⟩ :=
    sameData_applyWithdraws haccount havoid.withdraws hd.withdrew
  rw [hd.writes]
  refine (hdeposits.trans hwithdraws).congr ?_
  rw [← show draft.credited = credited from hcredited,
    ← show withdrawn.accepted = accepted from haccepted]
  constructor
  · exact fun h => ⟨_, _, _, hd.deposited, hd.withdrew, h⟩
  · rintro ⟨writes, credited', withdrawn', hdeposited, hwithdrew, h⟩
    cases hd.deposited.symm.trans hdeposited
    cases hd.withdrew.symm.trans hwithdrew
    exact h

theorem drafted_of_poolStage (choice : BlockChoice) (store : Store) (tip : ChainTip)
    (transactions : List VersionedTransaction) {output : BlockExecutionOutput} {pool : PoolStage}
    (hwithdraws : (partitionWithdraws transactions).1 = [])
    (hexec : executeBlock E.svm E.feeCollector store
      (blockInput choice tip (partition (partitionWithdraws transactions).2).2) = .ok output)
    (hpool : poolStage E choice.order store (partition (partitionWithdraws transactions).2).1
      output.accountWrites output.included = .ok pool) :
    Drafted E choice store tip transactions []
      ⟨pool.writes, pool.included, pool.nullifiers, [], []⟩ output pool pool.writes
      ⟨pool.writes, pool.included, []⟩ :=
  ⟨hexec, hpool, rfl, by rw [hwithdraws]; rfl, rfl, rfl, rfl, rfl⟩

namespace Sample

def poolNode : Node where
  store := poolStore
  tip := ⟨BlockhashQueue.new.register 0 (env.genesis.genesisHash prims), 0,
    env.genesis.genesisHash prims, 0⟩
  mempool := Mempool.new options.mempoolCapacity options.maxPerPayer
  pendingDeposits := []
  withdrawals := fun _ => none

def shieldInstruction : PoolInstruction := .shield .native 1000 (Bytes.replicate 32 0) []

theorem getAccount_poolState :
    poolNode.store.getAccount POOL_STATE_ADDRESS = some (genesisPoolAccount prims) := by
  show poolStore.accounts POOL_STATE_ADDRESS = _
  simp only [poolStore]
  rw [PartialMap.insert_of_ne _ _ (by decide), PartialMap.insert_of_ne _ _ (by decide),
    PartialMap.insert_self]

theorem poolState_not_moved :
    POOL_STATE_ADDRESS ∉ endpoints (lamportFlow idleEnv [(payer, shieldInstruction)]) := by
  decide

theorem new_ne_folded :
    (PoolState.new prims).toBytes ≠
      (foldedState prims (PoolState.new prims) [(payer, shieldInstruction)]).toBytes := by
  intro heq
  have hleaves : ([(payer, shieldInstruction)].flatMap fun tx => tx.2.leaves prims).length = 1 := by
    decide
  have hnext := (PoolState.appendAll_spec (P := prims) (PoolState.canonical_new prims)
    ([(payer, shieldInstruction)].flatMap fun tx => tx.2.leaves prims) (by rw [hleaves]; decide)).2
  rw [hleaves, ← foldedState, ← PoolState.toBytes_injective heq] at hnext
  omega

theorem poolStage_shield_over (order : MapOrder) (writes : AccountWrites)
    (included : List (VersionedTransaction × ExecutedTransactionMeta))
    (hfunds : 6000 ≤ balance poolStore (seedOf writes) payer) :
    (∃ stage, poolStage idleEnv order poolStore [shieldTx payer .native 1000] writes included =
        .ok stage) ∧
      acceptedPool idleEnv poolStore writes [shieldTx payer .native 1000] =
        [(payer, shieldInstruction)] := by
  refine poolStage_shield order included loadState_poolStore rfl ?_ (by decide) (x := 0) ?_ rfl
  · have hneed : ¬ balance poolStore (seedOf writes) payer <
        (1000 : UInt64).saturatingAdd idleEnv.poolConfig.flatFee := by
      rw [UInt64.not_lt]
      exact UInt64.le_trans (by decide) hfunds
    exact if_neg hneed
  · exact frFromBytes_frToBytes 0

end Sample

/-- The committed data of the pool state is the fold of the accepted pool transactions over the
state before, and the committed nullifiers are theirs, exactly when every checked transaction
finds room in the tree and no other write of the block reaches the account. -/
theorem pool_state_committed_iff {choice : BlockChoice} {node node' : Node}
    {transactions : List VersionedTransaction} {deposits : List DepositEvent} {draft : BlockDraft}
    {output : BlockExecutionOutput} {pool : PoolStage} {depositWrites : AccountWrites}
    {withdrawn : Withdrawn} {account : StoredAccount} {state : PoolState}
    (hd : Drafted E choice node.store node.tip transactions deposits draft output pool depositWrites
      withdrawn)
    (hcommit : commitDraft E choice node draft = .ok node')
    (haccount : node.store.getAccount POOL_STATE_ADDRESS = some account)
    (hdata : account.data = state.toBytes) (hcanonical : state.Canonical)
    (havoid : AvoidsPoolState E node.store output.accountWrites transactions deposits) :
    ((node'.store.getAccount POOL_STATE_ADDRESS).map (·.data) =
        some (foldedState E.prims state (acceptedPool E node.store output.accountWrites
          (partition (partitionWithdraws transactions).2).1)).toBytes ∧
      draft.nullifiers = spentBy (acceptedPool E node.store output.accountWrites
        (partition (partitionWithdraws transactions).2).1)) ↔
      FindsRoom E.prims E.verifier E.poolConfig node.store (poolStart state output.accountWrites)
          (payersAndInstructions (partition (partitionWithdraws transactions).2).1) ∧
        Unclobbered E output.accountWrites state (acceptedPool E node.store output.accountWrites
          (partition (partitionWithdraws transactions).2).1)
          (Restored E node.store pool deposits (partitionWithdraws transactions).1
            POOL_STATE_ADDRESS) := by
  obtain ⟨block, store', hproduced⟩ := commitDraft_spec hcommit
  have hsame := sameData_draft hd haccount havoid
  have htokens := havoid.tokens
  have hpooled := hd.pooled
  rw [hproduced.getAccount, hd.nullifiers]
  generalize (partition (partitionWithdraws transactions).2).1 = poolTxs at *
  -- what is committed is what the later stages read, unless the account stays deleted
  have hfinal : ∀ bytes, ((draft.writes.applyTo node.store.getAccount POOL_STATE_ADDRESS).map
        (·.data) = some bytes ↔
      ¬ (pool.writes POOL_STATE_ADDRESS = some none ∧ ¬ Restored E node.store pool deposits
          (partitionWithdraws transactions).1 POOL_STATE_ADDRESS) ∧
        (loadThrough node.store pool.writes POOL_STATE_ADDRESS).map (·.data) = some bytes) := by
    intro bytes
    rw [← hsame.deleted, ← hsame.data, AccountWrites.applyTo, loadThrough]
    rcases draft.writes POOL_STATE_ADDRESS with _ | _ | new <;> simp
  rw [hfinal]
  by_cases hne : poolTxs = []
  · subst hne
    cases hpooled
    rw [acceptedPool_nil, unclobbered_nil_iff haccount hdata, and_comm]
    exact and_congr_left' ⟨fun _ => trivial, fun _ => rfl⟩
  · obtain ⟨state', r, hp⟩ := poolStage_spec hne hpooled
    obtain rfl : state = state' := by
      have hload := hp.loaded
      rw [loadState, show node.store.getAccount E.poolConfig.poolState = _ from haccount] at hload
      simp only [hdata, PoolState.fromBytes_toBytes] at hload
      cases hload
      rfl
    obtain ⟨statuses, hran⟩ := hp.ran
    have haccepted : acceptedPool E node.store output.accountWrites poolTxs = accepted E.prims
        E.verifier E.poolConfig node.store (poolStart state output.accountWrites)
          (payersAndInstructions poolTxs) := by
      rw [acceptedPool, hp.loaded]
    have hspent : r.ctx.nullifiers.newly =
          spentBy (acceptedPool E node.store output.accountWrites poolTxs) ↔
        FindsRoom E.prims E.verifier E.poolConfig node.store (poolStart state output.accountWrites)
          (payersAndInstructions poolTxs) := by
      rw [haccepted]
      exact newly_eq_iff hran hcanonical
    rw [hp.nullifiers, hspent, and_comm]
    refine and_congr_right fun hroom => ?_
    obtain ⟨hfolded, hgrew, -⟩ := state_of_findsRoom hran hcanonical hroom
    rw [← haccepted] at hfolded hgrew
    refine stage_state_iff hp haccount hdata htokens hfolded (fun hsome heq => ?_) _
    exact absurd (hgrew hsome) (by rw [heq]; exact Nat.lt_irrefl _)

/-- A shield's commitment is in the committed tree of the sample chain. -/
theorem shield_committed :
    ∃ choice draft node', draftBlock Sample.idleEnv choice Sample.poolNode.store Sample.poolNode.tip
        [(Sample.shieldTx Sample.payer .native 1000).transaction] [] = .ok draft ∧
      commitDraft Sample.idleEnv choice Sample.poolNode draft = .ok node' ∧
      (node'.store.getAccount POOL_STATE_ADDRESS).map (·.data) =
        some (foldedState Sample.prims (PoolState.new Sample.prims)
          [(Sample.payer, Sample.shieldInstruction)]).toBytes := by
  obtain ⟨order⟩ := MapOrder.nonempty
  obtain ⟨writes, hexec, hnone⟩ := executeBlock_nil Sample.idleEnv.svm Sample.idleEnv.feeCollector
    Sample.poolStore (Sample.poolNode.tip.slot + 1) 0 Sample.poolNode.tip.blockhash
    Sample.poolNode.tip.queue
  have hpayer : writes Sample.payer = none := hnone _ (by decide)
  obtain ⟨⟨stage, hstage⟩, haccepted⟩ := Sample.poolStage_shield_over order writes []
    (by rw [balance, seedOf, hpayer]; decide)
  have hsplit : partitionWithdraws [(Sample.shieldTx Sample.payer .native 1000).transaction] =
      ([], [(Sample.shieldTx Sample.payer .native 1000).transaction]) := by decide +kernel
  have hsplit' : partition [(Sample.shieldTx Sample.payer .native 1000).transaction] =
      ([Sample.shieldTx Sample.payer .native 1000], []) := by decide +kernel
  have hd := drafted_of_poolStage (E := Sample.idleEnv) ⟨0, order⟩ Sample.poolNode.store
    Sample.poolNode.tip [(Sample.shieldTx Sample.payer .native 1000).transaction]
    (by rw [hsplit]) (by rw [hsplit, hsplit']; exact hexec) (by rw [hsplit, hsplit']; exact hstage)
  obtain ⟨node', -, -, hcommit, -⟩ := commitDraft_isOk (E := Sample.idleEnv) ⟨0, order⟩
    Sample.poolNode ⟨stage.writes, stage.included, stage.nullifiers, [], []⟩
    (fun latest h => by cases h) (by
      intro tx htx
      rw [poolStage_included hstage] at htx
      rw [List.mem_singleton.mp htx]
      rfl)
  refine ⟨_, _, node', draftBlock_eq hd, hcommit, ?_⟩
  have hall : acceptedPool Sample.idleEnv Sample.poolNode.store writes
    (partition (partitionWithdraws
      [(Sample.shieldTx Sample.payer .native 1000).transaction]).2).1 =
        [(Sample.payer, Sample.shieldInstruction)] := by
    rw [hsplit, hsplit']
    exact haccepted
  have havoid : AvoidsPoolState Sample.idleEnv Sample.poolNode.store writes
      [(Sample.shieldTx Sample.payer .native 1000).transaction] [] :=
    ⟨by rw [hall]; exact List.not_mem_nil, by simp, by rw [hsplit]; simp⟩
  have hiff := pool_state_committed_iff hd hcommit Sample.getAccount_poolState rfl
    (PoolState.canonical_new _) havoid
  simp only [hall] at hiff
  refine (hiff.mpr ⟨?_, ?_⟩).1
  · rw [hsplit, hsplit']
    exact ⟨fun _ _ hne => absurd rfl hne, fun _ _ _ => trivial⟩
  · unfold Unclobbered
    rw [show writes POOL_STATE_ADDRESS = none from hnone _ (by decide)]
    exact Sample.poolState_not_moved

/-- A regular transaction that only lists the pool state makes the block drop a shield's
commitment, while its deposit is committed. -/
theorem touched_state_drops_commitment :
    ∃ choice draft node', draftBlock Sample.idleEnv choice Sample.poolNode.store Sample.poolNode.tip
        [Sample.touchTx POOL_STATE_ADDRESS,
          (Sample.shieldTx Sample.payer .native 1000).transaction] [] = .ok draft ∧
      commitDraft Sample.idleEnv choice Sample.poolNode draft = .ok node' ∧
      ((node'.store.getAccount POOL_VAULT_ADDRESS).map (·.lamports) = some 1000) ∧
      (node'.store.getAccount POOL_STATE_ADDRESS).map (·.data) =
        some (PoolState.new Sample.prims).toBytes ∧
      (PoolState.new Sample.prims).toBytes ≠ (foldedState Sample.prims (PoolState.new Sample.prims)
        [(Sample.payer, Sample.shieldInstruction)]).toBytes := by
  obtain ⟨order⟩ := MapOrder.nonempty
  have hvalid : Sample.poolNode.tip.queue.isValid (Sample.env.genesis.genesisHash Sample.prims) =
      true := by decide +kernel
  obtain ⟨output, hexec, hincluded, hwrites⟩ := executeBlock_regular (E := Sample.idleEnv)
    ⟨0, order⟩ Sample.poolNode.store Sample.poolNode.tip (Sample.touchTx POOL_STATE_ADDRESS) rfl rfl
    (Sample.checkTransaction_touchTx POOL_STATE_ADDRESS hvalid) rfl
  have hview : ∀ k, k ≠ CLOCK_ID → callback Sample.idleEnv.svm Sample.poolNode.store (blockInput
      ⟨0, order⟩ Sample.poolNode.tip [Sample.touchTx POOL_STATE_ADDRESS]) k =
        Sample.poolNode.store.getAccount k := by
    intro k hk
    rw [callback, PartialMap.onto_apply, blockOverlay, PartialMap.insert_of_ne _ _ hk,
      Option.none_or]
  rw [Sample.writable_untouched, hview _ (by decide), hview _ (by decide),
    Sample.getAccount_poolState, PartialMap.insertAll_cons, PartialMap.insertAll_cons,
    PartialMap.insertAll_nil] at hwrites
  have hstate : output.accountWrites POOL_STATE_ADDRESS =
      some (some (genesisPoolAccount Sample.prims)) := by
    rw [hwrites _ (by decide), PartialMap.onto_apply, PartialMap.insert_self]
    rfl
  have hpayer : 6000 ≤ balance Sample.poolStore (seedOf output.accountWrites) Sample.payer := by
    rw [balance, seedOf, hwrites _ (by decide), PartialMap.onto_apply,
      PartialMap.insert_of_ne _ _ (by decide), PartialMap.insert_self, Option.some_or]
    decide
  have hvault : output.accountWrites POOL_VAULT_ADDRESS = none := by
    rw [hwrites _ (by decide), PartialMap.onto_apply, PartialMap.insert_of_ne _ _ (by decide),
      PartialMap.insert_of_ne _ _ (by decide), blockOverlay,
        PartialMap.insert_of_ne _ _ (by decide)]
    rfl
  obtain ⟨⟨stage, hstage⟩, haccepted⟩ :=
    Sample.poolStage_shield_over order _ output.included hpayer
  obtain ⟨state, r, hp⟩ := poolStage_spec (by simp) hstage
  have hnoToken : ∀ k, k ∉ tokenEndpoints Sample.prims (tokenFlow Sample.idleEnv
      (acceptedPool Sample.idleEnv Sample.poolStore output.accountWrites
        [Sample.shieldTx Sample.payer .native 1000])) := by
    rw [haccepted]
    exact fun _ => List.not_mem_nil
  obtain ⟨new, hnew, hnewData⟩ := stage_state_of_some hp Sample.getAccount_poolState
    (hnoToken _) (by rw [haccepted]; simp)
  rw [hstate] at hnewData
  have hvault : stage.writes POOL_VAULT_ADDRESS = some (some (StoredAccount.newSystem 1000)) := by
    have hover : r.overlay POOL_VAULT_ADDRESS = some 1000 := by
      have hbalance : balance Sample.poolStore (moveLamports Sample.poolStore
          (seedOf output.accountWrites) Sample.payer Sample.collector 5000)
            POOL_VAULT_ADDRESS = 0 := by
        rw [balance, moveLamports, PartialMap.insert_of_ne _ _ (by decide),
          PartialMap.insert_of_ne _ _ (by decide), seedOf, hvault]
        decide
      rw [hp.overlay, haccepted]
      show moveLamports Sample.poolStore (moveLamports Sample.poolStore
          (seedOf output.accountWrites) Sample.payer Sample.collector 5000) Sample.payer
            POOL_VAULT_ADDRESS 1000 POOL_VAULT_ADDRESS = some 1000
      rw [moveLamports, PartialMap.insert_self, hbalance]
      decide
    have htoken : r.tokenOverlay POOL_VAULT_ADDRESS = none := by
      rw [← Option.not_isSome_iff_eq_none, (moveAllWrapped_spec hp.tokens).1]
      rintro (h | h)
      · cases h
      · exact hnoToken _ h
    rw [stage_writes_of_ne hp (by decide),
      tokenLayer_none htoken,
      lamportLayer_some hover, hvault, lamportWrite,
      show Sample.poolStore.getAccount POOL_VAULT_ADDRESS = none by decide]
    rfl
  have hsplit : partitionWithdraws [Sample.touchTx POOL_STATE_ADDRESS,
      (Sample.shieldTx Sample.payer .native 1000).transaction] =
        ([], [Sample.touchTx POOL_STATE_ADDRESS,
          (Sample.shieldTx Sample.payer .native 1000).transaction]) := by decide +kernel
  have hsplit' : partition [Sample.touchTx POOL_STATE_ADDRESS,
      (Sample.shieldTx Sample.payer .native 1000).transaction] =
        ([Sample.shieldTx Sample.payer .native 1000], [Sample.touchTx POOL_STATE_ADDRESS]) := by
    decide +kernel
  have hd := drafted_of_poolStage (E := Sample.idleEnv) ⟨0, order⟩ Sample.poolNode.store
    Sample.poolNode.tip [Sample.touchTx POOL_STATE_ADDRESS,
      (Sample.shieldTx Sample.payer .native 1000).transaction] (by rw [hsplit])
        (by rw [hsplit, hsplit']; exact hexec) (by rw [hsplit, hsplit']; exact hstage)
  obtain ⟨node', block, store', hcommit, hproduced⟩ := commitDraft_isOk (E := Sample.idleEnv)
    ⟨0, order⟩ Sample.poolNode ⟨stage.writes, stage.included, stage.nullifiers, [], []⟩
    (fun latest h => by cases h) (by
      intro tx htx
      rw [poolStage_included hstage, hincluded] at htx
      rcases List.mem_append.mp htx with htx | htx
      · rw [List.mem_singleton.mp htx]
        rfl
      · rw [List.mem_singleton.mp htx]
        rfl)
  refine ⟨_, _, node', draftBlock_eq hd, hcommit, ?_, ?_, ?_⟩
  · rw [hproduced.getAccount, AccountWrites.applyTo_some hvault]
    rfl
  · rw [hproduced.getAccount, AccountWrites.applyTo_some hnew, Option.map_some, hnewData]
    rfl
  · exact Sample.new_ne_folded

end Zul.Node
