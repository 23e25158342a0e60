import Zul.Node.Produce
import Zul.Privacy.Moves
import Zul.Store.Commit

/-! # The merged writes of the pool stage

The pool's writes are merged in three layers: the lamport overlay, the token accounts and the
pool state. Each layer writes a key once, so the merged writes are determined key by key. A
write over an account that is already written keeps that account and takes only the lamports.
-/

namespace Zul.Node

open Privacy PoolService

variable (E : Env)

/-! ## Layers -/

def layer (writes : AccountWrites) (m : AccountWrites) : AccountWrites :=
  PartialMap.mergeWith (fun before write => some (mergedWrite before write)) writes m

theorem foldl_mergeWrite {l : List (Pubkey × Option StoredAccount)} {m : AccountWrites}
    (h : PartialMap.Enumerates l m) (writes : AccountWrites) :
    l.foldl mergeWrite writes = layer writes m :=
  PartialMap.foldl_mergeWith h (fun before write => some (mergedWrite before write)) writes

theorem layer_some {writes m : AccountWrites} {k : Pubkey} {write : Option StoredAccount}
    (h : m k = some write) : layer writes m k = some (mergedWrite (writes k) write) :=
  PartialMap.mergeWith_some h

theorem layer_none {writes m : AccountWrites} {k : Pubkey} (h : m k = none) :
    layer writes m k = writes k :=
  PartialMap.mergeWith_none h

/-! ## The pool stage in terms of its accepted transactions -/

def poolStart (state : PoolState) (writes : AccountWrites) : Running :=
  ⟨⟨state, BlockNullifiers.empty⟩, seedOf writes, fun _ => none, []⟩

def payersAndInstructions (poolTxs : List PoolTx) : List (Pubkey × PoolInstruction) :=
  poolTxs.map fun pt => (pt.feePayer, pt.instruction)

def acceptedPool (store : Store) (writes : AccountWrites) (poolTxs : List PoolTx) :
    List (Pubkey × PoolInstruction) :=
  match loadState E.prims E.poolConfig store with
  | .ok state => accepted E.prims E.verifier E.poolConfig store (poolStart state writes)
      (payersAndInstructions poolTxs)
  | .error _ => []

theorem acceptedPool_nil (store : Store) (writes : AccountWrites) :
    acceptedPool E store writes [] = [] := by
  unfold acceptedPool
  split <;> rfl

def lamportFlow (txs : List (Pubkey × PoolInstruction)) : List (Move Pubkey) :=
  txs.flatMap (nativeMoves E.poolConfig)

def tokenFlow (txs : List (Pubkey × PoolInstruction)) : List (Bytes 32 × Move Pubkey) :=
  txs.flatMap (tokenMoves E.poolConfig)

def lamportWrites (store : Store) (overlay : PartialMap Pubkey UInt64) : AccountWrites :=
  fun k => (overlay k).map (lamportWrite store k)

def tokenWrites (tokens : PartialMap Pubkey StoredAccount) : AccountWrites :=
  fun k => (tokens k).map some

section Layers

variable {store : Store} {writes : AccountWrites} {k : Pubkey}

theorem lamportLayer_none {overlay : PartialMap Pubkey UInt64} (h : overlay k = none) :
    layer writes (lamportWrites store overlay) k = writes k :=
  layer_none (by rw [lamportWrites, h, Option.map_none])

theorem lamportLayer_some {overlay : PartialMap Pubkey UInt64} {v : UInt64}
    (h : overlay k = some v) :
    layer writes (lamportWrites store overlay) k =
      some (mergedWrite (writes k) (lamportWrite store k v)) :=
  layer_some (by rw [lamportWrites, h, Option.map_some])

theorem tokenLayer_none {tokens : PartialMap Pubkey StoredAccount} (h : tokens k = none) :
    layer writes (tokenWrites tokens) k = writes k :=
  layer_none (by rw [tokenWrites, h, Option.map_none])

theorem tokenLayer_some {tokens : PartialMap Pubkey StoredAccount} {token : StoredAccount}
    (h : tokens k = some token) :
    layer writes (tokenWrites tokens) k = some (mergedWrite (writes k) (some token)) :=
  layer_some (by rw [tokenWrites, h, Option.map_some])

end Layers

def stateAccount (store : Store) (state : PoolState) : StoredAccount :=
  { (store.getAccount E.poolConfig.poolState).getD (genesisPoolAccount E.prims) with
    data := state.toBytes }

/-- The third layer: the pool state, once a transaction is accepted. -/
def stateWrites (store : Store) (dirty : Bool) (state : PoolState) : AccountWrites :=
  if dirty then
    PartialMap.insert (fun _ => none) E.poolConfig.poolState (some (stateAccount E store state))
  else fun _ => none

variable {E}

structure Pooled (E : Env) (store : Store) (poolTxs : List PoolTx) (writes : AccountWrites)
    (stage : PoolStage) (state : PoolState) (r : Running) : Prop where
  loaded : loadState E.prims E.poolConfig store = .ok state
  ran : ∃ statuses, (payersAndInstructions poolTxs).foldlM
    (applyNext E.prims E.verifier E.poolConfig store) (poolStart state writes, []) =
      some (r, statuses)
  overlay : r.overlay =
    moveAllLamports store (seedOf writes) (lamportFlow E (acceptedPool E store writes poolTxs))
  tokens : moveAllWrapped E.prims store (fun _ => none)
    (tokenFlow E (acceptedPool E store writes poolTxs)) = some r.tokenOverlay
  writes_eq : stage.writes =
    layer (layer (layer writes (lamportWrites store r.overlay)) (tokenWrites r.tokenOverlay))
      (stateWrites E store (acceptedPool E store writes poolTxs ≠ []) r.ctx.state)
  nullifiers : stage.nullifiers = r.ctx.nullifiers.newly

theorem poolStage_spec {order : MapOrder} {store : Store} {poolTxs : List PoolTx}
    {writes : AccountWrites} {included : List (VersionedTransaction × ExecutedTransactionMeta)}
    {stage : PoolStage} (hne : poolTxs ≠ [])
    (h : poolStage E order store poolTxs writes included = .ok stage) :
    ∃ state r, Pooled E store poolTxs writes stage state r := by
  unfold poolStage at h
  rw [if_neg (by simpa using hne)] at h
  split at h
  · cases h
  · cases h
  · rename_i result hresult
    cases h
    obtain ⟨state, r, statuses, hload, hrun, hwrites, hnullifiers, -⟩ :=
      processBlockSeeded_spec E.prims E.verifier E.poolConfig (by simpa using hne) hresult
    obtain ⟨hover, htokens, hdirty⟩ := applyAll_spec hrun
    have haccepted : acceptedPool E store writes poolTxs = accepted E.prims E.verifier E.poolConfig
        store (poolStart state writes) (payersAndInstructions poolTxs) := by
      rw [acceptedPool, hload]
    refine ⟨state, r, hload, ⟨statuses, hrun⟩, ?_, ?_, ?_, hnullifiers⟩
    · rw [haccepted]
      exact hover
    · rw [haccepted]
      exact htokens
    · have hflag : statuses.any isOk = decide (acceptedPool E store writes poolTxs ≠ []) := by
        rw [Bool.eq_iff_iff, decide_eq_true_iff, haccepted, hdirty]
        exact or_iff_right Bool.false_ne_true
      simp only [hwrites, assembleWrites, List.foldl_append, hflag]
      rw [foldl_mergeWrite ((order.enumerates r.overlay).map _),
        foldl_mergeWrite ((order.enumerates r.tokenOverlay).map fun _ account => some account)]
      refine foldl_mergeWrite ?_ _
      unfold stateWrites
      split
      · exact PartialMap.Enumerates.singleton _ _
      · exact PartialMap.Enumerates.nil

theorem stage_writes_of_ne {store : Store} {poolTxs : List PoolTx} {writes : AccountWrites}
    {stage : PoolStage} {state : PoolState} {r : Running}
    (hp : Pooled E store poolTxs writes stage state r) {k : Pubkey}
    (hk : k ≠ E.poolConfig.poolState) :
    stage.writes k =
      layer (layer writes (lamportWrites store r.overlay)) (tokenWrites r.tokenOverlay) k := by
  rw [hp.writes_eq]
  refine layer_none ?_
  unfold stateWrites
  split
  · exact PartialMap.insert_of_ne _ _ hk
  · rfl

theorem poolStage_shield (order : MapOrder) {store : Store} {writes : AccountWrites}
    (included : List (VersionedTransaction × ExecutedTransactionMeta))
    {tx : VersionedTransaction} {feePayer : Pubkey} {asset : Asset} {amount : UInt64}
    {secret : FieldBytes} {note : List UInt8} {x : Fr} {state : PoolState}
    (hload : loadState E.prims E.poolConfig store = .ok state) (hfirst : state.nextLeafIndex = 0)
    (hfunds : checkFunds E.prims E.poolConfig store (poolStart state writes) feePayer
      (.shield asset amount secret note) = .ok ())
    (hamount : amount ≠ 0) (hsecret : frFromBytes secret = some x)
    (htokens : (moveAllWrapped E.prims store (fun _ => none)
      (tokenMoves E.poolConfig (feePayer, .shield asset amount secret note))).isSome) :
    (∃ stage, poolStage E order store [⟨tx, feePayer, .shield asset amount secret note⟩] writes
        included = .ok stage) ∧
      acceptedPool E store writes [⟨tx, feePayer, .shield asset amount secret note⟩] =
        [(feePayer, .shield asset amount secret note)] := by
  obtain ⟨r, hr⟩ := applyOne_shield (V := E.verifier) (r := poolStart state writes) hfunds hamount
    hsecret hfirst htokens
  constructor
  · rw [poolStart] at hr
    simp only [poolStage, processBlockSeeded, hload, List.map_cons, List.map_nil,
      List.isEmpty_cons, Bool.false_eq_true, if_false, List.foldlM_cons, List.foldlM_nil, applyNext,
      hr]
    exact ⟨_, rfl⟩
  · simp only [acceptedPool, hload, payersAndInstructions, List.map_cons, List.map_nil,
      accepted, hr]

namespace Sample

/-- A committed empty pool, a payer and a fee collector with a billion lamports each. -/
def poolStore : Store :=
  { Store.empty with
    accounts := (((PartialMap.insert (fun _ => none) POOL_STATE_ADDRESS
      (genesisPoolAccount prims)).insert payer (StoredAccount.newSystem 1000000000)).insert
        collector (StoredAccount.newSystem 1000000000)) }

theorem loadState_poolStore :
    loadState prims env.poolConfig poolStore = .ok (PoolState.new prims) := by
  have haccount : poolStore.getAccount env.poolConfig.poolState =
      some (genesisPoolAccount prims) := by
    show poolStore.accounts POOL_STATE_ADDRESS = _
    simp only [poolStore]
    rw [PartialMap.insert_of_ne _ _ (by decide), PartialMap.insert_of_ne _ _ (by decide),
      PartialMap.insert_self]
  rw [loadState, haccount]
  simp only [genesisPoolAccount, PoolState.fromBytes_toBytes]

def shieldTx (feePayer : Pubkey) (asset : Asset) (amount : UInt64) : PoolTx where
  transaction := {
    signatures := [Bytes.replicate 64 11]
    message := {
      header := ⟨1, 0, 1⟩
      staticAccountKeys := [feePayer, POOL_PROGRAM_ID]
      recentBlockhash := env.genesis.genesisHash prims
      instructions := [⟨1, [0], LittleEndian.u32 0 ++ (match asset with
        | .native => LittleEndian.u32 0
        | .spl mint => LittleEndian.u32 1 ++ mint.toList) ++ LittleEndian.u64 amount ++
          (Bytes.replicate 32 0).toList ++ LittleEndian.u64 0⟩] } }
  feePayer := feePayer
  instruction := .shield asset amount (Bytes.replicate 32 0) []

example : tryParsePoolTx (shieldTx payer .native 1000).transaction =
    some (shieldTx payer .native 1000) := by decide +kernel

end Sample

end Zul.Node
