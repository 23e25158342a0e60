import Zul.Privacy.Nullifiers
import Zul.Privacy.Tree

/-! # What rejected pool transactions leave behind

A transaction refused by a check leaves the block's running state alone. One that passes the
checks and then finds the tree full has already spent its nullifiers, and a transfer may have
appended its first commitment. A block without an accepted transaction still writes the balances it
was seeded with, where an empty one writes nothing.
-/

namespace Zul.Privacy

namespace PoolService

open PoolProcessor

/-- Two results with the same consequences: the same writes, that leave the same accounts, the
same nullifiers and the same events. -/
structure SameEffects (a b : PoolBlockResult) : Prop where
  writes : a.accountWrites.Perm b.accountWrites
  accounts : ∀ accounts, a.accountWrites.foldl Store.writeAccount accounts =
    b.accountWrites.foldl Store.writeAccount accounts
  nullifiers : a.nullifiers = b.nullifiers
  noteEvents : a.noteEvents = b.noteEvents

section Definitions

variable (P : Prims) (V : ProofVerifier) (cfg : PoolConfig) (store : Store)

/-- A transaction that is funded, passes the checks and finds room for its commitments. -/
structure Passes (r : Running) (tx : Pubkey × PoolInstruction) : Prop where
  funds : checkFunds P cfg store r tx.1 tx.2 = .ok ()
  checked : Checked V store.isNullifierSpent r.ctx tx.2
  room : Room P r.ctx tx.2

end Definitions

def seededStart (state : PoolState) (seed : PartialMap Pubkey UInt64) : Running :=
  ⟨⟨state, BlockNullifiers.empty⟩, seed, fun _ => none, []⟩

variable {P : Prims} {V : ProofVerifier} {cfg : PoolConfig} {store : Store}

/-! ## One transaction -/

theorem applyOne_isOk_iff {r r' : Running} {tx : Pubkey × PoolInstruction}
    {status : Except PoolServiceError Unit} (hr : r.ctx.state.Canonical)
    (h : applyOne P V cfg store r tx.1 tx.2 = some (r', status)) :
    isOk status = true ↔ Passes P V cfg store r tx := by
  unfold applyOne at h
  split at h
  · rename_i hfunds
    cases h
    refine iff_of_false Bool.false_ne_true fun hpasses => ?_
    rw [hpasses.funds] at hfunds
    cases hfunds
  · rename_i hfunds
    have hspec : Processed P V store.isNullifierSpent r.ctx tx.2 _ := process_spec hr tx.2
    split at h
    · rename_i ctx e hprocess
      cases h
      rw [hprocess] at hspec
      refine iff_of_false Bool.false_ne_true fun hpasses => ?_
      cases hspec with
      | refused hchecked => exact hchecked hpasses.checked
      | full _ hroom => exact hroom hpasses.room
    · rename_i ctx outcome hprocess
      simp only [Option.bind_eq_bind, Option.bind_eq_some_iff] at h
      obtain ⟨r₁, -, h⟩ := h
      cases h
      rw [hprocess] at hspec
      cases hspec with
      | accepted hchecked hroom => exact iff_of_true rfl ⟨hfunds, hchecked, hroom⟩

theorem applyOne_rejected {r r' : Running} {tx : Pubkey × PoolInstruction}
    {e : PoolServiceError} (hr : r.ctx.state.Canonical)
    (hroom : checkFunds P cfg store r tx.1 tx.2 = .ok () →
      Checked V store.isNullifierSpent r.ctx tx.2 → tx.2.nullifiers ≠ [] → Room P r.ctx tx.2)
    (h : applyOne P V cfg store r tx.1 tx.2 = some (r', .error e)) : r' = r := by
  unfold applyOne at h
  split at h
  · cases h
    rfl
  · rename_i hfunds
    have hspec : Processed P V store.isNullifierSpent r.ctx tx.2 _ := process_spec hr tx.2
    split at h
    · rename_i ctx e hprocess
      cases h
      rw [hprocess] at hspec
      cases hspec with
      | refused => rfl
      | full hchecked hfull _ _ hshield =>
        by_cases hnone : tx.2.nullifiers = []
        · rw [hshield hnone]
        · exact absurd (hroom hfunds hchecked hnone) hfull
    · simp only [Option.bind_eq_bind, Option.bind_eq_some_iff] at h
      obtain ⟨r₁, -, h⟩ := h
      cases h

/-! ## The loop -/

theorem acceptedIn_eq_accepted {txs : List (Pubkey × PoolInstruction)}
    {acc out : Running × List (Except PoolServiceError Unit)}
    (h : txs.foldlM (applyNext P V cfg store) acc = some out) :
    ∃ new, out.2 = acc.2 ++ new ∧ acceptedIn txs new = accepted P V cfg store acc.1 txs := by
  induction txs generalizing acc with
  | nil =>
    cases h
    exact ⟨[], by simp, rfl⟩
  | cons tx txs ih =>
    obtain ⟨r, status, hone, h⟩ := applyNext_cons h
    obtain ⟨new, hnew, haccepted⟩ := ih h
    refine ⟨status :: new, by rw [hnew]; simp, ?_⟩
    cases status with
    | ok u => simpa [acceptedIn, accepted, hone, isOk] using haccepted
    | error e => simpa [acceptedIn, accepted, hone, isOk] using haccepted

theorem foldlM_accepted {txs : List (Pubkey × PoolInstruction)}
    {acc out : Running × List (Except PoolServiceError Unit)}
    (h : txs.foldlM (applyNext P V cfg store) acc = some out) (hr : acc.1.ctx.state.Canonical)
    (hroom : FindsRoom P V cfg store acc.1 txs) (before : List (Except PoolServiceError Unit)) :
    (accepted P V cfg store acc.1 txs).foldlM (applyNext P V cfg store) (acc.1, before) =
      some (out.1, before ++
        List.replicate (accepted P V cfg store acc.1 txs).length (.ok ())) := by
  induction txs generalizing acc before with
  | nil =>
    cases h
    simp [accepted]
  | cons tx txs ih =>
    obtain ⟨r, status, hone, h⟩ := applyNext_cons h
    have hrun := ih h ((applyOne_spec hr hone).canonical hr) (hroom.2 r status hone)
    cases status with
    | ok u =>
      simp only [accepted, hone, List.foldlM_cons, applyNext, Option.bind_eq_bind,
        Option.bind_some, Option.pure_def]
      rw [hrun, List.length_cons, List.replicate_succ, List.append_assoc]
      rfl
    | error e =>
      obtain rfl := applyOne_rejected hr hroom.1 hone
      simpa only [accepted, hone] using hrun before

theorem accepted_eq_nil_iff {txs : List (Pubkey × PoolInstruction)}
    {acc out : Running × List (Except PoolServiceError Unit)}
    (h : txs.foldlM (applyNext P V cfg store) acc = some out) (hr : acc.1.ctx.state.Canonical)
    (hroom : FindsRoom P V cfg store acc.1 txs) :
    accepted P V cfg store acc.1 txs = [] ↔ ∀ tx ∈ txs, ¬ Passes P V cfg store acc.1 tx := by
  induction txs generalizing acc with
  | nil => simp [accepted]
  | cons tx txs ih =>
    obtain ⟨r, status, hone, h⟩ := applyNext_cons h
    rw [List.forall_mem_cons, ← applyOne_isOk_iff hr hone]
    cases status with
    | ok u => simp [accepted, hone, isOk]
    | error e =>
      obtain rfl := applyOne_rejected hr hroom.1 hone
      simpa [accepted, hone, isOk] using ih h hr (hroom.2 _ _ hone)

theorem newly_length_le {txs : List (Pubkey × PoolInstruction)}
    {acc out : Running × List (Except PoolServiceError Unit)} (hr : acc.1.ctx.state.Canonical)
    (h : txs.foldlM (applyNext P V cfg store) acc = some out) :
    out.1.ctx.nullifiers.newly.length ≤
      acc.1.ctx.nullifiers.newly.length + (spentBy txs).length := by
  induction txs generalizing acc with
  | nil =>
    cases h
    exact Nat.le_add_right _ _
  | cons tx txs ih =>
    obtain ⟨r, status, hone, h⟩ := applyNext_cons h
    have hspec := applyOne_spec hr hone
    have hrest := ih (hspec.canonical hr) h
    rw [spentBy, List.flatMap_cons, List.length_append]
    cases hspec with
    | accepted _ _ _ newly =>
      rw [newly, List.length_append, spentBy] at hrest
      omega
    | unchanged ctx _ =>
      rw [ctx, spentBy] at hrest
      omega
    | full _ _ _ _ _ newly =>
      rw [newly, List.length_append, spentBy] at hrest
      omega

/-! ## A block -/

theorem assembleWrites_perm (order order' : MapOrder) (r : Running) (dirty : Bool) :
    (assembleWrites P cfg order store r dirty).Perm (assembleWrites P cfg order' store r dirty) ∧
      ∀ accounts, (assembleWrites P cfg order store r dirty).foldl Store.writeAccount accounts =
        (assembleWrites P cfg order' store r dirty).foldl Store.writeAccount accounts := by
  have hlamports := fun o : MapOrder =>
    (o.enumerates r.overlay).map fun k v => lamportWrite store k v
  have htokens := fun o : MapOrder =>
    (o.enumerates r.tokenOverlay).map fun _ account => some account
  refine ⟨?_, fun accounts => ?_⟩
  · exact (((hlamports order).perm (hlamports order')).append
      ((htokens order).perm (htokens order'))).append_right _
  · simp only [assembleWrites, List.foldl_append, Store.foldl_writeAccount (hlamports _),
      Store.foldl_writeAccount (htokens _)]

theorem processBlockSeeded_eq {order : MapOrder} {txs : List (Pubkey × PoolInstruction)}
    {seed : PartialMap Pubkey UInt64} {state : PoolState} {result : PoolBlockResult}
    (hload : loadState P cfg store = .ok state) (hne : txs ≠ [])
    (h : processBlockSeeded P V cfg order store txs seed = some (.ok result)) :
    ∃ r statuses, txs.foldlM (applyNext P V cfg store) (seededStart state seed, []) =
        some (r, statuses) ∧
      result.accountWrites = assembleWrites P cfg order store r
        (!(accepted P V cfg store (seededStart state seed) txs).isEmpty) ∧
      result.nullifiers = r.ctx.nullifiers.newly ∧ result.noteEvents = r.noteEvents ∧
      acceptedIn txs result.statuses = accepted P V cfg store (seededStart state seed) txs := by
  obtain ⟨state', r, statuses, hload', hran, hwrites, hnullifiers, hstatuses⟩ :=
    processBlockSeeded_spec P V cfg hne h
  obtain rfl : state = state' := Except.ok.inj (hload.symm.trans hload')
  obtain ⟨new, hnew, haccepted⟩ := acceptedIn_eq_accepted hran
  obtain rfl : statuses = new := hnew
  obtain ⟨-, -, hdirty⟩ := applyAll_spec hran
  refine ⟨r, statuses, hran, ?_, hnullifiers, ?_, ?_⟩
  · rw [hwrites]
    congr 1
    rw [Bool.eq_iff_iff, hdirty]
    simp [seededStart]
  · rw [processBlockSeeded_of_ran P V cfg order hne hload hran] at h
    cases h
    rfl
  · rw [hstatuses, acceptedIn_map (by rintro (e | u) <;> rfl)]
    exact haccepted

section Block

variable {order order' : MapOrder} {txs : List (Pubkey × PoolInstruction)}
  {seed : PartialMap Pubkey UInt64} {state : PoolState} {result result' : PoolBlockResult}
  (hload : loadState P cfg store = .ok state) (hcanonical : state.Canonical)

include hload hcanonical

theorem nullifiers_length_le
    (h : processBlockSeeded P V cfg order store txs seed = some (.ok result)) :
    result.nullifiers.length ≤ (spentBy txs).length := by
  by_cases hne : txs = []
  · subst hne
    cases h
    exact Nat.le_refl _
  · obtain ⟨r, statuses, hran, -, hnullifiers, -⟩ := processBlockSeeded_eq hload hne h
    rw [hnullifiers]
    exact (newly_length_le hcanonical hran).trans (by simp [seededStart, BlockNullifiers.empty])

theorem findsRoom_of_nullifiers (hne : txs ≠ [])
    (h : processBlockSeeded P V cfg order store txs seed = some (.ok result))
    (hagain : processBlockSeeded P V cfg order' store (acceptedIn txs result.statuses) seed =
      some (.ok result')) (hsame : result.nullifiers = result'.nullifiers) :
    FindsRoom P V cfg store (seededStart state seed) txs := by
  obtain ⟨r, statuses, hran, -, hnullifiers, -, haccepted⟩ := processBlockSeeded_eq hload hne h
  obtain ⟨-, -, hsub⟩ := processBlockSeeded_nullifiers h
  have hle := nullifiers_length_le hload hcanonical hagain
  rw [← hsame] at hle
  have hspent := hsub.eq_of_length (Nat.le_antisymm hsub.length_le hle)
  refine (newly_eq_iff hran hcanonical).mp ?_
  rw [← hnullifiers, ← hspent, haccepted]
  rfl

/-- A block whose checked transactions all find room leaves what its accepted transactions alone
do, if some transaction passes or nothing was seeded. -/
theorem sameEffects_of_findsRoom (hne : txs ≠ [])
    (h : processBlockSeeded P V cfg order store txs seed = some (.ok result))
    (hroom : FindsRoom P V cfg store (seededStart state seed) txs)
    (hseed : seed = (fun _ => none) ∨
      ∃ tx ∈ txs, Passes P V cfg store (seededStart state seed) tx) :
    ∃ result', processBlockSeeded P V cfg order' store (acceptedIn txs result.statuses) seed =
      some (.ok result') ∧ SameEffects result result' := by
  obtain ⟨r, statuses, hran, hwrites, hnullifiers, hevents, haccepted⟩ :=
    processBlockSeeded_eq hload hne h
  have hrun := foldlM_accepted hran hcanonical hroom []
  have hnone := accepted_eq_nil_iff hran hcanonical hroom
  rw [haccepted]
  generalize accepted P V cfg store (seededStart state seed) txs = kept at *
  by_cases hkept : kept = []
  · -- the block ends where it started
    have hfresh : seed = fun _ => none := by
      refine hseed.resolve_right ?_
      rintro ⟨tx, htx, hpasses⟩
      exact hnone.mp hkept tx htx hpasses
    subst hkept hfresh
    obtain rfl : seededStart state (fun _ => none) = r := congrArg Prod.fst (Option.some.inj hrun)
    have hempty : result.accountWrites = [] := by
      rw [hwrites]
      simp [assembleWrites, seededStart,
        (order.enumerates (fun _ => none : PartialMap Pubkey UInt64)).eq_nil,
        (order.enumerates (fun _ => none : PartialMap Pubkey StoredAccount)).eq_nil]
    exact ⟨PoolBlockResult.default, rfl, by rw [hempty]; rfl, fun _ => by rw [hempty]; rfl,
      hnullifiers, hevents⟩
  · have hdirty : (List.replicate kept.length
        (Except.ok () : Except PoolServiceError Unit)).any isOk = !kept.isEmpty := by
      simp [isOk, hkept]
    obtain ⟨hperm, haccounts⟩ :=
      assembleWrites_perm (P := P) order order' r (!kept.isEmpty)
    refine ⟨_, processBlockSeeded_of_ran P V cfg order' hkept hload hrun, ?_, ?_, hnullifiers,
      hevents⟩
    · rw [hwrites, List.nil_append, hdirty]
      exact hperm
    · rw [hwrites, List.nil_append, hdirty]
      exact haccounts

/-- If the seed's writes are none, or made without the rejected transactions too, then nothing was
seeded or some transaction passes. -/
theorem seeded_of_sameEffects (hne : txs ≠ [])
    (h : processBlockSeeded P V cfg order store txs seed = some (.ok result))
    (hroom : FindsRoom P V cfg store (seededStart state seed) txs)
    (hagain : processBlockSeeded P V cfg order' store (acceptedIn txs result.statuses) seed =
      some (.ok result')) (hsame : result.accountWrites.Perm result'.accountWrites) :
    seed = (fun _ => none) ∨ ∃ tx ∈ txs, Passes P V cfg store (seededStart state seed) tx := by
  obtain ⟨r, statuses, hran, hwrites, -, -, haccepted⟩ := processBlockSeeded_eq hload hne h
  by_contra hseed
  push Not at hseed
  obtain ⟨hseed, hnone⟩ := hseed
  have hkept := (accepted_eq_nil_iff hran hcanonical hroom).mpr hnone
  have hrun := foldlM_accepted hran hcanonical hroom []
  rw [hkept] at haccepted hrun
  obtain rfl : seededStart state seed = r := congrArg Prod.fst (Option.some.inj hrun)
  rw [haccepted] at hagain
  cases hagain
  refine hseed (funext fun k => ?_)
  by_contra hk
  obtain ⟨v, hv⟩ := Option.ne_none_iff_exists'.mp hk
  have hmem : (k, lamportWrite store k v) ∈ result.accountWrites := by
    rw [hwrites]
    refine List.mem_append_left _ (List.mem_append_left _ (List.mem_map.mpr ⟨(k, v), ?_, rfl⟩))
    exact ((order.enumerates seed).mem_iff k v).mpr hv
  rw [hsame.eq_nil] at hmem
  cases hmem

end Block

/-- Rejected transactions leave no trace exactly if every transfer and unshield that passes its
checks finds room, and either some transaction passes over the state at the start or nothing was
seeded. -/
theorem rejected_leave_no_trace_iff (P : Prims) (V : ProofVerifier) (cfg : PoolConfig)
    (store : Store) (order order' : MapOrder) (txs : List (Pubkey × PoolInstruction))
    (seed : PartialMap Pubkey UInt64) {state : PoolState} {result : PoolBlockResult}
    (hload : loadState P cfg store = .ok state) (hcanonical : state.Canonical)
    (h : processBlockSeeded P V cfg order store txs seed = some (.ok result)) :
    (∃ result', processBlockSeeded P V cfg order' store (acceptedIn txs result.statuses) seed =
        some (.ok result') ∧ SameEffects result result') ↔
      FindsRoom P V cfg store (seededStart state seed) txs ∧
        (txs = [] ∨ seed = (fun _ => none) ∨
          ∃ tx ∈ txs, Passes P V cfg store (seededStart state seed) tx) := by
  by_cases hne : txs = []
  · subst hne
    cases h
    exact iff_of_true ⟨_, rfl, .refl _, fun _ => rfl, rfl, rfl⟩ ⟨trivial, .inl rfl⟩
  constructor
  · rintro ⟨result', hagain, hsame⟩
    have hroom := findsRoom_of_nullifiers hload hcanonical hne h hagain hsame.nullifiers
    exact ⟨hroom, .inr (seeded_of_sameEffects hload hcanonical hne h hroom hagain hsame.writes)⟩
  · rintro ⟨hroom, hseed⟩
    exact sameEffects_of_findsRoom hload hcanonical hne h hroom (hseed.resolve_left hne)

namespace Sample

def nothing : PoolInstruction := .shield .native 0 (Bytes.replicate 32 0) []

def mixed : List (Pubkey × PoolInstruction) :=
  [(Bytes.replicate 32 1, transfer), (Bytes.replicate 32 1, nothing)]

theorem applyOne_nothing (r : Running) :
    applyOne prims verifier config Store.empty r (Bytes.replicate 32 1) nothing =
      some (r, .error (.pool .zeroAmount)) := by
  have hneed : ¬ balance Store.empty r.overlay (Bytes.replicate 32 1) <
      (0 : UInt64).saturatingAdd config.flatFee := UInt64.not_lt_zero
  have hfunds : checkFunds prims config Store.empty r (Bytes.replicate 32 1) nothing = .ok () := by
    simp only [checkFunds, nothing, if_neg hneed]
    rfl
  rw [applyOne, hfunds]
  rfl

end Sample

/-- A refused shield after an accepted transfer leaves no trace. -/
theorem refused_shield_leaves_no_trace :
    (PoolState.new Sample.prims).Canonical ∧ ∃ order : MapOrder, ∃ result result',
      processBlockSeeded Sample.prims Sample.verifier Sample.config order Store.empty Sample.mixed
        (fun _ => none) = some (.ok result) ∧
      acceptedIn Sample.mixed result.statuses = [(Bytes.replicate 32 1, Sample.transfer)] ∧
      processBlockSeeded Sample.prims Sample.verifier Sample.config order Store.empty
        (acceptedIn Sample.mixed result.statuses) (fun _ => none) = some (.ok result') ∧
      SameEffects result result' := by
  have hcanonical := PoolState.canonical_new Sample.prims
  refine ⟨hcanonical, ?_⟩
  obtain ⟨order⟩ := MapOrder.nonempty
  obtain ⟨⟨r, statuses⟩, hfold, hstatuses⟩ := Option.map_eq_some_iff.mp Sample.applyNext_transfer
  dsimp only at hstatuses
  subst hstatuses
  have hran : Sample.mixed.foldlM (applyNext Sample.prims Sample.verifier Sample.config Store.empty)
      (seededStart (PoolState.new Sample.prims) fun _ => none, []) =
        some (r, [.ok (), .error (.pool .zeroAmount)]) := by
    rw [Sample.mixed, ← List.singleton_append, List.foldlM_append]
    refine (congrArg (· >>= _) hfold).trans ?_
    simp only [List.foldlM_cons, List.foldlM_nil, applyNext, Sample.applyOne_nothing]
    rfl
  have hprocessed := processBlockSeeded_of_ran Sample.prims Sample.verifier Sample.config order
    (by simp [Sample.mixed]) rfl hran
  have hroom : FindsRoom Sample.prims Sample.verifier Sample.config Store.empty
      (seededStart (PoolState.new Sample.prims) fun _ => none) Sample.mixed := by
    constructor
    · intro _ _ _
      unfold Room
      decide
    · intro r' status _
      exact ⟨fun _ _ hne => absurd rfl hne, fun _ _ _ => trivial⟩
  obtain ⟨result', hagain, hsame⟩ := (rejected_leave_no_trace_iff Sample.prims Sample.verifier
    Sample.config Store.empty order order Sample.mixed (fun _ => none) rfl hcanonical
      hprocessed).mpr ⟨hroom, .inr (.inl rfl)⟩
  exact ⟨order, _, result', hprocessed, rfl, hagain, hsame⟩

namespace Sample

/-- A hash that maps everything to one, so that this is every root. -/
def flatPrims : Prims := { prims with poseidon := fun _ => 1 }

def fullTree : PoolState :=
  (PoolState.new flatPrims).appendAll flatPrims (List.replicate PoolState.capacity 0)

theorem treeOf_fullTree :
    PoolState.TreeOf flatPrims (List.replicate PoolState.capacity 0) fullTree := by
  have h := (PoolState.treeOf_new flatPrims).appendAll (List.replicate PoolState.capacity 0)
    (by rw [List.length_replicate]; exact (Nat.zero_add _).le)
  exact h

theorem canonical_fullTree : fullTree.Canonical :=
  (PoolState.appendAll_spec (PoolState.canonical_new flatPrims) _
    (by rw [List.length_replicate]; exact (Nat.zero_add _).le)).1

theorem treeRoot_flatPrims (leaves : List Fr) : treeRoot flatPrims leaves = 1 := by
  rw [treeRoot, MerkleTree.root, TREE_DEPTH, MerkleTree.nodeAt]
  rfl

theorem isKnownRoot_fullTree : fullTree.isKnownRoot (frToBytes 1) = true := by
  have hroot := treeOf_fullTree.current
  rw [treeRoot_flatPrims] at hroot
  simp only [PoolState.isKnownRoot, Bool.and_eq_true, decide_eq_true_eq]
  exact ⟨by decide, List.mem_of_getElem? hroot⟩

def accountsWith (state : PoolState) : PartialMap Pubkey StoredAccount :=
  PartialMap.insert (PartialMap.insert (fun _ => none) POOL_VAULT_ADDRESS (.newSystem 5))
    POOL_STATE_ADDRESS ⟨1, state.toBytes, POOL_PROGRAM_ID, false, RENT_EXEMPT_RENT_EPOCH⟩

def storeWith (state : PoolState) : Store := { Store.empty with accounts := accountsWith state }

def unshieldOne : PoolInstruction :=
  .unshield [] (frToBytes 1) (frToBytes (2 : ℕ)) (frToBytes (3 : ℕ)) .native 1
    (Bytes.replicate 32 9) []

def unshields : List (Pubkey × PoolInstruction) := [(Bytes.replicate 32 1, unshieldOne)]

theorem loadState_storeWith (state : PoolState) :
    loadState flatPrims config (storeWith state) = .ok state := by
  have haccount : (storeWith state).getAccount config.poolState =
      some ⟨1, state.toBytes, POOL_PROGRAM_ID, false, RENT_EXEMPT_RENT_EPOCH⟩ := by
    show accountsWith state POOL_STATE_ADDRESS = _
    rw [accountsWith, PartialMap.insert_self]
  simp only [loadState, haccount, PoolState.fromBytes_toBytes]

theorem checkFunds_storeWith (state : PoolState) :
    checkFunds flatPrims config (storeWith state) (seededStart state fun _ => none)
      (Bytes.replicate 32 1) unshieldOne = .ok () := by
  have hvault : (storeWith state).getAccount config.vault = some (.newSystem 5) := by
    show accountsWith state POOL_VAULT_ADDRESS = _
    rw [accountsWith, PartialMap.insert_of_ne _ _ (by decide), PartialMap.insert_self]
  have hpayer : (storeWith state).getAccount (Bytes.replicate 32 1) = none := by
    show accountsWith state (Bytes.replicate 32 1) = _
    rw [accountsWith, PartialMap.insert_of_ne _ _ (by decide),
      PartialMap.insert_of_ne _ _ (by decide)]
  simp only [checkFunds, unshieldOne, balance, seededStart, hvault, hpayer]
  rfl

theorem checked_unshieldOne {state : PoolState} (h : state.isKnownRoot (frToBytes 1) = true) :
    Checked verifier (storeWith state).isNullifierSpent (seededStart state fun _ => none).ctx
      unshieldOne :=
  CheckedUnshield.eq_ok (r := 1) (n := (2 : ℕ)) (c := (3 : ℕ)) {
    amount_ne_zero := by decide
    known := h
    unspent := rfl
    root := frFromBytes_frToBytes 1
    nullifier := frFromBytes_frToBytes _
    commitment := frFromBytes_frToBytes _
    verified := rfl }

theorem applyOne_full {state : PoolState} (hcanonical : state.Canonical)
    (hfull : state.nextLeafIndex.toNat = PoolState.capacity)
    (hknown : state.isKnownRoot (frToBytes 1) = true) :
    ∃ r e, applyOne flatPrims verifier config (storeWith state) (seededStart state fun _ => none)
        (Bytes.replicate 32 1) unshieldOne = some (r, .error e) ∧
      r.ctx.nullifiers.newly = [frToBytes (2 : ℕ)] := by
  have hchecked := checked_unshieldOne hknown
  have hspec : Processed flatPrims verifier (storeWith state).isNullifierSpent
    (seededStart state fun _ => none).ctx unshieldOne _ := process_spec hcanonical unshieldOne
  rw [applyOne, checkFunds_storeWith]
  dsimp only
  generalize process flatPrims verifier (storeWith state).isNullifierSpent
    (seededStart state fun _ => none).ctx unshieldOne = out at hspec ⊢
  cases hspec with
  | accepted _ hroom =>
    have hleaves := List.length_pos_iff.mpr (leaves_ne_nil (P := flatPrims) hchecked)
    unfold Room at hroom
    rw [show (seededStart state fun _ => none).ctx.state.nextLeafIndex.toNat = _
      from hfull] at hroom
    omega
  | refused hnot => exact absurd hchecked hnot
  | full _ _ _ hnewly => exact ⟨_, _, rfl, hnewly⟩

end Sample

/-- Over a full tree the nullifier of a rejected unshield is handed to the store, although the
block accepts nothing. -/
theorem full_tree_spends_nullifier :
    loadState Sample.flatPrims Sample.config (Sample.storeWith Sample.fullTree) =
        .ok Sample.fullTree ∧
      ∀ order : MapOrder, ∃ result, processBlockSeeded Sample.flatPrims Sample.verifier
          Sample.config order (Sample.storeWith Sample.fullTree) Sample.unshields
          (fun _ => none) = some (.ok result) ∧
        acceptedIn Sample.unshields result.statuses = [] ∧ result.nullifiers = [frToBytes (2 : ℕ)] ∧
        processBlockSeeded Sample.flatPrims Sample.verifier Sample.config order
          (Sample.storeWith Sample.fullTree) [] (fun _ => none) =
          some (.ok PoolBlockResult.default) := by
  obtain ⟨r, e, hone, hnewly⟩ := Sample.applyOne_full Sample.canonical_fullTree
    (Sample.treeOf_fullTree.next.trans (List.length_replicate ..)) Sample.isKnownRoot_fullTree
  have hload := Sample.loadState_storeWith Sample.fullTree
  refine ⟨hload, fun order => ?_⟩
  generalize Sample.fullTree = state at *
  have hran : Sample.unshields.foldlM (applyNext Sample.flatPrims Sample.verifier Sample.config
      (Sample.storeWith state)) (seededStart state fun _ => none, []) = some (r, [.error e]) := by
    simp only [Sample.unshields, List.foldlM_cons, List.foldlM_nil, applyNext, hone]
    rfl
  exact ⟨_, processBlockSeeded_of_ran _ _ _ order (by simp [Sample.unshields]) hload hran,
    rfl, hnewly, rfl⟩

end PoolService

end Zul.Privacy
