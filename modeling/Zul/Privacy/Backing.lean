import Zul.Privacy.Vault

/-! # The vault backs the notes

Over any run of blocks from an empty pool the vault holds, of every asset, at
least what the unspent notes of the commitment tree amount to. The notes are those the accepted
proofs and the shields put into the tree, orphans of a transfer that ran into a full tree
included; Poseidon is assumed not to collide on what the run hashes.
-/

namespace Zul.Privacy

namespace PoolService

open PoolProcessor

section Runs

variable (P : Prims) (V : ProofVerifier) (W : Circuits.Extractor) (cfg : PoolConfig)

/-- The notes a transaction puts into the tree: as many as it grew by. -/
def added (r r' : Running) (instruction : PoolInstruction) : List Note :=
  (instruction.notes P W).take
    (r'.ctx.state.nextLeafIndex.toNat - r.ctx.state.nextLeafIndex.toNat)

def notesAfter (store : Store) :
    Running → List Note → List (Pubkey × PoolInstruction) → List Note
  | _, notes, [] => notes
  | r, notes, tx :: txs =>
    match applyOne P V cfg store r tx.1 tx.2 with
    | none => notes
    | some (r', _) => notesAfter store r' (notes ++ added P W r r' tx.2) txs

/-- What is hashed over the transactions of a block: for each that passes the checks its notes
and circuit, and the trees there are after each. -/
inductive Hashed (store : Store) :
    Running → List Note → List (Pubkey × PoolInstruction) → List Fr → Prop
  | checked {r : Running} {notes : List Note} {tx : Pubkey × PoolInstruction}
      {txs : List (Pubkey × PoolInstruction)} {x : List Fr}
      (funds : checkFunds P cfg store r tx.1 tx.2 = .ok ())
      (checked : Checked V store.isNullifierSpent r.ctx tx.2) (mem : x ∈ tx.2.hashed P W) :
      Hashed store r notes (tx :: txs) x
  | tree {r r' : Running} {notes : List Note} {tx : Pubkey × PoolInstruction}
      {txs : List (Pubkey × PoolInstruction)} {status : Except PoolServiceError Unit} {x : List Fr}
      (applied : applyOne P V cfg store r tx.1 tx.2 = some (r', status))
      (mem : x ∈ treeInputs P ((notes ++ added P W r r' tx.2).map (Note.commitment P))) :
      Hashed store r notes (tx :: txs) x
  | later {r r' : Running} {notes : List Note} {tx : Pubkey × PoolInstruction}
      {txs : List (Pubkey × PoolInstruction)} {status : Except PoolServiceError Unit} {x : List Fr}
      (applied : applyOne P V cfg store r tx.1 tx.2 = some (r', status))
      (rest : Hashed store r' (notes ++ added P W r r' tx.2) txs x) :
      Hashed store r notes (tx :: txs) x

/-- Every transaction is admitted, and where one is accepted no balance overflows. -/
def AdmittedAll (assets : Set Asset) (accounts : Set Pubkey) (store : Store) :
    Running → List (Pubkey × PoolInstruction) → Prop
  | _, [] => True
  | r, tx :: txs => Admitted cfg assets accounts tx ∧
    ∀ r' status, applyOne P V cfg store r tx.1 tx.2 = some (r', status) →
      (status = .ok () → Fits P cfg store r tx) ∧ AdmittedAll assets accounts store r' txs

def blockStart (state : PoolState) : Running :=
  ⟨⟨state, BlockNullifiers.empty⟩, fun _ => none, fun _ => none, []⟩

/-- A run of blocks, each processed and committed with its own writes, from an empty pool and any
vault; with the notes in the committed tree and what was hashed. -/
inductive BlockRun (assets : Set Asset) (accounts : Set Pubkey) :
    Store → List Note → Set (List Fr) → Prop
  | genesis {store : Store} (fresh : loadState P cfg store = .ok (PoolState.new P)) :
      BlockRun assets accounts store [] (treeInputs P [])
  | block {store store' : Store} {notes : List Note} {inputs : Set (List Fr)} {state : PoolState}
      {txs : List (Pubkey × PoolInstruction)} {order : MapOrder} {result : PoolBlockResult}
      {block : Block} {metas : List ExecutedTransactionMeta} {update : Smt.StateUpdate}
      {queue : BlockhashQueue} (run : BlockRun assets accounts store notes inputs)
      (loaded : loadState P cfg store = .ok state)
      (admitted : AdmittedAll P V cfg assets accounts store (blockStart state) txs)
      (processed : processBlock P V cfg order store txs = some (.ok result))
      (committed : store.commitBlock P block metas result.accountWrites update queue
        result.nullifiers = .ok store') :
      BlockRun assets accounts store'
        (if result.statuses.any isOk then notesAfter P V W cfg store (blockStart state) notes txs
          else notes)
        (inputs ∪ {x | Hashed P V W cfg store (blockStart state) notes txs x})

end Runs

variable {P : Prims} {V : ProofVerifier} {W : Circuits.Extractor} {cfg : PoolConfig} {store : Store}
  {assets : Set Asset} {accounts : Set Pubkey} {inputs : Set (List Fr)} {r r' : Running}
  {notes : List Note} {tx : Pubkey × PoolInstruction}

/-! ## One transaction -/

/-- What a transaction does to the pool: nothing, or what the state machine does to a checked
instruction, accepted when its commitments find room. -/
theorem applyOne_ctx {status : Except PoolServiceError Unit} (hr : r.ctx.state.Canonical)
    (h : applyOne P V cfg store r tx.1 tx.2 = some (r', status)) :
    (r'.ctx = r.ctx ∧ isOk status = false) ∨
      (checkFunds P cfg store r tx.1 tx.2 = .ok () ∧ Checked V store.isNullifierSpent r.ctx tx.2 ∧
        r'.ctx = ⟨r.ctx.state.appendAll P ((tx.2.leaves P).take
            (PoolState.capacity - r.ctx.state.nextLeafIndex.toNat)),
          tx.2.nullifiers.foldl BlockNullifiers.insert r.ctx.nullifiers⟩ ∧
        (isOk status = false → ¬ Room P r.ctx tx.2)) := by
  unfold applyOne at h
  split at h
  · cases h
    exact .inl ⟨rfl, rfl⟩
  · rename_i hfunds
    by_cases hchecked : Checked V store.isNullifierSpent r.ctx tx.2
    · refine .inr ⟨hfunds, hchecked, ?_⟩
      have hctx := process_of_checked (P := P) hr hchecked
      have hspec : Processed P V store.isNullifierSpent r.ctx tx.2 _ := process_spec hr tx.2
      split at h
      · rename_i ctx e hprocess
        cases h
        rw [hprocess] at hctx hspec
        refine ⟨hctx, fun _ => ?_⟩
        cases hspec with
        | refused hnot => exact absurd hchecked hnot
        | full _ hroom => exact hroom
      · rename_i ctx outcome hprocess
        simp only [Option.bind_eq_bind, Option.bind_eq_some_iff] at h
        obtain ⟨r₁, heffects, h⟩ := h
        cases h
        rw [hprocess] at hctx
        exact ⟨(applyEffects_spec heffects).1.trans hctx, fun h => by cases h⟩
    · obtain ⟨e, hprocess⟩ := process_of_not_checked (P := P) hr hchecked
      simp only [hprocess] at h
      cases h
      exact .inl ⟨rfl, rfl⟩

variable (P V W cfg assets accounts inputs) in
/-- The assumptions of a run: sound proofs, a binding hash, accounts apart and distinct ids. -/
structure Setting : Prop where
  sound : W.Sound P V
  binding : Binding P inputs
  apart : Apart P cfg assets accounts
  ids : Set.InjOn assetIdFr assets

variable (P cfg store assets accounts inputs) in
/-- The notes of the tree are recorded and backed by the vault, in the middle of a block. -/
structure Backed (r : Running) (notes : List Note) : Prop where
  canonical : r.ctx.state.Canonical
  tree : r.ctx.state.TreeOf P (notes.map (Note.commitment P))
  recorded : Recorded P inputs notes
  keys : TokenKeys P assets accounts r.tokenOverlay
  backed : ∀ a ∈ assets, unspentTotal P inputs (r.ctx.nullifiers.contains store.isNullifierSpent)
    notes (assetIdFr a) ≤ runningVault P cfg store r a

theorem added_of_ctx_eq (h : r'.ctx = r.ctx) : added P W r r' tx.2 = [] := by
  rw [added, h, Nat.sub_self, List.take_zero]

theorem added_of_checked (hr : r.ctx.state.Canonical)
    (hchecked : Checked V store.isNullifierSpent r.ctx tx.2) (hW : W.Sound P V)
    (hcap : r.ctx.state.nextLeafIndex.toNat ≤ PoolState.capacity)
    (hctx : r'.ctx.state = r.ctx.state.appendAll P ((tx.2.leaves P).take
      (PoolState.capacity - r.ctx.state.nextLeafIndex.toNat))) :
    added P W r r' tx.2 =
      (tx.2.notes P W).take (PoolState.capacity - r.ctx.state.nextLeafIndex.toNat) := by
  have hlen : (tx.2.leaves P).length = (tx.2.notes P W).length := by
    rw [hchecked.leaves_eq hW, List.length_map]
  have hnext := (PoolState.appendAll_spec (P := P) hr ((tx.2.leaves P).take
    (PoolState.capacity - r.ctx.state.nextLeafIndex.toNat)) (by rw [List.length_take]; omega)).2
  rw [added, hctx, hnext, List.length_take, hlen, Nat.add_sub_cancel_left,
    ← List.take_eq_take_min]

theorem added_of_accepted (hr : r.ctx.state.Canonical) (hW : W.Sound P V)
    (hone : applyOne P V cfg store r tx.1 tx.2 = some (r', .ok ())) :
    added P W r r' tx.2 = tx.2.notes P W := by
  cases applyOne_spec hr hone with
  | accepted checked room state _ =>
    have hnext := (PoolState.appendAll_spec (P := P) hr _ room).2
    rw [added, state, hnext, Nat.add_sub_cancel_left, checked.leaves_eq hW, List.length_map,
      List.take_length]

theorem shield_of_inflow {instruction : PoolInstruction} {a : Asset}
    (h : instruction.inflow a ≠ 0) :
    instruction.nullifiers = [] ∧ (instruction.leaves P).length ≤ 1 := by
  cases instruction with
  | shield asset amount secret note =>
    refine ⟨rfl, ?_⟩
    cases hsecret : frFromBytes secret <;> simp [PoolInstruction.leaves, hsecret]
  | transfer => exact absurd rfl h
  | unshield => exact absurd rfl h

/-- The notes of a checked transaction, as far as they find room, are backed by the vault it
leaves. -/
theorem unspentTotal_of_checked (hset : Setting P V W cfg assets accounts inputs)
    (h : Backed P cfg store assets accounts inputs r notes)
    (htx : Admitted cfg assets accounts tx) {status : Except PoolServiceError Unit}
    (hfits : status = .ok () → Fits P cfg store r tx)
    (hone : applyOne P V cfg store r tx.1 tx.2 = some (r', status))
    (hchecked : Checked V store.isNullifierSpent r.ctx tx.2)
    (hhashed : ∀ x ∈ tx.2.hashed P W, x ∈ inputs)
    (hroom : isOk status = false → ¬ Room P r.ctx tx.2) {a : Asset} (ha : a ∈ assets) :
    unspentTotal P inputs ((tx.2.nullifiers.foldl BlockNullifiers.insert
        r.ctx.nullifiers).contains store.isNullifierSpent)
      (notes ++ (tx.2.notes P W).take (PoolState.capacity - r.ctx.state.nextLeafIndex.toNat))
      (assetIdFr a) ≤ runningVault P cfg store r' a := by
  have hspent := hchecked.unspentTotal_le hset.sound hset.binding h.recorded h.tree hhashed
    fun asset hasset => hset.ids (htx.assets asset hasset) ha
  have hbacked := h.backed a ha
  refine (unspentTotal_append_le _ _).trans ?_
  have htake : (((tx.2.notes P W).take (PoolState.capacity -
      r.ctx.state.nextLeafIndex.toNat)).map (Note.amountOf (assetIdFr a))).sum ≤
        ((tx.2.notes P W).map (Note.amountOf (assetIdFr a))).sum := by
    rw [List.map_take]
    exact (List.take_sublist _ _).sum_le_sum fun _ _ => Nat.zero_le _
  cases status with
  | ok =>
    have hvault := vault_of_accepted hset.apart htx (hfits rfl) hone ha
    omega
  | error e =>
    rw [vault_of_rejected hone]
    by_cases hin : tx.2.inflow a = 0
    · omega
    · -- a shield that finds the tree full leaves everything as it was
      obtain ⟨hnone, hlen⟩ := shield_of_inflow (P := P) hin
      have hfull := hroom rfl
      rw [Room] at hfull
      rw [hnone, List.foldl_nil, show PoolState.capacity - r.ctx.state.nextLeafIndex.toNat = 0 by
        omega, List.take_zero]
      exact hbacked

theorem Backed.applyOne (h : Backed P cfg store assets accounts inputs r notes)
    (hset : Setting P V W cfg assets accounts inputs) (htx : Admitted cfg assets accounts tx)
    {status : Except PoolServiceError Unit} (hfits : status = .ok () → Fits P cfg store r tx)
    (hone : PoolService.applyOne P V cfg store r tx.1 tx.2 = some (r', status))
    (hhashed : checkFunds P cfg store r tx.1 tx.2 = .ok () →
      Checked V store.isNullifierSpent r.ctx tx.2 → ∀ x ∈ tx.2.hashed P W, x ∈ inputs)
    (htree : treeInputs P ((notes ++ added P W r r' tx.2).map (Note.commitment P)) ⊆ inputs) :
    Backed P cfg store assets accounts inputs r' (notes ++ added P W r r' tx.2) := by
  have hkeys := h.keys.applyOne hset.apart htx hone
  rcases applyOne_ctx h.canonical hone with ⟨hctx, hstatus⟩ | ⟨hfunds, hchecked, hctx, hroom⟩
  · cases status with
    | ok => cases hstatus
    | error e =>
      rw [added_of_ctx_eq hctx, List.append_nil]
      refine ⟨hctx ▸ h.canonical, hctx ▸ h.tree, h.recorded, hkeys, fun a ha => ?_⟩
      rw [hctx, vault_of_rejected hone]
      exact h.backed a ha
  · have hhashed := hhashed hfunds hchecked
    have hcap : r.ctx.state.nextLeafIndex.toNat ≤ PoolState.capacity :=
      h.tree.next.le.trans h.tree.length_le
    have hstate := congrArg PoolContext.state hctx
    have hnullifiers := congrArg PoolContext.nullifiers hctx
    dsimp only at hstate hnullifiers
    have hadded := added_of_checked h.canonical hchecked hset.sound hcap hstate
    have hfit : r.ctx.state.nextLeafIndex.toNat + ((tx.2.leaves P).take
        (PoolState.capacity - r.ctx.state.nextLeafIndex.toNat)).length ≤ PoolState.capacity := by
      rw [List.length_take]
      omega
    have hleaves : (notes ++ added P W r r' tx.2).map (Note.commitment P) =
        notes.map (Note.commitment P) ++ (tx.2.leaves P).take
          (PoolState.capacity - r.ctx.state.nextLeafIndex.toNat) := by
      rw [hadded, List.map_append, List.map_take, hchecked.leaves_eq hset.sound]
    constructor
    · rw [hstate]
      exact (PoolState.appendAll_spec h.canonical _ hfit).1
    · rw [hleaves, hstate]
      exact h.tree.appendAll _ (by rw [← h.tree.next]; exact hfit)
    · have hnew : ∀ n ∈ added P W r r' tx.2, n.preimage ∈ tx.2.hashed P W ∧ n.amount < 2 ^ 64 :=
        fun n hn => hchecked.notes_hashed hset.sound n (List.mem_of_mem_take hn)
      refine ⟨fun n hn => ?_, fun n hn => ?_, htree⟩
      · rcases List.mem_append.mp hn with hn | hn
        · exact h.recorded.preimage n hn
        · exact hhashed _ (hnew n hn).1
      · rcases List.mem_append.mp hn with hn | hn
        · exact h.recorded.range n hn
        · exact (hnew n hn).2
    · exact hkeys
    · intro a ha
      rw [hnullifiers, hadded]
      exact unspentTotal_of_checked hset h htx hfits hone hchecked hhashed hroom ha

/-! ## One block -/

theorem Backed.applyAll {txs : List (Pubkey × PoolInstruction)}
    {statuses : List (Except PoolServiceError Unit)}
    {out : Running × List (Except PoolServiceError Unit)}
    (h : Backed P cfg store assets accounts inputs r notes)
    (hset : Setting P V W cfg assets accounts inputs)
    (hadmitted : AdmittedAll P V cfg assets accounts store r txs)
    (hhashed : ∀ x, Hashed P V W cfg store r notes txs x → x ∈ inputs)
    (hrun : txs.foldlM (applyNext P V cfg store) (r, statuses) = some out) :
    Backed P cfg store assets accounts inputs out.1 (notesAfter P V W cfg store r notes txs) := by
  induction txs generalizing r notes statuses with
  | nil =>
    cases hrun
    exact h
  | cons tx txs ih =>
    obtain ⟨r', status, hone, hrest⟩ := applyNext_cons hrun
    obtain ⟨hfits, hadmitted'⟩ := hadmitted.2 r' status hone
    have hstep := h.applyOne hset hadmitted.1 hfits hone
      (fun hfunds hchecked x hx => hhashed x (.checked hfunds hchecked hx))
      (fun x hx => hhashed x (.tree hone hx))
    rw [notesAfter, hone]
    exact ih hstep hadmitted' (fun x hx => hhashed x (.later hone hx)) hrest

variable (P cfg store assets inputs) in
/-- The notes of the committed tree are recorded and backed by the committed vault. -/
structure Committed (state : PoolState) (notes : List Note) : Prop where
  loaded : loadState P cfg store = .ok state
  canonical : state.Canonical
  tree : state.TreeOf P (notes.map (Note.commitment P))
  recorded : Recorded P inputs notes
  backed : ∀ a ∈ assets, unspentTotal P inputs store.isNullifierSpent notes (assetIdFr a) ≤
    vaultBalance P cfg store a

theorem Committed.start {state : PoolState} (h : Committed P cfg store assets inputs state notes) :
    Backed P cfg store assets accounts inputs (blockStart state) notes := by
  refine ⟨h.canonical, h.tree, h.recorded, (fun k hk => by cases hk), fun a ha => ?_⟩
  have hvault : runningVault P cfg store (blockStart state) a = vaultBalance P cfg store a := by
    cases a <;> rfl
  rw [hvault]
  exact h.backed a ha

theorem Committed.of_accounts_eq {store' : Store} {state : PoolState}
    (h : Committed P cfg store assets inputs state notes)
    (haccounts : store'.accounts = store.accounts)
    (hspent : ∀ x, store.isNullifierSpent x = true → store'.isNullifierSpent x = true) :
    Committed P cfg store' assets inputs state notes := by
  have hget : store'.getAccount = store.getAccount := haccounts
  refine ⟨?_, h.canonical, h.tree, h.recorded, fun a ha => ?_⟩
  · have hload := h.loaded
    rwa [loadState, ← hget] at hload
  · have hvault : vaultBalance P cfg store' a = vaultBalance P cfg store a := by
      cases a with
      | native => rw [vaultBalance, vaultBalance, balance, balance, hget]
      | spl mint => rw [vaultBalance, vaultBalance, hget]
    rw [hvault]
    exact (unspentTotal_anti hspent _).trans (h.backed a ha)

theorem loadState_of_dirty {store' : Store} {order : MapOrder}
    (haccounts : store'.accounts =
      (assembleWrites P cfg order store r true).foldl Store.writeAccount store.accounts) :
    loadState P cfg store' = .ok r.ctx.state := by
  have haccount : store'.getAccount cfg.poolState =
      some { (store.getAccount cfg.poolState).getD (genesisPoolAccount P) with
        data := r.ctx.state.toBytes } := by
    show store'.accounts cfg.poolState = _
    rw [haccounts, assembleWrites, List.foldl_append]
    simp only [if_true, List.foldl_cons, List.foldl_nil]
    rw [Store.writeAccount_apply, if_pos rfl]
  rw [loadState, haccount]
  simp only [PoolState.fromBytes_toBytes]

theorem foldl_assembleWrites_of_clean {order : MapOrder} (hoverlay : r.overlay = fun _ => none)
    (htokens : r.tokenOverlay = fun _ => none) :
    (assembleWrites P cfg order store r false).foldl Store.writeAccount store.accounts =
      store.accounts := by
  have hempty : ∀ {U : Type} (f : Pubkey × U → Pubkey × Option StoredAccount),
      (order.toList (fun _ => none : PartialMap Pubkey U)).map f = [] := by
    intro U f
    rw [(order.enumerates _).eq_nil, List.map_nil]
  rw [assembleWrites, hoverlay, htokens, hempty, hempty]
  rfl

theorem Committed.block {store' : Store} {state : PoolState}
    {txs : List (Pubkey × PoolInstruction)} {order : MapOrder} {result : PoolBlockResult}
    {block : Block} {metas : List ExecutedTransactionMeta} {update : Smt.StateUpdate}
    {queue : BlockhashQueue} (h : Committed P cfg store assets inputs state notes)
    (hset : Setting P V W cfg assets accounts inputs)
    (hadmitted : AdmittedAll P V cfg assets accounts store (blockStart state) txs)
    (hhashed : ∀ x, Hashed P V W cfg store (blockStart state) notes txs x → x ∈ inputs)
    (processed : processBlock P V cfg order store txs = some (.ok result))
    (committed : store.commitBlock P block metas result.accountWrites update queue
      result.nullifiers = .ok store') :
    ∃ state', Committed P cfg store' assets inputs state' (if result.statuses.any isOk then
      notesAfter P V W cfg store (blockStart state) notes txs else notes) := by
  have haccounts : store'.accounts =
      result.accountWrites.foldl Store.writeAccount store.accounts := by
    rw [Store.commitBlock_frame committed]
  have hspent := Store.isNullifierSpent_commitBlock committed
  have hmono : ∀ x, store.isNullifierSpent x = true → store'.isNullifierSpent x = true :=
    fun x hx => (hspent x).mpr (.inl hx)
  by_cases hne : txs = []
  · subst hne
    cases processed
    exact ⟨state, h.of_accounts_eq haccounts hmono⟩
  obtain ⟨state', r, statuses, hload, hrun, hwrites, hnullifiers, hstatuses⟩ :=
    processBlockSeeded_spec P V cfg hne processed
  rw [h.loaded] at hload
  cases hload
  have hany : result.statuses.any isOk = statuses.any isOk := by
    rw [hstatuses, List.any_map]
    congr 1
    funext status
    cases status <;> rfl
  rw [hwrites] at haccounts
  rw [hany]
  cases hdirty : statuses.any isOk with
  | true =>
    have hbacked : Backed P cfg store assets accounts inputs r
        (notesAfter P V W cfg store (blockStart state) notes txs) :=
      h.start.applyAll hset hadmitted hhashed hrun
    obtain ⟨htracks, -⟩ := applyAll_nullifiers hrun BlockNullifiers.tracks_empty
    have hsame : store'.isNullifierSpent =
        r.ctx.nullifiers.contains store.isNullifierSpent := by
      funext x
      rw [Bool.eq_iff_iff, hspent, hnullifiers, ← htracks.mem_within_iff]
      simp [BlockNullifiers.contains, or_comm]
    refine ⟨r.ctx.state, ?_, hbacked.canonical, hbacked.tree, hbacked.recorded, fun a ha => ?_⟩
    · rw [hdirty] at haccounts
      exact loadState_of_dirty haccounts
    · rw [hsame, vaultBalance_commit hset.apart hbacked.keys haccounts ha]
      exact hbacked.backed a ha
  | false =>
    obtain ⟨hoverlay, htokens, hiff⟩ := applyAll_spec hrun
    have hnone : accepted P V cfg store (blockStart state) txs = [] := by
      by_contra hsome
      rw [hiff.mpr (.inr hsome)] at hdirty
      cases hdirty
    rw [show (⟨⟨state, BlockNullifiers.empty⟩, fun _ => none, fun _ => none, []⟩ : Running) =
      blockStart state from rfl, hnone] at hoverlay htokens
    rw [hdirty, foldl_assembleWrites_of_clean hoverlay (Option.some.inj htokens).symm] at haccounts
    exact ⟨state, h.of_accounts_eq haccounts hmono⟩

/-! ## Runs of blocks -/

theorem BlockRun.committed {known : Set (List Fr)}
    (run : BlockRun P V W cfg assets accounts store notes known) (hknown : known ⊆ inputs)
    (hset : Setting P V W cfg assets accounts inputs) :
    ∃ state, Committed P cfg store assets inputs state notes := by
  induction run with
  | genesis fresh =>
    exact ⟨PoolState.new P, fresh, PoolState.canonical_new P, PoolState.treeOf_new P,
      ⟨by simp, by simp, hknown⟩, fun a _ => Nat.zero_le _⟩
  | block run loaded admitted processed committed ih =>
    obtain ⟨state, hcommitted⟩ := ih (Set.subset_union_left.trans hknown)
    have hstate := hcommitted.loaded
    rw [loaded] at hstate
    cases hstate
    exact hcommitted.block hset admitted (fun x hx => hknown (.inr hx)) processed committed

namespace Sample

open Circuits

/-! A block that shields an amount and unshields a part of it. -/

def leftmost (leaves : List Fr) : ℕ → Fr
  | 0 => leafAt leaves 0
  | 1 => treeNode prims (leafAt leaves 0) (leafAt leaves 1)
  | level + 2 => treeNode prims (leftmost leaves (level + 1)) (zeroHashes prims (level + 1))

/-- The sibling of the leftmost node of a level over at most two leaves. -/
def sibling (leaves : List Fr) : ℕ → Fr
  | 0 => leafAt leaves 1
  | level + 1 => zeroHashes prims (level + 1)

theorem nodeAt_of_le {leaves : List Fr} {level index : ℕ}
    (h : leaves.length ≤ index * 2 ^ level) :
    MerkleTree.nodeAt (treeNode prims) (leafAt leaves) level index = zeroHashes prims level := by
  rw [zeroHashes_eq_emptyAt]
  exact MerkleTree.nodeAt_eq_emptyAt fun i hi => leafAt_of_length_le (h.trans hi)

theorem nodeAt_one {leaves : List Fr} (h : leaves.length ≤ 2) (level : ℕ) :
    MerkleTree.nodeAt (treeNode prims) (leafAt leaves) level 1 = sibling leaves level := by
  cases level with
  | zero => rfl
  | succ level =>
    refine nodeAt_of_le (h.trans ?_)
    rw [pow_succ, Nat.one_mul]
    exact Nat.le_mul_of_pos_left 2 (Nat.two_pow_pos level)

theorem nodeAt_zero {leaves : List Fr} (h : leaves.length ≤ 2) (level : ℕ) :
    MerkleTree.nodeAt (treeNode prims) (leafAt leaves) level 0 = leftmost leaves level := by
  induction level with
  | zero => rfl
  | succ level ih =>
    rw [MerkleTree.nodeAt, Nat.mul_zero, Nat.zero_add, ih, nodeAt_one h]
    cases level <;> rfl

theorem mem_treeInputs {leaves : List Fr} (h : leaves.length ≤ 2) {x : List Fr}
    (hx : x ∈ treeInputs prims leaves) :
    ∃ k < 3, ∃ level < TREE_DEPTH,
      x = [leftmost (leaves.take k) level, sibling (leaves.take k) level] ∨
        x = [zeroHashes prims level, zeroHashes prims level] := by
  obtain ⟨k, pair, ⟨level, index, hlevel, rfl⟩, rfl⟩ := hx
  have hlen : (leaves.take k).length ≤ 2 := (List.length_take_le' _ _).trans h
  have htake : leaves.take k = leaves.take (min k 2) := by
    rw [List.take_eq_take_iff]
    omega
  refine ⟨min k 2, by omega, level, hlevel, ?_⟩
  rw [← htake]
  cases index with
  | zero => exact .inl (by rw [Nat.mul_zero, Nat.zero_add, nodeAt_zero hlen, nodeAt_one hlen])
  | succ index =>
    have hright : ∀ i, 2 ≤ i → (leaves.take k).length ≤ i * 2 ^ level := fun i hi =>
      hlen.trans (hi.trans (Nat.le_mul_of_pos_right _ (Nat.two_pow_pos level)))
    exact .inr (by rw [nodeAt_of_le (hright _ (by omega)), nodeAt_of_le (hright _ (by omega))])

def input : Input where
  amount := 10
  s := 5
  blinding := 6
  leafIndex := 0
  path := (List.range TREE_DEPTH).map (zeroHashes prims)
  indexBits := List.replicate TREE_DEPTH false

def change : Output := ⟨6, 8, 9⟩

/-- An input of no amount, which need not be in the tree. -/
def dummy : Input := { input with amount := 0, blinding := 8 }

def paid : Output := ⟨1, 9, 8⟩

def shielded : Note := input.note prims nativeAssetId

def returned : Note := change.note prims nativeAssetId

def noteRoot : Fr :=
  MerkleTree.climb (treeNode prims) (shielded.commitment prims) (input.indexBits.zip input.path)

def spentNullifier : Fr := nullifier prims (shielded.commitment prims) 0 input.s

def depositor : Pubkey := Bytes.replicate 32 1

def recipient : Pubkey := Bytes.replicate 32 2

def shieldTx : Pubkey × PoolInstruction :=
  (depositor, .shield .native 10 (frToBytes shielded.secret) [])

def unshieldTx : Pubkey × PoolInstruction :=
  (depositor, .unshield [] (frToBytes noteRoot) (frToBytes spentNullifier)
    (frToBytes (returned.commitment prims)) .native 4 recipient [])

def noteVerifier : ProofVerifier where
  verifyTransfer _ _ := false
  verifyUnshield _ inputs := inputs = [noteRoot, spentNullifier, returned.commitment prims,
    nativeAssetId, (4 : ℕ), frFromLeBytesModOrder recipient]

def extractor : Extractor where
  transfer _ _ := default
  unshield _ _ := ⟨input, change⟩

theorem unshield_satisfied : Unshield prims noteRoot spentNullifier (returned.commitment prims)
    nativeAssetId 4 ⟨input, change⟩ where
  range := ⟨[false, false, true] ++ List.replicate 61 false, by decide⟩
  input := {
    range := ⟨[false, true, false, true] ++ List.replicate 60 false, by decide⟩
    nullifier := by decide
    inclusion := by decide +kernel }
  change := {
    range := ⟨[false, true, true] ++ List.replicate 61 false, by decide⟩
    commitment := by decide }
  conserved := by decide

theorem extractor_sound : extractor.Sound prims noteVerifier where
  transfer _ _ h := by cases h
  unshield _ inputs h := by
    obtain rfl := of_decide_eq_true h
    exact unshield_satisfied

def funded : Store :=
  { Store.empty with
    accounts := PartialMap.insert (fun _ => none) depositor (StoredAccount.newSystem 100) }

def hashedInputs : List (List Fr) :=
  (List.range TREE_DEPTH).map (fun level => [zeroHashes prims level, zeroHashes prims level]) ++
  [[shielded.commitment prims], [shielded.commitment prims, returned.commitment prims]].flatMap
    (fun leaves => (List.range TREE_DEPTH).map
      fun level => [leftmost leaves level, sibling leaves level]) ++
  [[input.s], [ownerPk prims input.s, input.blinding], [change.pk, change.blinding],
    shielded.preimage, returned.preimage, [shielded.commitment prims, 0, input.s]]

theorem binding_hashedInputs : Binding prims {x | x ∈ hashedInputs} where
  collisionFree x hx y hy _ h := by
    have hnodup : (hashedInputs.map prims.poseidon).Nodup := by decide +kernel
    exact List.inj_on_of_nodup_map hnodup hx hy h
  ne_emptyLeaf := by
    have hne : ∀ x ∈ hashedInputs, prims.poseidon x ≠ emptyLeaf := by decide
    exact hne

theorem treeInputs_subset :
    treeInputs prims [shielded.commitment prims, returned.commitment prims] ⊆
      {x | x ∈ hashedInputs} := by
  have hleft : ∀ k < 3, ∀ level < TREE_DEPTH,
      [leftmost ([shielded.commitment prims, returned.commitment prims].take k) level,
        sibling ([shielded.commitment prims, returned.commitment prims].take k) level] ∈
          hashedInputs := by
    decide
  have hempty : ∀ level < TREE_DEPTH,
      [zeroHashes prims level, zeroHashes prims level] ∈ hashedInputs := by
    decide
  intro x hx
  obtain ⟨k, hk, level, hlevel, rfl | rfl⟩ := mem_treeInputs (by simp) hx
  · exact hleft k hk level hlevel
  · exact hempty level hlevel

theorem statuses_block :
    ([shieldTx, unshieldTx].foldlM (applyNext prims noteVerifier config funded)
      (blockStart (PoolState.new prims), [])).map Prod.snd = some [.ok (), .ok ()] := by
  decide +kernel

structure Accepted (r r' : Running) : Prop where
  shield : applyOne prims noteVerifier config funded (blockStart (PoolState.new prims)) shieldTx.1
    shieldTx.2 = some (r, .ok ())
  unshield : applyOne prims noteVerifier config funded r unshieldTx.1 unshieldTx.2 =
    some (r', .ok ())

theorem exists_accepted : ∃ r r', Accepted r r' := by
  obtain ⟨⟨r', statuses⟩, hrun, hstatuses⟩ := Option.map_eq_some_iff.mp statuses_block
  obtain ⟨r, status, hone, hrest⟩ := applyNext_cons hrun
  obtain ⟨r'', status', htwo, hnil⟩ := applyNext_cons hrest
  cases hnil
  cases hstatuses
  exact ⟨r, r', hone, htwo⟩

theorem Accepted.ran (h : Accepted r r') :
    [shieldTx, unshieldTx].foldlM (applyNext prims noteVerifier config funded)
      (blockStart (PoolState.new prims), []) = some (r', [.ok (), .ok ()]) := by
  simp [applyNext, h.shield, h.unshield]

theorem Accepted.added_shield (h : Accepted r r') :
    added prims extractor (blockStart (PoolState.new prims)) r shieldTx.2 = [shielded] :=
  (added_of_accepted (PoolState.canonical_new prims) extractor_sound h.shield).trans
    (by decide)

theorem Accepted.added_unshield (h : Accepted r r') :
    added prims extractor r r' unshieldTx.2 = [returned] :=
  (added_of_accepted ((applyOne_spec (PoolState.canonical_new prims) h.shield).canonical
    (PoolState.canonical_new prims)) extractor_sound h.unshield).trans (by decide)

theorem Accepted.notesAfter (h : Accepted r r') :
    PoolService.notesAfter prims noteVerifier extractor config funded
      (blockStart (PoolState.new prims)) [] [shieldTx, unshieldTx] = [shielded, returned] := by
  rw [PoolService.notesAfter, h.shield]
  dsimp only
  rw [PoolService.notesAfter, h.unshield]
  dsimp only
  rw [PoolService.notesAfter, h.added_shield, h.added_unshield]
  rfl

theorem Accepted.hashed (h : Accepted r r') {x : List Fr}
    (hx : Hashed prims noteVerifier extractor config funded (blockStart (PoolState.new prims)) []
      [shieldTx, unshieldTx] x) : x ∈ hashedInputs := by
  have hone : ∀ x ∈ shieldTx.2.hashed prims extractor, x ∈ hashedInputs := by decide
  have htwo : ∀ x ∈ unshieldTx.2.hashed prims extractor, x ∈ hashedInputs := by decide
  cases hx with
  | checked _ _ mem => exact hone x mem
  | tree applied mem =>
    rw [h.shield] at applied
    cases applied
    rw [h.added_shield] at mem
    exact treeInputs_subset (treeInputs_take prims _ 1 mem)
  | later applied rest =>
    rw [h.shield] at applied
    cases applied
    cases rest with
    | checked _ _ mem => exact htwo x mem
    | tree applied mem =>
      rw [h.unshield] at applied
      cases applied
      rw [h.added_shield, h.added_unshield] at mem
      exact treeInputs_subset mem
    | later _ rest => cases rest

theorem Accepted.admitted (h : Accepted r r') :
    AdmittedAll prims noteVerifier config {.native} {depositor, recipient, config.vault} funded
      (blockStart (PoolState.new prims)) [shieldTx, unshieldTx] := by
  refine ⟨⟨by decide, by simp [shieldTx, PoolInstruction.assets], by simp [shieldTx, owners]⟩, ?_⟩
  intro r₁ status hone
  rw [h.shield] at hone
  cases hone
  refine ⟨fun _ => ⟨by decide, trivial⟩, ⟨by decide,
    by simp [unshieldTx, PoolInstruction.assets], by simp [unshieldTx, owners]⟩, ?_⟩
  intro r₂ status htwo
  rw [h.unshield] at htwo
  cases htwo
  refine ⟨fun _ => ⟨?_, trivial⟩, trivial⟩
  rw [(applyOne_ok h.shield).2.2.1]
  decide

theorem apart : Apart prims config {.native} {depositor, recipient, config.vault} where
  vault_mem := by simp
  vault_ne_state := by decide
  token_ne_state mint h := by cases h
  token_ne_vault mint h := by cases h
  token_injective mint mint' h := by cases h

end Sample

/-- Of every asset the vault holds at least what the unspent notes of the tree amount to. -/
theorem vault_backs_notes (hsound : W.Sound P V) (hapart : Apart P cfg assets accounts)
    (hids : Set.InjOn assetIdFr assets)
    (run : BlockRun P V W cfg assets accounts store notes inputs) (hbinding : Binding P inputs) :
    (∃ state, loadState P cfg store = .ok state ∧
      state.TreeOf P (notes.map (Note.commitment P))) ∧
    ∀ a ∈ assets, unspentTotal P inputs store.isNullifierSpent notes (assetIdFr a) ≤
      vaultBalance P cfg store a := by
  obtain ⟨state, h⟩ := run.committed (Set.Subset.refl _) ⟨hsound, hbinding, hapart, hids⟩
  exact ⟨⟨state, h.loaded, h.tree⟩, h.backed⟩

/-- After a deposit of ten and a withdrawal of four the vault backs the returned note. -/
theorem vault_backs_notes_returned : ∃ store inputs,
    BlockRun Sample.prims Sample.noteVerifier Sample.extractor Sample.config {.native}
      {Sample.depositor, Sample.recipient, Sample.config.vault} store
      [Sample.shielded, Sample.returned] inputs ∧
    unspentTotal Sample.prims inputs store.isNullifierSpent [Sample.shielded, Sample.returned]
      (assetIdFr .native) ≤ vaultBalance Sample.prims Sample.config store .native := by
  obtain ⟨order⟩ := MapOrder.nonempty
  obtain ⟨r, r', h⟩ := Sample.exists_accepted
  have hprocessed := processBlockSeeded_of_ran Sample.prims Sample.noteVerifier Sample.config order
    (by simp) rfl h.ran
  cases hcommit : Sample.funded.commitBlock Sample.prims Sample.block []
    (assembleWrites Sample.prims
      Sample.config order Sample.funded r' true) ⟨Bytes.replicate 32 0, fun _ => none⟩
      BlockhashQueue.new r'.ctx.nullifiers.newly with
  | error e =>
    exact absurd hcommit (Store.commitBlock_ne_error rfl rfl (fun _ h => by cases h)
      (by simp [Sample.block]))
  | ok store =>
    have hrun := BlockRun.block (W := Sample.extractor) (.genesis rfl) rfl h.admitted hprocessed
      hcommit
    simp only [List.map_cons, List.any_cons, isOk, Bool.true_or, if_true, h.notesAfter] at hrun
    have hbinding := Sample.binding_hashedInputs.mono (Set.union_subset
      ((treeInputs_take Sample.prims _ 0).trans Sample.treeInputs_subset) fun x hx => h.hashed hx)
    exact ⟨store, _, hrun, (vault_backs_notes Sample.extractor_sound Sample.apart (by simp) hrun
      hbinding).2 .native rfl⟩

end PoolService

end Zul.Privacy
