import Zul.Privacy.Commitments
import Zul.Store.Commit

/-! # Spent nullifiers

The set a block keeps, the list it hands to the store and the store's own table together hold
every nullifier once. A nullifier is tested as bytes and means a field element; only one of its
encodings parses, so distinct bytes are distinct elements.
-/

namespace Zul.Privacy

namespace BlockNullifiers

variable {spent : H256 → Bool}

/-- A block's set and list agree, and what they hold is new to the store. -/
structure Tracks (spent : H256 → Bool) (n : BlockNullifiers) : Prop where
  mem_within_iff : ∀ x, x ∈ n.within ↔ x ∈ n.newly
  nodup : n.newly.Nodup
  unspent : ∀ x ∈ n.newly, spent x = false
  parses : ∀ x ∈ n.newly, (frFromBytes x).isSome

/-- Distinct field elements that neither the block nor the store holds. -/
def Fresh (spent : H256 → Bool) (n : BlockNullifiers) (xs : List H256) : Prop :=
  xs.Nodup ∧ ∀ x ∈ xs, n.contains spent x = false ∧ (frFromBytes x).isSome

theorem tracks_empty : Tracks spent empty :=
  ⟨by simp [empty], by simp [empty], by simp [empty], by simp [empty]⟩

theorem newly_spendAll (n : BlockNullifiers) (xs : List H256) :
    (xs.foldl insert n).newly = n.newly ++ xs := by
  induction xs generalizing n with
  | nil => exact (List.append_nil _).symm
  | cons x xs ih => rw [List.foldl_cons, ih, insert, List.append_assoc, List.singleton_append]

theorem contains_spendAll (n : BlockNullifiers) (xs : List H256) (y : H256) :
    (xs.foldl insert n).contains spent y = true ↔ n.contains spent y = true ∨ y ∈ xs := by
  induction xs generalizing n with
  | nil => simp
  | cons x xs ih =>
    rw [List.foldl_cons, ih]
    simp only [contains, insert, Bool.or_eq_true, decide_eq_true_iff, List.mem_cons]
    tauto

theorem Tracks.insert {n : BlockNullifiers} {x : H256} (h : Tracks spent n)
    (hx : n.contains spent x = false) (hparses : (frFromBytes x).isSome) :
    Tracks spent (n.insert x) := by
  simp only [contains, Bool.or_eq_false_iff, decide_eq_false_iff_not] at hx
  obtain ⟨hwithin, hspent⟩ := hx
  have hnew : x ∉ n.newly := mt (h.mem_within_iff x).mpr hwithin
  constructor
  · intro y
    simp [BlockNullifiers.insert, h.mem_within_iff, or_comm]
  · exact h.nodup.append (List.nodup_singleton x) (by simpa using hnew)
  all_goals
    simp only [BlockNullifiers.insert, List.mem_append, List.mem_singleton]
    rintro y (hy | rfl)
  · exact h.unspent y hy
  · exact hspent
  · exact h.parses y hy
  · exact hparses

theorem Tracks.spendAll {n : BlockNullifiers} {xs : List H256} (h : Tracks spent n)
    (hxs : Fresh spent n xs) : Tracks spent (xs.foldl BlockNullifiers.insert n) := by
  induction xs generalizing n with
  | nil => exact h
  | cons x xs ih =>
    obtain ⟨hnodup, hfresh⟩ := hxs
    obtain ⟨hx, hnodup⟩ := List.nodup_cons.mp hnodup
    obtain ⟨hcontains, hparses⟩ := hfresh x (by simp)
    refine ih (h.insert hcontains hparses) ⟨hnodup, fun y hy => ?_⟩
    obtain ⟨hy', hparses'⟩ := hfresh y (by simp [hy])
    refine ⟨?_, hparses'⟩
    have hne : y ≠ x := fun heq => hx (heq ▸ hy)
    simpa [contains, BlockNullifiers.insert, hne] using hy'

end BlockNullifiers

namespace PoolProcessor

variable {P : Prims} {V : ProofVerifier} {spent : H256 → Bool}

theorem nullifiers_insertNote (ctx : PoolContext) (leaf : Fr) (commitment : FieldBytes)
    (encryptedNote : List UInt8) :
    (insertNote P ctx leaf commitment encryptedNote).1.nullifiers = ctx.nullifiers := by
  unfold insertNote
  split <;> rfl

theorem nullifiers_insertNotes (ctx : PoolContext) (notes : List (FieldBytes × List UInt8)) :
    (insertNotes P ctx notes).1.nullifiers = ctx.nullifiers := by
  induction notes generalizing ctx with
  | nil => rfl
  | cons note notes ih =>
    obtain ⟨commitment, encryptedNote⟩ := note
    rw [insertNotes]
    split
    · rfl
    · rename_i leaf hleaf
      have hone := nullifiers_insertNote (P := P) ctx leaf commitment encryptedNote
      split
      · rename_i ctx' e hnote
        rw [hnote] at hone
        exact hone
      · rename_i ctx' event hnote
        rw [hnote] at hone
        have hrest := ih ctx'
        split <;> simp_all

theorem Checked.fresh {ctx : PoolContext} {instruction : PoolInstruction}
    (h : Checked V spent ctx instruction) :
    BlockNullifiers.Fresh spent ctx.nullifiers instruction.nullifiers := by
  cases instruction with
  | shield => exact ⟨List.nodup_nil, by simp [PoolInstruction.nullifiers]⟩
  | transfer proof root nfs commitments fee notes =>
    obtain ⟨r, n₁, n₂, c₁, c₂, hc⟩ := checkTransfer_ok h
    refine ⟨by simpa [PoolInstruction.nullifiers] using hc.distinct, ?_⟩
    simp [PoolInstruction.nullifiers, hc.unspent₁, hc.unspent₂, hc.nullifier₁, hc.nullifier₂]
  | unshield proof root nullifier change asset amount recipient note =>
    obtain ⟨r, n, c, hc⟩ := checkUnshield_ok h
    refine ⟨List.nodup_singleton _, ?_⟩
    simp [PoolInstruction.nullifiers, hc.unspent, hc.nullifier]

theorem process_nullifiers {ctx ctx' : PoolContext} {instruction : PoolInstruction}
    {outcome : Except PoolError PoolOutcome}
    (h : process P V spent ctx instruction = (ctx', outcome)) :
    (ctx'.nullifiers = ctx.nullifiers ∧ (isOk outcome → instruction.nullifiers = [])) ∨
      (Checked V spent ctx instruction ∧
        ctx'.nullifiers = instruction.nullifiers.foldl BlockNullifiers.insert ctx.nullifiers) := by
  cases instruction with
  | shield asset amount secret note =>
    refine .inl ⟨?_, fun _ => rfl⟩
    simp only [process, shield] at h
    split at h
    · cases h
      rfl
    · split at h
      · cases h
        rfl
      · rename_i secretFr _
        have hnote := nullifiers_insertNote (P := P) ctx
          (noteCommitmentFromSecret P (assetIdFr asset) amount secretFr)
          (frToBytes (noteCommitmentFromSecret P (assetIdFr asset) amount secretFr)) note
        split at h <;> cases h <;> simpa [*] using hnote
  | transfer proof root nfs commitments fee notes =>
    simp only [process, transfer] at h
    split at h
    · cases h
      exact .inl ⟨rfl, by simp [isOk]⟩
    · rename_i hchecked
      refine .inr ⟨hchecked, ?_⟩
      have hnotes := nullifiers_insertNotes (P := P)
        { ctx with nullifiers := (ctx.nullifiers.insert nfs.1).insert nfs.2 }
        [(commitments.1, notes.1), (commitments.2, notes.2)]
      split at h <;> cases h <;> simpa [*, PoolInstruction.nullifiers] using hnotes
  | unshield proof root nullifier change asset amount recipient note =>
    simp only [process, unshield] at h
    split at h
    · cases h
      exact .inl ⟨rfl, by simp [isOk]⟩
    · rename_i hchecked
      refine .inr ⟨hchecked, ?_⟩
      have hnotes := nullifiers_insertNotes (P := P)
        { ctx with nullifiers := ctx.nullifiers.insert nullifier } [(change, note)]
      split at h <;> cases h <;> simpa [*, PoolInstruction.nullifiers] using hnotes

end PoolProcessor

namespace PoolService

open PoolProcessor

variable {P : Prims} {V : ProofVerifier} {cfg : PoolConfig} {store : Store}

theorem applyOne_nullifiers {r r' : Running} {tx : Pubkey × PoolInstruction}
    {status : Except PoolServiceError Unit}
    (h : applyOne P V cfg store r tx.1 tx.2 = some (r', status)) :
    (r'.ctx.nullifiers = r.ctx.nullifiers ∧ (isOk status → tx.2.nullifiers = [])) ∨
      (Checked V store.isNullifierSpent r.ctx tx.2 ∧ r'.ctx.nullifiers =
        tx.2.nullifiers.foldl BlockNullifiers.insert r.ctx.nullifiers) := by
  unfold applyOne at h
  split at h
  · cases h
    exact .inl ⟨rfl, by simp [isOk]⟩
  · split at h
    · rename_i ctx e hprocess
      cases h
      rcases process_nullifiers hprocess with ⟨heq, -⟩ | hspent
      · exact .inl ⟨heq, by simp [isOk]⟩
      · exact .inr hspent
    · rename_i ctx outcome hprocess
      simp only [Option.bind_eq_bind, Option.bind_eq_some_iff] at h
      obtain ⟨r₁, heffects, h⟩ := h
      cases h
      have hctx : r₁.ctx = ctx := (applyEffects_spec heffects).1
      subst hctx
      exact process_nullifiers hprocess

def acceptedIn {ε : Type} (txs : List (Pubkey × PoolInstruction))
    (statuses : List (Except ε Unit)) : List (Pubkey × PoolInstruction) :=
  ((txs.zip statuses).filter fun e => isOk e.2).map Prod.fst

theorem acceptedIn_map {ε ε' : Type} {f : Except ε Unit → Except ε' Unit}
    (hf : ∀ status, isOk (f status) = isOk status) (txs : List (Pubkey × PoolInstruction))
    (statuses : List (Except ε Unit)) :
    acceptedIn txs (statuses.map f) = acceptedIn txs statuses := by
  simp [acceptedIn, List.zip_map_right, List.filter_map, Function.comp_def, hf]

theorem applyAll_nullifiers {txs : List (Pubkey × PoolInstruction)}
    {acc out : Running × List (Except PoolServiceError Unit)}
    (h : txs.foldlM (applyNext P V cfg store) acc = some out)
    (hacc : acc.1.ctx.nullifiers.Tracks store.isNullifierSpent) :
    out.1.ctx.nullifiers.Tracks store.isNullifierSpent ∧
      ∃ statuses new, out.2 = acc.2 ++ statuses ∧
        out.1.ctx.nullifiers.newly = acc.1.ctx.nullifiers.newly ++ new ∧
        (spentBy (acceptedIn txs statuses)).Sublist new := by
  induction txs generalizing acc with
  | nil =>
    cases h
    exact ⟨hacc, [], [], by simp, by simp, List.Sublist.refl _⟩
  | cons tx txs ih =>
    obtain ⟨r, status, hone, h⟩ := applyNext_cons h
    rcases applyOne_nullifiers hone with ⟨hsame, hnone⟩ | ⟨hchecked, hspent⟩
    · rw [← hsame] at hacc
      obtain ⟨htracks, statuses, new, hstatuses, hnew, hsub⟩ := ih h hacc
      refine ⟨htracks, status :: statuses, new, by simp [hstatuses], by rw [hnew, hsame], ?_⟩
      cases hok : isOk status with
      | false => simpa [acceptedIn, spentBy, hok] using hsub
      | true => simpa [acceptedIn, spentBy, hok, hnone hok] using hsub
    · have hr : r.ctx.nullifiers.Tracks store.isNullifierSpent := by
        rw [hspent]
        exact hacc.spendAll hchecked.fresh
      obtain ⟨htracks, statuses, new, hstatuses, hnew, hsub⟩ := ih h hr
      refine ⟨htracks, status :: statuses, tx.2.nullifiers ++ new, by simp [hstatuses], ?_, ?_⟩
      · rw [hnew, hspent, BlockNullifiers.newly_spendAll, List.append_assoc]
      · cases hok : isOk status with
        | false =>
          have hrest : (spentBy (acceptedIn txs statuses)).Sublist (tx.2.nullifiers ++ new) :=
            hsub.trans (List.sublist_append_right _ _)
          simpa [acceptedIn, spentBy, hok] using hrest
        | true =>
          have hrest : (tx.2.nullifiers ++ spentBy (acceptedIn txs statuses)).Sublist
              (tx.2.nullifiers ++ new) := (List.Sublist.refl _).append hsub
          simpa [acceptedIn, spentBy, hok] using hrest

/-- What a block hands to the store: new field elements, each once, with every accepted one
among them. -/
theorem processBlockSeeded_nullifiers {order : MapOrder} {txs : List (Pubkey × PoolInstruction)}
    {seed : PartialMap Pubkey UInt64} {result : PoolBlockResult}
    (h : processBlockSeeded P V cfg order store txs seed = some (.ok result)) :
    result.nullifiers.Nodup ∧
      (∀ n ∈ result.nullifiers, store.isNullifierSpent n = false ∧ (frFromBytes n).isSome) ∧
      (spentBy (acceptedIn txs result.statuses)).Sublist result.nullifiers := by
  by_cases hne : txs = []
  · subst hne
    cases h
    exact ⟨List.nodup_nil, by simp [PoolBlockResult.default], List.Sublist.refl _⟩
  · obtain ⟨state, r, statuses, -, hfold, -, hnullifiers, hstatuses⟩ :=
      processBlockSeeded_spec P V cfg hne h
    obtain ⟨htracks, statuses', new, hall, hnew, hsub⟩ :=
      applyAll_nullifiers hfold BlockNullifiers.tracks_empty
    obtain rfl : statuses = statuses' := hall
    obtain rfl : r.ctx.nullifiers.newly = new := hnew
    rw [hnullifiers, hstatuses, acceptedIn_map (by rintro (e | u) <;> rfl)]
    exact ⟨htracks.nodup, fun n hn => ⟨htracks.unspent n hn, htracks.parses n hn⟩, hsub⟩

/-! ## Runs of blocks -/

variable (P V cfg) in
/-- A store after any number of blocks, each of any transactions over any seed, committed with
the nullifiers the pool returned; with the transactions accepted so far. -/
inductive PoolRun : Store → List (Pubkey × PoolInstruction) → Prop
  | start (store : Store) : PoolRun store []
  | block {store store' : Store} {accepted txs : List (Pubkey × PoolInstruction)}
      {order : MapOrder} {seed : PartialMap Pubkey UInt64} {result : PoolBlockResult}
      {block : Block} {metas : List ExecutedTransactionMeta}
      {writes : List (Pubkey × Option StoredAccount)} {update : Smt.StateUpdate}
      {queue : BlockhashQueue} (run : PoolRun store accepted)
      (processed : processBlockSeeded P V cfg order store txs seed = some (.ok result))
      (committed : store.commitBlock P block metas writes update queue result.nullifiers =
        .ok store') :
      PoolRun store' (accepted ++ acceptedIn txs result.statuses)

theorem PoolRun.spent {accepted : List (Pubkey × PoolInstruction)}
    (run : PoolRun P V cfg store accepted) :
    (spentBy accepted).Nodup ∧
      ∀ n ∈ spentBy accepted, store.isNullifierSpent n = true ∧ (frFromBytes n).isSome := by
  induction run with
  | start => exact ⟨List.nodup_nil, by simp [spentBy]⟩
  | block run processed committed ih =>
    obtain ⟨hnodup, hspent⟩ := ih
    obtain ⟨hblock, hnew, hsub⟩ := processBlockSeeded_nullifiers processed
    have hstep := Store.isNullifierSpent_commitBlock committed
    rw [spentBy, List.flatMap_append]
    refine ⟨hnodup.append (hblock.sublist hsub) ?_, fun n hn => ?_⟩
    · intro n hn hn'
      have hfalse := (hnew n (hsub.subset hn')).1
      rw [(hspent n hn).1] at hfalse
      cases hfalse
    · rcases List.mem_append.mp hn with hn | hn
      · exact ⟨(hstep n).mpr (.inl (hspent n hn).1), (hspent n hn).2⟩
      · have hmem := hsub.subset hn
        exact ⟨(hstep n).mpr (.inr hmem), (hnew n hmem).2⟩

namespace Sample

def prims : Prims where
  blake3 _ := Bytes.replicate 32 0
  findProgramAddress _ _ := Bytes.replicate 32 0
  poseidon inputs := inputs.foldl (fun acc x => acc * (31 : ℕ) + x + 1) (7 : ℕ)

def verifier : ProofVerifier where
  verifyTransfer _ _ := true
  verifyUnshield _ _ := true

def config : PoolConfig := ⟨POOL_STATE_ADDRESS, POOL_VAULT_ADDRESS, Bytes.replicate 32 3, 0⟩

def transfer : PoolInstruction :=
  .transfer [] (frToBytes (zeroHashes prims TREE_DEPTH)) (frToBytes 1, frToBytes 2)
    (frToBytes 3, frToBytes 4) 0 ([], [])

def block : Block where
  header := ⟨1, Bytes.replicate 32 0, Bytes.replicate 32 0, Bytes.replicate 32 0, 0, 0⟩
  transactions := []
  sequencerSignature := Bytes.replicate 64 0

theorem applyNext_transfer :
    ([(Bytes.replicate 32 1, transfer)].foldlM (applyNext prims verifier config Store.empty)
      (⟨⟨PoolState.new prims, BlockNullifiers.empty⟩, fun _ => none, fun _ => none, []⟩, [])).map
        Prod.snd = some [.ok ()] := by
  decide +kernel

end Sample

/-- No field element is accepted as a nullifier twice, and every accepted nullifier is spent in
the store. -/
theorem no_double_spend {accepted : List (Pubkey × PoolInstruction)}
    (run : PoolRun P V cfg store accepted) :
    (∀ n ∈ spentBy accepted, (frFromBytes n).isSome ∧ store.isNullifierSpent n = true) ∧
      ((spentBy accepted).filterMap frFromBytes).Nodup := by
  obtain ⟨hnodup, hspent⟩ := run.spent
  refine ⟨fun n hn => (hspent n hn).symm, hnodup.filterMap ?_⟩
  -- only one encoding of an element parses
  intro n n' x hx hx'
  rw [← frToBytes_of_frFromBytes hx, ← frToBytes_of_frFromBytes hx']

/-- After the sample transfer's block both of its nullifiers are spent. -/
theorem no_double_spend_transfer :
    ∃ store, PoolRun Sample.prims Sample.verifier Sample.config store
        [(Bytes.replicate 32 1, Sample.transfer)] ∧
      ∀ n ∈ spentBy [(Bytes.replicate 32 1, Sample.transfer)], store.isNullifierSpent n = true := by
  obtain ⟨order⟩ := MapOrder.nonempty
  obtain ⟨⟨r, statuses⟩, hfold, hstatuses⟩ := Option.map_eq_some_iff.mp Sample.applyNext_transfer
  have hprocessed := processBlockSeeded_of_ran Sample.prims Sample.verifier Sample.config order
    (by simp) rfl hfold
  cases hcommit : Store.empty.commitBlock Sample.prims Sample.block [] [] ⟨Bytes.replicate 32 0,
      fun _ => none⟩ BlockhashQueue.new r.ctx.nullifiers.newly with
  | error e =>
    exact absurd hcommit (Store.commitBlock_ne_error rfl rfl (fun _ h => by cases h)
      (by simp [Sample.block]))
  | ok store =>
    have hrun := PoolRun.block (.start Store.empty) hprocessed hcommit
    dsimp only at hstatuses
    subst hstatuses
    exact ⟨store, hrun, fun n hn => ((no_double_spend hrun).1 n hn).2⟩

end PoolService

end Zul.Privacy
