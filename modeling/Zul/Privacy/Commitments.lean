import Zul.Privacy.Moves

/-! # The commitments and nullifiers of a block

An accepted instruction appends its commitments and spends its nullifiers. A transfer or an
unshield that passes its checks but finds the tree full is rejected after its nullifiers were
spent, and a transfer may by then have appended one commitment. As long as every checked
instruction finds room, a block's state and nullifiers are those of its accepted instructions.
-/

namespace Zul.Privacy

namespace PoolState

variable {P : Prims}

def Canonical (s : PoolState) : Prop := ∀ b ∈ s.filledSubtrees, (frFromBytes b).isSome

theorem canonical_new (P : Prims) : (PoolState.new P).Canonical := by
  intro b hb
  obtain ⟨level, -, rfl⟩ := List.mem_map.mp hb
  rw [frFromBytes_frToBytes]
  rfl

def appendAll (P : Prims) (s : PoolState) (leaves : List Fr) : PoolState :=
  leaves.foldl (fun s leaf => (s.insert P leaf).1) s

theorem insertFrom_canonical (left level nodeIndex : ℕ) (current : Fr) {filled : List FieldBytes}
    (hlevels : level + left ≤ filled.length) (hfilled : ∀ b ∈ filled, (frFromBytes b).isSome) :
    (insertFrom P left level nodeIndex current filled).2.isSome ∧
      ∀ b ∈ (insertFrom P left level nodeIndex current filled).1, (frFromBytes b).isSome := by
  induction left generalizing level nodeIndex current filled with
  | zero => exact ⟨rfl, hfilled⟩
  | succ left ih =>
    rw [insertFrom]
    split
    · refine ih _ _ _ (by rw [List.length_set]; omega) fun b hb => ?_
      rcases List.mem_or_eq_of_mem_set hb with hb | rfl
      · exact hfilled b hb
      · rw [frFromBytes_frToBytes]
        rfl
    · have hlevel : level < filled.length := by omega
      have hmem : filled.getD level (Bytes.replicate 32 0) ∈ filled := by
        rw [List.getD_eq_getElem _ _ hlevel]
        exact List.getElem_mem hlevel
      obtain ⟨sibling, hsibling⟩ := Option.isSome_iff_exists.mp (hfilled _ hmem)
      rw [hsibling]
      exact ih _ _ _ (by omega) hfilled

theorem insert_of_full {s : PoolState} (h : capacity ≤ s.nextLeafIndex.toNat) (leaf : Fr) :
    s.insert P leaf = (s, .error .treeFull) := by
  unfold insert
  exact if_pos h

theorem insert_of_room {s : PoolState} (hs : s.Canonical) (h : s.nextLeafIndex.toNat < capacity)
    (leaf : Fr) :
    ∃ s', s.insert P leaf = (s', .ok s.nextLeafIndex) ∧ s'.Canonical ∧
      s'.nextLeafIndex.toNat = s.nextLeafIndex.toNat + 1 := by
  obtain ⟨hroot, hfilled⟩ := insertFrom_canonical (P := P) TREE_DEPTH 0 s.nextLeafIndex.toNat leaf
    (by rw [s.length_filledSubtrees, Nat.zero_add]) hs
  obtain ⟨root, hroot⟩ := Option.isSome_iff_exists.mp hroot
  unfold insert
  dsimp only
  rw [if_neg (Nat.not_le.mpr h)]
  split
  · rename_i hnone
    rw [hroot] at hnone
    cases hnone
  · refine ⟨_, rfl, hfilled, ?_⟩
    have hbound : s.nextLeafIndex.toNat < 2 ^ 26 := h
    rw [UInt32.toNat_add, UInt32.toNat_one]
    omega

theorem appendAll_spec {s : PoolState} (hs : s.Canonical) (leaves : List Fr)
    (h : s.nextLeafIndex.toNat + leaves.length ≤ capacity) :
    (s.appendAll P leaves).Canonical ∧
      (s.appendAll P leaves).nextLeafIndex.toNat = s.nextLeafIndex.toNat + leaves.length := by
  induction leaves generalizing s with
  | nil => exact ⟨hs, rfl⟩
  | cons leaf leaves ih =>
    rw [List.length_cons] at h
    obtain ⟨s', hinsert, hs', hnext⟩ := insert_of_room (P := P) hs (by omega) leaf
    rw [appendAll, List.foldl_cons, hinsert]
    obtain ⟨hcan, hlen⟩ := ih hs' (by omega)
    exact ⟨hcan, by rw [List.length_cons]; exact hlen.trans (by omega)⟩

end PoolState

namespace PoolInstruction

def nullifiers : PoolInstruction → List H256
  | .shield .. => []
  | .transfer _ _ nfs _ _ _ => [nfs.1, nfs.2]
  | .unshield _ _ nullifier _ _ _ _ _ => [nullifier]

def leaves (P : Prims) : PoolInstruction → List Fr
  | .shield asset amount secret _ => ((frFromBytes secret).map
      (noteCommitmentFromSecret P (PoolProcessor.assetIdFr asset) amount)).toList
  | .transfer _ _ _ commitments _ _ => [commitments.1, commitments.2].filterMap frFromBytes
  | .unshield _ _ _ changeCommitment _ _ _ _ => [changeCommitment].filterMap frFromBytes

end PoolInstruction

namespace PoolProcessor

variable {P : Prims} {V : ProofVerifier} {spent : H256 → Bool}

/-- The checks of the state machine, made before it writes anything. -/
def Checked (V : ProofVerifier) (spent : H256 → Bool) (ctx : PoolContext) : PoolInstruction → Prop
  | .shield _ amount secret _ => amount ≠ 0 ∧ (frFromBytes secret).isSome
  | .transfer proof root nfs commitments fee _ =>
    checkTransfer V spent ctx proof root nfs commitments fee = .ok ()
  | .unshield proof root nullifier changeCommitment asset amount recipient _ =>
    checkUnshield V spent ctx proof root nullifier changeCommitment asset amount recipient = .ok ()

def Room (P : Prims) (ctx : PoolContext) (instruction : PoolInstruction) : Prop :=
  ctx.state.nextLeafIndex.toNat + (instruction.leaves P).length ≤ PoolState.capacity

inductive Processed (P : Prims) (V : ProofVerifier) (spent : H256 → Bool) (ctx : PoolContext)
    (instruction : PoolInstruction) : PoolContext × Except PoolError PoolOutcome → Prop
  | accepted {ctx' : PoolContext} {outcome : PoolOutcome}
      (checked : Checked V spent ctx instruction) (room : Room P ctx instruction)
      (state : ctx'.state = ctx.state.appendAll P (instruction.leaves P))
      (newly : ctx'.nullifiers.newly = ctx.nullifiers.newly ++ instruction.nullifiers) :
      Processed P V spent ctx instruction (ctx', .ok outcome)
  | refused {e : PoolError} (checked : ¬ Checked V spent ctx instruction) :
      Processed P V spent ctx instruction (ctx, .error e)
  | full {ctx' : PoolContext} {e : PoolError}
      (checked : Checked V spent ctx instruction) (room : ¬ Room P ctx instruction)
      (canonical : ctx'.state.Canonical)
      (newly : ctx'.nullifiers.newly = ctx.nullifiers.newly ++ instruction.nullifiers)
      (shield : instruction.nullifiers = [] → ctx' = ctx) :
      Processed P V spent ctx instruction (ctx', .error e)

theorem shield_of_room (P : Prims) (ctx : PoolContext) (hctx : ctx.state.Canonical)
    (hroom : ctx.state.nextLeafIndex.toNat < PoolState.capacity) (asset : Asset) (amount : UInt64)
    (hamount : amount ≠ 0) {secret : FieldBytes} {x : Fr} (hsecret : frFromBytes secret = some x)
    (encryptedNote : List UInt8) :
    ∃ ctx', shield P ctx asset amount secret encryptedNote =
      (ctx', .ok ⟨[.depositToVault asset amount], [⟨ctx.state.nextLeafIndex,
        frToBytes (noteCommitmentFromSecret P (assetIdFr asset) amount x), encryptedNote⟩]⟩) ∧
      ctx'.state.Canonical ∧
      ctx'.state.nextLeafIndex.toNat = ctx.state.nextLeafIndex.toNat + 1 := by
  obtain ⟨state, hinsert, hstate, hnext⟩ := PoolState.insert_of_room (P := P) hctx hroom
    (noteCommitmentFromSecret P (assetIdFr asset) amount x)
  refine ⟨{ ctx with state }, ?_, hstate, hnext⟩
  simp only [shield, if_neg hamount, field, hsecret, insertNote, hinsert]

theorem insertNotes_eq (ctx : PoolContext) (hctx : ctx.state.Canonical)
    {notes : List (FieldBytes × List UInt8)} {leaves : List Fr}
    (hleaves : notes.map (frFromBytes ∘ Prod.fst) = leaves.map some) :
    ∃ out, insertNotes P ctx notes =
        (⟨ctx.state.appendAll P
          (leaves.take (PoolState.capacity - ctx.state.nextLeafIndex.toNat)), ctx.nullifiers⟩,
          out) ∧
      ((∃ events, out = .ok events) ↔
        leaves.length ≤ PoolState.capacity - ctx.state.nextLeafIndex.toNat) := by
  induction notes generalizing ctx leaves with
  | nil =>
    obtain rfl : leaves = [] := by simpa using hleaves.symm
    rw [List.take_nil]
    exact ⟨_, rfl, fun _ => Nat.zero_le _, fun _ => ⟨[], rfl⟩⟩
  | cons note notes ih =>
    obtain _ | ⟨leaf, leaves⟩ := leaves
    · cases hleaves
    · obtain ⟨hleaf, hleaves⟩ := List.cons_eq_cons.mp hleaves
      rw [insertNotes, field, show frFromBytes note.1 = some leaf from hleaf]
      by_cases hroom : ctx.state.nextLeafIndex.toNat < PoolState.capacity
      · obtain ⟨state, hinsert, hstate, hnext⟩ := PoolState.insert_of_room (P := P) hctx hroom leaf
        obtain ⟨out, hrest, hout⟩ := ih { ctx with state } hstate hleaves
        rw [hnext] at hrest hout
        rw [show PoolState.capacity - ctx.state.nextLeafIndex.toNat =
            PoolState.capacity - (ctx.state.nextLeafIndex.toNat + 1) + 1 by omega,
          List.take_succ_cons, PoolState.appendAll, List.foldl_cons, hinsert, List.length_cons,
          Nat.succ_le_succ_iff, ← hout]
        simp only [insertNote, hinsert, hrest]
        cases out with
        | ok events => exact ⟨_, rfl, fun _ => ⟨_, rfl⟩, fun _ => ⟨_, rfl⟩⟩
        | error e => exact ⟨_, rfl, by simp⟩
      · simp only [insertNote, PoolState.insert_of_full (Nat.not_lt.mp hroom)]
        rw [Nat.sub_eq_zero_of_le (Nat.not_lt.mp hroom), List.take_zero]
        exact ⟨_, rfl, by simp⟩

theorem insertNotes_of_room (ctx : PoolContext) (hctx : ctx.state.Canonical)
    {notes : List (FieldBytes × List UInt8)} {leaves : List Fr}
    (hleaves : notes.map (frFromBytes ∘ Prod.fst) = leaves.map some)
    (hroom : ctx.state.nextLeafIndex.toNat + leaves.length ≤ PoolState.capacity) :
    ∃ events, insertNotes P ctx notes =
      ({ ctx with state := ctx.state.appendAll P leaves }, .ok events) := by
  have hfits : leaves.length ≤ PoolState.capacity - ctx.state.nextLeafIndex.toNat := by omega
  obtain ⟨out, heq, hout⟩ := insertNotes_eq (P := P) ctx hctx hleaves
  obtain ⟨events, rfl⟩ := hout.mpr hfits
  rw [List.take_of_length_le hfits] at heq
  exact ⟨events, heq⟩

theorem insertNotes_of_full (ctx : PoolContext) (hctx : ctx.state.Canonical)
    {notes : List (FieldBytes × List UInt8)} {leaves : List Fr}
    (hleaves : notes.map (frFromBytes ∘ Prod.fst) = leaves.map some) (hne : leaves ≠ [])
    (hfull : PoolState.capacity < ctx.state.nextLeafIndex.toNat + leaves.length) :
    ∃ state e, insertNotes P ctx notes = ({ ctx with state }, .error e) ∧ state.Canonical := by
  have hpos := List.length_pos_iff.mpr hne
  obtain ⟨out, heq, hout⟩ := insertNotes_eq (P := P) ctx hctx hleaves
  have hcanonical : (ctx.state.appendAll P (leaves.take
      (PoolState.capacity - ctx.state.nextLeafIndex.toNat))).Canonical := by
    rcases Nat.lt_or_ge PoolState.capacity ctx.state.nextLeafIndex.toNat with hover | hle
    · rw [Nat.sub_eq_zero_of_le hover.le, List.take_zero]
      exact hctx
    · apply (PoolState.appendAll_spec hctx _ _).1
      rw [List.length_take]
      omega
  cases out with
  | ok events => exact absurd (hout.mp ⟨events, rfl⟩) (by omega)
  | error e => exact ⟨_, e, heq, hcanonical⟩

theorem insertNotes_fst (ctx : PoolContext) (hctx : ctx.state.Canonical)
    {notes : List (FieldBytes × List UInt8)} {leaves : List Fr}
    (hleaves : notes.map (frFromBytes ∘ Prod.fst) = leaves.map some) :
    (insertNotes P ctx notes).1 =
      ⟨ctx.state.appendAll P
        (leaves.take (PoolState.capacity - ctx.state.nextLeafIndex.toNat)), ctx.nullifiers⟩ := by
  obtain ⟨out, heq, -⟩ := insertNotes_eq (P := P) ctx hctx hleaves
  rw [heq]

theorem insertNotes_spec (ctx : PoolContext) (hctx : ctx.state.Canonical)
    (notes : List (FieldBytes × List UInt8)) (leaves : List Fr)
    (hleaves : notes.map (frFromBytes ∘ Prod.fst) = leaves.map some) (hne : leaves ≠ []) :
    (ctx.state.nextLeafIndex.toNat + leaves.length ≤ PoolState.capacity ∧
      ∃ events, insertNotes P ctx notes =
        ({ ctx with state := ctx.state.appendAll P leaves }, .ok events)) ∨
    (¬ ctx.state.nextLeafIndex.toNat + leaves.length ≤ PoolState.capacity ∧
      ∃ state e, insertNotes P ctx notes = ({ ctx with state }, .error e) ∧ state.Canonical) := by
  by_cases hroom : ctx.state.nextLeafIndex.toNat + leaves.length ≤ PoolState.capacity
  · exact .inl ⟨hroom, insertNotes_of_room ctx hctx hleaves hroom⟩
  · exact .inr ⟨hroom, insertNotes_of_full ctx hctx hleaves hne (Nat.not_le.mp hroom)⟩

theorem field_eq_ok {bytes : FieldBytes} {x : Fr} (h : field bytes = .ok x) :
    frFromBytes bytes = some x := by
  unfold field at h
  split at h
  · cases h
    assumption
  · cases h

structure CheckedTransfer (V : ProofVerifier) (spent : H256 → Bool) (ctx : PoolContext)
    (proof : List UInt8) (root : FieldBytes) (nfs commitments : FieldBytes × FieldBytes)
    (fee : UInt64) (r n₁ n₂ c₁ c₂ : Fr) : Prop where
  known : ctx.state.isKnownRoot root = true
  distinct : nfs.1 ≠ nfs.2
  unspent₁ : ctx.nullifiers.contains spent nfs.1 = false
  unspent₂ : ctx.nullifiers.contains spent nfs.2 = false
  root : frFromBytes root = some r
  nullifier₁ : frFromBytes nfs.1 = some n₁
  nullifier₂ : frFromBytes nfs.2 = some n₂
  commitment₁ : frFromBytes commitments.1 = some c₁
  commitment₂ : frFromBytes commitments.2 = some c₂
  verified : V.verifyTransfer proof [r, n₁, n₂, c₁, c₂, (fee.toNat : Fr)] = true

theorem checkTransfer_ok {ctx : PoolContext} {proof : List UInt8} {root : FieldBytes}
    {nfs commitments : FieldBytes × FieldBytes} {fee : UInt64}
    (h : checkTransfer V spent ctx proof root nfs commitments fee = .ok ()) :
    ∃ r n₁ n₂ c₁ c₂, CheckedTransfer V spent ctx proof root nfs commitments fee r n₁ n₂ c₁ c₂ := by
  simp only [checkTransfer, bind, Except.bind, pure, Except.pure] at h
  repeat (split at h; · cases h)
  rename_i hknown hdistinct hn₁ hn₂ _ r hr _ n₁ hnf₁ _ n₂ hnf₂ _ c₁ hc₁ _ c₂ hc₂ hverify
  exact ⟨r, n₁, n₂, c₁, c₂, by simpa using hknown, hdistinct, by simpa using hn₁,
    by simpa using hn₂, field_eq_ok hr, field_eq_ok hnf₁, field_eq_ok hnf₂, field_eq_ok hc₁,
    field_eq_ok hc₂, by simpa using hverify⟩

theorem field_of_frFromBytes {bytes : FieldBytes} {x : Fr} (h : frFromBytes bytes = some x) :
    field bytes = .ok x := by
  rw [field, h]

theorem CheckedTransfer.eq_ok {ctx : PoolContext} {proof : List UInt8} {root : FieldBytes}
    {nfs commitments : FieldBytes × FieldBytes} {fee : UInt64} {r n₁ n₂ c₁ c₂ : Fr}
    (h : CheckedTransfer V spent ctx proof root nfs commitments fee r n₁ n₂ c₁ c₂) :
    checkTransfer V spent ctx proof root nfs commitments fee = .ok () := by
  simp [checkTransfer, h.known, h.distinct, h.unspent₁, h.unspent₂, field_of_frFromBytes h.root,
    field_of_frFromBytes h.nullifier₁, field_of_frFromBytes h.nullifier₂,
    field_of_frFromBytes h.commitment₁, field_of_frFromBytes h.commitment₂, h.verified, bind,
    Except.bind, pure, Except.pure]

theorem leaves_of_checkTransfer {ctx : PoolContext} {proof : List UInt8} {root : FieldBytes}
    {nfs commitments : FieldBytes × FieldBytes} {fee : UInt64}
    (h : checkTransfer V spent ctx proof root nfs commitments fee = .ok ()) :
    ∃ x y, frFromBytes commitments.1 = some x ∧ frFromBytes commitments.2 = some y := by
  obtain ⟨r, n₁, n₂, c₁, c₂, hc⟩ := checkTransfer_ok h
  exact ⟨c₁, c₂, hc.commitment₁, hc.commitment₂⟩

structure CheckedUnshield (V : ProofVerifier) (spent : H256 → Bool) (ctx : PoolContext)
    (proof : List UInt8) (root nullifier changeCommitment : FieldBytes) (asset : Asset)
    (amount : UInt64) (recipient : Bytes 32) (r n c : Fr) : Prop where
  amount_ne_zero : amount ≠ 0
  known : ctx.state.isKnownRoot root = true
  unspent : ctx.nullifiers.contains spent nullifier = false
  root : frFromBytes root = some r
  nullifier : frFromBytes nullifier = some n
  commitment : frFromBytes changeCommitment = some c
  verified : V.verifyUnshield proof
    [r, n, c, assetIdFr asset, (amount.toNat : Fr), frFromLeBytesModOrder recipient] = true

theorem checkUnshield_ok {ctx : PoolContext} {proof : List UInt8}
    {root nullifier changeCommitment : FieldBytes} {asset : Asset} {amount : UInt64}
    {recipient : Bytes 32}
    (h : checkUnshield V spent ctx proof root nullifier changeCommitment asset amount recipient =
      .ok ()) :
    ∃ r n c, CheckedUnshield V spent ctx proof root nullifier changeCommitment asset amount
      recipient r n c := by
  simp only [checkUnshield, bind, Except.bind, pure, Except.pure] at h
  repeat (split at h; · cases h)
  rename_i hamount hknown hn _ r hr _ n hnf _ c hc hverify
  exact ⟨r, n, c, hamount, by simpa using hknown, by simpa using hn, field_eq_ok hr,
    field_eq_ok hnf, field_eq_ok hc, by simpa using hverify⟩

theorem CheckedUnshield.eq_ok {ctx : PoolContext} {proof : List UInt8}
    {root nullifier changeCommitment : FieldBytes} {asset : Asset} {amount : UInt64}
    {recipient : Bytes 32} {r n c : Fr}
    (h : CheckedUnshield V spent ctx proof root nullifier changeCommitment asset amount recipient
      r n c) :
    checkUnshield V spent ctx proof root nullifier changeCommitment asset amount recipient =
      .ok () := by
  simp [checkUnshield, h.amount_ne_zero, h.known, h.unspent, field_of_frFromBytes h.root,
    field_of_frFromBytes h.nullifier, field_of_frFromBytes h.commitment, h.verified, bind,
    Except.bind, pure, Except.pure]

theorem leaves_of_checkUnshield {ctx : PoolContext} {proof : List UInt8}
    {root nullifier changeCommitment : FieldBytes} {asset : Asset} {amount : UInt64}
    {recipient : Bytes 32}
    (h : checkUnshield V spent ctx proof root nullifier changeCommitment asset amount recipient =
      .ok ()) :
    ∃ x, frFromBytes changeCommitment = some x := by
  obtain ⟨r, n, c, hc⟩ := checkUnshield_ok h
  exact ⟨c, hc.commitment⟩

theorem process_spec {ctx : PoolContext} (hctx : ctx.state.Canonical)
    (instruction : PoolInstruction) :
    Processed P V spent ctx instruction (process P V spent ctx instruction) := by
  cases instruction with
  | shield asset amount secret note =>
    simp only [process, shield]
    split
    · exact .refused fun h => h.1 ‹_›
    · rename_i hamount
      cases hsecret : frFromBytes secret with
      | none =>
        simp only [field, hsecret]
        exact .refused fun h => by
          rw [Checked, hsecret] at h
          cases h.2
      | some x =>
        have hchecked : Checked V spent ctx (.shield asset amount secret note) :=
          ⟨hamount, by rw [hsecret]; rfl⟩
        have hleaves : (PoolInstruction.shield asset amount secret note).leaves P =
            [noteCommitmentFromSecret P (assetIdFr asset) amount x] := by
          rw [PoolInstruction.leaves, hsecret]
          rfl
        simp only [field, hsecret, insertNote]
        by_cases hroom : ctx.state.nextLeafIndex.toNat < PoolState.capacity
        · obtain ⟨state, hinsert, -, -⟩ := PoolState.insert_of_room (P := P) hctx hroom
            (noteCommitmentFromSecret P (assetIdFr asset) amount x)
          simp only [hinsert]
          refine .accepted hchecked (by rw [Room, hleaves]; exact hroom) ?_ (List.append_nil _).symm
          rw [hleaves, PoolState.appendAll, List.foldl_cons, List.foldl_nil, hinsert]
        · simp only [PoolState.insert_of_full (Nat.not_lt.mp hroom)]
          exact .full hchecked (by rw [Room, hleaves]; exact hroom) hctx (List.append_nil _).symm
            fun _ => rfl
  | transfer proof root nfs commitments fee notes =>
    simp only [process, transfer]
    split
    · rename_i hfail
      exact .refused fun h => by
        rw [Checked, hfail] at h
        cases h
    · rename_i hchecked
      obtain ⟨x, y, hx, hy⟩ := leaves_of_checkTransfer hchecked
      have hleaves : (PoolInstruction.transfer proof root nfs commitments fee notes).leaves P =
          [x, y] := by
        simp [PoolInstruction.leaves, hx, hy]
      rcases insertNotes_spec (P := P)
          { ctx with nullifiers := (ctx.nullifiers.insert nfs.1).insert nfs.2 } hctx
          [(commitments.1, notes.1), (commitments.2, notes.2)] [x, y] (by simp [hx, hy])
          (by simp) with ⟨hroom, events, hnotes⟩ | ⟨hroom, state, e, hnotes, hstate⟩
      · simp only [hnotes]
        exact .accepted hchecked (by rw [Room, hleaves]; exact hroom) (by rw [hleaves])
          (by simp [BlockNullifiers.insert, PoolInstruction.nullifiers])
      · simp only [hnotes]
        exact .full hchecked (by rw [Room, hleaves]; exact hroom) hstate
          (by simp [BlockNullifiers.insert, PoolInstruction.nullifiers])
          (by simp [PoolInstruction.nullifiers])
  | unshield proof root nullifier change asset amount recipient note =>
    simp only [process, unshield]
    split
    · rename_i hfail
      exact .refused fun h => by
        rw [Checked, hfail] at h
        cases h
    · rename_i hchecked
      obtain ⟨x, hx⟩ := leaves_of_checkUnshield hchecked
      have hleaves : (PoolInstruction.unshield proof root nullifier change asset amount recipient
          note).leaves P = [x] := by
        simp [PoolInstruction.leaves, hx]
      rcases insertNotes_spec (P := P)
          { ctx with nullifiers := ctx.nullifiers.insert nullifier } hctx [(change, note)] [x]
          (by simp [hx]) (by simp) with ⟨hroom, events, hnotes⟩ | ⟨hroom, state, e, hnotes, hstate⟩
      · simp only [hnotes]
        exact .accepted hchecked (by rw [Room, hleaves]; exact hroom) (by rw [hleaves])
          (by simp [BlockNullifiers.insert, PoolInstruction.nullifiers])
      · simp only [hnotes]
        exact .full hchecked (by rw [Room, hleaves]; exact hroom) hstate
          (by simp [BlockNullifiers.insert, PoolInstruction.nullifiers])
          (by simp [PoolInstruction.nullifiers])

theorem process_of_not_checked {ctx : PoolContext} (hctx : ctx.state.Canonical)
    {instruction : PoolInstruction} (h : ¬ Checked V spent ctx instruction) :
    ∃ e, process P V spent ctx instruction = (ctx, .error e) := by
  have hspec : Processed P V spent ctx instruction _ := process_spec hctx instruction
  generalize process P V spent ctx instruction = out at hspec ⊢
  cases hspec with
  | accepted checked => exact absurd checked h
  | refused => exact ⟨_, rfl⟩
  | full checked => exact absurd checked h

theorem process_of_checked {ctx : PoolContext} (hctx : ctx.state.Canonical)
    {instruction : PoolInstruction} (h : Checked V spent ctx instruction) :
    (process P V spent ctx instruction).1 =
      ⟨ctx.state.appendAll P ((instruction.leaves P).take
          (PoolState.capacity - ctx.state.nextLeafIndex.toNat)),
        instruction.nullifiers.foldl BlockNullifiers.insert ctx.nullifiers⟩ := by
  cases instruction with
  | shield asset amount secret note =>
    obtain ⟨hamount, hsecret⟩ := h
    obtain ⟨x, hx⟩ := Option.isSome_iff_exists.mp hsecret
    have hleaves : (PoolInstruction.shield asset amount secret note).leaves P =
        [noteCommitmentFromSecret P (assetIdFr asset) amount x] := by
      simp [PoolInstruction.leaves, hx]
    rw [hleaves]
    simp only [process, shield, if_neg hamount, field, hx, insertNote]
    by_cases hroom : ctx.state.nextLeafIndex.toNat < PoolState.capacity
    · obtain ⟨state, hinsert, -, -⟩ := PoolState.insert_of_room (P := P) hctx hroom
        (noteCommitmentFromSecret P (assetIdFr asset) amount x)
      rw [List.take_of_length_le (by rw [List.length_singleton]; omega), PoolState.appendAll,
        List.foldl_cons, hinsert]
      rfl
    · rw [PoolState.insert_of_full (Nat.not_lt.mp hroom),
        Nat.sub_eq_zero_of_le (Nat.not_lt.mp hroom)]
      rfl
  | transfer proof root nfs commitments fee notes =>
    obtain ⟨x, y, hx, hy⟩ := leaves_of_checkTransfer h
    have hleaves : (PoolInstruction.transfer proof root nfs commitments fee notes).leaves P =
        [x, y] := by
      simp [PoolInstruction.leaves, hx, hy]
    have hnotes := insertNotes_fst (P := P)
      { ctx with nullifiers := (ctx.nullifiers.insert nfs.1).insert nfs.2 } hctx
      (show [(commitments.1, notes.1), (commitments.2, notes.2)].map (frFromBytes ∘ Prod.fst) =
        [x, y].map some by simp [hx, hy])
    rw [hleaves, process, transfer,
      show checkTransfer V spent ctx proof root nfs commitments fee = .ok () from h]
    refine Eq.trans ?_ hnotes
    dsimp only
    split <;> simp only [*]
  | unshield proof root nullifier change asset amount recipient note =>
    obtain ⟨x, hx⟩ := leaves_of_checkUnshield h
    have hleaves : (PoolInstruction.unshield proof root nullifier change asset amount recipient
        note).leaves P = [x] := by
      simp [PoolInstruction.leaves, hx]
    have hnotes := insertNotes_fst (P := P)
      { ctx with nullifiers := ctx.nullifiers.insert nullifier } hctx
      (show [(change, note)].map (frFromBytes ∘ Prod.fst) = [x].map some by simp [hx])
    rw [hleaves, process, unshield, show checkUnshield V spent ctx proof root nullifier change asset
      amount recipient = .ok () from h]
    refine Eq.trans ?_ hnotes
    dsimp only
    split <;> simp only [*]

theorem leaves_ne_nil {ctx : PoolContext} {instruction : PoolInstruction}
    (h : Checked V spent ctx instruction) : instruction.leaves P ≠ [] := by
  cases instruction with
  | shield asset amount secret note =>
    obtain ⟨x, hx⟩ := Option.isSome_iff_exists.mp h.2
    simp [PoolInstruction.leaves, hx]
  | transfer proof root nfs commitments fee notes =>
    obtain ⟨x, y, hx, hy⟩ := leaves_of_checkTransfer h
    simp [PoolInstruction.leaves, hx]
  | unshield proof root nullifier change asset amount recipient note =>
    obtain ⟨x, hx⟩ := leaves_of_checkUnshield h
    simp [PoolInstruction.leaves, hx]

end PoolProcessor

namespace PoolService

open PoolProcessor

variable {P : Prims} {V : ProofVerifier} {cfg : PoolConfig} {store : Store}

variable (P V cfg store) in
/-- Every transfer and unshield that passes the checks in its turn finds room for its
commitments. -/
def FindsRoom : Running → List (Pubkey × PoolInstruction) → Prop
  | _, [] => True
  | r, tx :: txs =>
    (checkFunds P cfg store r tx.1 tx.2 = .ok () → Checked V store.isNullifierSpent r.ctx tx.2 →
      tx.2.nullifiers ≠ [] → Room P r.ctx tx.2) ∧
    ∀ r' status, applyOne P V cfg store r tx.1 tx.2 = some (r', status) → FindsRoom r' txs

def foldedState (P : Prims) (state : PoolState) (txs : List (Pubkey × PoolInstruction)) :
    PoolState :=
  state.appendAll P (txs.flatMap fun tx => tx.2.leaves P)

def spentBy (txs : List (Pubkey × PoolInstruction)) : List H256 :=
  txs.flatMap fun tx => tx.2.nullifiers

inductive Applied (P : Prims) (V : ProofVerifier) (cfg : PoolConfig) (store : Store) (r : Running)
    (tx : Pubkey × PoolInstruction) : Running → Except PoolServiceError Unit → Prop
  | accepted {r' : Running} (checked : Checked V store.isNullifierSpent r.ctx tx.2)
      (room : Room P r.ctx tx.2)
      (state : r'.ctx.state = r.ctx.state.appendAll P (tx.2.leaves P))
      (newly : r'.ctx.nullifiers.newly = r.ctx.nullifiers.newly ++ tx.2.nullifiers) :
      Applied P V cfg store r tx r' (.ok ())
  | unchanged {r' : Running} {e : PoolServiceError} (ctx : r'.ctx = r.ctx)
      (room : checkFunds P cfg store r tx.1 tx.2 = .ok () →
        Checked V store.isNullifierSpent r.ctx tx.2 → tx.2.nullifiers = []) :
      Applied P V cfg store r tx r' (.error e)
  | full {r' : Running} {e : PoolServiceError}
      (funds : checkFunds P cfg store r tx.1 tx.2 = .ok ())
      (checked : Checked V store.isNullifierSpent r.ctx tx.2) (room : ¬ Room P r.ctx tx.2)
      (spends : tx.2.nullifiers ≠ []) (canonical : r'.ctx.state.Canonical)
      (newly : r'.ctx.nullifiers.newly = r.ctx.nullifiers.newly ++ tx.2.nullifiers) :
      Applied P V cfg store r tx r' (.error e)

theorem applyOne_spec {r r' : Running} {tx : Pubkey × PoolInstruction}
    {status : Except PoolServiceError Unit} (hr : r.ctx.state.Canonical)
    (h : applyOne P V cfg store r tx.1 tx.2 = some (r', status)) :
    Applied P V cfg store r tx r' status := by
  unfold applyOne at h
  split at h
  · rename_i hfunds
    cases h
    exact .unchanged rfl fun hok => by
      rw [hfunds] at hok
      cases hok
  · rename_i hfunds
    have hspec : Processed P V store.isNullifierSpent r.ctx tx.2 _ := process_spec hr tx.2
    split at h
    · rename_i ctx e hprocess
      cases h
      rw [hprocess] at hspec
      cases hspec with
      | refused hchecked => exact .unchanged rfl fun _ hok => absurd hok hchecked
      | full hchecked hroom hcanonical hnewly hshield =>
        by_cases hnone : tx.2.nullifiers = []
        · exact .unchanged (hshield hnone) fun _ _ => hnone
        · exact .full hfunds hchecked hroom hnone hcanonical hnewly
    · rename_i ctx outcome hprocess
      simp only [Option.bind_eq_bind, Option.bind_eq_some_iff] at h
      obtain ⟨r₁, heffects, h⟩ := h
      cases h
      have hctx : r₁.ctx = ctx := (applyEffects_spec heffects).1
      rw [hprocess] at hspec
      cases hspec with
      | accepted hchecked hroom hstate hnewly =>
        subst hctx
        exact .accepted hchecked hroom hstate hnewly

theorem Applied.canonical {r r' : Running} {tx : Pubkey × PoolInstruction}
    {status : Except PoolServiceError Unit} (h : Applied P V cfg store r tx r' status)
    (hr : r.ctx.state.Canonical) : r'.ctx.state.Canonical := by
  cases h with
  | accepted _ room state _ =>
    rw [state]
    exact (PoolState.appendAll_spec hr _ room).1
  | unchanged ctx _ => rwa [ctx]
  | full _ _ _ _ canonical _ => exact canonical

theorem applyNext_cons {tx : Pubkey × PoolInstruction} {txs : List (Pubkey × PoolInstruction)}
    {acc out : Running × List (Except PoolServiceError Unit)}
    (h : (tx :: txs).foldlM (applyNext P V cfg store) acc = some out) :
    ∃ r status, applyOne P V cfg store acc.1 tx.1 tx.2 = some (r, status) ∧
      txs.foldlM (applyNext P V cfg store) (r, acc.2 ++ [status]) = some out := by
  rw [List.foldlM_cons, Option.bind_eq_bind, Option.bind_eq_some_iff] at h
  obtain ⟨acc₁, hone, h⟩ := h
  simp only [applyNext, Option.bind_eq_bind, Option.bind_eq_some_iff] at hone
  obtain ⟨⟨r, status⟩, hone, hacc⟩ := hone
  cases hacc
  exact ⟨r, status, hone, h⟩

theorem newly_extends {txs : List (Pubkey × PoolInstruction)}
    {acc out : Running × List (Except PoolServiceError Unit)} (hr : acc.1.ctx.state.Canonical)
    (h : txs.foldlM (applyNext P V cfg store) acc = some out) :
    ∃ extra, out.1.ctx.nullifiers.newly = acc.1.ctx.nullifiers.newly ++ extra ∧
      (spentBy (accepted P V cfg store acc.1 txs)).length ≤ extra.length := by
  induction txs generalizing acc with
  | nil =>
    cases h
    exact ⟨[], (List.append_nil _).symm, Nat.le_refl _⟩
  | cons tx txs ih =>
    obtain ⟨r, status, hone, h⟩ := applyNext_cons h
    have hspec := applyOne_spec hr hone
    obtain ⟨extra, hnew, hlen⟩ := ih (hspec.canonical hr) h
    cases hspec with
    | accepted _ _ _ newly =>
      simp only [accepted, hone]
      refine ⟨tx.2.nullifiers ++ extra, by rw [hnew, newly, List.append_assoc], ?_⟩
      rw [spentBy, List.flatMap_cons, List.length_append, List.length_append]
      exact Nat.add_le_add_left hlen _
    | unchanged ctx _ =>
      simp only [accepted, hone]
      exact ⟨extra, by rw [hnew, ctx], hlen⟩
    | full _ _ _ _ _ newly =>
      simp only [accepted, hone]
      exact ⟨tx.2.nullifiers ++ extra, by rw [hnew, newly, List.append_assoc],
        hlen.trans (by simp)⟩

theorem newly_eq_iff {txs : List (Pubkey × PoolInstruction)}
    {acc out : Running × List (Except PoolServiceError Unit)}
    (h : txs.foldlM (applyNext P V cfg store) acc = some out) (hr : acc.1.ctx.state.Canonical) :
    out.1.ctx.nullifiers.newly =
        acc.1.ctx.nullifiers.newly ++ spentBy (accepted P V cfg store acc.1 txs) ↔
      FindsRoom P V cfg store acc.1 txs := by
  induction txs generalizing acc with
  | nil =>
    cases h
    simp [accepted, spentBy, FindsRoom]
  | cons tx txs ih =>
    obtain ⟨r, status, hone, h⟩ := applyNext_cons h
    have hspec := applyOne_spec hr hone
    have hcanonical := hspec.canonical hr
    have hih := ih h hcanonical
    have hrest : (∀ r' status, applyOne P V cfg store acc.1 tx.1 tx.2 = some (r', status) →
        FindsRoom P V cfg store r' txs) ↔ FindsRoom P V cfg store r txs := by
      simp [hone]
    rw [FindsRoom, hrest]
    cases hspec with
    | accepted _ room _ newly =>
      simp only [accepted, hone, spentBy, List.flatMap_cons]
      rw [← hih, newly, List.append_assoc]
      exact (and_iff_right fun _ _ _ => room).symm
    | unchanged ctx room =>
      simp only [accepted, hone]
      rw [← hih, ctx]
      exact (and_iff_right fun hfunds hchecked hne => absurd (room hfunds hchecked) hne).symm
    | full funds checked room spends _ newly =>
      simp only [accepted, hone]
      refine iff_of_false ?_ fun hfinds => room (hfinds.1 funds checked spends)
      -- the rejected transaction's nullifiers are too many
      intro heq
      obtain ⟨extra, hnew, hlen⟩ := newly_extends hcanonical h
      rw [hnew, newly, List.append_assoc] at heq
      have hlength := congrArg List.length (List.append_cancel_left heq)
      rw [List.length_append] at hlength
      have := List.length_pos_iff.mpr spends
      dsimp only at hlen
      omega

theorem state_of_findsRoom {txs : List (Pubkey × PoolInstruction)}
    {acc out : Running × List (Except PoolServiceError Unit)}
    (h : txs.foldlM (applyNext P V cfg store) acc = some out) (hr : acc.1.ctx.state.Canonical)
    (hroom : FindsRoom P V cfg store acc.1 txs) :
    out.1.ctx.state = foldedState P acc.1.ctx.state (accepted P V cfg store acc.1 txs) ∧
      (accepted P V cfg store acc.1 txs ≠ [] →
        acc.1.ctx.state.nextLeafIndex.toNat < out.1.ctx.state.nextLeafIndex.toNat) ∧
      acc.1.ctx.state.nextLeafIndex.toNat ≤ out.1.ctx.state.nextLeafIndex.toNat := by
  induction txs generalizing acc with
  | nil =>
    cases h
    exact ⟨rfl, fun hne => absurd rfl hne, Nat.le_refl _⟩
  | cons tx txs ih =>
    obtain ⟨r, status, hone, h⟩ := applyNext_cons h
    have hspec := applyOne_spec hr hone
    obtain ⟨hstate, hlt, hle⟩ := ih h (hspec.canonical hr) (hroom.2 r status hone)
    cases hspec with
    | accepted checked room state _ =>
      obtain ⟨-, hnext⟩ := PoolState.appendAll_spec (P := P) hr _ room
      have hpos := List.length_pos_iff.mpr (leaves_ne_nil (P := P) checked)
      simp only [accepted, hone]
      refine ⟨?_, fun _ => ?_, ?_⟩
      · rw [hstate, foldedState, foldedState, state, List.flatMap_cons, PoolState.appendAll,
          PoolState.appendAll, PoolState.appendAll, List.foldl_append]
      all_goals
        rw [state, hnext] at hle
        omega
    | unchanged ctx _ =>
      simp only [accepted, hone]
      rw [ctx] at hstate hlt hle
      exact ⟨hstate, hlt, hle⟩
    | full funds checked room spends _ _ => exact absurd (hroom.1 funds checked spends) room

end PoolService

end Zul.Privacy
