import Zul.Lib.RingBuffer
import Zul.Privacy.Nullifiers
import Zul.Privacy.Tree

/-! # Sequences of insertions

Leaves inserted one by one into the empty state get the indices in order, and the current root is
that of the complete tree, computed level by level, after each of them. The ring of roots keeps
the newest ones. Storing and loading the state in between changes nothing.
-/

namespace Zul.Privacy

/-! ## The root level by level -/

section Reference

variable (P : Prims)

/-- One level of the slow computation; an empty level is one empty node. -/
def referenceLevel (nodes : List Fr) (level : ℕ) : List Fr :=
  let next := MerkleTree.pairUp (treeNode P) (zeroHashes P level) nodes
  if next.isEmpty then [treeNode P (zeroHashes P level) (zeroHashes P level)] else next

/-- The slow root computation over the given leaves; an empty last level would panic. -/
def referenceRoot (leaves : List Fr) : Option Fr :=
  ((List.range TREE_DEPTH).foldl (referenceLevel P) leaves)[0]?

variable {P}

theorem getD_referenceLevel (nodes : List Fr) (level i : ℕ) :
    (referenceLevel P nodes level).getD i (zeroHashes P (level + 1)) =
      treeNode P (nodes.getD (2 * i) (zeroHashes P level))
        (nodes.getD (2 * i + 1) (zeroHashes P level)) := by
  refine Eq.trans ?_ (@MerkleTree.getD_pairUp Fr (treeNode P) (zeroHashes P level) nodes i)
  rw [referenceLevel]
  split
  · rename_i hempty
    rw [List.isEmpty_iff.mp hempty]
    cases i <;> rfl
  · rfl

theorem referenceLevel_ne_nil (nodes : List Fr) (level : ℕ) :
    referenceLevel P nodes level ≠ [] := by
  rw [referenceLevel]
  split
  · exact List.cons_ne_nil _ _
  · rename_i hne
    simpa using hne

theorem getD_referenceLevels (leaves : List Fr) (level i : ℕ) :
    ((List.range level).foldl (referenceLevel P) leaves).getD i (zeroHashes P level) =
      MerkleTree.nodeAt (treeNode P) (leafAt leaves) level i := by
  induction level generalizing i with
  | zero => rfl
  | succ level ih =>
    rw [List.range_succ, List.foldl_append, List.foldl_cons, List.foldl_nil, getD_referenceLevel,
      ih, ih, MerkleTree.nodeAt]

theorem referenceLevels_ne_nil (leaves : List Fr) (level : ℕ) :
    (List.range (level + 1)).foldl (referenceLevel P) leaves ≠ [] := by
  rw [List.range_succ, List.foldl_append]
  exact referenceLevel_ne_nil _ _

theorem referenceRoot_eq (leaves : List Fr) :
    referenceRoot P leaves = some (treeRoot P leaves) := by
  have hroot := getD_referenceLevels (P := P) leaves TREE_DEPTH 0
  have hpos : 0 < ((List.range TREE_DEPTH).foldl (referenceLevel P) leaves).length :=
    List.length_pos_iff.mpr (referenceLevels_ne_nil leaves 25)
  rw [List.getD_eq_getElem _ _ hpos] at hroot
  rw [referenceRoot, List.getElem?_eq_getElem hpos, hroot, treeRoot, MerkleTree.root]

end Reference

/-! ## Insertions and reloads -/

inductive TreeAction
  | insert (leaf : Fr)
  | reload

namespace TreeAction

def leaf? : TreeAction → Option Fr
  | .insert leaf => some leaf
  | .reload => none

def run (P : Prims) (acc : PoolState × List UInt32) :
    TreeAction → Except PoolStateError (PoolState × List UInt32)
  | .insert leaf =>
    match acc.1.insert P leaf with
    | (s, .ok index) => .ok (s, acc.2 ++ [index])
    | (_, .error e) => .error e
  | .reload => (PoolState.fromBytes acc.1.toBytes).map fun s => (s, acc.2)

end TreeAction

namespace PoolState

variable {P : Prims}

/-- The state after some leaves were inserted, with the indices they got. -/
structure Grown (P : Prims) (leaves : List Fr) (acc : PoolState × List UInt32) : Prop where
  tree : TreeOf P leaves acc.1
  canonical : acc.1.Canonical
  indices : acc.2.map UInt32.toNat = List.range leaves.length

theorem grown_new (P : Prims) : Grown P [] (PoolState.new P, []) :=
  ⟨treeOf_new P, canonical_new P, rfl⟩

theorem Grown.run {leaves : List Fr} {acc : PoolState × List UInt32} (h : Grown P leaves acc)
    {action : TreeAction} (hroom : (leaves ++ action.leaf?.toList).length ≤ capacity) :
    ∃ out, action.run P acc = .ok out ∧ Grown P (leaves ++ action.leaf?.toList) out := by
  obtain ⟨s, indices⟩ := acc
  cases action with
  | insert leaf =>
    rw [TreeAction.leaf?, Option.toList_some, List.length_append, List.length_singleton] at hroom
    have hnext : s.nextLeafIndex.toNat = leaves.length := h.tree.next
    obtain ⟨s', hinsert, hcanonical, -⟩ :=
      insert_of_room (P := P) h.canonical (hnext.trans_lt hroom) leaf
    have htree := h.tree.insert hroom leaf
    rw [hinsert] at htree
    refine ⟨(s', indices ++ [s.nextLeafIndex]), ?_, htree, hcanonical, ?_⟩
    · simp only [TreeAction.run, hinsert]
    · rw [List.map_append, h.indices, TreeAction.leaf?, Option.toList_some, List.length_append,
        List.length_singleton, List.range_succ, ← hnext]
      rfl
  | reload =>
    refine ⟨(s, indices), ?_, ?_⟩
    · rw [TreeAction.run, fromBytes_toBytes]
      rfl
    · rw [TreeAction.leaf?, Option.toList_none, List.append_nil]
      exact h

theorem Grown.runAll {leaves : List Fr} {acc : PoolState × List UInt32} (h : Grown P leaves acc)
    {actions : List TreeAction}
    (hroom : (leaves ++ actions.filterMap TreeAction.leaf?).length ≤ capacity) :
    ∃ out, actions.foldlM (TreeAction.run P) acc = .ok out ∧
      Grown P (leaves ++ actions.filterMap TreeAction.leaf?) out := by
  induction actions generalizing leaves acc with
  | nil => exact ⟨acc, rfl, by simpa using h⟩
  | cons action actions ih =>
    have hleaves : leaves ++ (action :: actions).filterMap TreeAction.leaf? =
        leaves ++ action.leaf?.toList ++ actions.filterMap TreeAction.leaf? := by
      cases action <;> simp [TreeAction.leaf?, List.filterMap_cons]
    rw [hleaves] at hroom ⊢
    have hfirst : (leaves ++ action.leaf?.toList).length ≤ capacity := by
      rw [List.length_append] at hroom
      omega
    obtain ⟨next, hstep, hnext⟩ := h.run hfirst
    obtain ⟨out, hrest, hout⟩ := ih hnext hroom
    refine ⟨out, ?_, hout⟩
    rw [List.foldlM_cons, hstep]
    exact hrest

/-- Inserting at most as many leaves as the tree holds, with the state stored and loaded in
between as one likes, succeeds with the indices in order and the root of the complete tree. A
full tree refuses the next leaf and stays as it is. -/
theorem insertions_follow_reference (P : Prims) (actions : List TreeAction)
    (hroom : (actions.filterMap TreeAction.leaf?).length ≤ capacity) :
    ∃ s indices, actions.foldlM (TreeAction.run P) (PoolState.new P, []) = .ok (s, indices) ∧
      indices.map UInt32.toNat = List.range (actions.filterMap TreeAction.leaf?).length ∧
      referenceRoot P (actions.filterMap TreeAction.leaf?) =
        some (treeRoot P (actions.filterMap TreeAction.leaf?)) ∧
      s.currentRoot = (referenceRoot P (actions.filterMap TreeAction.leaf?)).map frToBytes ∧
      ((actions.filterMap TreeAction.leaf?).length = capacity →
        ∀ leaf, s.insert P leaf = (s, .error .treeFull)) := by
  obtain ⟨⟨s, indices⟩, hrun, hgrown⟩ := (grown_new P).runAll (by rwa [List.nil_append])
  rw [List.nil_append] at hgrown
  refine ⟨s, indices, hrun, hgrown.indices, referenceRoot_eq _, ?_, fun hfull leaf => ?_⟩
  · rw [referenceRoot_eq]
    exact hgrown.tree.current
  · exact insert_of_full (hgrown.tree.next.trans hfull).ge leaf

/-- Two leaves, with the state stored and loaded between them, get the first two indices. -/
theorem two_insertions_follow_reference :
    ([TreeAction.insert 1, .reload, .insert 0].filterMap TreeAction.leaf?).length ≤ capacity ∧
      ∃ s indices, [TreeAction.insert 1, .reload, .insert 0].foldlM
          (TreeAction.run PoolService.Sample.prims) (PoolState.new PoolService.Sample.prims, []) =
            .ok (s, indices) ∧
        indices.map UInt32.toNat = [0, 1] ∧
        s.currentRoot = (referenceRoot PoolService.Sample.prims [1, 0]).map frToBytes := by
  have hroom : ([TreeAction.insert 1, .reload, .insert 0].filterMap TreeAction.leaf?).length ≤
      capacity := by decide
  obtain ⟨s, indices, hrun, hindices, -, hroot, -⟩ :=
    insertions_follow_reference PoolService.Sample.prims _ hroom
  exact ⟨hroom, s, indices, hrun, hindices, hroot⟩

/-! ## The root history -/

def rootAfter (P : Prims) (leaves : List Fr) (n : ℕ) : FieldBytes :=
  frToBytes (treeRoot P (leaves.take n))

theorem insert_ring {s : PoolState} (hs : s.Canonical) (h : s.nextLeafIndex.toNat < capacity)
    (leaf : Fr) (hindex : s.currentRootIndex.toNat < ROOT_HISTORY) :
    (s.insert P leaf).1.currentRootIndex.toNat = (s.currentRootIndex.toNat + 1) % ROOT_HISTORY ∧
      ∃ root, (s.insert P leaf).1.roots =
        s.roots.set ((s.currentRootIndex.toNat + 1) % ROOT_HISTORY) root := by
  have hnext : ((s.currentRootIndex + 1) % UInt32.ofNat ROOT_HISTORY).toNat =
      (s.currentRootIndex.toNat + 1) % ROOT_HISTORY := by
    have hbound : s.currentRootIndex.toNat < 64 := hindex
    have hsum : (s.currentRootIndex + 1).toNat = s.currentRootIndex.toNat + 1 := by
      rw [UInt32.toNat_add, UInt32.toNat_one]
      omega
    rw [UInt32.toNat_mod, hsum]
    rfl
  obtain ⟨hroot, -⟩ := insertFrom_canonical (P := P) TREE_DEPTH 0 s.nextLeafIndex.toNat leaf
    (by rw [s.length_filledSubtrees, Nat.zero_add]) hs
  obtain ⟨root, hroot⟩ := Option.isSome_iff_exists.mp hroot
  unfold insert
  dsimp only
  rw [if_neg (Nat.not_le.mpr h)]
  simp only [hroot]
  exact ⟨hnext, frToBytes root, by rw [hnext]⟩

theorem treeOf_take (P : Prims) {leaves : List Fr} {n : ℕ} (hroom : n ≤ capacity) :
    TreeOf P (leaves.take n) ((PoolState.new P).appendAll P (leaves.take n)) := by
  have hlength := List.length_take_le n leaves
  have htree := (treeOf_new P).appendAll (leaves.take n) (by rw [List.length_nil]; omega)
  rwa [List.nil_append] at htree

theorem holds_roots (leaves : List Fr) (n : ℕ) (hn : n ≤ leaves.length) (hroom : n ≤ capacity) :
    RingBuffer.Holds ROOT_HISTORY (Bytes.replicate 32 0) (rootAfter P leaves) n
      ((PoolState.new P).appendAll P (leaves.take n)).roots
      ((PoolState.new P).appendAll P (leaves.take n)).currentRootIndex.toNat := by
  induction n with
  | zero =>
    have hstart := @RingBuffer.holds_start _ ROOT_HISTORY (by decide) (Bytes.replicate 32 0)
      (rootAfter P leaves)
    rw [rootAfter, List.take_zero, treeRoot_nil] at hstart
    exact hstart
  | succ n ih =>
    have hlength : (leaves.take n).length = n := by
      rw [List.length_take]
      omega
    have hholds := ih (by omega) (by omega)
    have htree := @treeOf_take P leaves n (by omega)
    have hcanonical := (appendAll_spec (P := P) (canonical_new P) (leaves.take n)
      (by rw [hlength]; exact (Nat.zero_add n).trans_le (by omega))).1
    obtain ⟨leaf, hleaf⟩ : ∃ leaf, leaves.take (n + 1) = leaves.take n ++ [leaf] :=
      ⟨_, (List.take_concat_get' leaves n (by omega)).symm⟩
    have hstate : (PoolState.new P).appendAll P (leaves.take (n + 1)) =
        (((PoolState.new P).appendAll P (leaves.take n)).insert P leaf).1 := by
      rw [hleaf, appendAll, List.foldl_append]
      rfl
    rw [hstate]
    generalize (PoolState.new P).appendAll P (leaves.take n) = s at *
    have hfree : s.nextLeafIndex.toNat < capacity := by
      rw [htree.next, hlength]
      omega
    have hindex : s.currentRootIndex.toNat < ROOT_HISTORY := by
      rw [hholds.index]
      exact Nat.mod_lt _ (by decide)
    obtain ⟨hring, root, hroots⟩ := insert_ring (P := P) hcanonical hfree leaf hindex
    -- the root written is the current one
    have hcurrent := (htree.insert (by rw [hlength]; omega) leaf).current
    rw [hring, hroots, List.getElem?_set_self
      (by rw [s.length_roots]; exact Nat.mod_lt _ (by decide)),
      Option.some.injEq, ← hleaf] at hcurrent
    rw [hring, hroots, hcurrent]
    exact hholds.push

theorem appendAll_of_full {s : PoolState} (h : capacity ≤ s.nextLeafIndex.toNat)
    (leaves : List Fr) : s.appendAll P leaves = s := by
  induction leaves with
  | nil => rfl
  | cons leaf leaves ih =>
    rw [appendAll, List.foldl_cons, insert_of_full h]
    exact ih

theorem appendAll_eq_take (leaves : List Fr) :
    (PoolState.new P).appendAll P leaves =
      (PoolState.new P).appendAll P (leaves.take (min leaves.length capacity)) := by
  rcases Nat.le_total leaves.length capacity with hle | hge
  · rw [Nat.min_eq_left hle, List.take_length]
  · rw [Nat.min_eq_right hge]
    have hfull : capacity ≤
        ((PoolState.new P).appendAll P (leaves.take capacity)).nextLeafIndex.toNat := by
      rw [(treeOf_take P (Nat.le_refl capacity)).next, List.length_take, Nat.min_eq_left hge]
    have hrest := appendAll_of_full (P := P) hfull (leaves.drop capacity)
    rw [appendAll, appendAll, ← List.foldl_append, List.take_append_drop] at hrest
    exact hrest

/-- The roots after the latest insertions into the empty state, newest first: the current one and
at most 63 before it. -/
def recentRoots (P : Prims) (leaves : List Fr) : List FieldBytes :=
  let inserted := min leaves.length capacity
  (List.range (min (inserted + 1) ROOT_HISTORY)).filterMap fun age =>
    ((PoolState.new P).appendAll P (leaves.take (inserted - age))).currentRoot

/-- After any sequence of insertions the known roots are the latest ones, except for zero bytes,
and the ring's index is within the ring. -/
theorem known_roots_iff_recent (P : Prims) (leaves : List Fr) :
    ((PoolState.new P).appendAll P leaves).currentRootIndex.toNat < ROOT_HISTORY ∧
      ∀ candidate, ((PoolState.new P).appendAll P leaves).isKnownRoot candidate = true ↔
        candidate ≠ Bytes.replicate 32 0 ∧ candidate ∈ recentRoots P leaves := by
  have hroom : min leaves.length capacity ≤ capacity := Nat.min_le_right _ _
  have hholds := holds_roots (P := P) leaves _ (Nat.min_le_left _ capacity) hroom
  rw [appendAll_eq_take]
  constructor
  · rw [hholds.index]
    exact Nat.mod_lt _ (by decide)
  · intro candidate
    simp only [isKnownRoot, Bool.and_eq_true, decide_eq_true_eq, recentRoots, List.mem_filterMap,
      List.mem_range]
    refine and_congr_right fun hne => (hholds.mem_iff hne).trans (exists_congr fun age => ?_)
    have hcurrent := (@treeOf_take P leaves _
      ((Nat.sub_le (min leaves.length capacity) age).trans hroom)).current
    rw [currentRoot, hcurrent, Option.some.injEq, rootAfter]

end PoolState

end Zul.Privacy
