import Zul.Store.Smt

/-! # Leaf maps

What the state tree is for: a map from keys to account hashes, committed to by the root of the
full tree that has each key's leaf at its position. A batch of updates applied to a node table
carries the table from the tree of one map to that of the next.
-/

namespace Zul.Smt

abbrev LeafMap := PartialMap Pubkey H256

def setLeaf (leaves : LeafMap) (update : LeafUpdate) : LeafMap := fun k =>
  if k = update.1 then update.2 else leaves k

/-- The map after a list of updates to the empty one; the last update of a key wins. -/
def leafMap (updates : List LeafUpdate) : LeafMap := updates.foldl setLeaf fun _ => none

variable (P : Prims)

def position (pubkey : Pubkey) : ℕ :=
  (tree P SMT_DEPTH).pathIndex (keyPath P pubkey) (tree P SMT_DEPTH).depth

open Classical in
noncomputable def mapLeaf (leaves : LeafMap) (index : ℕ) : H256 :=
  if h : ∃ k, (leaves k).isSome ∧ position P k = index then
    provenLeaf P h.choose (leaves h.choose)
  else emptyHashes P SMT_DEPTH

/-- The root of the full depth-256 tree of a map. -/
noncomputable def mapRoot (leaves : LeafMap) : H256 :=
  MerkleTree.root (nodeHash P) (mapLeaf P leaves) SMT_DEPTH

def updateLeaves (leaf : ℕ → H256) (updates : List LeafUpdate) : ℕ → H256 :=
  updates.foldl (fun leaf u => Function.update leaf (position P u.1) (provenLeaf P u.1 u.2)) leaf

variable {P}

theorem keyPath_eq_of_position_eq {k k' : Pubkey} (h : position P k = position P k') :
    keyPath P k = keyPath P k' := by
  ext1
  refine BitString.ext (by simp) fun i hi => SparseTree.pathIndex_eq_iff.mp h i ?_
  rw [Bytes.length_toList] at hi
  exact hi

theorem foldl_setLeaf_apply (leaves : LeafMap) (updates : List LeafUpdate) (k : Pubkey) :
    updates.foldl setLeaf leaves k =
      (updates.filter (·.1 = k)).getLast?.elim (leaves k) Prod.snd := by
  induction updates using List.reverseRecOn with
  | nil => rfl
  | append_singleton updates u ih =>
    rw [List.foldl_append, List.foldl_cons, List.foldl_nil, List.filter_append, setLeaf]
    by_cases hk : k = u.1
    · simp [hk]
    · rw [if_neg hk, ih, List.filter_singleton, decide_eq_false (Ne.symm hk)]
      simp

section Leaves

variable {K : Set Pubkey} {leaves : LeafMap}

theorem mapLeaf_position (hinj : Set.InjOn (keyPath P) K)
    (hleaves : ∀ k, (leaves k).isSome → k ∈ K) {k : Pubkey} (hk : k ∈ K) :
    mapLeaf P leaves (position P k) = provenLeaf P k (leaves k) := by
  rw [mapLeaf]
  split
  · rename_i h
    obtain ⟨hsome, hposition⟩ := h.choose_spec
    rw [hinj (hleaves _ hsome) hk (keyPath_eq_of_position_eq hposition)]
  · rename_i h
    have hnone : leaves k = none := by
      by_contra hne
      exact h ⟨k, Option.ne_none_iff_isSome.mp hne, rfl⟩
    rw [hnone]
    rfl

theorem mapLeaf_of_absent {index : ℕ} (h : ∀ k, (leaves k).isSome → position P k ≠ index) :
    mapLeaf P leaves index = emptyHashes P SMT_DEPTH := by
  rw [mapLeaf, dif_neg]
  rintro ⟨k, hsome, hposition⟩
  exact h k hsome hposition

theorem mapLeaf_empty : mapLeaf P (fun _ => none) = fun _ => emptyHashes P SMT_DEPTH := by
  funext index
  apply mapLeaf_of_absent
  intro k hk
  cases hk

theorem isSome_setLeaf (hleaves : ∀ k, (leaves k).isSome → k ∈ K) {u : LeafUpdate}
    (hk : u.1 ∈ K) (j : Pubkey) (hj : (setLeaf leaves u j).isSome) : j ∈ K := by
  rw [setLeaf] at hj
  split at hj
  · rename_i heq
    exact heq ▸ hk
  · exact hleaves j hj

theorem mapLeaf_setLeaf (hinj : Set.InjOn (keyPath P) K)
    (hleaves : ∀ k, (leaves k).isSome → k ∈ K) {u : LeafUpdate} (hk : u.1 ∈ K) :
    mapLeaf P (setLeaf leaves u) =
      Function.update (mapLeaf P leaves) (position P u.1) (provenLeaf P u.1 u.2) := by
  have hkeys := isSome_setLeaf hleaves hk
  funext index
  by_cases hindex : index = position P u.1
  · subst hindex
    rw [mapLeaf_position hinj hkeys hk, Function.update_self, setLeaf, if_pos rfl]
  · rw [Function.update_of_ne hindex]
    have hne : ∀ j, position P j = index → j ≠ u.1 := by
      rintro j rfl rfl
      exact hindex rfl
    by_cases hsome : ∃ j, (leaves j).isSome ∧ position P j = index
    · obtain ⟨j, hj, hposition⟩ := hsome
      have hjK := hleaves j hj
      rw [← hposition, mapLeaf_position hinj hkeys hjK, mapLeaf_position hinj hleaves hjK, setLeaf,
        if_neg (hne j hposition)]
    · push Not at hsome
      rw [mapLeaf_of_absent hsome, mapLeaf_of_absent]
      intro j hj hposition
      rw [setLeaf, if_neg (hne j hposition)] at hj
      exact hsome j hj hposition

theorem mapLeaf_foldl_setLeaf (hinj : Set.InjOn (keyPath P) K)
    (hleaves : ∀ k, (leaves k).isSome → k ∈ K) {updates : List LeafUpdate}
    (hupdates : ∀ u ∈ updates, u.1 ∈ K) :
    mapLeaf P (updates.foldl setLeaf leaves) = updateLeaves P (mapLeaf P leaves) updates ∧
      ∀ k, (updates.foldl setLeaf leaves k).isSome → k ∈ K := by
  induction updates generalizing leaves with
  | nil => exact ⟨rfl, hleaves⟩
  | cons u updates ih =>
    rw [List.forall_mem_cons] at hupdates
    rw [List.foldl_cons, updateLeaves, List.foldl_cons,
      ← mapLeaf_setLeaf hinj hleaves hupdates.1]
    exact ih (isSome_setLeaf hleaves hupdates.1) hupdates.2

end Leaves

/-! ## Updates of the node table -/

theorem nodeWrites_applyUpdates (source : PartialMap NodeKey H256) (updates : List LeafUpdate) :
    (applyUpdates P source updates).nodeWrites = updates.foldl
      (fun overlay u => (tree P SMT_DEPTH).insert source overlay (keyPath P u.1)
        (provenLeaf P u.1 u.2)) fun _ => none := rfl

theorem insertAll_spec {source overlay : PartialMap NodeKey H256} {leaf : ℕ → H256}
    (hconsistent : (tree P SMT_DEPTH).Consistent (overlay.onto source))
    (hleaf : (tree P SMT_DEPTH).Leaves leaf (overlay.onto source)) (updates : List LeafUpdate) :
    let nodes := (updates.foldl (fun overlay u => (tree P SMT_DEPTH).insert source overlay
      (keyPath P u.1) (provenLeaf P u.1 u.2)) overlay).onto source
    (tree P SMT_DEPTH).Consistent nodes ∧
      (tree P SMT_DEPTH).Leaves (updateLeaves P leaf updates) nodes := by
  have hS : (tree P SMT_DEPTH).Lawful := tree_lawful P le_rfl
  induction updates generalizing overlay leaf with
  | nil => exact ⟨hconsistent, hleaf⟩
  | cons u updates ih =>
    rw [updateLeaves, List.foldl_cons, List.foldl_cons]
    exact ih (hS.consistent_insert hconsistent _ _) (hS.leaves_insert hleaf _ _)

theorem applyUpdates_spec {source : PartialMap NodeKey H256} {leaf : ℕ → H256}
    (hsource : (tree P SMT_DEPTH).Consistent source) (hleaf : (tree P SMT_DEPTH).Leaves leaf source)
    (updates : List LeafUpdate) :
    let nodes := (applyUpdates P source updates).nodeWrites.onto source
    (tree P SMT_DEPTH).Consistent nodes ∧
      (tree P SMT_DEPTH).Leaves (updateLeaves P leaf updates) nodes := by
  rw [nodeWrites_applyUpdates]
  exact insertAll_spec hsource hleaf updates

theorem applyUpdates_frame (source : PartialMap NodeKey H256) (updates : List LeafUpdate)
    {key : NodeKey} (hkey : ∀ d ≤ SMT_DEPTH, ∀ path, nodeKey d path ≠ key) :
    (applyUpdates P source updates).nodeWrites.onto source key = source key := by
  have hS : (tree P SMT_DEPTH).Lawful := tree_lawful P le_rfl
  have hloop : ∀ overlay : PartialMap NodeKey H256, overlay.onto source key = source key →
      (updates.foldl (fun overlay u => (tree P SMT_DEPTH).insert source overlay (keyPath P u.1)
        (provenLeaf P u.1 u.2)) overlay).onto source key = source key := by
    induction updates with
    | nil => exact fun overlay h => h
    | cons u updates ih =>
      intro overlay h
      rw [List.foldl_cons]
      apply ih
      rw [← h]
      exact (hS.insert_spec source overlay _ _).1 key fun d hd => (hkey d hd _).symm
  rw [nodeWrites_applyUpdates]
  exact hloop _ rfl

end Zul.Smt
