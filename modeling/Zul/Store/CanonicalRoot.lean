import Zul.Store.StateRoot

/-! # The node table is a function of the leaf map

However updates are ordered among different keys and cut into batches, the table that is written
and its root are those of the full tree of the resulting map: non-empty nodes are stored, each
the hash of its children, and nothing else is. Deleting every leaf therefore empties the table.
-/

namespace Zul.Smt

variable (P : Prims)

def persist (nodes : PartialMap NodeKey H256) (updates : List LeafUpdate) :
    PartialMap NodeKey H256 :=
  Store.writeSmtNodes P nodes (applyUpdates P nodes updates)

def committed (batches : List (List LeafUpdate)) : PartialMap NodeKey H256 :=
  batches.foldl (persist P) fun _ => none

structure Holds (leaves : LeafMap) (nodes : PartialMap NodeKey H256) : Prop where
  sparse : (tree P SMT_DEPTH).Sparse nodes
  consistent : (tree P SMT_DEPTH).Consistent nodes
  leaves : (tree P SMT_DEPTH).Leaves (mapLeaf P leaves) nodes

variable {P}

theorem holds_empty : Holds P (fun _ => none) fun _ => none where
  sparse := by
    intro key value h
    cases h
  consistent := SparseTree.consistent_empty
  leaves := by
    intro path
    rw [mapLeaf_empty]
    exact Option.getD_none

theorem sparse_persist {nodes : PartialMap NodeKey H256} (h : (tree P SMT_DEPTH).Sparse nodes)
    (updates : List LeafUpdate) : (tree P SMT_DEPTH).Sparse (persist P nodes updates) := by
  intro key value hvalue
  rw [persist, Store.writeSmtNodes] at hvalue
  split at hvalue
  · rename_i written hwritten
    split at hvalue
    · cases hvalue
    · rename_i hne
      cases hvalue
      by_contra hnot
      -- a key outside the tree is not written
      have hkey : ∀ d ≤ SMT_DEPTH, ∀ path, nodeKey d path ≠ key := by
        rintro d hd path rfl
        rw [depth_nodeKey hd] at hne
        exact hnot ⟨d, hd, path, rfl, hne⟩
      have hframe := applyUpdates_frame (P := P) nodes updates hkey
      rw [PartialMap.onto_apply, hwritten] at hframe
      obtain ⟨d, hd, path, hpath, -⟩ := h key _ hframe.symm
      exact hkey d hd path hpath
  · exact h key value hvalue

section Runs

variable {K : Set Pubkey} {leaves : LeafMap} {nodes : PartialMap NodeKey H256}
  {updates : List LeafUpdate}

theorem Holds.applyUpdates (h : Holds P leaves nodes) (hinj : Set.InjOn (keyPath P) K)
    (hleaves : ∀ k, (leaves k).isSome → k ∈ K) (hupdates : ∀ u ∈ updates, u.1 ∈ K) :
    let written := (Smt.applyUpdates P nodes updates).nodeWrites.onto nodes
    (tree P SMT_DEPTH).Consistent written ∧
      (tree P SMT_DEPTH).Leaves (mapLeaf P (updates.foldl setLeaf leaves)) written := by
  rw [(mapLeaf_foldl_setLeaf hinj hleaves hupdates).1]
  exact applyUpdates_spec h.consistent h.leaves updates

theorem Holds.newRoot_eq (h : Holds P leaves nodes) (hinj : Set.InjOn (keyPath P) K)
    (hleaves : ∀ k, (leaves k).isSome → k ∈ K) (hupdates : ∀ u ∈ updates, u.1 ∈ K) :
    (Smt.applyUpdates P nodes updates).newRoot = mapRoot P (updates.foldl setLeaf leaves) := by
  obtain ⟨hconsistent, hleaf⟩ := h.applyUpdates hinj hleaves hupdates
  have hS : (tree P SMT_DEPTH).Lawful := tree_lawful P le_rfl
  exact hS.read_eq_nodeAt hconsistent hleaf (Nat.zero_add _) _

theorem Holds.persist (h : Holds P leaves nodes) (hinj : Set.InjOn (keyPath P) K)
    (hleaves : ∀ k, (leaves k).isSome → k ∈ K) (hupdates : ∀ u ∈ updates, u.1 ∈ K) :
    Holds P (updates.foldl setLeaf leaves) (Smt.persist P nodes updates) := by
  obtain ⟨hconsistent, hleaf⟩ := h.applyUpdates hinj hleaves hupdates
  have hread := fun {d} (hd : d ≤ SMT_DEPTH) path =>
    Store.read_writeSmtNodes (P := P) nodes (Smt.applyUpdates P nodes updates) hd path
  refine ⟨sparse_persist h.sparse updates, fun d hd path => ?_, fun path => ?_⟩
  · have hd : d < SMT_DEPTH := hd
    rw [Smt.persist, hread hd.le, hread hd, hread hd]
    exact hconsistent d hd path
  · exact (hread le_rfl path).trans (hleaf path)

theorem holds_committed (hinj : Set.InjOn (keyPath P) K) {batches : List (List LeafUpdate)}
    (hbatches : ∀ batch ∈ batches, ∀ u ∈ batch, u.1 ∈ K) :
    Holds P (leafMap batches.flatten) (committed P batches) ∧
      ∀ k, (leafMap batches.flatten k).isSome → k ∈ K := by
  induction batches using List.reverseRecOn with
  | nil => exact ⟨holds_empty, fun k hk => by cases hk⟩
  | append_singleton batches batch ih =>
    have hbatch := hbatches batch (by simp)
    obtain ⟨h, hkeys⟩ := ih fun batch hmem => hbatches batch (by simp [hmem])
    have hmap : leafMap (batches ++ [batch]).flatten =
        batch.foldl setLeaf (leafMap batches.flatten) := by
      rw [List.flatten_append, List.flatten_singleton, leafMap, List.foldl_append]
      rfl
    rw [hmap, committed, List.foldl_append, List.foldl_cons, List.foldl_nil]
    exact ⟨h.persist hinj hkeys hbatch, (mapLeaf_foldl_setLeaf hinj hkeys hbatch).2⟩

theorem Holds.table_eq {nodes' : PartialMap NodeKey H256} (h : Holds P leaves nodes)
    (h' : Holds P leaves nodes') : nodes = nodes' := by
  have hS : (tree P SMT_DEPTH).Lawful := tree_lawful P le_rfl
  exact hS.table_eq_of_leaves h.sparse h.consistent h.leaves h'.sparse h'.consistent h'.leaves

end Runs

theorem mapRoot_empty : mapRoot P (fun _ => none) = emptyHashes P 0 := by
  have h := @Holds.newRoot_eq P ∅ _ _ [] holds_empty (by simp) (by simp) (by simp)
  exact h.symm

theorem leafMap_append (updates updates' : List LeafUpdate) :
    leafMap (updates ++ updates') = updates'.foldl setLeaf (leafMap updates) :=
  List.foldl_append

theorem foldl_setLeaf_deletions {leaves : LeafMap} {removed : List Pubkey}
    (h : ∀ k, (leaves k).isSome → k ∈ removed) :
    (removed.map fun k => (k, none)).foldl setLeaf leaves = fun _ => none := by
  induction removed generalizing leaves with
  | nil =>
    funext k
    by_contra hne
    exact absurd (h k (Option.ne_none_iff_isSome.mp hne)) List.not_mem_nil
  | cons k removed ih =>
    rw [List.map_cons, List.foldl_cons]
    apply ih
    intro j hj
    rw [setLeaf] at hj
    split at hj
    · cases hj
    · rename_i hne
      exact (List.mem_cons.mp (h j hj)).resolve_left hne

/-- The root returned is that of the full tree of the updated map. It and the table written depend
only on the updates of each key, and deleting every key restores the empty table. -/
theorem sparse_tree_canonical {K : Set Pubkey} (hinj : Set.InjOn (keyPath P) K)
    {batches : List (List LeafUpdate)} (hbatches : ∀ batch ∈ batches, ∀ u ∈ batch, u.1 ∈ K)
    {updates : List LeafUpdate} (hupdates : ∀ u ∈ updates, u.1 ∈ K) :
    (applyUpdates P (committed P batches) updates).newRoot =
        mapRoot P (leafMap (batches.flatten ++ updates)) ∧
      (∀ batches' updates', (∀ batch ∈ batches', ∀ u ∈ batch, u.1 ∈ K) →
        (∀ u ∈ updates', u.1 ∈ K) →
        (∀ k, (batches'.flatten ++ updates').filter (·.1 = k) =
          (batches.flatten ++ updates).filter (·.1 = k)) →
        (applyUpdates P (committed P batches') updates').newRoot =
            (applyUpdates P (committed P batches) updates).newRoot ∧
          persist P (committed P batches') updates' = persist P (committed P batches) updates) ∧
      ∀ removed : List Pubkey, (∀ k ∈ removed, k ∈ K) →
        (∀ k, (leafMap (batches.flatten ++ updates) k).isSome → k ∈ removed) →
        let nodes := persist P (committed P batches) updates
        let deletions := removed.map fun k => (k, none)
        (applyUpdates P nodes deletions).newRoot = emptyHashes P 0 ∧
          persist P nodes deletions = fun _ => none := by
  -- every run of batches and a last one, by its map
  have hrun : ∀ {batches updates}, (∀ batch ∈ batches, ∀ u ∈ batch, u.1 ∈ K) →
      (∀ u ∈ updates, u.1 ∈ K) →
      (applyUpdates P (committed P batches) updates).newRoot =
          mapRoot P (leafMap (batches.flatten ++ updates)) ∧
        Holds P (leafMap (batches.flatten ++ updates)) (persist P (committed P batches) updates) ∧
        ∀ k, (leafMap (batches.flatten ++ updates) k).isSome → k ∈ K := by
    intro batches updates hbatches hupdates
    obtain ⟨h, hkeys⟩ := holds_committed hinj hbatches
    rw [leafMap_append]
    exact ⟨h.newRoot_eq hinj hkeys hupdates, h.persist hinj hkeys hupdates,
      (mapLeaf_foldl_setLeaf hinj hkeys hupdates).2⟩
  obtain ⟨hroot, hholds, hkeys⟩ := hrun hbatches hupdates
  refine ⟨hroot, ?_, ?_⟩
  · intro batches' updates' hbatches' hupdates' hsame
    obtain ⟨hroot', hholds', -⟩ := hrun hbatches' hupdates'
    have hmap : leafMap (batches'.flatten ++ updates') = leafMap (batches.flatten ++ updates) := by
      funext k
      rw [leafMap, leafMap, foldl_setLeaf_apply, foldl_setLeaf_apply, hsame]
    rw [hmap] at hroot' hholds'
    exact ⟨hroot'.trans hroot.symm, hholds'.table_eq hholds⟩
  · intro removed hremoved hall nodes deletions
    have hdeletions : ∀ u ∈ deletions, u.1 ∈ K := by
      intro u hu
      obtain ⟨k, hk, rfl⟩ := List.mem_map.mp hu
      exact hremoved k hk
    have hnewRoot := hholds.newRoot_eq hinj hkeys hdeletions
    have hempty := hholds.persist hinj hkeys hdeletions
    rw [foldl_setLeaf_deletions hall] at hnewRoot hempty
    exact ⟨hnewRoot.trans mapRoot_empty, hempty.table_eq holds_empty⟩

/-- Two leaves written in two batches and deleted together, one of them twice. -/
theorem two_leaves_deleted :
    let first := Bytes.replicate 32 1
    let second := Bytes.replicate 32 2
    let nodes := persist Store.Sample.prims
      (committed Store.Sample.prims [[(first, some (Bytes.replicate 32 7))]])
      [(second, some (Bytes.replicate 32 8)), (second, some (Bytes.replicate 32 9))]
    persist Store.Sample.prims nodes [(first, none), (second, none), (first, none)] =
      fun _ => none := by
  intro first second nodes
  have hinj : Set.InjOn (keyPath Store.Sample.prims) Set.univ :=
    Store.Sample.keyPath_injective.injOn
  have hcanonical := @sparse_tree_canonical Store.Sample.prims Set.univ hinj
    [[(first, some (Bytes.replicate 32 7))]] (by simp)
    [(second, some (Bytes.replicate 32 8)), (second, some (Bytes.replicate 32 9))] (by simp)
  refine (hcanonical.2.2 [first, second, first] (by simp) ?_).2
  intro k hk
  by_contra hnot
  simp only [List.mem_cons, not_or] at hnot
  simp [leafMap, setLeaf, hnot] at hk

end Zul.Smt
