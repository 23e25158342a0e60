import Zul.Lib.MerkleTree
import Zul.Privacy.Commitments

/-! # The commitment tree

The pool state keeps one left sibling a level and a ring of roots. They are nodes of the complete
tree over the commitments appended so far with empty leaves after them: a sibling is remembered
when its subtree fills up, before the first leaf to its right, and every root in the ring is that
of a tree the pool once had.
-/

namespace Zul.Privacy

def emptyLeaf : Fr := (770212417220141184 : ℕ)

def leafAt (leaves : List Fr) (i : ℕ) : Fr := leaves.getD i emptyLeaf

theorem leafAt_of_length_le {leaves : List Fr} {i : ℕ} (h : leaves.length ≤ i) :
    leafAt leaves i = emptyLeaf :=
  List.getD_eq_default _ _ h

theorem leafAt_append_of_lt {leaves : List Fr} {i : ℕ} (h : i < leaves.length) (more : List Fr) :
    leafAt (leaves ++ more) i = leafAt leaves i :=
  List.getD_append _ _ _ _ h

theorem leafAt_append_length (leaves : List Fr) (leaf : Fr) :
    leafAt (leaves ++ [leaf]) leaves.length = leaf := by
  simp [leafAt]

def treeRoot (P : Prims) (leaves : List Fr) : Fr :=
  MerkleTree.root (treeNode P) (leafAt leaves) TREE_DEPTH

/-- What is hashed to the nodes of the trees over the beginnings of a list of commitments. -/
def treeInputs (P : Prims) (leaves : List Fr) : Set (List Fr) :=
  {x | ∃ k, ∃ pair ∈ MerkleTree.inner (treeNode P) (leafAt (leaves.take k)) TREE_DEPTH,
    x = [pair.1, pair.2]}

theorem treeInputs_take (P : Prims) (leaves : List Fr) (j : ℕ) :
    treeInputs P (leaves.take j) ⊆ treeInputs P leaves := by
  rintro x ⟨k, pair, hpair, rfl⟩
  rw [List.take_take] at hpair
  exact ⟨_, pair, hpair, rfl⟩

def CollisionFree (P : Prims) (inputs : Set (List Fr)) : Prop :=
  ∀ x ∈ inputs, ∀ y ∈ inputs, x.length = y.length → P.poseidon x = P.poseidon y → x = y

theorem leaf_of_climb {P : Prims} {inputs : Set (List Fr)} (hfree : CollisionFree P inputs)
    {leaves : List Fr} (htree : treeInputs P leaves ⊆ inputs) {k : ℕ} {x : Fr}
    {steps : List (Bool × Fr)} (hdepth : steps.length = TREE_DEPTH)
    (hclimbed : ∀ pair ∈ MerkleTree.climbed (treeNode P) x steps, [pair.1, pair.2] ∈ inputs)
    (h : MerkleTree.climb (treeNode P) x steps = treeRoot P (leaves.take k))
    (hx : x ≠ emptyLeaf) : leaves[MerkleTree.pathIndex (steps.map Prod.fst)]? = some x := by
  have hinj : ∀ a ∈ {pair : Fr × Fr | [pair.1, pair.2] ∈ inputs},
      ∀ b ∈ {pair : Fr × Fr | [pair.1, pair.2] ∈ inputs},
        treeNode P a.1 a.2 = treeNode P b.1 b.2 → a = b := by
    intro a ha b hb heq
    obtain ⟨hfst, hsnd⟩ := List.cons_eq_cons.mp (hfree _ ha _ hb rfl heq)
    exact Prod.ext hfst (List.cons_eq_cons.mp hsnd).1
  have hinner : MerkleTree.inner (treeNode P) (leafAt (leaves.take k)) TREE_DEPTH ⊆
      {pair : Fr × Fr | [pair.1, pair.2] ∈ inputs} := fun pair hpair => htree ⟨k, pair, hpair, rfl⟩
  have hroot : MerkleTree.climb (treeNode P) x steps =
      MerkleTree.nodeAt (treeNode P) (leafAt (leaves.take k)) (0 + steps.length) 0 := by
    rw [hdepth, Nat.zero_add]
    exact h
  have hleaf := MerkleTree.eq_nodeAt_of_climb hinj hinner (by omega) hclimbed hroot
  rw [Nat.zero_mul, Nat.zero_add, MerkleTree.nodeAt] at hleaf
  have hlt : MerkleTree.pathIndex (steps.map Prod.fst) < (leaves.take k).length := by
    by_contra hge
    exact hx (hleaf.trans (leafAt_of_length_le (Nat.not_lt.mp hge)))
  rw [leafAt, List.getD_eq_getElem _ _ hlt, List.getElem_take] at hleaf
  rw [hleaf]
  exact List.getElem?_eq_getElem _

theorem zeroHashes_eq_emptyAt (P : Prims) (level : ℕ) :
    zeroHashes P level = MerkleTree.emptyAt (treeNode P) emptyLeaf level := by
  induction level with
  | zero => rfl
  | succ level ih => rw [zeroHashes, MerkleTree.emptyAt, ih]

namespace PoolState

variable {P : Prims}

/-- The climb of the leaf at `n`, the last of the tree, over the siblings remembered on its path:
every node it computes is the tree's, and the even ones are remembered. -/
theorem insertFrom_nodes {leaf : ℕ → Fr} {n : ℕ} (hlast : ∀ i, n < i → leaf i = emptyLeaf)
    (left level : ℕ) (filled : List FieldBytes) (hlevels : level + left ≤ filled.length)
    (hfilled : ∀ j, level ≤ j → j < level + left → n / 2 ^ j % 2 = 1 →
      filled[j]? = some (frToBytes (MerkleTree.nodeAt (treeNode P) leaf j (n / 2 ^ j - 1)))) :
    ∃ filled', insertFrom P left level (n / 2 ^ level)
        (MerkleTree.nodeAt (treeNode P) leaf level (n / 2 ^ level)) filled =
          (filled', some (MerkleTree.nodeAt (treeNode P) leaf (level + left)
            (n / 2 ^ (level + left)))) ∧
      (∀ j, j < level → filled'[j]? = filled[j]?) ∧
      ∀ j, level ≤ j → j < level + left → filled'[j]? = if n / 2 ^ j % 2 = 0 then
        some (frToBytes (MerkleTree.nodeAt (treeNode P) leaf j (n / 2 ^ j))) else filled[j]? := by
  induction left generalizing level filled with
  | zero => exact ⟨filled, rfl, fun _ _ => rfl, fun j hj hj' => by omega⟩
  | succ left ih =>
    have hhalf : n / 2 ^ level / 2 = n / 2 ^ (level + 1) := by
      rw [Nat.div_div_eq_div_mul, pow_succ]
    have hparent : MerkleTree.nodeAt (treeNode P) leaf (level + 1) (n / 2 ^ (level + 1)) =
        treeNode P (MerkleTree.nodeAt (treeNode P) leaf level (2 * (n / 2 ^ level / 2)))
          (MerkleTree.nodeAt (treeNode P) leaf level (2 * (n / 2 ^ level / 2) + 1)) := by
      rw [hhalf, MerkleTree.nodeAt]
    have hlevel : level + (left + 1) = level + 1 + left := by omega
    rw [insertFrom, hhalf, hlevel]
    rcases Nat.mod_two_eq_zero_or_one (n / 2 ^ level) with heven | hodd
    · -- nothing stands to the right of the path yet
      have hright : MerkleTree.nodeAt (treeNode P) leaf level (n / 2 ^ level + 1) =
          zeroHashes P level := by
        rw [zeroHashes_eq_emptyAt]
        refine MerkleTree.nodeAt_eq_emptyAt fun i hi => hlast i ?_
        have hlt := Nat.lt_mul_div_succ n (Nat.two_pow_pos level)
        rw [Nat.mul_comm] at hlt
        exact hlt.trans_le hi
      rw [show 2 * (n / 2 ^ level / 2) = n / 2 ^ level by omega, hright] at hparent
      rw [if_pos heven, ← hparent]
      obtain ⟨filled', hrun, hbelow, habove⟩ := ih (level + 1)
        (filled.set level
          (frToBytes (MerkleTree.nodeAt (treeNode P) leaf level (n / 2 ^ level))))
        (by rw [List.length_set]; omega)
        (fun j hj hj' hodd => by
          rw [List.getElem?_set_ne (by omega)]
          exact hfilled j (by omega) (by omega) hodd)
      refine ⟨filled', hrun, fun j hj => ?_, fun j hj hj' => ?_⟩
      · rw [hbelow j (by omega), List.getElem?_set_ne (by omega)]
      · rcases Nat.eq_or_lt_of_le hj with rfl | hlt
        · rw [hbelow level (by omega), List.getElem?_set_self (by omega), if_pos heven]
        · rw [habove j hlt hj', List.getElem?_set_ne (by omega)]
    · -- the left sibling is complete and remembered
      have hsibling : filled.getD level (Bytes.replicate 32 0) =
          frToBytes (MerkleTree.nodeAt (treeNode P) leaf level (n / 2 ^ level - 1)) := by
        rw [List.getD_eq_getElem?_getD, hfilled level (by omega) (by omega) hodd, Option.getD_some]
      have htwice := Nat.div_add_mod (n / 2 ^ level) 2
      rw [hodd] at htwice
      rw [htwice, Nat.eq_sub_of_add_eq htwice] at hparent
      rw [if_neg (by rw [hodd]; exact Nat.one_ne_zero), hsibling, frFromBytes_frToBytes]
      dsimp only
      rw [← hparent]
      obtain ⟨filled', hrun, hbelow, habove⟩ := ih (level + 1) filled
        (by omega) fun j hj hj' => hfilled j (by omega) (by omega)
      refine ⟨filled', hrun, fun j hj => hbelow j (by omega), fun j hj hj' => ?_⟩
      rcases Nat.eq_or_lt_of_le hj with rfl | hlt
      · rw [hbelow level (by omega), if_neg (by omega)]
      · exact habove j hlt hj'

/-- The state holds the tree over the commitments appended so far. -/
structure TreeOf (P : Prims) (leaves : List Fr) (s : PoolState) : Prop where
  next : s.nextLeafIndex.toNat = leaves.length
  length_le : leaves.length ≤ capacity
  filled : ∀ level < TREE_DEPTH, leaves.length / 2 ^ level % 2 = 1 →
    s.filledSubtrees[level]? = some (frToBytes (MerkleTree.nodeAt (treeNode P) (leafAt leaves) level
      (leaves.length / 2 ^ level - 1)))
  known : ∀ b ∈ s.roots, b = Bytes.replicate 32 0 ∨
    ∃ k, b = frToBytes (treeRoot P (leaves.take k))
  current : s.roots[s.currentRootIndex.toNat]? = some (frToBytes (treeRoot P leaves))

theorem treeRoot_nil (P : Prims) : treeRoot P [] = zeroHashes P TREE_DEPTH := by
  rw [zeroHashes_eq_emptyAt]
  exact MerkleTree.nodeAt_eq_emptyAt fun _ _ => rfl

theorem treeOf_new (P : Prims) : TreeOf P [] (PoolState.new P) where
  next := rfl
  length_le := Nat.zero_le _
  filled level _ hodd := by simp at hodd
  known b hb := by
    rcases List.mem_cons.mp hb with rfl | hb
    · exact .inr ⟨0, by rw [List.take_nil, treeRoot_nil]⟩
    · exact .inl (List.eq_of_mem_replicate hb)
  current := by
    rw [treeRoot_nil]
    rfl

theorem TreeOf.insert {leaves : List Fr} {s : PoolState} (h : TreeOf P leaves s)
    (hroom : leaves.length < capacity) (leaf : Fr) :
    TreeOf P (leaves ++ [leaf]) (s.insert P leaf).1 := by
  have hlast : ∀ i, leaves.length < i → leafAt (leaves ++ [leaf]) i = emptyLeaf := fun i hi =>
    leafAt_of_length_le (by simpa using hi)
  -- a complete left sibling does not see the new leaf
  have hfilled : ∀ j, j < TREE_DEPTH → leaves.length / 2 ^ j % 2 = 1 →
      s.filledSubtrees[j]? = some (frToBytes (MerkleTree.nodeAt (treeNode P)
        (leafAt (leaves ++ [leaf])) j (leaves.length / 2 ^ j - 1))) := by
    intro j hj hodd
    rw [h.filled j hj hodd]
    congr 2
    refine MerkleTree.nodeAt_congr fun i _ hi => (leafAt_append_of_lt ?_ _).symm
    rw [Nat.sub_add_cancel (Nat.pos_of_ne_zero fun hzero => by simp [hzero] at hodd)] at hi
    exact hi.trans_le (Nat.div_mul_le_self _ _)
  obtain ⟨filled', hrun, -, hnew⟩ := insertFrom_nodes (P := P) hlast TREE_DEPTH 0
    s.filledSubtrees (by rw [s.length_filledSubtrees, Nat.zero_add])
    (fun j _ hj hodd => hfilled j (by omega) hodd)
  have hzero : leaves.length / 2 ^ (0 + TREE_DEPTH) = 0 := by
    rw [Nat.zero_add]
    exact Nat.div_eq_of_lt hroom
  rw [pow_zero, Nat.div_one, MerkleTree.nodeAt, leafAt_append_length, hzero, Nat.zero_add,
    ← h.next] at hrun
  unfold PoolState.insert
  dsimp only
  rw [if_neg (by rw [h.next]; exact Nat.not_le.mpr hroom)]
  simp only [hrun]
  refine ⟨?_, by simpa using hroom, fun level hlevel hodd => ?_, fun b hb => ?_, ?_⟩
  · have hbound : leaves.length < 2 ^ 26 := hroom
    show (s.nextLeafIndex + 1).toNat = _
    rw [UInt32.toNat_add, UInt32.toNat_one, h.next, List.length_append, List.length_singleton]
    omega
  · have hslot := hnew level (Nat.zero_le _) (by omega)
    rw [List.length_append, List.length_singleton, Nat.succ_div] at hodd ⊢
    show filled'[level]? = _
    rw [hslot]
    -- the level's node is completed by the new leaf, or was before
    split at hodd
    · rw [if_pos (by omega), if_pos ‹_›, Nat.add_sub_cancel]
    · rw [if_neg (by omega), if_neg ‹_›, Nat.add_zero]
      exact hfilled level hlevel (by omega)
  · rcases List.mem_or_eq_of_mem_set hb with hb | rfl
    · rcases h.known b hb with hzero | ⟨k, rfl⟩
      · exact .inl hzero
      · refine .inr ⟨min k leaves.length, ?_⟩
        rw [List.take_append_of_le_length (Nat.min_le_right _ _), List.take_eq_take_min]
    · exact .inr ⟨leaves.length + 1, by rw [List.take_of_length_le (by simp)]; rfl⟩
  · show (s.roots.set _ _)[_]? = _
    rw [List.getElem?_set_self]
    · rfl
    · rw [s.length_roots, UInt32.toNat_mod]
      exact Nat.mod_lt _ (by decide)

theorem TreeOf.appendAll {leaves : List Fr} {s : PoolState} (h : TreeOf P leaves s)
    (more : List Fr) (hroom : leaves.length + more.length ≤ capacity) :
    TreeOf P (leaves ++ more) (s.appendAll P more) := by
  induction more generalizing leaves s with
  | nil => simpa [PoolState.appendAll] using h
  | cons leaf more ih =>
    rw [List.length_cons] at hroom
    have hrest := ih (h.insert (by omega) leaf)
      (by rw [List.length_append, List.length_singleton]; omega)
    rwa [List.append_assoc, List.singleton_append] at hrest

theorem TreeOf.root_of_known {leaves : List Fr} {s : PoolState} (h : TreeOf P leaves s)
    {bytes : FieldBytes} {root : Fr} (hknown : s.isKnownRoot bytes = true)
    (hroot : frFromBytes bytes = some root) : ∃ k, root = treeRoot P (leaves.take k) := by
  simp only [isKnownRoot, Bool.and_eq_true, decide_eq_true_iff] at hknown
  rcases h.known bytes hknown.2 with hzero | ⟨k, rfl⟩
  · exact absurd hzero hknown.1
  · rw [frFromBytes_frToBytes] at hroot
    exact ⟨k, (Option.some.inj hroot).symm⟩

end PoolState

end Zul.Privacy
