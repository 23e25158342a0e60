import Zul.Privacy.Tree

/-! # The wallet's tree

The client keeps the whole commitment tree as one array a level, rewriting the last node of every
level when a leaf is appended. Its nodes are those of the complete tree over the leaves so far, so
its root is the chain's current root, and the path it gives for any leaf climbs to that root.
-/

namespace Zul.Sdk

/-! ## Field elements and hashes -/

def toFr (value : ℤ) : Fr := (value : Fr)

theorem toFr_val (x : Fr) : toFr x.val = x := by
  rw [toFr, Int.cast_natCast, ZMod.natCast_zmod_val]

section Poseidon

variable (P : Prims)

/-- Poseidon over integers: the inputs are reduced, and so is the result. -/
def hash (inputs : List ℤ) : ℤ := (P.poseidon (inputs.map toFr)).val

def treeNode (left right : ℤ) : ℤ := hash P [left, right]

theorem toFr_hash (inputs : List ℤ) : toFr (hash P inputs) = P.poseidon (inputs.map toFr) :=
  toFr_val _

theorem toFr_treeNode (left right : ℤ) :
    toFr (treeNode P left right) = Privacy.treeNode P (toFr left) (toFr right) :=
  toFr_hash P [left, right]

end Poseidon

/-! ## The tree -/

def TREE_DEPTH : ℕ := 26

def EMPTY_LEAF : ℤ := 770212417220141184

structure MerkleTree where
  /-- Hashes of empty subtrees, leaf level first. -/
  zeros : List ℤ
  /-- The nodes of every level, leaf level first. -/
  layers : List (List ℤ)

/-- `array[i] = value`. An index past the end would leave a hole, which is `none`. -/
def assign (array : List ℤ) (i : ℕ) (value : ℤ) : Option (List ℤ) :=
  if i < array.length then some (array.set i value)
  else if i = array.length then some (array ++ [value])
  else none

namespace MerkleTree

variable (P : Prims)

def zeroAt : ℕ → ℤ
  | 0 => EMPTY_LEAF
  | i + 1 => treeNode P (zeroAt i) (zeroAt i)

def init : MerkleTree where
  zeros := (List.range (TREE_DEPTH + 1)).map (zeroAt P)
  layers := (List.range (TREE_DEPTH + 1)).map fun _ => []

/-- Rehash the path of the node at `i`, for `left` more levels; reading an entry that is not there
is `none`. -/
def rehash (zeros : List ℤ) : (left level i : ℕ) → List (List ℤ) → Option (List (List ℤ))
  | 0, _, _, layers => some layers
  | left + 1, level, i, layers => do
    let layer ← layers[level]?
    let leftNode ← if i % 2 = 1 then layer[i - 1]? else layer[i]?
    let rightNode ← if i % 2 = 1 then layer[i]? else zeros[level]?
    let above ← layers[level + 1]?
    let above ← assign above (i / 2) (treeNode P leftNode rightNode)
    rehash zeros left (level + 1) (i / 2) (layers.set (level + 1) above)

def append (t : MerkleTree) (leaf : ℤ) : Option (MerkleTree × ℕ) := do
  let leaves ← t.layers[0]?
  let layers ← rehash P t.zeros TREE_DEPTH 0 leaves.length (t.layers.set 0 (leaves ++ [leaf]))
  return ({ t with layers }, leaves.length)

def root (t : MerkleTree) : Option ℤ := do
  let leaves ← t.layers[0]?
  if leaves.length = 0 then t.zeros[TREE_DEPTH]?
  else
    let top ← t.layers[TREE_DEPTH]?
    top[0]?

/-- `index < layer.length ? layer[index] : zero`. -/
def elementAt (layer : List ℤ) (zero : Option ℤ) (index : ℕ) : Option ℤ :=
  if index < layer.length then layer[index]? else zero

/-- The siblings of the node at `i`, for `left` more levels. -/
def pathFrom (t : MerkleTree) : (left level i : ℕ) → Option (List ℤ)
  | 0, _, _ => some []
  | left + 1, level, i => do
    let layer ← t.layers[level]?
    let siblingIndex := if i % 2 = 0 then i + 1 else i - 1
    let element ← elementAt layer t.zeros[level]? siblingIndex
    return element :: (← t.pathFrom left (level + 1) (i / 2))

def path (t : MerkleTree) (leafIndex : ℕ) : Option (List ℤ) := t.pathFrom TREE_DEPTH 0 leafIndex

def appendAll (t : MerkleTree) (leaves : List ℤ) : Option MerkleTree :=
  leaves.foldlM (fun t leaf => (t.append P leaf).map Prod.fst) t

end MerkleTree

/-! ## The complete tree over the leaves -/

def leafAt (leaves : List ℤ) (i : ℕ) : ℤ := leaves.getD i EMPTY_LEAF

theorem toFr_leafAt (leaves : List ℤ) (i : ℕ) :
    toFr (leafAt leaves i) = Privacy.leafAt (leaves.map toFr) i := by
  rw [leafAt, Privacy.leafAt, List.getD_eq_getElem?_getD, List.getD_eq_getElem?_getD,
    List.getElem?_map]
  cases leaves[i]? with
  | none => rfl
  | some leaf => rfl

/-- The number of nodes of a level that stand over some of the first `n` leaves. -/
def width (n level : ℕ) : ℕ := (n + 2 ^ level - 1) / 2 ^ level

theorem width_zero (n : ℕ) : width n 0 = n := by
  rw [width, pow_zero, Nat.div_one, Nat.add_sub_cancel]

theorem width_succ (n level : ℕ) : width (n + 1) level = n / 2 ^ level + 1 := by
  have hpos := Nat.two_pow_pos level
  rw [width, show n + 1 + 2 ^ level - 1 = n + 2 ^ level by omega, Nat.add_div_right _ hpos]

theorem width_empty (level : ℕ) : width 0 level = 0 := by
  have hpos := Nat.two_pow_pos level
  rw [width, Nat.div_eq_of_lt (by omega)]

theorem width_eq (n level : ℕ) :
    width n level = n / 2 ^ level ∨ width n level = n / 2 ^ level + 1 := by
  cases n with
  | zero =>
    refine .inl ?_
    rw [width_empty, Nat.zero_div]
  | succ n =>
    rw [width_succ, Nat.succ_div]
    split
    · exact .inl rfl
    · exact .inr rfl

namespace MerkleTree

variable {P : Prims}

theorem zeroAt_eq_emptyAt (level : ℕ) :
    zeroAt P level = MerkleTree.emptyAt (treeNode P) EMPTY_LEAF level := by
  induction level with
  | zero => rfl
  | succ level ih => rw [zeroAt, MerkleTree.emptyAt, ih]

def layerOf (P : Prims) (leaves : List ℤ) (level : ℕ) : List ℤ :=
  (List.range (width leaves.length level)).map
    (MerkleTree.nodeAt (treeNode P) (leafAt leaves) level)

theorem layerOf_zero (P : Prims) (leaves : List ℤ) : layerOf P leaves 0 = leaves := by
  refine List.ext_getElem? fun i => ?_
  rw [layerOf, width_zero, List.getElem?_map]
  rcases Nat.lt_or_ge i leaves.length with hlt | hge
  · rw [List.getElem?_range hlt, Option.map_some, MerkleTree.nodeAt, leafAt,
      List.getD_eq_getElem _ _ hlt, List.getElem?_eq_getElem hlt]
  · rw [List.getElem?_eq_none (by simpa using hge), List.getElem?_eq_none hge, Option.map_none]

theorem getElem?_layerOf {leaves : List ℤ} {level i : ℕ} (h : i < width leaves.length level) :
    (layerOf P leaves level)[i]? =
      some (MerkleTree.nodeAt (treeNode P) (leafAt leaves) level i) := by
  rw [layerOf, List.getElem?_map, List.getElem?_range h, Option.map_some]

theorem length_layerOf (leaves : List ℤ) (level : ℕ) :
    (layerOf P leaves level).length = width leaves.length level := by
  rw [layerOf, List.length_map, List.length_range]

theorem nodeAt_of_width_le {leaves : List ℤ} {level i : ℕ} (h : width leaves.length level ≤ i) :
    MerkleTree.nodeAt (treeNode P) (leafAt leaves) level i = zeroAt P level := by
  rw [zeroAt_eq_emptyAt]
  refine MerkleTree.nodeAt_eq_emptyAt fun k hk => List.getD_eq_default _ _ ?_
  have hpos := Nat.two_pow_pos level
  have hlt : leaves.length + 2 ^ level - 1 < (i + 1) * 2 ^ level :=
    (Nat.div_lt_iff_lt_mul hpos).mp (Nat.lt_succ_of_le h)
  rw [Nat.add_mul, Nat.one_mul] at hlt
  omega

theorem nodeAt_append {leaves : List ℤ} {level i : ℕ} (leaf : ℤ)
    (h : i < leaves.length / 2 ^ level) :
    MerkleTree.nodeAt (treeNode P) (leafAt (leaves ++ [leaf])) level i =
      MerkleTree.nodeAt (treeNode P) (leafAt leaves) level i := by
  refine MerkleTree.nodeAt_congr fun k _ hk => List.getD_append _ _ _ _ ?_
  calc k < (i + 1) * 2 ^ level := hk
    _ ≤ leaves.length / 2 ^ level * 2 ^ level := Nat.mul_le_mul_right _ h
    _ ≤ leaves.length := Nat.div_mul_le_self _ _

theorem assign_layerOf (leaves : List ℤ) (leaf : ℤ) (level : ℕ) :
    assign (layerOf P leaves level) (leaves.length / 2 ^ level)
        (MerkleTree.nodeAt (treeNode P) (leafAt (leaves ++ [leaf])) level
          (leaves.length / 2 ^ level)) =
      some (layerOf P (leaves ++ [leaf]) level) := by
  have hnew : layerOf P (leaves ++ [leaf]) level =
      (List.range (leaves.length / 2 ^ level)).map
          (MerkleTree.nodeAt (treeNode P) (leafAt leaves) level) ++
        [MerkleTree.nodeAt (treeNode P) (leafAt (leaves ++ [leaf])) level
          (leaves.length / 2 ^ level)] := by
    rw [layerOf, List.length_append, List.length_singleton, width_succ, List.range_succ,
      List.map_append, List.map_singleton]
    congr 1
    exact List.map_congr_left fun i hi => nodeAt_append leaf (List.mem_range.mp hi)
  rw [hnew, assign, length_layerOf]
  rcases width_eq leaves.length level with hwidth | hwidth
  · rw [hwidth, if_neg (Nat.lt_irrefl _), if_pos rfl, layerOf, hwidth]
  · rw [hwidth, if_pos (Nat.lt_succ_self _), layerOf, hwidth, List.range_succ, List.map_append,
      List.map_singleton, List.set_append_right _ _ (by simp)]
    simp

theorem getElem?_zeros {level : ℕ} (h : level ≤ TREE_DEPTH) :
    (init P).zeros[level]? = some (zeroAt P level) := by
  rw [init, List.getElem?_map, List.getElem?_range (Nat.lt_succ_of_le h), Option.map_some]

/-! ## Appending -/

def layersOf (P : Prims) (leaves : List ℤ) : List (List ℤ) :=
  (List.range (TREE_DEPTH + 1)).map (layerOf P leaves)

/-- The layers when those up to `level` have been rewritten for one more leaf. -/
def partlyAppended (P : Prims) (leaves : List ℤ) (leaf : ℤ) (level : ℕ) : List (List ℤ) :=
  (List.range (TREE_DEPTH + 1)).map fun l =>
    if l ≤ level then layerOf P (leaves ++ [leaf]) l else layerOf P leaves l

theorem set_map_range {α : Type*} (f : ℕ → α) {n i : ℕ} (value : α) :
    ((List.range n).map f).set i value =
      (List.range n).map fun k => if k = i then value else f k := by
  refine List.ext_getElem? fun k => ?_
  rw [List.getElem?_set, List.getElem?_map, List.getElem?_map]
  by_cases hk : i = k
  · subst hk
    rcases Nat.lt_or_ge i n with hlt | hge
    · simp [hlt]
    · simp [hge]
  · rw [if_neg hk]
    rcases Nat.lt_or_ge k n with hlt | hge
    · simp [hlt, Ne.symm hk]
    · simp [hge]

theorem getElem?_partlyAppended {leaves : List ℤ} {leaf : ℤ} {level l : ℕ} (h : l ≤ TREE_DEPTH) :
    (partlyAppended P leaves leaf level)[l]? =
      some (if l ≤ level then layerOf P (leaves ++ [leaf]) l else layerOf P leaves l) := by
  rw [partlyAppended, List.getElem?_map, List.getElem?_range (Nat.lt_succ_of_le h), Option.map_some]

theorem partlyAppended_set (leaves : List ℤ) (leaf : ℤ) (level : ℕ) :
    (partlyAppended P leaves leaf level).set (level + 1)
        (layerOf P (leaves ++ [leaf]) (level + 1)) =
      partlyAppended P leaves leaf (level + 1) := by
  rw [partlyAppended, set_map_range, partlyAppended]
  refine List.map_congr_left fun l _ => ?_
  rcases Nat.lt_trichotomy l (level + 1) with hlt | rfl | hgt
  · rw [if_neg (by omega), if_pos (by omega), if_pos (by omega)]
  · rw [if_pos rfl, if_pos le_rfl]
  · rw [if_neg (by omega), if_neg (by omega), if_neg (by omega)]

theorem rehash_partlyAppended (leaves : List ℤ) (leaf : ℤ) {left level : ℕ}
    (hdepth : level + left = TREE_DEPTH) :
    rehash P (init P).zeros left level (leaves.length / 2 ^ level)
        (partlyAppended P leaves leaf level) =
      some (partlyAppended P leaves leaf TREE_DEPTH) := by
  induction left generalizing level with
  | zero =>
    rw [Nat.add_zero] at hdepth
    rw [rehash, hdepth]
  | succ left ih =>
    have hwidth : width (leaves ++ [leaf]).length level = leaves.length / 2 ^ level + 1 := by
      rw [List.length_append, List.length_singleton, width_succ]
    have hlast : leaves.length / 2 ^ level < width (leaves ++ [leaf]).length level := by
      rw [hwidth]
      exact Nat.lt_succ_self _
    -- the right sibling of the last node is empty
    have hassign := assign_layerOf (P := P) leaves leaf (level + 1)
    rw [pow_succ, ← Nat.div_div_eq_div_mul, MerkleTree.nodeAt_half,
      nodeAt_of_width_le hwidth.le] at hassign
    rw [rehash, getElem?_partlyAppended (by omega), getElem?_partlyAppended (by omega),
      if_pos le_rfl, if_neg (by omega)]
    have hnext := ih (show level + 1 + left = TREE_DEPTH by omega)
    rw [pow_succ, ← Nat.div_div_eq_div_mul, ← partlyAppended_set] at hnext
    by_cases hodd : leaves.length / 2 ^ level % 2 = 1
    · rw [if_pos hodd] at hassign
      simp only [hodd, if_true, Option.bind_eq_bind, Option.bind_some, getElem?_layerOf hlast,
        getElem?_layerOf (lt_of_le_of_lt (Nat.sub_le _ 1) hlast), hassign, hnext]
    · rw [if_neg hodd] at hassign
      simp only [hodd, if_false, Option.bind_eq_bind, Option.bind_some, getElem?_layerOf hlast,
        getElem?_zeros (show level ≤ TREE_DEPTH by omega), hassign, hnext]

def ofLeaves (P : Prims) (leaves : List ℤ) : MerkleTree := ⟨(init P).zeros, layersOf P leaves⟩

theorem getElem?_layersOf {leaves : List ℤ} {level : ℕ} (h : level ≤ TREE_DEPTH) :
    (layersOf P leaves)[level]? = some (layerOf P leaves level) := by
  rw [layersOf, List.getElem?_map, List.getElem?_range (Nat.lt_succ_of_le h), Option.map_some]

theorem init_eq_ofLeaves : init P = ofLeaves P [] := by
  have hlayers : (init P).layers = layersOf P [] := by
    refine List.map_congr_left fun level _ => ?_
    rw [layerOf, List.length_nil, width_empty, List.range_zero, List.map_nil]
  rw [ofLeaves, ← hlayers]

theorem append_ofLeaves (leaves : List ℤ) (leaf : ℤ) :
    (ofLeaves P leaves).append P leaf = some (ofLeaves P (leaves ++ [leaf]), leaves.length) := by
  have hfirst : (layersOf P leaves).set 0 (leaves ++ [leaf]) = partlyAppended P leaves leaf 0 := by
    rw [layersOf, set_map_range, partlyAppended]
    refine List.map_congr_left fun l _ => ?_
    rcases Nat.eq_zero_or_pos l with rfl | hpos
    · rw [if_pos rfl, if_pos le_rfl, layerOf_zero]
    · rw [if_neg (by omega), if_neg (by omega)]
  have hall : partlyAppended P leaves leaf TREE_DEPTH = layersOf P (leaves ++ [leaf]) :=
    List.map_congr_left fun l hl => if_pos (Nat.le_of_lt_succ (List.mem_range.mp hl))
  have hrehash := rehash_partlyAppended (P := P) leaves leaf (Nat.zero_add TREE_DEPTH)
  rw [pow_zero, Nat.div_one, ← hfirst, hall] at hrehash
  simp only [append, ofLeaves, getElem?_layersOf (Nat.zero_le _), layerOf_zero, Option.bind_eq_bind,
    Option.bind_some, hrehash]
  rfl

theorem appendAll_ofLeaves (leaves more : List ℤ) :
    (ofLeaves P leaves).appendAll P more = some (ofLeaves P (leaves ++ more)) := by
  induction more generalizing leaves with
  | nil => rw [List.append_nil]; rfl
  | cons leaf more ih =>
    have hrest := ih (leaves ++ [leaf])
    rw [List.append_assoc, List.singleton_append] at hrest
    rw [appendAll, List.foldlM_cons, append_ofLeaves]
    exact hrest

theorem first_layerOf (leaves : List ℤ) (level : ℕ) (zero : Option ℤ)
    (hzero : zero = some (zeroAt P level)) :
    (if leaves.length = 0 then zero else (layerOf P leaves level)[0]?) =
      some (MerkleTree.nodeAt (treeNode P) (leafAt leaves) level 0) := by
  split
  · rename_i hempty
    rw [hzero, nodeAt_of_width_le (by rw [hempty, width_empty])]
  · rename_i hne
    refine getElem?_layerOf ?_
    obtain ⟨n, hn⟩ := Nat.exists_eq_succ_of_ne_zero hne
    rw [hn, Nat.succ_eq_add_one, width_succ]
    exact Nat.succ_pos _

theorem root_eq {t : MerkleTree} {leaves top : List ℤ} (hleaves : t.layers[0]? = some leaves)
    (htop : t.layers[TREE_DEPTH]? = some top) :
    t.root = if leaves.length = 0 then t.zeros[TREE_DEPTH]? else top[0]? := by
  rw [root, hleaves, htop]
  rfl

theorem root_ofLeaves (leaves : List ℤ) :
    (ofLeaves P leaves).root =
      some (MerkleTree.nodeAt (treeNode P) (leafAt leaves) TREE_DEPTH 0) := by
  have hleaves : (ofLeaves P leaves).layers[0]? = some leaves := by
    rw [ofLeaves, getElem?_layersOf (Nat.zero_le _), layerOf_zero]
  have hzero : (ofLeaves P leaves).zeros[TREE_DEPTH]? = some (zeroAt P TREE_DEPTH) :=
    getElem?_zeros le_rfl
  rw [root_eq hleaves (getElem?_layersOf le_rfl)]
  exact first_layerOf leaves TREE_DEPTH _ hzero

theorem pathFrom_ofLeaves (leaves : List ℤ) {left level : ℕ} (hdepth : level + left = TREE_DEPTH)
    (i : ℕ) :
    (ofLeaves P leaves).pathFrom left level i =
      some (MerkleTree.siblings (treeNode P) (leafAt leaves) left level i) := by
  induction left generalizing level i with
  | zero => rfl
  | succ left ih =>
    have hlayer : (ofLeaves P leaves).layers[level]? = some (layerOf P leaves level) :=
      getElem?_layersOf (by omega)
    have helement : elementAt (layerOf P leaves level) (ofLeaves P leaves).zeros[level]?
        (MerkleTree.sibling i) =
          some (MerkleTree.nodeAt (treeNode P) (leafAt leaves) level (MerkleTree.sibling i)) := by
      rw [elementAt, length_layerOf]
      split
      · exact getElem?_layerOf ‹_›
      · rw [nodeAt_of_width_le (Nat.le_of_not_lt ‹_›)]
        exact getElem?_zeros (by omega)
    rw [MerkleTree.sibling] at helement
    have hrest := ih (show level + 1 + left = TREE_DEPTH by omega) (i / 2)
    simp only [pathFrom, hlayer, Option.bind_eq_bind, Option.bind_some, helement, hrest]
    rfl

/-! ## Against the chain and the circuit -/

theorem toFr_nodeAt (leaves : List ℤ) (level i : ℕ) :
    toFr (MerkleTree.nodeAt (treeNode P) (leafAt leaves) level i) =
      MerkleTree.nodeAt (Privacy.treeNode P) (Privacy.leafAt (leaves.map toFr))
        level i := by
  rw [MerkleTree.map_nodeAt (f := toFr) (toFr_treeNode P)]
  congr 1
  funext i
  exact toFr_leafAt leaves i

theorem map_toFr_siblings (leaves : List ℤ) (n level i : ℕ) :
    (MerkleTree.siblings (treeNode P) (leafAt leaves) n level i).map toFr =
      MerkleTree.siblings (Privacy.treeNode P) (Privacy.leafAt (leaves.map toFr))
        n level i := by
  rw [MerkleTree.map_siblings (f := toFr) (toFr_treeNode P)]
  congr 1
  funext i
  exact toFr_leafAt leaves i

theorem val_root (leaves : List ℤ) :
    ((Privacy.treeRoot P (leaves.map toFr)).val : ℤ) =
      MerkleTree.nodeAt (treeNode P) (leafAt leaves) TREE_DEPTH 0 := by
  have hroot : Privacy.treeRoot P (leaves.map toFr) =
      toFr (MerkleTree.nodeAt (treeNode P) (leafAt leaves) TREE_DEPTH 0) :=
    (toFr_nodeAt leaves TREE_DEPTH 0).symm
  -- the root is a hash, hence reduced
  rw [hroot, TREE_DEPTH, MerkleTree.nodeAt, treeNode, toFr_hash]
  rfl

theorem exists_path_ofLeaves (leaves : List ℤ) (i : ℕ) :
    ∃ path, (ofLeaves P leaves).path i = some path ∧ path.length = TREE_DEPTH :=
  ⟨_, pathFrom_ofLeaves leaves (Nat.zero_add _) i, MerkleTree.length_siblings ..⟩

theorem climb_path {leaves : List ℤ} {i : ℕ} (hi : i < 2 ^ TREE_DEPTH) {path : List ℤ}
    (hpath : (ofLeaves P leaves).path i = some path) :
    MerkleTree.climb (Privacy.treeNode P) (toFr (leafAt leaves i))
        ((MerkleTree.bitsOf TREE_DEPTH i).zip (path.map toFr)) =
      Privacy.treeRoot P (leaves.map toFr) := by
  cases (pathFrom_ofLeaves leaves (Nat.zero_add _) i).symm.trans hpath
  have hclimb := @MerkleTree.climb_siblings Fr (Privacy.treeNode P)
    (Privacy.leafAt (leaves.map toFr)) TREE_DEPTH 0 i
  rw [Nat.zero_add, Nat.div_eq_of_lt hi, MerkleTree.nodeAt] at hclimb
  rw [map_toFr_siblings, toFr_leafAt]
  exact hclimb

end MerkleTree

open Privacy in
/-- After the same leaves the client's root is the chain's current root, and the client's path of
every leaf recomputes it by the circuit's recursion. -/
theorem wallet_tree_mirrors_chain (P : Prims) {leaves : List ℤ} (h : leaves.length ≤ 2 ^ 26) :
    ∃ (tree : MerkleTree) (bytes : FieldBytes) (root : Fr),
      (MerkleTree.init P).appendAll P leaves = some tree ∧
      ((PoolState.new P).appendAll P (leaves.map toFr)).currentRoot = some bytes ∧
      frFromBytes bytes = some root ∧ tree.root = some (root.val : ℤ) ∧
      ∀ (i : ℕ) (hi : i < leaves.length), ∃ path, tree.path i = some path ∧
        path.length = TREE_DEPTH ∧
        MerkleTree.climb (Privacy.treeNode P) (toFr leaves[i])
          (((List.range TREE_DEPTH).map i.testBit).zip (path.map toFr)) = root := by
  have htree := (PoolState.treeOf_new P).appendAll (leaves.map toFr)
    (by rw [List.length_nil, Nat.zero_add, List.length_map]; exact h)
  rw [List.nil_append] at htree
  refine ⟨MerkleTree.ofLeaves P leaves, _, treeRoot P (leaves.map toFr), ?_,
    htree.current, frFromBytes_frToBytes _, ?_, fun i hi => ?_⟩
  · rw [MerkleTree.init_eq_ofLeaves, MerkleTree.appendAll_ofLeaves, List.nil_append]
  · rw [MerkleTree.root_ofLeaves, ← MerkleTree.val_root]
  · obtain ⟨path, hpath, hlength⟩ := MerkleTree.exists_path_ofLeaves (P := P) leaves i
    have hclimb := MerkleTree.climb_path (hi.trans_le h) hpath
    rw [leafAt, List.getD_eq_getElem _ _ hi, MerkleTree.bitsOf_eq_map_testBit] at hclimb
    exact ⟨path, hpath, hlength, hclimb⟩

/-- Three leaves, and the path of the first climbs to the root. -/
theorem wallet_tree_mirrors_chain_three :
    let P : Prims := ⟨fun _ => Bytes.replicate 32 0, fun _ _ => Bytes.replicate 32 0, fun _ => 1⟩
    ∃ (tree : MerkleTree) (root : Fr), (MerkleTree.init P).appendAll P [1, 2, 3] = some tree ∧
      tree.root = some (root.val : ℤ) ∧ ∃ path, tree.path 0 = some path ∧
        MerkleTree.climb (Privacy.treeNode P) (toFr 1)
          (((List.range TREE_DEPTH).map (0 : ℕ).testBit).zip (path.map toFr)) = root := by
  intro P
  have hlength : ([1, 2, 3] : List ℤ).length ≤ 2 ^ 26 := by decide
  obtain ⟨tree, _, root, htree, _, _, hroot, hpaths⟩ := wallet_tree_mirrors_chain P hlength
  obtain ⟨path, hpath, _, hclimb⟩ := hpaths 0 (by decide)
  exact ⟨tree, root, htree, hroot, path, hpath, hclimb⟩

end Zul.Sdk
