import Mathlib.Algebra.Order.Ring.Nat
import Mathlib.Data.Set.Basic
import Mathlib.Tactic.Linarith
import Mathlib.Tactic.Ring

/-! # Complete binary hash trees

The node of a complete binary tree at a level, counted from the leaves, and an index within the
level. Every other shape of the tree in use is a way to compute some of these nodes: an appended
leaf climbs over complete left siblings and empty right ones, and an inclusion proof climbs over
siblings it brings along. Where the node function does not collide, the latter only opens the
leaf at its index.
-/

namespace MerkleTree

variable {H : Type*} (node : H → H → H)

/-- The node at `level` and `index` over the given leaves. -/
def nodeAt (leaf : ℕ → H) : (level index : ℕ) → H
  | 0, index => leaf index
  | level + 1, index => node (nodeAt leaf level (2 * index)) (nodeAt leaf level (2 * index + 1))

def root (leaf : ℕ → H) (depth : ℕ) : H := nodeAt node leaf depth 0

def emptyAt (empty : H) : ℕ → H
  | 0 => empty
  | level + 1 => node (emptyAt empty level) (emptyAt empty level)

variable {node}

theorem nodeAt_congr {leaf leaf' : ℕ → H} {level index : ℕ}
    (h : ∀ i, index * 2 ^ level ≤ i → i < (index + 1) * 2 ^ level → leaf i = leaf' i) :
    nodeAt node leaf level index = nodeAt node leaf' level index := by
  induction level generalizing index with
  | zero => exact h index (by omega) (by omega)
  | succ level ih =>
    rw [pow_succ] at h
    have hleft : nodeAt node leaf level (2 * index) = nodeAt node leaf' level (2 * index) :=
      ih fun i hlow hup => h i (by linarith) (by linarith)
    have hright : nodeAt node leaf level (2 * index + 1) =
        nodeAt node leaf' level (2 * index + 1) :=
      ih fun i hlow hup => h i (by linarith) (by linarith)
    rw [nodeAt, nodeAt, hleft, hright]

theorem nodeAt_eq_emptyAt {leaf : ℕ → H} {empty : H} {level index : ℕ}
    (h : ∀ i, index * 2 ^ level ≤ i → leaf i = empty) :
    nodeAt node leaf level index = emptyAt node empty level := by
  induction level generalizing index with
  | zero => exact h index (by omega)
  | succ level ih =>
    rw [pow_succ] at h
    have hleft : nodeAt node leaf level (2 * index) = emptyAt node empty level :=
      ih fun i hlow => h i (by linarith)
    have hright : nodeAt node leaf level (2 * index + 1) = emptyAt node empty level :=
      ih fun i hlow => h i (by linarith [Nat.zero_le (2 ^ level)])
    rw [nodeAt, emptyAt, hleft, hright]

theorem nodeAt_half (leaf : ℕ → H) (level index : ℕ) :
    nodeAt node leaf (level + 1) (index / 2) =
      if index % 2 = 1 then node (nodeAt node leaf level (index - 1)) (nodeAt node leaf level index)
      else node (nodeAt node leaf level index) (nodeAt node leaf level (index + 1)) := by
  rw [nodeAt]
  rcases Nat.mod_two_eq_zero_or_one index with heven | hodd
  · have hself : 2 * (index / 2) = index := by omega
    rw [if_neg (by omega), hself]
  · have hleft : 2 * (index / 2) = index - 1 := by omega
    have hself : index - 1 + 1 = index := by omega
    rw [if_pos hodd, hleft, hself]

/-! ## Level by level -/

variable (node) in
/-- The parents of a level's nodes from the left; a last node without a sibling is paired with
`blank`. -/
def pairUp (blank : H) : List H → List H
  | [] => []
  | [x] => [node x blank]
  | x :: y :: rest => node x y :: pairUp blank rest

theorem getD_pairUp (blank : H) (nodes : List H) (i : ℕ) :
    (pairUp node blank nodes).getD i (node blank blank) =
      node (nodes.getD (2 * i) blank) (nodes.getD (2 * i + 1) blank) := by
  induction nodes using pairUp.induct generalizing i with
  | case1 => simp [pairUp]
  | case2 x => cases i <;> simp [pairUp, Nat.mul_succ]
  | case3 x y rest ih =>
    cases i with
    | zero => simp [pairUp]
    | succ i => simpa [pairUp, Nat.mul_succ] using ih i

/-! ## Inclusion proofs -/

variable (node)

def sides (right : Bool) (sibling x : H) : H × H := if right then (sibling, x) else (x, sibling)

def climb : H → List (Bool × H) → H
  | x, [] => x
  | x, (right, sibling) :: steps =>
    climb (node (sides right sibling x).1 (sides right sibling x).2) steps

def climbed : H → List (Bool × H) → List (H × H)
  | _, [] => []
  | x, (right, sibling) :: steps =>
    sides right sibling x ::
      climbed (node (sides right sibling x).1 (sides right sibling x).2) steps

def inner (leaf : ℕ → H) (depth : ℕ) : Set (H × H) :=
  {pair | ∃ level index, level < depth ∧
    pair = (nodeAt node leaf level (2 * index), nodeAt node leaf level (2 * index + 1))}

def pathIndex : List Bool → ℕ
  | [] => 0
  | right :: rest => right.toNat + 2 * pathIndex rest

theorem pathIndex_lt (bits : List Bool) : pathIndex bits < 2 ^ bits.length := by
  induction bits with
  | nil => exact Nat.one_pos
  | cons right rest ih =>
    rw [pathIndex, List.length_cons, pow_succ]
    have := right.toNat_lt
    omega

def bitsOf : (n index : ℕ) → List Bool
  | 0, _ => []
  | n + 1, index => decide (index % 2 = 1) :: bitsOf n (index / 2)

def sibling (index : ℕ) : ℕ := if index % 2 = 0 then index + 1 else index - 1

def siblings (leaf : ℕ → H) : (n level index : ℕ) → List H
  | 0, _, _ => []
  | n + 1, level, index =>
    nodeAt node leaf level (sibling index) :: siblings leaf n (level + 1) (index / 2)

@[simp] theorem length_bitsOf (n index : ℕ) : (bitsOf n index).length = n := by
  induction n generalizing index with
  | zero => rfl
  | succ n ih => rw [bitsOf, List.length_cons, ih]

@[simp] theorem length_siblings (leaf : ℕ → H) (n level index : ℕ) :
    (siblings node leaf n level index).length = n := by
  induction n generalizing level index with
  | zero => rfl
  | succ n ih => rw [siblings, List.length_cons, ih]

theorem pathIndex_bitsOf {n index : ℕ} (h : index < 2 ^ n) :
    pathIndex (bitsOf n index) = index := by
  induction n generalizing index with
  | zero =>
    rw [pow_zero, Nat.lt_one_iff] at h
    rw [h]
    rfl
  | succ n ih =>
    rw [bitsOf, pathIndex, ih (by omega)]
    rcases Nat.mod_two_eq_zero_or_one index with heven | hodd
    · simp only [heven, zero_ne_one, decide_false, Bool.toNat_false]
      omega
    · simp only [hodd, decide_true, Bool.toNat_true]
      omega

theorem bitsOf_pathIndex (bits : List Bool) : bitsOf bits.length (pathIndex bits) = bits := by
  induction bits with
  | nil => rfl
  | cons right rest ih =>
    have hhalf : (right.toNat + 2 * pathIndex rest) / 2 = pathIndex rest := by
      have := right.toNat_lt
      omega
    have hlow : decide ((right.toNat + 2 * pathIndex rest) % 2 = 1) = right := by
      cases right <;> simp
    rw [List.length_cons, pathIndex, bitsOf, hhalf, hlow, ih]

theorem bitsOf_eq_map_testBit (n index : ℕ) :
    bitsOf n index = (List.range n).map index.testBit := by
  induction n generalizing index with
  | zero => rfl
  | succ n ih =>
    rw [bitsOf, ih, List.range_succ_eq_map, List.map_cons, List.map_map, Nat.testBit_zero]
    congr 1
    refine List.map_congr_left fun i _ => ?_
    exact (Nat.testBit_succ index i).symm

variable {node}

theorem climb_siblings (leaf : ℕ → H) (n level index : ℕ) :
    climb node (nodeAt node leaf level index)
        ((bitsOf n index).zip (siblings node leaf n level index)) =
      nodeAt node leaf (level + n) (index / 2 ^ n) := by
  induction n generalizing level index with
  | zero => simp [bitsOf, climb]
  | succ n ih =>
    have hparent : node (sides (decide (index % 2 = 1)) (nodeAt node leaf level (sibling index))
        (nodeAt node leaf level index)).1 (sides (decide (index % 2 = 1))
          (nodeAt node leaf level (sibling index)) (nodeAt node leaf level index)).2 =
        nodeAt node leaf (level + 1) (index / 2) := by
      rw [nodeAt_half]
      rcases Nat.mod_two_eq_zero_or_one index with heven | hodd
      · simp [sides, sibling, heven]
      · simp [sides, sibling, hodd]
    rw [bitsOf, siblings, List.zip_cons_cons, climb, hparent, ih, Nat.div_div_eq_div_mul,
      Nat.add_assoc, Nat.add_comm 1 n, pow_succ']

theorem map_nodeAt {H' : Type*} {node' : H' → H' → H'} {f : H → H'}
    (hf : ∀ a b, f (node a b) = node' (f a) (f b)) (leaf : ℕ → H) (level index : ℕ) :
    f (nodeAt node leaf level index) = nodeAt node' (fun i => f (leaf i)) level index := by
  induction level generalizing index with
  | zero => rfl
  | succ level ih => rw [nodeAt, nodeAt, hf, ih, ih]

theorem map_siblings {H' : Type*} {node' : H' → H' → H'} {f : H → H'}
    (hf : ∀ a b, f (node a b) = node' (f a) (f b)) (leaf : ℕ → H) (n level index : ℕ) :
    (siblings node leaf n level index).map f =
      siblings node' (fun i => f (leaf i)) n level index := by
  induction n generalizing level index with
  | zero => rfl
  | succ n ih => rw [siblings, siblings, List.map_cons, map_nodeAt hf, ih]

/-- A climb to a node of the tree starts at the node below it that the path names, as long as
no two pairs of the climb and the tree collide. -/
theorem eq_nodeAt_of_climb {leaf : ℕ → H} {depth : ℕ} {pairs : Set (H × H)}
    (hinj : ∀ a ∈ pairs, ∀ b ∈ pairs, node a.1 a.2 = node b.1 b.2 → a = b)
    (htree : inner node leaf depth ⊆ pairs) {steps : List (Bool × H)} {x : H} {level index : ℕ}
    (hdepth : level + steps.length ≤ depth) (hclimbed : ∀ a ∈ climbed node x steps, a ∈ pairs)
    (h : climb node x steps = nodeAt node leaf (level + steps.length) index) :
    x = nodeAt node leaf level
      (index * 2 ^ steps.length + pathIndex (steps.map Prod.fst)) := by
  induction steps generalizing x level with
  | nil => simpa [climb, pathIndex] using h
  | cons step steps ih =>
    obtain ⟨right, sibling⟩ := step
    rw [List.length_cons] at hdepth
    rw [climbed, List.forall_mem_cons] at hclimbed
    have hlevel : level + ((right, sibling) :: steps).length = level + 1 + steps.length := by
      rw [List.length_cons]
      omega
    rw [climb, hlevel] at h
    have hparent := ih (by omega) hclimbed.2 h
    rw [nodeAt] at hparent
    -- the parent's two children are the climbing node and its sibling
    have hpair := hinj _ hclimbed.1 _ (htree ⟨level, _, by omega, rfl⟩) hparent
    have hindex : index * 2 ^ ((right, sibling) :: steps).length +
        pathIndex (((right, sibling) :: steps).map Prod.fst) =
        2 * (index * 2 ^ steps.length + pathIndex (steps.map Prod.fst)) + right.toNat := by
      rw [List.length_cons, pow_succ, List.map_cons, pathIndex]
      ring
    rw [hindex]
    cases right with
    | false => exact congrArg Prod.fst hpair
    | true => exact congrArg Prod.snd hpair

end MerkleTree
