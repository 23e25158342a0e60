import Zul.Lib.Bits
import Zul.Lib.MerkleTree
import Zul.Lib.PartialMap

/-! # Sparse Merkle trees

A tree of fixed depth over a node table that holds only non-empty nodes. `insert` writes a
leaf and rehashes its path; `prove` collects the siblings of a path, eliding the empty ones
through a bitmap, and `verify` rebuilds the root from them. The one invariant is local: every
inner node is the hash of its two children (`Consistent`).
-/

structure SparseTree (Path Key H : Type*) where
  depth : ℕ
  /-- Table key of the node at a depth covering the path. -/
  key : ℕ → Path → Key
  bit : Path → ℕ → Bool
  flip : Path → ℕ → Path
  node : H → H → H
  emptyLeaf : H

namespace SparseTree

variable {Path Key H : Type*} (S : SparseTree Path Key H)

/-- A key stands for the path's bits above its depth, and `flip` toggles one bit. -/
structure Lawful : Prop where
  key_eq_iff : ∀ {d d' : ℕ} {p p' : Path}, d ≤ S.depth → d' ≤ S.depth →
    (S.key d p = S.key d' p' ↔ d = d' ∧ ∀ i < d, S.bit p i = S.bit p' i)
  bit_flip : ∀ (p : Path) {i : ℕ} (j : ℕ), i < S.depth →
    S.bit (S.flip p i) j = (S.bit p j ^^ decide (j = i))

def emptyAt : ℕ → H
  | 0 => S.emptyLeaf
  | n + 1 => S.node (emptyAt n) (emptyAt n)

def empties (d : ℕ) : H := S.emptyAt (S.depth - d)

def join (path : Path) (bit : ℕ) (sibling current : H) : H :=
  if S.bit path bit then S.node sibling current else S.node current sibling

/-- The node at a depth on a path; an absent node is empty. -/
def read (t : PartialMap Key H) (d : ℕ) (path : Path) : H := (t (S.key d path)).getD (S.empties d)

section Insert

variable [DecidableEq Key]

/-- Rehash the path from depth `d` up, reading siblings through the overlay. -/
def climb (source : PartialMap Key H) (path : Path) : ℕ → H → PartialMap Key H → PartialMap Key H
  | 0, _, overlay => overlay
  | d + 1, current, overlay =>
    let sibling := S.read (overlay.onto source) (d + 1) (S.flip path d)
    let parent := S.join path d sibling current
    climb source path d parent (overlay.insert (S.key d path) parent)

/-- Write a leaf into the overlay of a node table and rehash its path. -/
def insert (source overlay : PartialMap Key H) (path : Path) (leaf : H) : PartialMap Key H :=
  S.climb source path S.depth leaf (overlay.insert (S.key S.depth path) leaf)

end Insert

/-- Collect the siblings of a path from depth `d` up: set the level's bit and append the
sibling when it is not empty. -/
def proveFrom [DecidableEq H] (t : PartialMap Key H) (path : Path) :
    ℕ → List UInt8 × List H → List UInt8 × List H
  | 0, acc => acc
  | d + 1, (bitmap, siblings) =>
    let sibling := S.read t (d + 1) (S.flip path d)
    proveFrom t path d
      (if sibling ≠ S.empties (d + 1) then
        (BitString.setBit bitmap (S.depth - (d + 1)), siblings ++ [sibling])
      else (bitmap, siblings))

/-- Rebuild the path from depth `d` up, taking a supplied sibling where the bitmap says so;
running out of siblings is `none`. The unused siblings are returned with the root. -/
def verifyFrom (bitmap : List UInt8) (path : Path) : ℕ → List H → H → Option (List H × H)
  | 0, siblings, current => some (siblings, current)
  | d + 1, siblings, current =>
    if BitString.testBit bitmap (S.depth - (d + 1)) then
      match siblings with
      | sibling :: siblings => verifyFrom bitmap path d siblings (S.join path d sibling current)
      | [] => none
    else verifyFrom bitmap path d siblings (S.join path d (S.empties (d + 1)) current)

/-- Whether the siblings rebuild the given root from a leaf, with none left over. -/
def verify [DecidableEq H] (root : H) (path : Path) (leaf : H) (bitmap : List UInt8)
    (siblings : List H) : Bool :=
  match S.verifyFrom bitmap path S.depth siblings leaf with
  | some ([], current) => current = root
  | _ => false

def pair (path : Path) (bit : ℕ) (sibling current : H) : H × H :=
  if S.bit path bit then (sibling, current) else (current, sibling)

def children (t : PartialMap Key H) (d : ℕ) (path : Path) : H × H :=
  S.pair path d (S.read t (d + 1) (S.flip path d)) (S.read t (d + 1) path)

/-- The pairs of children that `verifyFrom` hashes. -/
def walk (bitmap : List UInt8) (path : Path) : ℕ → List H → H → List (H × H)
  | 0, _, _ => []
  | d + 1, siblings, current =>
    if BitString.testBit bitmap (S.depth - (d + 1)) then
      match siblings with
      | sibling :: siblings =>
        S.pair path d sibling current :: walk bitmap path d siblings (S.join path d sibling current)
      | [] => []
    else S.pair path d (S.empties (d + 1)) current ::
      walk bitmap path d siblings (S.join path d (S.empties (d + 1)) current)

/-- The non-empty siblings of a path from depth `d` up. -/
def pending [DecidableEq H] (t : PartialMap Key H) (path : Path) : ℕ → List H
  | 0 => []
  | d + 1 =>
    let sibling := S.read t (d + 1) (S.flip path d)
    if sibling ≠ S.empties (d + 1) then sibling :: pending t path d else pending t path d

/-- The bitmap marks exactly the levels below `d` whose sibling is not empty. -/
def Marks [DecidableEq H] (t : PartialMap Key H) (path : Path) (bitmap : List UInt8)
    (d : ℕ) : Prop :=
  ∀ j < d, BitString.testBit bitmap (S.depth - (j + 1)) =
    decide (S.read t (j + 1) (S.flip path j) ≠ S.empties (j + 1))

/-! ## The local invariant -/

def Consistent (t : PartialMap Key H) : Prop :=
  ∀ d < S.depth, ∀ p, S.read t d p = S.join p d (S.read t (d + 1) (S.flip p d)) (S.read t (d + 1) p)

/-- The first `d` bits of a path as a number, the first bit most significant. -/
def pathIndex (p : Path) : ℕ → ℕ
  | 0 => 0
  | d + 1 => 2 * pathIndex p d + (S.bit p d).toNat

def Leaves (leaf : ℕ → H) (t : PartialMap Key H) : Prop :=
  ∀ p, S.read t S.depth p = leaf (S.pathIndex p S.depth)

def Sparse (t : PartialMap Key H) : Prop :=
  ∀ k h, t k = some h → ∃ d ≤ S.depth, ∃ p, S.key d p = k ∧ h ≠ S.empties d

variable {S}

theorem pathIndex_eq_iff {p p' : Path} {d : ℕ} :
    S.pathIndex p d = S.pathIndex p' d ↔ ∀ i < d, S.bit p i = S.bit p' i := by
  induction d with
  | zero => simp [pathIndex]
  | succ d ih =>
    have hsplit : S.pathIndex p (d + 1) = S.pathIndex p' (d + 1) ↔
        S.pathIndex p d = S.pathIndex p' d ∧ S.bit p d = S.bit p' d := by
      simp only [pathIndex]
      cases S.bit p d <;> cases S.bit p' d <;> simp <;> omega
    rw [hsplit, ih]
    constructor
    · rintro ⟨hlow, htop⟩ i hi
      rcases Nat.lt_succ_iff_lt_or_eq.mp hi with hi | rfl
      · exact hlow i hi
      · exact htop
    · intro h
      exact ⟨fun i hi => h i (by omega), h d (by omega)⟩

theorem empties_eq {d : ℕ} (hd : d < S.depth) :
    S.empties d = S.node (S.empties (d + 1)) (S.empties (d + 1)) := by
  obtain ⟨n, hn⟩ : ∃ n, S.depth - d = n + 1 := ⟨S.depth - d - 1, by omega⟩
  have hn' : S.depth - (d + 1) = n := by omega
  rw [empties, empties, hn, hn', emptyAt]

theorem join_self (p : Path) (i : ℕ) (h : H) : S.join p i h h = S.node h h := ite_self _

theorem consistent_empty : S.Consistent fun _ => none := by
  intro d hd p
  simp only [read, Option.getD_none, join_self, empties_eq hd]

theorem read_congr {t t' : PartialMap Key H} {d : ℕ} {p : Path}
    (h : t (S.key d p) = t' (S.key d p)) : S.read t d p = S.read t' d p := by
  rw [read, read, h]

namespace Lawful

variable (hS : S.Lawful)

include hS

theorem key_ne_of_ne {d d' : ℕ} {p p' : Path} (hd : d ≤ S.depth) (hd' : d' ≤ S.depth)
    (h : d ≠ d') : S.key d p ≠ S.key d' p' := fun he => h ((hS.key_eq_iff hd hd').mp he).1

theorem bit_flip_self (p : Path) {i : ℕ} (hi : i < S.depth) :
    S.bit (S.flip p i) i = !S.bit p i := by
  rw [hS.bit_flip p i hi, decide_eq_true rfl, Bool.xor_true]

theorem bit_flip_of_ne (p : Path) {i j : ℕ} (hi : i < S.depth) (h : j ≠ i) :
    S.bit (S.flip p i) j = S.bit p j := by
  rw [hS.bit_flip p j hi, decide_eq_false h, Bool.xor_false]

theorem key_flip_ne (p : Path) {d j : ℕ} (hd : d < S.depth) (hj : j ≤ S.depth) :
    S.key (d + 1) (S.flip p d) ≠ S.key j p := by
  intro he
  obtain ⟨rfl, hbits⟩ := (hS.key_eq_iff (by omega) hj).mp he
  have := hbits d (by omega)
  rw [hS.bit_flip_self p hd] at this
  exact Bool.not_ne_self _ this

theorem read_root (t : PartialMap Key H) (p p' : Path) : S.read t 0 p = S.read t 0 p' := by
  have : S.key 0 p = S.key 0 p' := (hS.key_eq_iff (by omega) (by omega)).mpr ⟨rfl, by omega⟩
  rw [read, read, this]

variable [DecidableEq Key]

/-- What a climb from depth `d` writes: the path's nodes above `d`, each the hash of its
children, and nothing else. -/
theorem climb_spec (source : PartialMap Key H) (path : Path) {d : ℕ} (hd : d ≤ S.depth)
    {current : H} {overlay : PartialMap Key H}
    (hcur : S.read (overlay.onto source) d path = current) :
    let t := overlay.onto source
    let t' := (S.climb source path d current overlay).onto source
    (∀ k, (∀ j < d, k ≠ S.key j path) → t' k = t k) ∧
    ∀ j < d, t' (S.key j path) =
      some (S.join path j (S.read t (j + 1) (S.flip path j)) (S.read t' (j + 1) path)) := by
  induction d generalizing current overlay with
  | zero => exact ⟨fun _ _ => rfl, by omega⟩
  | succ d ih =>
    intro t t'
    set parent := S.join path d (S.read t (d + 1) (S.flip path d)) current with hparent
    set overlay₁ := overlay.insert (S.key d path) parent with hoverlay
    have ht₁ (k : Key) : overlay₁.onto source k = if k = S.key d path then some parent else t k :=
      PartialMap.insert_onto ..
    have hself : S.read (overlay₁.onto source) d path = parent := by
      rw [read, ht₁, if_pos rfl, Option.getD_some]
    obtain ⟨hoff, hon⟩ := ih (by omega) hself
    have ht' : t' = (S.climb source path d parent overlay₁).onto source := rfl
    rw [← ht'] at hoff hon
    have htop : t' (S.key d path) = some parent := by
      rw [hoff _ fun j hj => hS.key_ne_of_ne (by omega) (by omega) (by omega), ht₁, if_pos rfl]
    have hoff' : ∀ k, (∀ j < d + 1, k ≠ S.key j path) → t' k = t k := fun k hk => by
      rw [hoff k fun j hj => hk j (by omega), ht₁, if_neg (hk d (by omega))]
    refine ⟨hoff', fun j hj => ?_⟩
    rcases Nat.lt_succ_iff_lt_or_eq.mp hj with hj | rfl
    · -- below the top of this step the sibling was not touched by it
      rw [hon j hj]
      have : S.read (overlay₁.onto source) (j + 1) (S.flip path j) =
          S.read t (j + 1) (S.flip path j) :=
        read_congr (by rw [ht₁, if_neg (hS.key_flip_ne path (by omega) (by omega))])
      rw [this]
    · have : S.read t' (j + 1) path = current := by
        rw [← hcur]
        exact read_congr (hoff' _ fun i hi => hS.key_ne_of_ne hd (by omega) (by omega))
      rw [htop, this]

theorem insert_spec (source overlay : PartialMap Key H) (path : Path) (leaf : H) :
    let t := overlay.onto source
    let t' := (S.insert source overlay path leaf).onto source
    (∀ k, (∀ j ≤ S.depth, k ≠ S.key j path) → t' k = t k) ∧
    S.read t' S.depth path = leaf ∧
    ∀ j < S.depth, S.read t' j path =
      S.join path j (S.read t (j + 1) (S.flip path j)) (S.read t' (j + 1) path) := by
  intro t t'
  set overlay₀ := overlay.insert (S.key S.depth path) leaf with hoverlay
  have ht₀ (k : Key) :
      overlay₀.onto source k = if k = S.key S.depth path then some leaf else t k :=
    PartialMap.insert_onto ..
  have hleaf : S.read (overlay₀.onto source) S.depth path = leaf := by
    rw [read, ht₀, if_pos rfl, Option.getD_some]
  obtain ⟨hoff, hon⟩ := hS.climb_spec source path le_rfl hleaf
  refine ⟨fun k hk => ?_, ?_, fun j hj => ?_⟩
  · refine (hoff k fun j hj => hk j hj.le).trans ?_
    rw [ht₀, if_neg (hk _ le_rfl)]
  · rw [← hleaf]
    exact read_congr (hoff _ fun j hj => hS.key_ne_of_ne le_rfl hj.le hj.ne')
  · have hsib : S.read (overlay₀.onto source) (j + 1) (S.flip path j) =
        S.read t (j + 1) (S.flip path j) :=
      read_congr (by rw [ht₀, if_neg (hS.key_flip_ne path hj le_rfl)])
    rw [read, show t' _ = _ from hon j hj, hsib, Option.getD_some]
    rfl

theorem read_insert_of_ne (source overlay : PartialMap Key H) {path p : Path} (leaf : H) {d : ℕ}
    (hd : d ≤ S.depth) (h : ∃ i < d, S.bit p i ≠ S.bit path i) :
    S.read ((S.insert source overlay path leaf).onto source) d p =
      S.read (overlay.onto source) d p := by
  obtain ⟨i, hi, hne⟩ := h
  refine read_congr ((hS.insert_spec source overlay path leaf).1 _ fun j hj he => ?_)
  obtain ⟨rfl, hbits⟩ := (hS.key_eq_iff hd hj).mp he
  exact hne (hbits i hi)

omit [DecidableEq Key] in
theorem read_eq_of_bits (t : PartialMap Key H) {d : ℕ} {p p' : Path} (hd : d ≤ S.depth)
    (h : ∀ i < d, S.bit p i = S.bit p' i) : S.read t d p = S.read t d p' := by
  rw [read, read, (hS.key_eq_iff hd hd).mpr ⟨rfl, h⟩]

theorem consistent_insert {source overlay : PartialMap Key H}
    (ht : S.Consistent (overlay.onto source)) (path : Path) (leaf : H) :
    S.Consistent ((S.insert source overlay path leaf).onto source) := by
  obtain ⟨hoff, -, hon⟩ := hS.insert_spec source overlay path leaf
  intro d hd p
  have hflip (q : Path) : ∀ i < d, S.bit (S.flip q d) i = S.bit q i := fun i hi =>
    hS.bit_flip_of_ne q hd hi.ne
  by_cases hp : ∀ i < d, S.bit p i = S.bit path i
  · have hsib : S.read ((S.insert source overlay path leaf).onto source) (d + 1) (S.flip path d) =
        S.read (overlay.onto source) (d + 1) (S.flip path d) :=
      read_congr (hoff _ fun j hj => hS.key_flip_ne path hd hj)
    rw [hS.read_eq_of_bits _ hd.le hp, hon d hd, ← hsib]
    by_cases hbit : S.bit p d = S.bit path d
    · -- the two paths still agree one level down
      have hdown : ∀ i < d + 1, S.bit p i = S.bit path i := fun i hi => by
        rcases Nat.lt_succ_iff_lt_or_eq.mp hi with hi | rfl
        exacts [hp i hi, hbit]
      have hside : ∀ i < d + 1, S.bit (S.flip p d) i = S.bit (S.flip path d) i := fun i hi => by
        rw [hS.bit_flip p i hd, hS.bit_flip path i hd, hdown i hi]
      rw [hS.read_eq_of_bits _ hd hdown, hS.read_eq_of_bits _ hd hside, join, join, hbit]
    · -- the two paths part here, so each is the other's sibling
      have hnot : S.bit path d = !S.bit p d := by
        cases h₁ : S.bit p d <;> cases h₂ : S.bit path d <;> simp_all
      have hdown : ∀ i < d + 1, S.bit p i = S.bit (S.flip path d) i := fun i hi => by
        rcases Nat.lt_succ_iff_lt_or_eq.mp hi with hi | rfl
        · rw [hflip path i hi, hp i hi]
        · rw [hS.bit_flip_self path hd, hnot, Bool.not_not]
      have hside : ∀ i < d + 1, S.bit (S.flip p d) i = S.bit path i := fun i hi => by
        rcases Nat.lt_succ_iff_lt_or_eq.mp hi with hi | rfl
        · rw [hflip p i hi, hp i hi]
        · rw [hS.bit_flip_self p hd, hnot]
      rw [hS.read_eq_of_bits _ hd hdown, hS.read_eq_of_bits _ hd hside, join, join, hnot]
      cases S.bit p d <;> rfl
  · push Not at hp
    obtain ⟨i, hi, hne⟩ := hp
    rw [hS.read_insert_of_ne _ _ _ hd.le ⟨i, hi, hne⟩,
      hS.read_insert_of_ne _ _ _ hd ⟨i, by omega, hne⟩,
      hS.read_insert_of_ne _ _ _ hd ⟨i, by omega, by rwa [hflip p i hi]⟩]
    exact ht d hd p

theorem leaves_insert {source overlay : PartialMap Key H} {leaf : ℕ → H}
    (h : S.Leaves leaf (overlay.onto source)) (path : Path) (value : H) :
    S.Leaves (Function.update leaf (S.pathIndex path S.depth) value)
      ((S.insert source overlay path value).onto source) := by
  intro p
  by_cases hp : ∀ i < S.depth, S.bit p i = S.bit path i
  · rw [hS.read_eq_of_bits _ le_rfl hp, (hS.insert_spec source overlay path value).2.1,
      pathIndex_eq_iff.mpr hp, Function.update_self]
  · rw [Function.update_of_ne (mt pathIndex_eq_iff.mp hp)]
    push Not at hp
    rw [hS.read_insert_of_ne _ _ _ le_rfl hp]
    exact h p

omit [DecidableEq Key] in
theorem read_eq_nodeAt {t : PartialMap Key H} (ht : S.Consistent t) {leaf : ℕ → H}
    (hleaf : S.Leaves leaf t) {d level : ℕ} (hd : d + level = S.depth) (p : Path) :
    S.read t d p = MerkleTree.nodeAt S.node leaf level (S.pathIndex p d) := by
  induction level generalizing d p with
  | zero =>
    obtain rfl : d = S.depth := hd
    exact hleaf p
  | succ level ih =>
    have hlt : d < S.depth := by omega
    have hflip : S.pathIndex (S.flip p d) d = S.pathIndex p d :=
      pathIndex_eq_iff.mpr fun i hi => hS.bit_flip_of_ne p hlt hi.ne
    rw [ht d hlt p, ih (by omega), ih (by omega), MerkleTree.nodeAt, join]
    simp only [pathIndex, hflip, hS.bit_flip_self p hlt]
    cases S.bit p d <;> rfl

omit [DecidableEq Key] in
theorem stored_of_leaves {t t' : PartialMap Key H} {leaf : ℕ → H} (hsparse : S.Sparse t)
    (ht : S.Consistent t) (hleaf : S.Leaves leaf t) (ht' : S.Consistent t')
    (hleaf' : S.Leaves leaf t') {k : Key} {h : H} (hk : t k = some h) : t' k = some h := by
  obtain ⟨d, hd, p, rfl, hne⟩ := hsparse k h hk
  have hlevel : d + (S.depth - d) = S.depth := by omega
  have hread : S.read t d p = h := by rw [read, hk, Option.getD_some]
  have hread' : S.read t' d p = h := by
    rw [← hread, hS.read_eq_nodeAt ht hleaf hlevel, hS.read_eq_nodeAt ht' hleaf' hlevel]
  rw [read] at hread'
  cases hk' : t' (S.key d p) with
  | none =>
    rw [hk', Option.getD_none] at hread'
    exact absurd hread'.symm hne
  | some h' =>
    rw [hk', Option.getD_some] at hread'
    rw [hread']

omit [DecidableEq Key] in
theorem table_eq_of_leaves {t t' : PartialMap Key H} {leaf : ℕ → H} (hsparse : S.Sparse t)
    (ht : S.Consistent t) (hleaf : S.Leaves leaf t) (hsparse' : S.Sparse t')
    (ht' : S.Consistent t') (hleaf' : S.Leaves leaf t') : t = t' := by
  funext k
  apply Option.ext
  intro h
  constructor
  · exact hS.stored_of_leaves hsparse ht hleaf ht' hleaf'
  · exact hS.stored_of_leaves hsparse' ht' hleaf' ht hleaf

end Lawful

/-! ## Proofs verify -/

section Proofs

variable [DecidableEq H]

theorem length_proveFrom (t : PartialMap Key H) (path : Path) (d : ℕ) (acc : List UInt8 × List H) :
    (S.proveFrom t path d acc).1.length = acc.1.length := by
  induction d generalizing acc with
  | zero => rfl
  | succ d ih =>
    simp only [proveFrom, ih]
    split_ifs <;> simp

theorem proveFrom_spec (t : PartialMap Key H) (path : Path) {d : ℕ} (hd : d ≤ S.depth)
    (bitmap : List UInt8) (siblings : List H) (hlen : S.depth ≤ 8 * bitmap.length)
    (hclear : ∀ i, S.depth - d ≤ i → BitString.testBit bitmap i = false) :
    let out := S.proveFrom t path d (bitmap, siblings)
    out.2 = siblings ++ S.pending t path d ∧ S.Marks t path out.1 d ∧
      ∀ i < S.depth - d, BitString.testBit out.1 i = BitString.testBit bitmap i := by
  induction d generalizing bitmap siblings with
  | zero => simp [proveFrom, pending, Marks]
  | succ d ih =>
    have hi : S.depth - (d + 1) < 8 * bitmap.length := by omega
    simp only [proveFrom, pending]
    split_ifs with hne
    · obtain ⟨hsib, hmarks, hkeep⟩ := ih (by omega)
        (BitString.setBit bitmap (S.depth - (d + 1)))
        (siblings ++ [S.read t (d + 1) (S.flip path d)]) (by simpa using hlen) fun i hi' => by
          rw [BitString.testBit_setBit hi, hclear i (by omega), decide_eq_false (by omega)]
          rfl
      refine ⟨by rw [hsib, List.append_assoc]; rfl, fun j hj => ?_, fun i hi' => ?_⟩
      · rcases Nat.lt_succ_iff_lt_or_eq.mp hj with hj | rfl
        · exact hmarks j hj
        · rw [hkeep _ (by omega), BitString.testBit_setBit hi, decide_eq_true rfl, Bool.or_true]
          exact (decide_eq_true hne).symm
      · rw [hkeep i (by omega), BitString.testBit_setBit hi, decide_eq_false (by omega),
          Bool.or_false]
    · obtain ⟨hsib, hmarks, hkeep⟩ := ih (by omega) bitmap siblings hlen fun i hi' =>
        hclear i (by omega)
      refine ⟨hsib, fun j hj => ?_, fun i hi' => hkeep i (by omega)⟩
      rcases Nat.lt_succ_iff_lt_or_eq.mp hj with hj | rfl
      · exact hmarks j hj
      · rw [hkeep _ (by omega), hclear _ le_rfl]
        exact (decide_eq_false hne).symm

theorem verifyFrom_pending {t : PartialMap Key H} (ht : S.Consistent t) (path : Path)
    {bitmap : List UInt8} {d : ℕ} (hd : d ≤ S.depth) (hmarks : S.Marks t path bitmap d) :
    S.verifyFrom bitmap path d (S.pending t path d) (S.read t d path) =
      some ([], S.read t 0 path) := by
  induction d with
  | zero => rfl
  | succ d ih =>
    have ih := ih (by omega) fun j hj => hmarks j (by omega)
    rw [ht d (by omega) path] at ih
    simp only [verifyFrom, pending, hmarks d (by omega)]
    by_cases hsib : S.read t (d + 1) (S.flip path d) = S.empties (d + 1)
    · simpa [hsib] using ih
    · simpa [hsib] using ih

theorem verify_prove {t : PartialMap Key H} (ht : S.Consistent t) (path : Path) {n : ℕ}
    (hn : S.depth ≤ 8 * n) :
    let proof := S.proveFrom t path S.depth (List.replicate n 0, [])
    S.verify (S.read t 0 path) path (S.read t S.depth path) proof.1 proof.2 = true := by
  obtain ⟨hsib, hmarks, -⟩ := proveFrom_spec t path le_rfl (List.replicate n 0) []
    (by simpa using hn) fun i _ => BitString.testBit_replicate_zero n i
  simp only [verify, hsib, List.nil_append, verifyFrom_pending ht path le_rfl hmarks, decide_true]

end Proofs

/-! ## Proofs are sound -/

section Soundness

theorem join_eq (path : Path) (bit : ℕ) (sibling current : H) :
    S.join path bit sibling current =
      S.node (S.pair path bit sibling current).1 (S.pair path bit sibling current).2 := by
  unfold join pair
  split <;> rfl

theorem pair_inj {path : Path} {bit : ℕ} {sibling sibling' current current' : H}
    (h : S.pair path bit sibling current = S.pair path bit sibling' current') :
    current = current' := by
  unfold pair at h
  split at h
  · exact congrArg Prod.snd h
  · exact congrArg Prod.fst h

def Clash (S : SparseTree Path Key H) (a b : H × H) : Prop :=
  a ≠ b ∧ S.node a.1 a.2 = S.node b.1 b.2

theorem read_or_clash {t : PartialMap Key H} (ht : S.Consistent t) {path : Path} {d : ℕ}
    (hd : d < S.depth) {sibling current : H}
    (h : S.join path d sibling current = S.read t d path) :
    current = S.read t (d + 1) path ∨
      S.Clash (S.pair path d sibling current) (S.children t d path) := by
  by_cases heq : S.pair path d sibling current = S.children t d path
  · exact .inl (pair_inj heq)
  · refine .inr ⟨heq, ?_⟩
    rw [← join_eq, h, ht d hd path, join_eq]
    rfl

/-- A walk that arrives at the root of a consistent tree started from the tree's own node, or two
pairs on the way clash. -/
theorem verifyFrom_sound {t : PartialMap Key H} (ht : S.Consistent t) (bitmap : List UInt8)
    (path : Path) {d : ℕ} (hd : d ≤ S.depth) {siblings rest : List H} {current : H}
    (h : S.verifyFrom bitmap path d siblings current = some (rest, S.read t 0 path)) :
    current = S.read t d path ∨
      ∃ a ∈ S.walk bitmap path d siblings current, ∃ j < d, S.Clash a (S.children t j path) := by
  induction d generalizing siblings current with
  | zero =>
    cases h
    exact .inl rfl
  | succ d ih =>
    have hlevel : ∀ {sibling : H} {siblings : List H},
        S.verifyFrom bitmap path d siblings (S.join path d sibling current) =
          some (rest, S.read t 0 path) →
        current = S.read t (d + 1) path ∨
          ∃ a ∈ S.pair path d sibling current ::
              S.walk bitmap path d siblings (S.join path d sibling current),
            ∃ j < d + 1, S.Clash a (S.children t j path) := by
      intro sibling siblings hwalk
      rcases ih (by omega) hwalk with hnode | ⟨a, ha, j, hj, hclash⟩
      · rcases read_or_clash ht (by omega) hnode with hread | hclash
        · exact .inl hread
        · exact .inr ⟨_, List.mem_cons_self, d, by omega, hclash⟩
      · exact .inr ⟨a, List.mem_cons_of_mem _ ha, j, by omega, hclash⟩
    unfold verifyFrom at h
    unfold walk
    split
    · rename_i hbit
      rw [if_pos hbit] at h
      cases siblings with
      | nil => cases h
      | cons sibling siblings => exact hlevel h
    · rename_i hbit
      rw [if_neg hbit] at h
      exact hlevel h

theorem verify_sound [DecidableEq H] {t : PartialMap Key H} (ht : S.Consistent t) {path : Path}
    {leaf : H} {bitmap : List UInt8} {siblings : List H}
    (h : S.verify (S.read t 0 path) path leaf bitmap siblings = true) :
    leaf = S.read t S.depth path ∨
      ∃ a ∈ S.walk bitmap path S.depth siblings leaf, ∃ j < S.depth,
        S.Clash a (S.children t j path) := by
  unfold verify at h
  split at h
  · rename_i current hwalk
    rw [decide_eq_true_eq] at h
    rw [h] at hwalk
    exact verifyFrom_sound ht bitmap path le_rfl hwalk
  · cases h

end Soundness

end SparseTree
