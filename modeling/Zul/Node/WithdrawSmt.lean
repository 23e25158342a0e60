import Zul.Store.Smt

/-! # The withdrawals tree

A depth-32 sparse Merkle tree of withdrawal commitments kept in memory; its root is posted to L1
and its proofs are what a claim verifies.
-/

namespace Zul.Node.WithdrawSmt

open Smt

def WITHDRAW_DEPTH : ℕ := 32

variable (P : Prims)

/-- The shallow tree: the state tree's hashes and keys at depth 32. -/
def shallow : SparseTree H256 NodeKey H256 := tree P WITHDRAW_DEPTH

def apply (t : PartialMap NodeKey H256) (pubkey : Pubkey) (accountHash : H256) :
    PartialMap NodeKey H256 :=
  (shallow P).insert (fun _ => none) t (keyPath P pubkey) (leafHash P pubkey accountHash)

def root (t : PartialMap NodeKey H256) : H256 := (shallow P).read t 0 (Bytes.replicate 32 0)

def prove (t : PartialMap NodeKey H256) (pubkey : Pubkey) : SmtProof :=
  let out := (shallow P).proveFrom t (keyPath P pubkey) WITHDRAW_DEPTH (List.replicate 32 0, [])
  { bitmap := ⟨out.1, (SparseTree.length_proveFrom ..).trans List.length_replicate⟩
    siblings := out.2 }

def verify (root : H256) (pubkey : Pubkey) (accountHash : H256) (proof : SmtProof) : Bool :=
  (shallow P).verify root (keyPath P pubkey) (leafHash P pubkey accountHash) proof.bitmap.toList
    proof.siblings

/-! ## Inserting a leaf -/

def SamePath (k k' : Pubkey) : Prop :=
  ∀ i < WITHDRAW_DEPTH, pathBit (keyPath P k) i = pathBit (keyPath P k') i

/-- The tree reached from the empty one by inserting some leaves, in order. -/
def applyAll (leaves : List (Pubkey × H256)) : PartialMap NodeKey H256 :=
  leaves.foldl (fun t leaf => apply P t leaf.1 leaf.2) fun _ => none

/-- A leaf that was inserted and that no later one on its position has overwritten. -/
def Stands (leaves : List (Pubkey × H256)) (leaf : Pubkey × H256) : Prop :=
  ∃ before after, leaves = before ++ leaf :: after ∧ ∀ later ∈ after, ¬ SamePath P leaf.1 later.1

variable {P}

theorem shallow_lawful (P : Prims) : (shallow P).Lawful := tree_lawful P (by decide)

theorem shallow_depth (P : Prims) : (shallow P).depth = WITHDRAW_DEPTH := rfl

theorem consistent_apply {t : PartialMap NodeKey H256} (ht : (shallow P).Consistent t)
    (pubkey : Pubkey) (accountHash : H256) :
    (shallow P).Consistent (apply P t pubkey accountHash) := by
  have hover : (shallow P).Consistent (t.onto fun _ => none) := by rwa [PartialMap.onto_none]
  have hins := (shallow_lawful P).consistent_insert hover (keyPath P pubkey)
    (leafHash P pubkey accountHash)
  rwa [PartialMap.onto_none] at hins

theorem read_apply_of_bits (t : PartialMap NodeKey H256) (pubkey : Pubkey) (accountHash : H256)
    {path : H256} (h : ∀ i < WITHDRAW_DEPTH, pathBit path i = pathBit (keyPath P pubkey) i) :
    (shallow P).read (apply P t pubkey accountHash) WITHDRAW_DEPTH path =
      leafHash P pubkey accountHash := by
  have hlaw := shallow_lawful P
  have hspec := (hlaw.insert_spec (fun _ => none) t (keyPath P pubkey)
    (leafHash P pubkey accountHash)).2.1
  rw [PartialMap.onto_none] at hspec
  exact (hlaw.read_eq_of_bits _ le_rfl h).trans hspec

theorem read_apply_of_not_bits (t : PartialMap NodeKey H256) (pubkey : Pubkey) (accountHash : H256)
    {path : H256} (h : ¬ ∀ i < WITHDRAW_DEPTH, pathBit path i = pathBit (keyPath P pubkey) i) :
    (shallow P).read (apply P t pubkey accountHash) WITHDRAW_DEPTH path =
      (shallow P).read t WITHDRAW_DEPTH path := by
  push Not at h
  have hread := (shallow_lawful P).read_insert_of_ne (fun _ => none) t
    (leafHash P pubkey accountHash) le_rfl h
  rwa [PartialMap.onto_none, PartialMap.onto_none] at hread

theorem applyAll_append (leaves : List (Pubkey × H256)) (last : Pubkey × H256) :
    applyAll P (leaves ++ [last]) = apply P (applyAll P leaves) last.1 last.2 := by
  simp only [applyAll, List.foldl_append, List.foldl_cons, List.foldl_nil]

theorem consistent_applyAll (leaves : List (Pubkey × H256)) :
    (shallow P).Consistent (applyAll P leaves) := by
  induction leaves using List.reverseRecOn with
  | nil => exact SparseTree.consistent_empty
  | append_singleton leaves last ih =>
    rw [applyAll_append]
    exact consistent_apply ih _ _

theorem stands_last (leaves : List (Pubkey × H256)) (last : Pubkey × H256) :
    Stands P (leaves ++ [last]) last :=
  ⟨leaves, [], rfl, fun _ h => absurd h List.not_mem_nil⟩

theorem Stands.append {leaves : List (Pubkey × H256)} {leaf last : Pubkey × H256}
    (h : Stands P leaves leaf) (hlast : ¬ SamePath P leaf.1 last.1) :
    Stands P (leaves ++ [last]) leaf := by
  obtain ⟨before, after, rfl, hafter⟩ := h
  refine ⟨before, after ++ [last], by simp, ?_⟩
  intro later hlater
  rcases List.mem_append.mp hlater with hmem | hmem
  · exact hafter later hmem
  · rwa [List.mem_singleton.mp hmem]

theorem Stands.mem {leaves : List (Pubkey × H256)} {leaf : Pubkey × H256}
    (h : Stands P leaves leaf) : leaf ∈ leaves := by
  obtain ⟨before, after, rfl, -⟩ := h
  exact List.mem_append_right _ List.mem_cons_self

theorem Stands.read {leaves : List (Pubkey × H256)} {leaf : Pubkey × H256}
    (h : Stands P leaves leaf) :
    (shallow P).read (applyAll P leaves) WITHDRAW_DEPTH (keyPath P leaf.1) =
      leafHash P leaf.1 leaf.2 := by
  obtain ⟨before, after, rfl, hafter⟩ := h
  induction after using List.reverseRecOn with
  | nil =>
    rw [applyAll_append]
    exact read_apply_of_bits _ _ _ fun _ _ => rfl
  | append_singleton after last ih =>
    have hlast := hafter last (List.mem_append_right _ (List.mem_singleton_self _))
    rw [← List.cons_append, ← List.append_assoc, applyAll_append,
      read_apply_of_not_bits _ _ _ hlast]
    exact ih fun later hlater => hafter later (List.mem_append_left _ hlater)

theorem read_applyAll_cases (leaves : List (Pubkey × H256)) (path : H256) :
    (shallow P).read (applyAll P leaves) WITHDRAW_DEPTH path = (shallow P).emptyLeaf ∨
      ∃ leaf, Stands P leaves leaf ∧
        (∀ i < WITHDRAW_DEPTH, pathBit path i = pathBit (keyPath P leaf.1) i) ∧
        (shallow P).read (applyAll P leaves) WITHDRAW_DEPTH path = leafHash P leaf.1 leaf.2 := by
  induction leaves using List.reverseRecOn with
  | nil => exact .inl rfl
  | append_singleton leaves last ih =>
    rw [applyAll_append]
    by_cases hlast : ∀ i < WITHDRAW_DEPTH, pathBit path i = pathBit (keyPath P last.1) i
    · exact .inr ⟨last, stands_last leaves last, hlast, read_apply_of_bits _ _ _ hlast⟩
    · rw [read_apply_of_not_bits _ _ _ hlast]
      rcases ih with hempty | ⟨leaf, hstands, hbits, hread⟩
      · exact .inl hempty
      · refine .inr ⟨leaf, hstands.append ?_, hbits, hread⟩
        exact fun hsame => hlast fun i hi => (hbits i hi).trans (hsame i hi)

theorem verify_prove {t : PartialMap NodeKey H256} (ht : (shallow P).Consistent t) {pubkey : Pubkey}
    {accountHash : H256} (hread : (shallow P).read t WITHDRAW_DEPTH (keyPath P pubkey) =
      leafHash P pubkey accountHash) :
    verify P (root P t) pubkey accountHash (prove P t pubkey) = true := by
  have hdepth : (shallow P).depth ≤ 8 * 32 := by
    rw [shallow_depth]
    decide
  have hverify := SparseTree.verify_prove ht (keyPath P pubkey) hdepth
  rw [shallow_depth, hread, (shallow_lawful P).read_root t _ (Bytes.replicate 32 0)] at hverify
  exact hverify

end Zul.Node.WithdrawSmt
