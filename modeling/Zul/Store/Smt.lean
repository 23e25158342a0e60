import Zul.Lib.SparseTree
import Zul.Primitives.Basic

/-! # The state tree

A depth-256 sparse Merkle tree over accounts. Its hashes, paths and node keys are shared with
the shallow withdrawals tree, so the addressing is stated once for every depth up to 256.
-/

namespace Zul.Smt

def SMT_DEPTH : ℕ := 256

/-- Two bytes of depth, big endian, then the path masked to that many bits. -/
abbrev NodeKey := Bytes 34

section Addressing

def pathBit (path : H256) (bit : ℕ) : Bool := BitString.testBit path.toList bit

def flipBit (path : H256) (bit : ℕ) : H256 :=
  ⟨BitString.flipBit path.toList bit, by simp⟩

/-- The table key of the node at `depth` covering the path; depths stay below 257. -/
def nodeKey (depth : ℕ) (path : H256) : NodeKey :=
  ⟨[UInt8.ofNat (depth / 256), UInt8.ofNat depth] ++ BitString.keepBits (min depth 256) path.toList,
    by
      have h : min depth 256 ≤ 8 * path.toList.length := by rw [Bytes.length_toList]; omega
      simp [BitString.length_keepBits h]⟩

def NodeKey.depth (key : NodeKey) : ℕ :=
  (key.toList.getD 0 0).toNat * 256 + (key.toList.getD 1 0).toNat

theorem depth_nodeKey {d : ℕ} (hd : d ≤ 256) (path : H256) : (nodeKey d path).depth = d := by
  have h₀ : (UInt8.ofNat (d / 256)).toNat = d / 256 :=
    UInt8.toNat_ofNat_of_lt' (by have : UInt8.size = 256 := rfl; omega)
  simp only [NodeKey.depth, nodeKey, List.cons_append, List.nil_append, List.getD_cons_zero,
    List.getD_cons_succ, h₀, UInt8.toNat_ofNat']
  omega

theorem nodeKey_eq_iff {d d' : ℕ} {p p' : H256} (hd : d ≤ 256) (hd' : d' ≤ 256) :
    nodeKey d p = nodeKey d' p' ↔ d = d' ∧ ∀ i < d, pathBit p i = pathBit p' i := by
  constructor
  · intro h
    have hdd : d = d' := by rw [← depth_nodeKey hd p, h, depth_nodeKey hd']
    subst hdd
    refine ⟨rfl, ?_⟩
    have hkeep := congrArg (·.toList.drop 2) h
    simp only [nodeKey, List.cons_append, List.nil_append, List.drop_succ_cons, List.drop_zero,
      min_eq_left hd] at hkeep
    exact (BitString.keepBits_eq_iff (by simp) (by simpa using hd)).mp hkeep
  · rintro ⟨rfl, hbits⟩
    ext1
    simp only [nodeKey, min_eq_left hd]
    rw [(BitString.keepBits_eq_iff (by simp) (by simpa using hd)).mpr hbits]

theorem pathBit_flipBit (path : H256) {i : ℕ} (j : ℕ) (hi : i < 256) :
    pathBit (flipBit path i) j = (pathBit path j ^^ decide (j = i)) :=
  BitString.testBit_flipBit (by simpa using hi) j

end Addressing

variable (P : Prims)

def nodeHash (left right : H256) : H256 :=
  P.blake3Concat (strBytes "PL2:smt:node") [left.toList, right.toList]

def keyPath (pubkey : Pubkey) : H256 := P.blake3_32 (strBytes "PL2:smt:key") pubkey.toList

def leafHash (pubkey : Pubkey) (accountHash : H256) : H256 :=
  P.blake3Concat (strBytes "PL2:smt:leaf") [pubkey.toList, accountHash.toList]

def tree (depth : ℕ) : SparseTree H256 NodeKey H256 where
  depth := depth
  key := nodeKey
  bit := pathBit
  flip := flipBit
  node := nodeHash P
  emptyLeaf := P.blake3_32 (strBytes "PL2:smt:empty") []

theorem tree_lawful {depth : ℕ} (h : depth ≤ 256) : (tree P depth).Lawful where
  key_eq_iff hd hd' := nodeKey_eq_iff (hd.trans h) (hd'.trans h)
  bit_flip p _ j hi := pathBit_flipBit p j (lt_of_lt_of_le hi h)

/-- `emptyHashes d` is the root of an empty subtree at depth `d`. -/
def emptyHashes (d : ℕ) : H256 := (tree P SMT_DEPTH).empties d

/-- One account's new leaf: its hash, or `none` when it was deleted. -/
abbrev LeafUpdate := Pubkey × Option H256

/-- The outcome of a batch of leaf updates; a node equal to its depth's empty hash is to be
deleted from the table. -/
structure StateUpdate where
  newRoot : H256
  nodeWrites : PartialMap NodeKey H256

/-- Apply leaf updates over the committed nodes; nothing is written. -/
def applyUpdates (source : PartialMap NodeKey H256) (updates : List LeafUpdate) : StateUpdate :=
  let overlay := updates.foldl
    (fun overlay (u : LeafUpdate) =>
      let leaf := match u.2 with
        | some accountHash => leafHash P u.1 accountHash
        | none => emptyHashes P SMT_DEPTH
      (tree P SMT_DEPTH).insert source overlay (keyPath P u.1) leaf)
    fun _ => none
  { newRoot := (tree P SMT_DEPTH).read (overlay.onto source) 0 (Bytes.replicate 32 0)
    nodeWrites := overlay }

structure SmtProof where
  bitmap : Bytes 32
  siblings : List H256
  deriving DecidableEq

def prove (source : PartialMap NodeKey H256) (pubkey : Pubkey) : SmtProof :=
  let out := (tree P SMT_DEPTH).proveFrom source (keyPath P pubkey) SMT_DEPTH
    (List.replicate 32 0, [])
  { bitmap := ⟨out.1, (SparseTree.length_proveFrom ..).trans List.length_replicate⟩
    siblings := out.2 }

/-- The leaf a proof starts from; `none` proves absence. -/
def provenLeaf (pubkey : Pubkey) : Option H256 → H256
  | some accountHash => leafHash P pubkey accountHash
  | none => emptyHashes P SMT_DEPTH

def verify (root : H256) (pubkey : Pubkey) (accountHash : Option H256) (proof : SmtProof) : Bool :=
  (tree P SMT_DEPTH).verify root (keyPath P pubkey) (provenLeaf P pubkey accountHash)
    proof.bitmap.toList proof.siblings

variable {P}

theorem verify_prove_of_read {nodes : PartialMap NodeKey H256}
    (hnodes : (tree P SMT_DEPTH).Consistent nodes) {pubkey : Pubkey} {accountHash : Option H256}
    (hleaf : (tree P SMT_DEPTH).read nodes SMT_DEPTH (keyPath P pubkey) =
      provenLeaf P pubkey accountHash) :
    verify P ((tree P SMT_DEPTH).read nodes 0 (keyPath P pubkey)) pubkey accountHash
      (prove P nodes pubkey) = true := by
  have hverify := SparseTree.verify_prove hnodes (keyPath P pubkey) (n := 32) le_rfl
  have hdepth : (tree P SMT_DEPTH).depth = SMT_DEPTH := rfl
  rw [hdepth, hleaf] at hverify
  simp only [verify, prove]
  exact hverify

end Zul.Smt
