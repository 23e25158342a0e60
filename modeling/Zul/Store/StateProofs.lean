import Zul.Store.CanonicalRoot

/-! # State proofs

A proof read off the node table verifies for what the table holds, and under the root of such a
table nothing else verifies unless two of the strings hashed by the verifier and by the tree
collide.
-/

namespace Zul.Smt

variable {P : Prims}

/-! ## Hashed strings -/

def leafInput (leaf : Pubkey × H256) : List UInt8 :=
  strBytes "PL2:smt:leaf" ++ [leaf.1.toList, leaf.2.toList].flatten

def nodeInput (children : H256 × H256) : List UInt8 :=
  strBytes "PL2:smt:node" ++ [children.1.toList, children.2.toList].flatten

def emptyInput : List UInt8 := strBytes "PL2:smt:empty" ++ []

theorem leafInput_injective : Function.Injective leafInput := by
  intro leaf leaf' h
  have h := List.append_cancel_left h
  simp only [List.flatten_cons, List.flatten_nil, List.append_nil] at h
  obtain ⟨hkey, hhash⟩ := List.append_inj h (by simp)
  exact Prod.ext (Bytes.ext hkey) (Bytes.ext hhash)

theorem nodeInput_injective : Function.Injective nodeInput := by
  intro children children' h
  have h := List.append_cancel_left h
  simp only [List.flatten_cons, List.flatten_nil, List.append_nil] at h
  obtain ⟨hleft, hright⟩ := List.append_inj h (by simp)
  exact Prod.ext (Bytes.ext hleft) (Bytes.ext hright)

theorem leafInput_ne_emptyInput (leaf : Pubkey × H256) : leafInput leaf ≠ emptyInput := by
  intro h
  have hlength := congrArg List.length h
  have hdomain : (strBytes "PL2:smt:leaf").length = 12 ∧
    (strBytes "PL2:smt:empty").length = 13 := by
    decide
  simp [leafInput, emptyInput, hdomain.1, hdomain.2] at hlength

def provenInput (pubkey : Pubkey) : Option H256 → List UInt8
  | some accountHash => leafInput (pubkey, accountHash)
  | none => emptyInput

theorem blake3_provenInput (pubkey : Pubkey) (accountHash : Option H256) :
    P.blake3 (provenInput pubkey accountHash) = provenLeaf P pubkey accountHash := by
  cases accountHash with
  | some accountHash => rfl
  | none => simp [provenInput, provenLeaf, emptyInput, emptyHashes, SparseTree.empties,
      SparseTree.emptyAt, tree, Prims.blake3_32]

theorem provenInput_injective (pubkey : Pubkey) : Function.Injective (provenInput pubkey) := by
  rintro (_ | accountHash) (_ | accountHash') h
  · rfl
  · exact absurd h.symm (leafInput_ne_emptyInput _)
  · exact absurd h (leafInput_ne_emptyInput _)
  · rw [(Prod.mk.inj (leafInput_injective h)).2]

/-- The strings hashed from a claimed leaf up to the root along a proof. -/
def verifyHashed (P : Prims) (pubkey : Pubkey) (claimed : Option H256) (proof : SmtProof) :
    List (List UInt8) :=
  provenInput pubkey claimed :: ((tree P SMT_DEPTH).walk proof.bitmap.toList (keyPath P pubkey)
    SMT_DEPTH proof.siblings (provenLeaf P pubkey claimed)).map nodeInput

/-- The strings behind the stored leaf of a key and the nodes above it. -/
def pathHashed (P : Prims) (nodes : PartialMap NodeKey H256) (pubkey : Pubkey)
    (stored : Option H256) : List (List UInt8) :=
  provenInput pubkey stored :: (List.range SMT_DEPTH).map fun d =>
    nodeInput ((tree P SMT_DEPTH).children nodes d (keyPath P pubkey))

section Holds

variable {K : Set Pubkey} {leaves : LeafMap} {nodes : PartialMap NodeKey H256} {pubkey : Pubkey}

theorem Holds.read_leaf (h : Holds P leaves nodes) (hinj : Set.InjOn (keyPath P) K)
    (hleaves : ∀ k, (leaves k).isSome → k ∈ K) (hk : pubkey ∈ K) :
    (tree P SMT_DEPTH).read nodes SMT_DEPTH (keyPath P pubkey) =
      provenLeaf P pubkey (leaves pubkey) :=
  (h.leaves _).trans (mapLeaf_position hinj hleaves hk)

theorem Holds.verify_prove (h : Holds P leaves nodes) (hinj : Set.InjOn (keyPath P) K)
    (hleaves : ∀ k, (leaves k).isSome → k ∈ K) (hk : pubkey ∈ K) :
    verify P ((tree P SMT_DEPTH).read nodes 0 (keyPath P pubkey)) pubkey (leaves pubkey)
      (prove P nodes pubkey) = true :=
  verify_prove_of_read h.consistent (h.read_leaf hinj hleaves hk)

theorem Holds.eq_or_collision (h : Holds P leaves nodes) (hinj : Set.InjOn (keyPath P) K)
    (hleaves : ∀ k, (leaves k).isSome → k ∈ K) (hk : pubkey ∈ K) {claimed : Option H256}
    {proof : SmtProof}
    (hverify : verify P ((tree P SMT_DEPTH).read nodes 0 (keyPath P pubkey)) pubkey claimed proof =
      true) :
    claimed = leaves pubkey ∨ Collision P
      (verifyHashed P pubkey claimed proof ++ pathHashed P nodes pubkey (leaves pubkey)) := by
  rcases SparseTree.verify_sound h.consistent hverify with hleaf | ⟨a, ha, d, hd, hne, heq⟩
  · -- the verifier started from the stored leaf: its string is the stored one
    have hhash : P.blake3 (provenInput pubkey claimed) =
        P.blake3 (provenInput pubkey (leaves pubkey)) := by
      rw [blake3_provenInput, blake3_provenInput, hleaf]
      exact h.read_leaf hinj hleaves hk
    by_cases hsame : provenInput pubkey claimed = provenInput pubkey (leaves pubkey)
    · exact .inl (provenInput_injective pubkey hsame)
    · exact .inr ⟨_, List.mem_append_left _ List.mem_cons_self, _,
        List.mem_append_right _ List.mem_cons_self, hsame, hhash⟩
  · -- the walks part at a node both hash
    refine .inr ⟨nodeInput a, ?_, nodeInput ((tree P SMT_DEPTH).children nodes d
      (keyPath P pubkey)), ?_, fun hstring => hne (nodeInput_injective hstring), heq⟩
    · exact List.mem_append_left _ (List.mem_cons_of_mem _ (List.mem_map_of_mem ha))
    · exact List.mem_append_right _ (List.mem_cons_of_mem _
        (List.mem_map.mpr ⟨d, List.mem_range.mpr hd, rfl⟩))

end Holds

theorem read_root_persist (nodes : PartialMap NodeKey H256) (updates : List LeafUpdate)
    (path : H256) :
    (tree P SMT_DEPTH).read (persist P nodes updates) 0 path =
      (applyUpdates P nodes updates).newRoot := by
  rw [persist, Store.read_writeSmtNodes nodes _ (Nat.zero_le _)]
  exact (tree_lawful P le_rfl).read_root _ _ _

/-- Under the root of a tree reached by persisted updates, the proof of a key verifies for the hash
stored there, and any proof that verifies claims that hash or exhibits a collision. -/
theorem state_proofs_exact {K : Set Pubkey} (hinj : Set.InjOn (keyPath P) K)
    {batches : List (List LeafUpdate)} (hbatches : ∀ batch ∈ batches, ∀ u ∈ batch, u.1 ∈ K)
    {updates : List LeafUpdate} (hupdates : ∀ u ∈ updates, u.1 ∈ K) {pubkey : Pubkey}
    (hpubkey : pubkey ∈ K) :
    let nodes := persist P (committed P batches) updates
    let root := (applyUpdates P (committed P batches) updates).newRoot
    let stored := leafMap (batches.flatten ++ updates) pubkey
    verify P root pubkey stored (prove P nodes pubkey) = true ∧
      ∀ claimed proof, verify P root pubkey claimed proof = true → claimed = stored ∨
        Collision P (verifyHashed P pubkey claimed proof ++ pathHashed P nodes pubkey stored) := by
  intro nodes root stored
  obtain ⟨h, hkeys⟩ := holds_committed hinj hbatches
  have hholds := h.persist hinj hkeys hupdates
  have hkeys := (mapLeaf_foldl_setLeaf hinj hkeys hupdates).2
  rw [← leafMap_append] at hholds hkeys
  have hroot : root = (tree P SMT_DEPTH).read nodes 0 (keyPath P pubkey) :=
    (read_root_persist _ _ _).symm
  rw [hroot]
  constructor
  · exact hholds.verify_prove hinj hkeys hpubkey
  · intro claimed proof hverify
    exact hholds.eq_or_collision hinj hkeys hpubkey hverify

/-- A stored, a deleted and a never written key of one tree. -/
theorem three_keys_proved :
    let P := Store.Sample.prims
    let first := Bytes.replicate 32 1
    let second := Bytes.replicate 32 2
    let batch := [(first, some (Bytes.replicate 32 7)), (second, some (Bytes.replicate 32 8))]
    let nodes := persist P (committed P [batch]) [(second, none)]
    let root := (applyUpdates P (committed P [batch]) [(second, none)]).newRoot
    verify P root first (some (Bytes.replicate 32 7)) (prove P nodes first) = true ∧
      verify P root second none (prove P nodes second) = true ∧
      verify P root (Bytes.replicate 32 3) none (prove P nodes (Bytes.replicate 32 3)) = true := by
  intro P first second batch nodes root
  have hproofs := fun pubkey => (@state_proofs_exact P Set.univ
    Store.Sample.keyPath_injective.injOn [batch] (by simp) [(second, none)] (by simp) pubkey
    (Set.mem_univ _)).1
  exact ⟨hproofs first, hproofs second, hproofs (Bytes.replicate 32 3)⟩

end Zul.Smt
