import Zul.Privacy.Backing

/-! # Value in the circuits

The constraints are equations over the scalar field; what they say about amounts holds of the
numbers, because every amount has 64 bits and the sums of a few of them do not wrap. An input of
some amount is included under the root at its index; the check is off for the others.
-/

namespace Zul.Privacy.Circuits

/-- A leaf is opened under a root at an index: hashed upwards with the siblings of a path, on the
sides the index says, it gives the root. -/
structure OpenedAt (P : Prims) (root leaf : Fr) (index : ℕ) (path : List Fr) : Prop where
  index_lt : index < 2 ^ TREE_DEPTH
  length : path.length = TREE_DEPTH
  climb : MerkleTree.climb (treeNode P) leaf ((MerkleTree.bitsOf TREE_DEPTH index).zip path) = root

variable {P : Prims}

theorem Num2Bits.bits_eq {n : ℕ} {x : Fr} {bits : List Bool} (h : Num2Bits n x bits)
    (hn : 2 ^ n ≤ frModulus) : x.val < 2 ^ n ∧ bits = MerkleTree.bitsOf n x.val := by
  obtain ⟨hlength, rfl⟩ := h
  have hlt := MerkleTree.pathIndex_lt bits
  rw [hlength] at hlt
  rw [ZMod.val_natCast_of_lt (hlt.trans_le hn)]
  refine ⟨hlt, ?_⟩
  rw [← hlength, MerkleTree.bitsOf_pathIndex]

theorem MerkleInclusion.openedAt {leaf leafIndex root : Fr} {bits : List Bool} {path : List Fr}
    (h : MerkleInclusion P TREE_DEPTH leaf leafIndex bits path root 1) :
    OpenedAt P root leaf leafIndex.val path := by
  obtain ⟨hbits, hpath, hclimb⟩ := h
  obtain ⟨hlt, rfl⟩ := hbits.bits_eq (by decide)
  rw [mul_one, sub_eq_zero] at hclimb
  exact ⟨hlt, hpath, hclimb⟩

theorem enabled_of_ne_zero {amount : Fr} (h : amount ≠ 0) : 1 - isZero amount = 1 := by
  rw [isZero, if_neg h, sub_zero]

theorem Input.Spends.openedAt {i : Input} {assetId root nf : Fr}
    (h : i.Spends P assetId root nf (1 - isZero i.amount)) (hamount : i.amount ≠ 0) :
    OpenedAt P root (i.commitment P assetId) i.leafIndex.val i.path := by
  have hinclusion := h.inclusion
  rw [enabled_of_ne_zero hamount] at hinclusion
  exact hinclusion.openedAt

/-- A transfer with a 64-bit fee conserves value over the numbers, pays a fee in the native asset
only, has distinct nullifiers and opens its inputs of some amount; an unshield conserves value
and opens its input. -/
theorem circuits_conserve_value (P : Prims) :
    (∀ (root nf₀ nf₁ cm₀ cm₁ : Fr) (fee : UInt64) (w : TransferWitness),
      Transfer P root nf₀ nf₁ cm₀ cm₁ fee.toNat w →
        w.input₀.amount.val + w.input₁.amount.val =
            w.output₀.amount.val + w.output₁.amount.val + fee.toNat ∧
          (w.assetId ≠ 0 → fee = 0) ∧ nf₀ ≠ nf₁ ∧
          ∀ i ∈ [w.input₀, w.input₁], i.amount ≠ 0 →
            OpenedAt P root (i.commitment P w.assetId) i.leafIndex.val i.path) ∧
    ∀ (root nf change assetId amount : Fr) (w : UnshieldWitness),
      Unshield P root nf change assetId amount w →
        w.input.amount.val = amount.val + w.change.amount.val ∧
          OpenedAt P root (w.input.commitment P assetId) w.input.leafIndex.val w.input.path := by
  constructor
  · intro root nf₀ nf₁ cm₀ cm₁ fee w h
    refine ⟨h.amounts, fun hasset => ?_, h.nullifiers_ne, fun i hi => ?_⟩
    · by_contra hfee
      exact hasset (h.native_of_fee fun hzero => hfee (UInt64.toNat_inj.mp hzero))
    · rcases List.mem_pair.mp hi with rfl | rfl
      · exact h.input₀.openedAt
      · exact h.input₁.openedAt
  · intro root nf change assetId amount w h
    exact ⟨h.amounts_val, h.input.inclusion.openedAt⟩

namespace Sample

open PoolService.Sample

theorem transfer_satisfied : Transfer prims noteRoot spentNullifier
    (nullifier prims (dummy.commitment prims nativeAssetId) 0 dummy.s)
    (returned.commitment prims) (paid.commitment prims nativeAssetId) (3 : UInt64).toNat
    ⟨nativeAssetId, input, dummy, change, paid⟩ where
  input₀ := {
    range := unshield_satisfied.input.range
    nullifier := unshield_satisfied.input.nullifier
    inclusion := by decide +kernel }
  input₁ := {
    range := ⟨List.replicate 64 false, by decide⟩
    nullifier := rfl
    inclusion := by decide +kernel }
  output₀ := unshield_satisfied.change
  output₁ := {
    range := ⟨[true] ++ List.replicate 63 false, by decide⟩
    commitment := rfl }
  conserved := by decide
  native := by decide
  distinct := by decide

end Sample

open PoolService.Sample Sample in
/-- A transfer of a note of 10 and a dummy pays 1 and a fee of 3 and returns 6; the sample unshield
pays 4 of the note and returns 6. -/
theorem sample_spends_conserve :
    (Transfer prims noteRoot spentNullifier
        (nullifier prims (dummy.commitment prims nativeAssetId) 0 dummy.s)
        (returned.commitment prims) (paid.commitment prims nativeAssetId) (3 : UInt64).toNat
        ⟨nativeAssetId, input, dummy, change, paid⟩ ∧
      input.amount.val + dummy.amount.val =
        change.amount.val + paid.amount.val + (3 : UInt64).toNat ∧
      OpenedAt prims noteRoot (input.commitment prims nativeAssetId) 0 input.path) ∧
    Unshield prims noteRoot spentNullifier (returned.commitment prims) nativeAssetId 4
        ⟨input, change⟩ ∧
      input.amount.val = (4 : Fr).val + change.amount.val ∧ (4 : Fr).val = 4 ∧
      OpenedAt prims noteRoot (input.commitment prims nativeAssetId) 0 input.path := by
  obtain ⟨hmoved, -, -, hinputs⟩ := (circuits_conserve_value prims).1 _ _ _ _ _ 3 _
    transfer_satisfied
  obtain ⟨hamounts, hopened⟩ := (circuits_conserve_value prims).2 _ _ _ _ _ _ unshield_satisfied
  exact ⟨⟨transfer_satisfied, hmoved, hinputs input List.mem_cons_self (by decide)⟩,
    unshield_satisfied, hamounts, by decide, hopened⟩

end Zul.Privacy.Circuits
