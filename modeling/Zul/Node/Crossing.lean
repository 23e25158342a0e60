import Zul.Node.Release
import Zul.Settlement.ProofCheck

/-! # Withdrawal proofs across the bridge

What the node proves of its withdrawals tree the L1 program accepts: a leaf that no later one has
overwritten is proved to both checks. In the other direction the node serves a proof only of the
commitment that stands at the position asked for.
-/

namespace Zul.Node

open Bridge Smt WithdrawSmt

variable {P : Prims}

/-- A leaf that stands is stored under the key of its position, unless it collides with the empty
leaf. -/
theorem stored_of_stands {leaves : List (Pubkey × H256)} {leaf : Pubkey × H256}
    (h : Stands P leaves leaf) (hne : P.blake3 (leafInput leaf) ≠ P.blake3 emptyInput) :
    applyAll P leaves (nodeKey WITHDRAW_DEPTH (keyPath P leaf.1)) =
      some (leafHash P leaf.1 leaf.2) := by
  have hread := h.read
  have hkey : (shallow P).read (applyAll P leaves) WITHDRAW_DEPTH (keyPath P leaf.1) =
      (applyAll P leaves (nodeKey WITHDRAW_DEPTH (keyPath P leaf.1))).getD (shallow P).emptyLeaf :=
    rfl
  cases hstored : applyAll P leaves (nodeKey WITHDRAW_DEPTH (keyPath P leaf.1)) with
  | none =>
    rw [hkey, hstored, Option.getD_none] at hread
    exact absurd hread.symm hne
  | some stored =>
    rw [hkey, hstored, Option.getD_some] at hread
    rw [hread]

theorem computeWithdrawalProof_eq_ok {t : PartialMap NodeKey H256} {recipient assetId : Bytes 32}
    {amount nonce : UInt64} {root : H256} {proof : SmtProof}
    (h : computeWithdrawalProof P t recipient assetId amount nonce = .ok (root, proof)) :
    root = WithdrawSmt.root P t ∧
      proof = WithdrawSmt.prove P t (withdrawalPubkey P recipient nonce) ∧
      WithdrawSmt.verify P (WithdrawSmt.root P t) (withdrawalPubkey P recipient nonce)
        (withdrawalAccountHash P recipient assetId amount nonce)
        (WithdrawSmt.prove P t (withdrawalPubkey P recipient nonce)) = true := by
  simp only [computeWithdrawalProof] at h
  split at h
  · next hverify =>
    cases h
    exact ⟨rfl, rfl, hverify⟩
  · cases h

/-- In every tree of inserted leaves, the proof of a leaf that stands is accepted under the tree's
root by the node and by the L1 program. The node serves a proof of a withdrawal, which the L1
program then accepts, only when its commitment is the leaf that stands and is stored at its
position, or two of the strings hashed for the tree and the proof collide. -/
theorem proofs_cross {empties : List H256}
    (htable : empties = Settlement.ProofCheck.computeEmptyHashes P)
    (leaves : List (Pubkey × H256)) :
    (∀ leaf, Stands P leaves leaf →
      WithdrawSmt.verify P (WithdrawSmt.root P (applyAll P leaves)) leaf.1 leaf.2
          (WithdrawSmt.prove P (applyAll P leaves) leaf.1) = true ∧
        Settlement.ProofCheck.verify P empties (WithdrawSmt.root P (applyAll P leaves)) leaf.1
          leaf.2 (WithdrawSmt.prove P (applyAll P leaves) leaf.1) = true) ∧
    ∀ recipient assetId amount nonce root proof leaf,
      leaf = (withdrawalPubkey P recipient nonce,
        withdrawalAccountHash P recipient assetId amount nonce) →
      computeWithdrawalProof P (applyAll P leaves) recipient assetId amount nonce =
        .ok (root, proof) →
      Settlement.ProofCheck.verify P empties root
          (Settlement.ProofCheck.withdrawalPubkey P recipient nonce)
          (Settlement.ProofCheck.withdrawalAccountHash P recipient assetId amount nonce) proof =
        true ∧
      ((Stands P leaves leaf ∧ applyAll P leaves (nodeKey WITHDRAW_DEPTH (keyPath P leaf.1)) =
          some (leafHash P leaf.1 leaf.2)) ∨
        Collision P (proofHashed P leaf proof ++ leavesHashed P leaves (keyPath P leaf.1))) := by
  subst htable
  constructor
  · intro leaf hstands
    have hverify := WithdrawSmt.verify_prove (consistent_applyAll leaves) hstands.read
    refine ⟨hverify, ?_⟩
    rw [Settlement.ProofCheck.verify_eq]
    exact hverify
  · intro recipient assetId amount nonce root proof leaf hleaf hserved
    obtain ⟨rfl, rfl, haccepted⟩ := computeWithdrawalProof_eq_ok hserved
    rw [Settlement.ProofCheck.verify_eq, Settlement.ProofCheck.withdrawalPubkey_eq,
      Settlement.ProofCheck.withdrawalAccountHash_eq]
    refine ⟨haccepted, ?_⟩
    have hverify : WithdrawSmt.verify P (WithdrawSmt.root P (applyAll P leaves)) leaf.1 leaf.2
        (WithdrawSmt.prove P (applyAll P leaves) (withdrawalPubkey P recipient nonce)) = true := by
      rw [hleaf]
      exact haccepted
    rcases stands_or_collision hverify with hstands | hcollision
    · by_cases hempty : P.blake3 (leafInput leaf) = P.blake3 emptyInput
      · exact .inr ⟨_, List.mem_append_left _ List.mem_cons_self, emptyInput,
          List.mem_append_right _ List.mem_cons_self, leafInput_ne_emptyInput _, hempty⟩
      · exact .inl ⟨hstands, stored_of_stands hstands hempty⟩
    · exact .inr hcollision

/-- Two leaves are inserted, and the first is still proved to both checks. -/
theorem proofs_cross_first :
    ∃ leaves leaf, Stands Sample.prims leaves leaf ∧ leaves.length = 2 ∧
      Settlement.ProofCheck.verify Sample.prims
        (Settlement.ProofCheck.computeEmptyHashes Sample.prims)
        (WithdrawSmt.root Sample.prims (applyAll Sample.prims leaves)) leaf.1 leaf.2
        (WithdrawSmt.prove Sample.prims (applyAll Sample.prims leaves) leaf.1) = true := by
  let leaf (b : UInt8) : Pubkey × H256 := (Bytes.replicate 32 b, Bytes.replicate 32 b)
  have hstands : Stands Sample.prims [leaf 1, leaf 2] (leaf 1) := by
    refine ⟨[], [leaf 2], rfl, ?_⟩
    intro later hlater
    rw [List.mem_singleton.mp hlater]
    intro hsame
    exact absurd (hsame 1 (by decide)) (by decide +kernel)
  exact ⟨_, _, hstands, rfl, ((proofs_cross rfl _).1 _ hstands).2⟩

end Zul.Node
