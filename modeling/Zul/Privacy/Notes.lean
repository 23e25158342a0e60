import Zul.Lib.Unspent
import Zul.Privacy.Circuits
import Zul.Privacy.Nullifiers

/-! # Notes

The notes behind the commitments of the pool. On inputs where Poseidon does not collide a
commitment has one note, a note one owner and so, at its place in the tree, one nullifier. An
input that passes inclusion therefore spends a note of the tree, and one that was unspent if its
nullifier was.
-/

namespace Zul.Privacy

open Circuits

structure Note where
  assetId : Fr
  amount : ℕ
  secret : Fr
  deriving DecidableEq

/-- Poseidon neither collides on the inputs nor hashes one to the empty leaf. -/
structure Binding (P : Prims) (inputs : Set (List Fr)) : Prop where
  collisionFree : CollisionFree P inputs
  ne_emptyLeaf : ∀ x ∈ inputs, P.poseidon x ≠ emptyLeaf

theorem Binding.mono {P : Prims} {inputs known : Set (List Fr)} (h : Binding P inputs)
    (hknown : known ⊆ inputs) : Binding P known :=
  ⟨fun x hx y hy => h.collisionFree x (hknown hx) y (hknown hy),
    fun x hx => h.ne_emptyLeaf x (hknown hx)⟩

namespace Note

variable (P : Prims)

def preimage (n : Note) : List Fr := [n.assetId, (n.amount : Fr), n.secret]

def commitment (n : Note) : Fr := P.poseidon n.preimage

/-- A nullifier of the note at its place, under an owner's key among the inputs, is spent. -/
def Spent (inputs : Set (List Fr)) (spent : H256 → Bool) (index : ℕ) (n : Note) : Prop :=
  ∃ s blinding, [s] ∈ inputs ∧ [ownerPk P s, blinding] ∈ inputs ∧
    [n.commitment P, (index : Fr), s] ∈ inputs ∧ n.secret = noteSecret P (ownerPk P s) blinding ∧
    spent (frToBytes (nullifier P (n.commitment P) index s)) = true

def amountOf (assetId : Fr) (n : Note) : ℕ := if n.assetId = assetId then n.amount else 0

end Note

/-- The total amount of an asset in notes whose nullifier is not spent. -/
noncomputable def unspentTotal (P : Prims) (inputs : Set (List Fr)) (spent : H256 → Bool)
    (notes : List Note) (assetId : Fr) : ℕ :=
  Unspent.total (Note.amountOf assetId) (fun i n => ¬ n.Spent P inputs spent i) notes

/-- Notes whose commitments, and the trees over them, are hashed from the inputs. -/
structure Recorded (P : Prims) (inputs : Set (List Fr)) (notes : List Note) : Prop where
  preimage : ∀ n ∈ notes, n.preimage ∈ inputs
  range : ∀ n ∈ notes, n.amount < 2 ^ 64
  tree : treeInputs P (notes.map (Note.commitment P)) ⊆ inputs

namespace Circuits

variable {P : Prims}

theorem AmountCheck.val_lt {amount : Fr} (h : AmountCheck amount) : amount.val < 2 ^ 64 := by
  obtain ⟨bits, hlen, rfl⟩ := h
  have hlt := MerkleTree.pathIndex_lt bits
  rw [hlen] at hlt
  rwa [ZMod.val_natCast_of_lt (hlt.trans (by decide))]

variable (P) in
def Input.note (assetId : Fr) (i : Input) : Note := ⟨assetId, i.amount.val, i.secret P⟩

variable (P) in
def Output.note (assetId : Fr) (o : Output) : Note :=
  ⟨assetId, o.amount.val, noteSecret P o.pk o.blinding⟩

theorem Input.preimage_note (assetId : Fr) (i : Input) :
    (i.note P assetId).preimage = [assetId, i.amount, i.secret P] := by
  rw [Note.preimage, Input.note, ZMod.natCast_zmod_val]

theorem Output.preimage_note (assetId : Fr) (o : Output) :
    (o.note P assetId).preimage = [assetId, o.amount, noteSecret P o.pk o.blinding] := by
  rw [Note.preimage, Output.note, ZMod.natCast_zmod_val]

theorem Input.commitment_note (assetId : Fr) (i : Input) :
    (i.note P assetId).commitment P = i.commitment P assetId := by
  rw [Note.commitment, Input.preimage_note]
  rfl

theorem Output.commitment_note (assetId : Fr) (o : Output) :
    (o.note P assetId).commitment P = o.commitment P assetId := by
  rw [Note.commitment, Output.preimage_note]
  rfl

section Opening

variable {inputs : Set (List Fr)} {notes : List Note} {assetId root nf enabled : Fr} {i : Input}

theorem note_eq_of_commitment (hbind : Binding P inputs) {n n' : Note} (hn : n.preimage ∈ inputs)
    (hn' : n'.preimage ∈ inputs) (hlt : n.amount < 2 ^ 64) (hlt' : n'.amount < 2 ^ 64)
    (h : n.commitment P = n'.commitment P) : n = n' := by
  have hsmall : (2 : ℕ) ^ 64 < frModulus := by decide
  obtain ⟨a, m, s⟩ := n
  obtain ⟨a', m', s'⟩ := n'
  have heq := hbind.collisionFree _ hn _ hn' rfl h
  simp only [Note.preimage, List.cons.injEq, and_true] at heq
  obtain ⟨rfl, hm, rfl⟩ := heq
  obtain rfl : m = m' := natCast_inj_of_lt (hlt.trans hsmall) (hlt'.trans hsmall) hm
  rfl

theorem key_eq_of_secret (hbind : Binding P inputs) {s s' blinding blinding' : Fr}
    (hs : [s] ∈ inputs) (hs' : [s'] ∈ inputs) (hpk : [ownerPk P s, blinding] ∈ inputs)
    (hpk' : [ownerPk P s', blinding'] ∈ inputs)
    (h : noteSecret P (ownerPk P s) blinding = noteSecret P (ownerPk P s') blinding') : s = s' := by
  obtain ⟨hkey, -⟩ := List.cons_eq_cons.mp (hbind.collisionFree _ hpk _ hpk' rfl h)
  exact (List.cons_eq_cons.mp (hbind.collisionFree _ hs _ hs' rfl hkey)).1

theorem Input.Spends.opens (hbind : Binding P inputs) (hrec : Recorded P inputs notes)
    (h : i.Spends P assetId root nf 1) (hhashed : ∀ x ∈ i.hashed P assetId, x ∈ inputs) {k : ℕ}
    (hroot : root = treeRoot P ((notes.map (Note.commitment P)).take k)) :
    ∃ index : ℕ, i.leafIndex = (index : Fr) ∧ notes[index]? = some (i.note P assetId) := by
  obtain ⟨⟨hbits, hindex⟩, hpath, hclimb⟩ := h.inclusion
  simp only [Input.hashed, List.forall_mem_cons] at hhashed
  obtain ⟨-, -, hpre, -, hwalk⟩ := hhashed
  rw [← Input.preimage_note] at hpre
  rw [mul_one, sub_eq_zero, hroot] at hclimb
  have hfst : (i.indexBits.zip i.path).map Prod.fst = i.indexBits :=
    List.map_fst_zip (by rw [hbits, hpath])
  have hleaf := leaf_of_climb hbind.collisionFree hrec.tree
    (by rw [List.length_zip, hbits, hpath, Nat.min_self])
    (fun pair hpair => hwalk _ (List.mem_map_of_mem hpair)) hclimb
    (by rw [← Input.commitment_note]; exact hbind.ne_emptyLeaf _ hpre)
  rw [hfst, List.getElem?_map, Option.map_eq_some_iff] at hleaf
  obtain ⟨n, hn, hcommitment⟩ := hleaf
  have hmem := List.mem_of_getElem? hn
  rw [← Input.commitment_note] at hcommitment
  refine ⟨_, hindex, ?_⟩
  rw [hn, note_eq_of_commitment hbind (hrec.preimage n hmem) hpre (hrec.range n hmem)
    h.range.val_lt hcommitment]

variable {index : ℕ} {spent : H256 → Bool}

theorem Input.Spends.not_spent (hbind : Binding P inputs) (h : i.Spends P assetId root nf enabled)
    (hhashed : ∀ x ∈ i.hashed P assetId, x ∈ inputs) (hindex : i.leafIndex = (index : Fr))
    (hnf : spent (frToBytes nf) = false) : ¬ (i.note P assetId).Spent P inputs spent index := by
  rintro ⟨s, blinding, hs, hpk, -, hsecret, hspent⟩
  simp only [Input.hashed, List.forall_mem_cons] at hhashed
  obtain rfl := key_eq_of_secret hbind hhashed.1 hs hhashed.2.1 hpk hsecret
  rw [Input.commitment_note, ← hindex, ← h.nullifier, hnf] at hspent
  cases hspent

theorem Input.Spends.spent_of_nullifier (h : i.Spends P assetId root nf enabled)
    (hhashed : ∀ x ∈ i.hashed P assetId, x ∈ inputs) (hindex : i.leafIndex = (index : Fr))
    (hnf : spent (frToBytes nf) = true) : (i.note P assetId).Spent P inputs spent index := by
  simp only [Input.hashed, List.forall_mem_cons] at hhashed
  obtain ⟨hs, hpk, -, hnullifier, -⟩ := hhashed
  refine ⟨i.s, i.blinding, hs, hpk, ?_, rfl, ?_⟩
  · rwa [Input.commitment_note, ← hindex]
  · rwa [Input.commitment_note, ← hindex, ← h.nullifier]

theorem Input.Spends.nullifier_eq (hbind : Binding P inputs) {i' : Input} {nf' enabled' : Fr}
    (h : i.Spends P assetId root nf enabled) (h' : i'.Spends P assetId root nf' enabled')
    (hhashed : ∀ x ∈ i.hashed P assetId, x ∈ inputs)
    (hhashed' : ∀ x ∈ i'.hashed P assetId, x ∈ inputs) (hindex : i.leafIndex = i'.leafIndex)
    (hnote : i.note P assetId = i'.note P assetId) : nf = nf' := by
  simp only [Input.hashed, List.forall_mem_cons] at hhashed hhashed'
  have hkey := key_eq_of_secret hbind hhashed.1 hhashed'.1 hhashed.2.1 hhashed'.2.1
    (congrArg Note.secret hnote)
  rw [h.nullifier, h'.nullifier, ← Input.commitment_note, ← Input.commitment_note, hnote, hindex,
    hkey]

theorem Input.Spends.places (hbind : Binding P inputs) (hrec : Recorded P inputs notes)
    (h : i.Spends P assetId root nf enabled) (henabled : i.amount ≠ 0 → enabled = 1)
    (hhashed : ∀ x ∈ i.hashed P assetId, x ∈ inputs) {k : ℕ}
    (hroot : root = treeRoot P ((notes.map (Note.commitment P)).take k))
    (hnf : spent (frToBytes nf) = false) (id : Fr) :
    ∃ places : Finset ℕ,
      (∀ j ∈ places, i.leafIndex = (j : Fr) ∧ notes[j]? = some (i.note P assetId)) ∧
      ∑ j ∈ places, Unspent.worth (Note.amountOf id)
        (fun j n => ¬ n.Spent P inputs spent j) notes j =
        (i.note P assetId).amountOf id := by
  by_cases hzero : i.amount = 0
  · refine ⟨∅, by simp, ?_⟩
    simp [Note.amountOf, Input.note, hzero]
  · rw [henabled hzero] at h
    obtain ⟨j, hindex, hnote⟩ := h.opens hbind hrec hhashed hroot
    refine ⟨{j}, by simp [hindex, hnote], ?_⟩
    rw [Finset.sum_singleton]
    exact Unspent.worth_of_live hnote (h.not_spent hbind hhashed hindex hnf)

end Opening

end Circuits

section Unspent

variable {P : Prims} {inputs : Set (List Fr)} {spent spent' : H256 → Bool} {notes : List Note}

theorem Note.Spent.mono (hmono : ∀ x, spent x = true → spent' x = true) {index : ℕ} {n : Note}
    (h : n.Spent P inputs spent index) : n.Spent P inputs spent' index := by
  obtain ⟨s, blinding, hs, hpk, hnf, hsecret, h⟩ := h
  exact ⟨s, blinding, hs, hpk, hnf, hsecret, hmono _ h⟩

theorem unspentTotal_anti (hmono : ∀ x, spent x = true → spent' x = true) (id : Fr) :
    unspentTotal P inputs spent' notes id ≤ unspentTotal P inputs spent notes id :=
  Unspent.total_mono fun _ _ _ hlive hspent => hlive (hspent.mono hmono)

theorem unspentTotal_retire (hmono : ∀ x, spent x = true → spent' x = true) {places : Finset ℕ}
    (hplaces : ∀ j ∈ places, ∃ n : Note, notes[j]? = some n ∧ n.Spent P inputs spent' j) (id : Fr) :
    unspentTotal P inputs spent' notes id + ∑ j ∈ places,
        Unspent.worth (Note.amountOf id) (fun j n => ¬ n.Spent P inputs spent j) notes j ≤
      unspentTotal P inputs spent notes id := by
  apply Unspent.total_retire
  · intro j n _ hlive hspent
    exact hlive (hspent.mono hmono)
  · intro j hj n hn
    obtain ⟨n', hn', hspent⟩ := hplaces j hj
    rw [hn] at hn'
    cases hn'
    exact not_not_intro hspent

theorem unspentTotal_append_le (more : List Note) (id : Fr) :
    unspentTotal P inputs spent (notes ++ more) id ≤
      unspentTotal P inputs spent notes id + (more.map (Note.amountOf id)).sum :=
  Unspent.total_append_le more

end Unspent

/-! ## Instructions -/

def transferWitness (W : Extractor) (proof : List UInt8) (root : FieldBytes)
    (nfs commitments : FieldBytes × FieldBytes) (fee : UInt64) : TransferWitness :=
  W.transfer proof [frFromLeBytesModOrder root, frFromLeBytesModOrder nfs.1,
    frFromLeBytesModOrder nfs.2, frFromLeBytesModOrder commitments.1,
    frFromLeBytesModOrder commitments.2, (fee.toNat : Fr)]

def unshieldWitness (W : Extractor) (proof : List UInt8)
    (root nullifier changeCommitment : FieldBytes) (asset : Asset) (amount : UInt64)
    (recipient : Bytes 32) : UnshieldWitness :=
  W.unshield proof [frFromLeBytesModOrder root, frFromLeBytesModOrder nullifier,
    frFromLeBytesModOrder changeCommitment, PoolProcessor.assetIdFr asset, (amount.toNat : Fr),
    frFromLeBytesModOrder recipient]

namespace PoolInstruction

variable (P : Prims) (W : Extractor)

def notes : PoolInstruction → List Note
  | .shield asset amount secret _ =>
    [⟨PoolProcessor.assetIdFr asset, amount.toNat, frFromLeBytesModOrder secret⟩]
  | .transfer proof root nfs commitments fee _ =>
    let w := transferWitness W proof root nfs commitments fee
    [w.output₀.note P w.assetId, w.output₁.note P w.assetId]
  | .unshield proof root nullifier changeCommitment asset amount recipient _ =>
    let w := unshieldWitness W proof root nullifier changeCommitment asset amount recipient
    [w.change.note P (PoolProcessor.assetIdFr asset)]

/-- What is hashed for an instruction: by the node for a shield, in the circuit otherwise. -/
def hashed : PoolInstruction → List (List Fr)
  | .shield asset amount secret _ =>
    [[PoolProcessor.assetIdFr asset, (amount.toNat : Fr), frFromLeBytesModOrder secret]]
  | .transfer proof root nfs commitments fee _ =>
    (transferWitness W proof root nfs commitments fee).hashed P
  | .unshield proof root nullifier changeCommitment asset amount recipient _ =>
    (unshieldWitness W proof root nullifier changeCommitment asset amount recipient).hashed P
      (PoolProcessor.assetIdFr asset)

def assets : PoolInstruction → List Asset
  | .shield asset _ _ _ => [asset]
  | .transfer .. => []
  | .unshield _ _ _ _ asset _ _ _ => [asset]

def inflow (a : Asset) : PoolInstruction → ℕ
  | .shield asset amount _ _ => if asset = a then amount.toNat else 0
  | .transfer .. => 0
  | .unshield .. => 0

def outflow (a : Asset) : PoolInstruction → ℕ
  | .shield .. => 0
  | .transfer _ _ _ _ fee _ => if a = .native then fee.toNat else 0
  | .unshield _ _ _ _ asset amount _ _ => if asset = a then amount.toNat else 0

end PoolInstruction

namespace PoolProcessor

variable {P : Prims} {V : ProofVerifier} {W : Extractor} {spent : H256 → Bool} {ctx : PoolContext}
  {proof : List UInt8} {root : FieldBytes} {nfs commitments : FieldBytes × FieldBytes}
  {fee : UInt64} {nullifier changeCommitment : FieldBytes} {asset : Asset} {amount : UInt64}
  {recipient : Bytes 32} {r n n₁ n₂ c c₁ c₂ : Fr}

theorem CheckedTransfer.satisfies (hW : W.Sound P V)
    (h : CheckedTransfer V spent ctx proof root nfs commitments fee r n₁ n₂ c₁ c₂) :
    Transfer P r n₁ n₂ c₁ c₂ fee.toNat (transferWitness W proof root nfs commitments fee) := by
  have hsystem := hW.transfer _ _ h.verified
  rw [transferWitness, frFromLeBytesModOrder_of_frFromBytes h.root,
    frFromLeBytesModOrder_of_frFromBytes h.nullifier₁,
    frFromLeBytesModOrder_of_frFromBytes h.nullifier₂,
    frFromLeBytesModOrder_of_frFromBytes h.commitment₁,
    frFromLeBytesModOrder_of_frFromBytes h.commitment₂]
  exact hsystem

theorem CheckedUnshield.satisfies (hW : W.Sound P V)
    (h : CheckedUnshield V spent ctx proof root nullifier changeCommitment asset amount recipient
      r n c) :
    Unshield P r n c (assetIdFr asset) amount.toNat
      (unshieldWitness W proof root nullifier changeCommitment asset amount recipient) := by
  have hsystem := hW.unshield _ _ h.verified
  rw [unshieldWitness, frFromLeBytesModOrder_of_frFromBytes h.root,
    frFromLeBytesModOrder_of_frFromBytes h.nullifier,
    frFromLeBytesModOrder_of_frFromBytes h.commitment]
  exact hsystem

end PoolProcessor

namespace Circuits

variable {P : Prims} {root nf nf₀ nf₁ cm₀ cm₁ change assetId : Fr} {fee amount : UInt64}

theorem Transfer.amounts {w : TransferWitness}
    (h : Transfer P root nf₀ nf₁ cm₀ cm₁ fee.toNat w) :
    w.input₀.amount.val + w.input₁.amount.val =
      w.output₀.amount.val + w.output₁.amount.val + fee.toNat := by
  have hsmall : (2 : ℕ) ^ 66 < frModulus := by decide
  have hi₀ := h.input₀.range.val_lt
  have hi₁ := h.input₁.range.val_lt
  have ho₀ := h.output₀.range.val_lt
  have ho₁ := h.output₁.range.val_lt
  have hfee := fee.toNat_lt
  apply natCast_inj_of_lt
  · omega
  · omega
  · push_cast
    simp only [ZMod.natCast_zmod_val]
    exact h.conserved

theorem Transfer.amountOf_inputs {w : TransferWitness}
    (h : Transfer P root nf₀ nf₁ cm₀ cm₁ fee.toNat w) (id : Fr) :
    (w.input₀.note P w.assetId).amountOf id + (w.input₁.note P w.assetId).amountOf id =
      (w.output₀.note P w.assetId).amountOf id + (w.output₁.note P w.assetId).amountOf id +
        if w.assetId = id then fee.toNat else 0 := by
  have hamounts := h.amounts
  simp only [Note.amountOf, Input.note, Output.note]
  by_cases hid : w.assetId = id
  · simpa only [hid, if_true] using hamounts
  · simp only [hid, if_false]

theorem Transfer.native_of_fee {w : TransferWitness}
    (h : Transfer P root nf₀ nf₁ cm₀ cm₁ fee.toNat w) (hfee : fee.toNat ≠ 0) :
    w.assetId = PoolProcessor.assetIdFr .native := by
  by_contra hasset
  have hnative := h.native
  rw [isZero, if_neg (show w.assetId ≠ 0 from hasset), sub_zero, mul_one] at hnative
  have hsmall : (2 : ℕ) ^ 64 < frModulus := by decide
  exact hfee (natCast_inj_of_lt (fee.toNat_lt.trans hsmall) (by omega)
    (hnative.trans Nat.cast_zero.symm))

theorem Transfer.nullifiers_ne {w : TransferWitness}
    (h : Transfer P root nf₀ nf₁ cm₀ cm₁ fee.toNat w) : nf₀ ≠ nf₁ := by
  rintro rfl
  have hdistinct := h.distinct
  rw [isEqual, sub_self, isZero, if_pos rfl] at hdistinct
  exact absurd hdistinct (by decide)

theorem Unshield.amounts_val {paid : Fr} {w : UnshieldWitness}
    (h : Unshield P root nf change assetId paid w) :
    w.input.amount.val = paid.val + w.change.amount.val := by
  have hsmall : (2 : ℕ) ^ 66 < frModulus := by decide
  have hi := h.input.range.val_lt
  have ho := h.change.range.val_lt
  have hpaid := h.range.val_lt
  apply natCast_inj_of_lt
  · omega
  · omega
  · push_cast
    simp only [ZMod.natCast_zmod_val]
    exact h.conserved

theorem Unshield.amounts {w : UnshieldWitness}
    (h : Unshield P root nf change assetId amount.toNat w) :
    w.input.amount.val = amount.toNat + w.change.amount.val := by
  have hval : ((amount.toNat : Fr)).val = amount.toNat :=
    ZMod.val_natCast_of_lt (amount.toNat_lt.trans (by decide))
  rw [h.amounts_val, hval]

theorem Unshield.amountOf_input {w : UnshieldWitness}
    (h : Unshield P root nf change assetId amount.toNat w) (id : Fr) :
    (w.input.note P assetId).amountOf id =
      (w.change.note P assetId).amountOf id + if assetId = id then amount.toNat else 0 := by
  have hamounts := h.amounts
  simp only [Note.amountOf, Input.note, Output.note]
  by_cases hid : assetId = id
  · simp only [hid, if_true]
    omega
  · simp only [hid, if_false]

end Circuits

/-! ## What an instruction spends -/

namespace PoolProcessor

variable {P : Prims} {V : ProofVerifier} {W : Extractor} {spent spent' : H256 → Bool}
  {ctx : PoolContext} {inputs : Set (List Fr)} {notes : List Note}

theorem CheckedTransfer.unspentTotal_add_le {proof : List UInt8} {root : FieldBytes}
    {nfs commitments : FieldBytes × FieldBytes} {fee : UInt64} {r n₁ n₂ c₁ c₂ : Fr}
    (h : CheckedTransfer V spent ctx proof root nfs commitments fee r n₁ n₂ c₁ c₂)
    {w : TransferWitness} (hw : Transfer P r n₁ n₂ c₁ c₂ fee.toNat w) (hbind : Binding P inputs)
    (hrec : Recorded P inputs notes)
    (htree : ctx.state.TreeOf P (notes.map (Note.commitment P)))
    (hhashed : ∀ x ∈ w.hashed P, x ∈ inputs)
    (hmono : ∀ x, ctx.nullifiers.contains spent x = true → spent' x = true)
    (h₁ : spent' nfs.1 = true) (h₂ : spent' nfs.2 = true) (id : Fr) :
    unspentTotal P inputs spent' notes id +
        ((w.input₀.note P w.assetId).amountOf id + (w.input₁.note P w.assetId).amountOf id) ≤
      unspentTotal P inputs (ctx.nullifiers.contains spent) notes id := by
  have hn₁ := frToBytes_of_frFromBytes h.nullifier₁
  have hn₂ := frToBytes_of_frFromBytes h.nullifier₂
  obtain ⟨k, hk⟩ := htree.root_of_known h.known h.root
  simp only [TransferWitness.hashed, List.mem_append, or_imp, forall_and] at hhashed
  obtain ⟨⟨⟨hhashed₀, hhashed₁⟩, -⟩, -⟩ := hhashed
  have henabled : ∀ amount : Fr, amount ≠ 0 → 1 - isZero amount = 1 := by
    intro amount hamount
    rw [isZero, if_neg hamount, sub_zero]
  obtain ⟨places₀, hopen₀, hsum₀⟩ := hw.input₀.places hbind hrec (henabled _) hhashed₀ hk
    (hn₁.symm ▸ h.unspent₁) id
  obtain ⟨places₁, hopen₁, hsum₁⟩ := hw.input₁.places hbind hrec (henabled _) hhashed₁ hk
    (hn₂.symm ▸ h.unspent₂) id
  -- one note at one place would have one nullifier
  have hdisjoint : Disjoint places₀ places₁ := by
    refine Finset.disjoint_left.mpr fun j hj₀ hj₁ => hw.nullifiers_ne ?_
    obtain ⟨hindex₀, hnote₀⟩ := hopen₀ j hj₀
    obtain ⟨hindex₁, hnote₁⟩ := hopen₁ j hj₁
    exact hw.input₀.nullifier_eq hbind hw.input₁ hhashed₀ hhashed₁ (hindex₀.trans hindex₁.symm)
      (Option.some.inj (hnote₀.symm.trans hnote₁))
  have hplaces : ∀ j ∈ places₀ ∪ places₁, ∃ n : Note, notes[j]? = some n ∧
      n.Spent P inputs spent' j := by
    intro j hj
    rcases Finset.mem_union.mp hj with hj | hj
    · obtain ⟨hindex, hnote⟩ := hopen₀ j hj
      exact ⟨_, hnote, hw.input₀.spent_of_nullifier hhashed₀ hindex (hn₁.symm ▸ h₁)⟩
    · obtain ⟨hindex, hnote⟩ := hopen₁ j hj
      exact ⟨_, hnote, hw.input₁.spent_of_nullifier hhashed₁ hindex (hn₂.symm ▸ h₂)⟩
  have hretire := unspentTotal_retire hmono hplaces id
  rwa [Finset.sum_union hdisjoint, hsum₀, hsum₁] at hretire

theorem CheckedUnshield.unspentTotal_add_le {proof : List UInt8}
    {root nullifier changeCommitment : FieldBytes} {asset : Asset} {amount : UInt64}
    {recipient : Bytes 32} {r n c : Fr}
    (h : CheckedUnshield V spent ctx proof root nullifier changeCommitment asset amount recipient
      r n c)
    {w : UnshieldWitness} (hw : Unshield P r n c (assetIdFr asset) amount.toNat w)
    (hbind : Binding P inputs) (hrec : Recorded P inputs notes)
    (htree : ctx.state.TreeOf P (notes.map (Note.commitment P)))
    (hhashed : ∀ x ∈ w.hashed P (assetIdFr asset), x ∈ inputs)
    (hmono : ∀ x, ctx.nullifiers.contains spent x = true → spent' x = true)
    (hspent : spent' nullifier = true) (id : Fr) :
    unspentTotal P inputs spent' notes id + (w.input.note P (assetIdFr asset)).amountOf id ≤
      unspentTotal P inputs (ctx.nullifiers.contains spent) notes id := by
  have hn := frToBytes_of_frFromBytes h.nullifier
  obtain ⟨k, hk⟩ := htree.root_of_known h.known h.root
  simp only [UnshieldWitness.hashed, List.mem_append, or_imp, forall_and] at hhashed
  obtain ⟨hhashed, -⟩ := hhashed
  obtain ⟨places, hopen, hsum⟩ := hw.input.places hbind hrec (fun _ => rfl) hhashed hk
    (hn.symm ▸ h.unspent) id
  have hplaces : ∀ j ∈ places, ∃ n : Note, notes[j]? = some n ∧ n.Spent P inputs spent' j := by
    intro j hj
    obtain ⟨hindex, hnote⟩ := hopen j hj
    exact ⟨_, hnote, hw.input.spent_of_nullifier hhashed hindex (hn.symm ▸ hspent)⟩
  have hretire := unspentTotal_retire hmono hplaces id
  rwa [hsum] at hretire

theorem Checked.leaves_eq {instruction : PoolInstruction} (h : Checked V spent ctx instruction)
    (hW : W.Sound P V) :
    instruction.leaves P = (instruction.notes P W).map (Note.commitment P) := by
  cases instruction with
  | shield asset amount secret note =>
    obtain ⟨x, hx⟩ := Option.isSome_iff_exists.mp h.2
    rw [PoolInstruction.leaves, hx, PoolInstruction.notes, frFromLeBytesModOrder_of_frFromBytes hx]
    rfl
  | transfer proof root nfs commitments fee encrypted =>
    obtain ⟨r, n₁, n₂, c₁, c₂, hc⟩ := checkTransfer_ok h
    have hw := hc.satisfies hW
    simp only [PoolInstruction.leaves, PoolInstruction.notes, List.filterMap_cons,
      List.filterMap_nil, hc.commitment₁, hc.commitment₂, List.map_cons, List.map_nil,
      Output.commitment_note, hw.output₀.commitment, hw.output₁.commitment]
  | unshield proof root nullifier change asset amount recipient encrypted =>
    obtain ⟨r, n, c, hc⟩ := checkUnshield_ok h
    have hw := hc.satisfies hW
    simp only [PoolInstruction.leaves, PoolInstruction.notes, List.filterMap_cons,
      List.filterMap_nil, hc.commitment, List.map_cons, List.map_nil, Output.commitment_note,
      hw.change.commitment]

theorem Checked.notes_hashed {instruction : PoolInstruction} (h : Checked V spent ctx instruction)
    (hW : W.Sound P V) : ∀ n ∈ instruction.notes P W,
      n.preimage ∈ instruction.hashed P W ∧ n.amount < 2 ^ 64 := by
  cases instruction with
  | shield asset amount secret note =>
    simp [PoolInstruction.notes, PoolInstruction.hashed, Note.preimage, amount.toNat_lt]
  | transfer proof root nfs commitments fee encrypted =>
    obtain ⟨r, n₁, n₂, c₁, c₂, hc⟩ := checkTransfer_ok h
    have hw := hc.satisfies hW
    simp only [PoolInstruction.notes, List.forall_mem_cons, Output.preimage_note]
    exact ⟨⟨by simp [PoolInstruction.hashed, TransferWitness.hashed, Output.hashed],
      hw.output₀.range.val_lt⟩, ⟨by simp [PoolInstruction.hashed, TransferWitness.hashed,
        Output.hashed], hw.output₁.range.val_lt⟩, by simp⟩
  | unshield proof root nullifier change asset amount recipient encrypted =>
    obtain ⟨r, n, c, hc⟩ := checkUnshield_ok h
    have hw := hc.satisfies hW
    simp only [PoolInstruction.notes, List.forall_mem_cons, Output.preimage_note]
    exact ⟨⟨by simp [PoolInstruction.hashed, UnshieldWitness.hashed, Output.hashed],
      hw.change.range.val_lt⟩, by simp⟩

/-- A checked instruction's new notes and payments come out of the notes it spends and what it
pays in. -/
theorem Checked.unspentTotal_le {instruction : PoolInstruction}
    (h : Checked V spent ctx instruction) (hW : W.Sound P V) (hbind : Binding P inputs)
    (hrec : Recorded P inputs notes)
    (htree : ctx.state.TreeOf P (notes.map (Note.commitment P)))
    (hhashed : ∀ x ∈ instruction.hashed P W, x ∈ inputs) {a : Asset}
    (hid : ∀ asset ∈ instruction.assets, assetIdFr asset = assetIdFr a → asset = a) :
    unspentTotal P inputs ((instruction.nullifiers.foldl BlockNullifiers.insert
          ctx.nullifiers).contains spent) notes (assetIdFr a) +
        ((instruction.notes P W).map (Note.amountOf (assetIdFr a))).sum + instruction.outflow a ≤
      unspentTotal P inputs (ctx.nullifiers.contains spent) notes (assetIdFr a) +
        instruction.inflow a := by
  have hmono : ∀ x, ctx.nullifiers.contains spent x = true →
      (instruction.nullifiers.foldl BlockNullifiers.insert ctx.nullifiers).contains spent x =
        true := fun x hx => (BlockNullifiers.contains_spendAll _ _ _).mpr (.inl hx)
  have hnew : ∀ x ∈ instruction.nullifiers,
      (instruction.nullifiers.foldl BlockNullifiers.insert ctx.nullifiers).contains spent x =
        true := fun x hx => (BlockNullifiers.contains_spendAll _ _ _).mpr (.inr hx)
  cases instruction with
  | shield asset amount secret note =>
    simp only [PoolInstruction.notes, PoolInstruction.inflow, PoolInstruction.outflow,
      PoolInstruction.nullifiers, List.foldl_nil, List.map_cons, List.map_nil, List.sum_cons,
      List.sum_nil, Note.amountOf, Nat.add_zero]
    refine Nat.add_le_add_left ?_ _
    split
    · rw [if_pos (hid asset (by simp [PoolInstruction.assets]) ‹_›)]
    · exact Nat.zero_le _
  | transfer proof root nfs commitments fee encrypted =>
    obtain ⟨r, n₁, n₂, c₁, c₂, hc⟩ := checkTransfer_ok h
    have hw := hc.satisfies hW
    have hspent := hc.unspentTotal_add_le hw hbind hrec htree hhashed hmono
      (hnew _ (by simp [PoolInstruction.nullifiers]))
        (hnew _ (by simp [PoolInstruction.nullifiers]))
      (assetIdFr a)
    have hfee : (if a = .native then fee.toNat else 0) ≤
        if (transferWitness W proof root nfs commitments fee).assetId = assetIdFr a
          then fee.toNat else 0 := by
      split
      · rename_i hnative
        subst hnative
        by_cases hzero : fee.toNat = 0
        · rw [hzero]
          exact Nat.zero_le _
        · rw [if_pos (hw.native_of_fee hzero)]
      · exact Nat.zero_le _
    rw [hw.amountOf_inputs] at hspent
    simp only [PoolInstruction.notes, PoolInstruction.inflow, PoolInstruction.outflow,
      List.map_cons, List.map_nil, List.sum_cons, List.sum_nil]
    omega
  | unshield proof root nullifier change asset amount recipient encrypted =>
    obtain ⟨r, n, c, hc⟩ := checkUnshield_ok h
    have hw := hc.satisfies hW
    have hspent := hc.unspentTotal_add_le hw hbind hrec htree hhashed hmono
      (hnew _ (by simp [PoolInstruction.nullifiers])) (assetIdFr a)
    have hamount : (if asset = a then amount.toNat else 0) ≤
        if assetIdFr asset = assetIdFr a then amount.toNat else 0 := by
      split
      · rename_i hasset
        rw [hasset, if_pos rfl]
      · exact Nat.zero_le _
    rw [hw.amountOf_input] at hspent
    simp only [PoolInstruction.notes, PoolInstruction.inflow, PoolInstruction.outflow,
      List.map_cons, List.map_nil, List.sum_cons, List.sum_nil]
    omega

end PoolProcessor

end Zul.Privacy
