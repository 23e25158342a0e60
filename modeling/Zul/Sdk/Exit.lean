import Zul.Privacy.Underway
import Zul.Sdk.Pool

/-! # Leaving the pool

Whatever blocks there were and whatever stands before it in its own block, the owner of an unspent
note withdraws it with the client: the vault covers the note, the root of the wallet's tree is
still known if fewer than 64 notes came after it, and the node pays the recipient.
-/

namespace Zul.Sdk

open Privacy Privacy.PoolProcessor Privacy.PoolService

variable {P : Prims} {L : Libraries} {checkT checkU : PairingCheck} {W : Circuits.Extractor}
  {cfg : PoolConfig} {store : Store} {assets : Set Privacy.Asset} {accounts : Set Pubkey}
  {inputs : Set (List Fr)} {r r' : Running} {notes : List Privacy.Note} {leaves : List ℤ}
  {params : UnshieldParams}

/-! ## The wallet and the tree -/

variable (P) in
/-- The leaves a wallet knows begin the tree, and fewer than a ring of roots came after them. -/
structure Synced (leaves : List ℤ) (notes : List Privacy.Note) : Prop where
  begins : leaves.map toFr <+: notes.map (Privacy.Note.commitment P)
  recent : notes.length < leaves.length + ROOT_HISTORY

theorem Synced.length_le (h : Synced P leaves notes) : leaves.length ≤ notes.length := by
  simpa using h.begins.length_le

theorem Synced.take (h : Synced P leaves notes) :
    (notes.map (Privacy.Note.commitment P)).take leaves.length = leaves.map toFr := by
  have htake := List.prefix_iff_eq_take.mp h.begins
  rw [List.length_map] at htake
  exact htake.symm

variable (P) in
def StoredNote.opened (note : StoredNote) (s assetId : ℤ) : Privacy.Note :=
  (note.signals s []).note P (toFr assetId)

variable (P) in
def StoredNote.hashed (note : StoredNote) (s assetId : ℤ) : List (List Fr) :=
  [[toFr s], [Circuits.ownerPk P (toFr s), toFr note.blinding], (note.opened P s assetId).preimage]

theorem StoredNote.Owned.commitment_opened {s assetId : ℤ} {note : StoredNote}
    (h : note.Owned P s assetId) :
    (note.opened P s assetId).commitment P = toFr (note.commitmentOf P) := by
  rw [opened, Circuits.Input.commitment_note, h.commitment]

theorem StoredNote.Owned.getElem? {s assetId : ℤ} {note : StoredNote} (h : note.Owned P s assetId)
    (htree : note.InTree P leaves) (hsynced : Synced P leaves notes) (hbind : Binding P inputs)
    (hrecorded : Recorded P inputs notes) (hhashed : ∀ x ∈ note.hashed P s assetId, x ∈ inputs) :
    notes[note.leafIndex]? = some (note.opened P s assetId) := by
  obtain ⟨leaf, hleaf, hleafFr⟩ := htree
  obtain ⟨hlt, -⟩ := List.getElem?_eq_some_iff.mp hleaf
  have hat : ((notes.map (Privacy.Note.commitment P)).take leaves.length)[note.leafIndex]? =
      some (toFr leaf) := by
    rw [hsynced.take, List.getElem?_map, hleaf]
    rfl
  rw [List.getElem?_take_of_lt hlt, List.getElem?_map] at hat
  obtain ⟨n, hn, hcommit⟩ := Option.map_eq_some_iff.mp hat
  have hmem := List.mem_of_getElem? hn
  rw [hn, Circuits.note_eq_of_commitment hbind (hrecorded.preimage n hmem)
    (hhashed _ (by simp [hashed])) (hrecorded.range n hmem) (amountCheck_toFr h.amount).val_lt
    (hcommit.trans (hleafFr.trans h.commitment_opened.symm))]

theorem StoredNote.Owned.amount_opened {s assetId : ℤ} {note : StoredNote}
    (h : note.Owned P s assetId) : ((note.opened P s assetId).amount : ℤ) = note.amount := by
  have hval := (val_toFr_eq_toNat_iff h.amount.1).mpr (h.amount.2.trans (by decide))
  rw [opened, Circuits.Input.note, StoredNote.signals, hval, Int.toNat_of_nonneg h.amount.1]

theorem StoredNote.Owned.frToBytes_nullifierOf {s assetId : ℤ} {note : StoredNote}
    (h : note.Owned P s assetId) :
    frToBytes (note.nullifierOf P s) = Privacy.frToBytes (Circuits.nullifier P
      ((note.opened P s assetId).commitment P) note.leafIndex (toFr s)) := by
  rw [frToBytes_eq, toFr_nullifierOf, h.commitment_opened]

/-! ## What the node reads -/

theorem Asset.Describes.unique {asset : Asset} {a b : Privacy.Asset} (ha : asset.Describes a)
    (hb : asset.Describes b) : a = b := by
  cases ha with
  | native =>
    cases hb
    rfl
  | spl h =>
    cases hb with
    | spl h' => exact congrArg _ (Bytes.ext (h.symm.trans h'))

/-- The instruction the client builds for an unshield with the given circuit inputs. -/
def UnshieldParams.instruction (L : Libraries) (params : UnshieldParams) (input : UnshieldInput)
    (proof : Groth16Proof) (asset : Privacy.Asset) (amount : UInt64) (recipient : Bytes 32) :
    PoolInstruction :=
  .unshield (proofToBlob proof).toList (frToBytes input.root) (frToBytes input.nullifier)
    (frToBytes input.changeCommitment) asset amount recipient
    (L.encryptNote 0 (params.changeNote L) params.changeEncPk).toList

/-- The node reads the instruction of an honest unshield, and it passes the checks under a known
root while its nullifier is new. -/
theorem UnshieldParams.Honest.checked (h : params.Honest P leaves)
    (hcomplete : L.Complete P checkT checkU) {input : UnshieldInput}
    (hinput : unshieldInput P L params = some input) (hsatisfies : input.Satisfies P)
    {asset : Privacy.Asset} (hasset : params.asset.Describes asset) {amount : UInt64}
    (hamount : params.amount = amount.toNat) {recipient : Bytes 32}
    (hrecipient : params.recipient.toList = recipient.toList) (hpositive : params.amount ≠ 0)
    (hbelow : ∀ proof, L.fullProveUnshield input = some proof → proof.Below frModulus) :
    ∃ result proof, buildUnshield P L params = some result ∧
      result.changeNote = params.changeNote L ∧
      PoolInstruction.tryFromSlice result.data =
        some (params.instruction L input proof asset amount recipient) ∧
      ∀ spent ctx, ctx.state.isKnownRoot (frToBytes input.root) = true →
        ctx.nullifiers.contains spent (frToBytes input.nullifier) = false →
        Checked (groth16 checkT checkU) spent ctx
          (params.instruction L input proof asset amount recipient) := by
  obtain ⟨proof, hproof, -⟩ := hcomplete.unshield input hsatisfies
  have hdescribes : (params.args L input proof).Describes
      (params.instruction L input proof asset amount recipient) :=
    .mk rfl rfl rfl hasset hamount hrecipient
  have hbuilt := buildUnshield_eq hinput hproof (encodeUnshield_eq hdescribes)
  have hread := PoolInstruction.tryFromSlice_toBytes _ hdescribes.vecs_lt
  obtain ⟨result, _, _, _, _, _, _, _, _, hbuilt', hread', -, hcheck⟩ :=
    h.accepted hcomplete hinput hsatisfies
  cases hbuilt.symm.trans hbuilt'
  cases hread.symm.trans hread'
  exact ⟨_, proof, hbuilt, rfl, hread, hcheck hpositive hbelow⟩

theorem UnshieldParams.Honest.toFr_root (h : params.Honest P leaves) {root : ℤ}
    (hroot : params.tree.root = some root) : toFr root = treeRoot P (leaves.map toFr) := by
  rw [tree_eq_ofLeaves h.tree, MerkleTree.root_ofLeaves, ← MerkleTree.val_root] at hroot
  rw [← Option.some.inj hroot, toFr_val]

/-! ## The withdrawal -/

namespace Sample

open PoolService.Sample (funded shieldTx shielded config depositor hashedInputs)

abbrev poolPrims : Prims := PoolService.Sample.prims

noncomputable section

open Classical

def transferCheck : PairingCheck :=
  fun _ inputs => decide (∃ w, Circuits.TransferSystem poolPrims inputs w)

def unshieldCheck : PairingCheck :=
  fun _ inputs => decide (∃ w, Circuits.UnshieldSystem poolPrims inputs w)

def poolVerifier : ProofVerifier := groth16 transferCheck unshieldCheck

theorem checks_complete : libraries.Complete poolPrims transferCheck unshieldCheck where
  transfer _ h := by
    obtain ⟨_, _, hsystem⟩ := h
    exact ⟨_, rfl, by decide, decide_eq_true ⟨_, hsystem⟩⟩
  unshield _ h := by
    obtain ⟨_, hsystem⟩ := h
    exact ⟨_, rfl, by decide, decide_eq_true ⟨_, hsystem⟩⟩

theorem checks_sound : ∃ W : Circuits.Extractor, W.Sound poolPrims poolVerifier := by
  apply Circuits.exists_sound
  · intro proof inputs h
    simp only [poolVerifier, groth16_verifyTransfer, verify] at h
    split at h
    · exact of_decide_eq_true h
    · cases h
  · intro proof inputs h
    simp only [poolVerifier, groth16_verifyUnshield, verify] at h
    split at h
    · exact of_decide_eq_true h
    · cases h

end

def deposited : StoredNote := ⟨⟨0, 10, Sdk.ownerPk poolPrims 5, 6⟩, 0⟩

theorem key_lt_limit : 32 < 2 ^ 53 := by decide

theorem nil_lt_limit : ([] : List UInt8).length < 2 ^ 53 := by decide

def withdrawal : UnshieldParams where
  spendingKey := 5
  asset := .native
  assetId := 0
  input := deposited
  amount := 4
  recipient := .ofBytes PoolService.Sample.recipient key_lt_limit
  changePk := 8
  changeEncPk := ⟨[], nil_lt_limit⟩
  tree := MerkleTree.ofLeaves poolPrims [deposited.commitmentOf poolPrims]

theorem withdrawal_honest : withdrawal.Honest poolPrims [deposited.commitmentOf poolPrims] where
  tree := by
    rw [MerkleTree.init_eq_ofLeaves, MerkleTree.appendAll_ofLeaves, List.nil_append]
    rfl
  capacity := by decide
  asset := rfl
  owned := ⟨rfl, rfl, by decide⟩
  amount := by decide
  recipient := List.length_replicate

theorem opened_deposited : deposited.opened poolPrims 5 0 = shielded := by
  rfl

theorem commitment_deposited :
    toFr (deposited.commitmentOf poolPrims) = shielded.commitment poolPrims := by
  rw [← opened_deposited]
  exact (withdrawal_honest.owned.commitment_opened).symm

theorem hashed_deposited : ∀ x ∈ deposited.hashed poolPrims 5 0, x ∈ hashedInputs := by
  decide

theorem treeRoot_deposited : treeRoot poolPrims [shielded.commitment poolPrims] ≠ 0 := by
  have hroot : treeRoot poolPrims [shielded.commitment poolPrims] =
      PoolService.Sample.leftmost [shielded.commitment poolPrims] Privacy.TREE_DEPTH :=
    PoolService.Sample.nodeAt_zero (by simp) _
  rw [hroot]
  decide +kernel

theorem exists_deposit : ∃ r, applyOne poolPrims poolVerifier config funded
    (blockStart (PoolState.new poolPrims)) shieldTx.1 shieldTx.2 = some (r, .ok ()) :=
  applyOne_shield (x := shielded.secret) (by decide) (by decide)
    (Privacy.frFromBytes_frToBytes _) rfl rfl

section Deposit

variable {r : Running} {W : Circuits.Extractor}
  (h : applyOne poolPrims poolVerifier config funded (blockStart (PoolState.new poolPrims))
    shieldTx.1 shieldTx.2 = some (r, .ok ()))
  (hW : W.Sound poolPrims poolVerifier)
include h hW

theorem added_deposit :
    added poolPrims W (blockStart (PoolState.new poolPrims)) r shieldTx.2 = [shielded] :=
  (added_of_accepted (PoolState.canonical_new poolPrims) hW h).trans
    (show shieldTx.2.notes poolPrims PoolService.Sample.extractor = [shielded] by decide)

theorem hashed_deposit {x : List Fr}
    (hx : Hashed poolPrims poolVerifier W config funded (blockStart (PoolState.new poolPrims)) []
      [shieldTx] x) : x ∈ hashedInputs := by
  have hone : ∀ x ∈ shieldTx.2.hashed poolPrims PoolService.Sample.extractor,
      x ∈ hashedInputs := by decide
  cases hx with
  | checked _ _ mem => exact hone x mem
  | tree applied mem =>
    rw [h] at applied
    cases applied
    rw [added_deposit h hW] at mem
    exact PoolService.Sample.treeInputs_subset (treeInputs_take poolPrims _ 1 mem)
  | later _ rest => cases rest

theorem underway_deposit :
    Underway poolPrims poolVerifier W config {.native}
      {depositor, PoolService.Sample.recipient, config.vault} {x | x ∈ hashedInputs} funded r
      [shielded] := by
  have hadmitted : AdmittedAll poolPrims poolVerifier config {.native}
      {depositor, PoolService.Sample.recipient, config.vault} funded
      (blockStart (PoolState.new poolPrims)) [shieldTx] :=
    ⟨⟨by decide, by simp [shieldTx, PoolInstruction.assets], by simp [shieldTx, owners]⟩,
      fun _ _ _ => ⟨fun _ => ⟨by decide, trivial⟩, trivial⟩⟩
  have hran : [shieldTx].foldlM (applyNext poolPrims poolVerifier config funded)
      (blockStart (PoolState.new poolPrims), []) = some (r, [.ok ()]) := by
    simp [applyNext, h]
  have hunderway := Underway.mk (W := W) (.genesis rfl)
    ((treeInputs_take poolPrims _ 0).trans PoolService.Sample.treeInputs_subset) rfl hadmitted
    (fun x hx => hashed_deposit h hW hx) hran
  rw [notesAfter, h] at hunderway
  dsimp only at hunderway
  rwa [notesAfter, added_deposit h hW] at hunderway

end Deposit

end Sample

end Zul.Sdk
