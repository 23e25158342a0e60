import Zul.Privacy.Circuits
import Zul.Privacy.Verifier
import Zul.Sdk.Instruction
import Zul.Sdk.Merkle

/-! # Spending from the wallet

The client assembles the circuit inputs of a transfer and of an unshield from the wallet's notes
and its tree, has a proof made and encodes the instruction. For honest notes the inputs satisfy
the circuits, and the public inputs the node reads from the instruction are the circuits' public
signals in their order, so the node accepts the proof.
-/

namespace Zul.Sdk

/-! ## Hashes of notes -/

section Hashes

variable (P : Prims)

def NATIVE_ASSET_ID : ℤ := 0

def assetIdForMint (mint : Uint8Array) : Option ℤ :=
  if mint.length ≠ 32 then none else some ((LittleEndian.decode mint.toList : ℤ) % frModulus)

def ownerPk (spendingKey : ℤ) : ℤ := hash P [spendingKey]

def noteSecret (ownerPublicKey blinding : ℤ) : ℤ := hash P [ownerPublicKey, blinding]

def noteCommitmentFromSecret (assetId amount secret : ℤ) : ℤ := hash P [assetId, amount, secret]

def noteCommitment (assetId amount ownerPublicKey blinding : ℤ) : ℤ :=
  noteCommitmentFromSecret P assetId amount (noteSecret P ownerPublicKey blinding)

def nullifier (commitment leafIndex spendingKey : ℤ) : ℤ :=
  hash P [commitment, leafIndex, spendingKey]

end Hashes

/-- The 32 little-endian bytes of an integer modulo the field; `%` keeps the sign. -/
def frToBytes (value : ℤ) : Bytes 32 :=
  ⟨LittleEndian.encode 32 ((value.tmod frModulus + frModulus).tmod frModulus).toNat,
    LittleEndian.length_encode ..⟩

def frToBytesBE (value : ℤ) : List UInt8 := (frToBytes value).toList.reverse

/-! ## Proofs -/

structure Groth16Proof where
  piA : ℤ × ℤ
  piB : (ℤ × ℤ) × (ℤ × ℤ)
  piC : ℤ × ℤ

namespace Groth16Proof

/-- The coordinates in the node's order: the imaginary part of a pair first. -/
def coordinates (proof : Groth16Proof) : List ℤ :=
  [proof.piA.1, proof.piA.2, proof.piB.1.2, proof.piB.1.1, proof.piB.2.2, proof.piB.2.1,
    proof.piC.1, proof.piC.2]

end Groth16Proof

theorem length_proofToBlob (proof : Groth16Proof) :
    (proof.coordinates.map frToBytesBE).flatten.length = 256 := by
  simp [Groth16Proof.coordinates, frToBytesBE]

/-- The node's form of a proof. The coordinates are written with the scalar field's reduction. -/
def proofToBlob (proof : Groth16Proof) : Uint8Array :=
  ⟨(proof.coordinates.map frToBytesBE).flatten, by rw [length_proofToBlob]; decide⟩

/-! ## Notes -/

structure Note where
  assetId : ℤ
  amount : ℤ
  ownerPk : ℤ
  blinding : ℤ

structure StoredNote extends Note where
  leafIndex : ℕ

/-! ## Transfer -/

structure TransferOutput where
  amount : ℤ
  recipientPk : ℤ
  recipientEncPk : Uint8Array

structure TransferParams where
  spendingKey : ℤ
  assetId : ℤ
  inputs : StoredNote × StoredNote
  outputs : TransferOutput × TransferOutput
  fee : ℤ
  tree : MerkleTree

structure TransferInput where
  root : ℤ
  nullifier : ℤ × ℤ
  outCommitment : ℤ × ℤ
  fee : ℤ
  assetId : ℤ
  inAmount : ℤ × ℤ
  inS : ℤ × ℤ
  inBlinding : ℤ × ℤ
  inLeafIndex : ℤ × ℤ
  inPath : List ℤ × List ℤ
  outAmount : ℤ × ℤ
  outPk : ℤ × ℤ
  outBlinding : ℤ × ℤ

/-! ## Unshield -/

structure UnshieldParams where
  spendingKey : ℤ
  asset : Asset
  assetId : ℤ
  input : StoredNote
  amount : ℤ
  recipient : Uint8Array
  changePk : ℤ
  changeEncPk : Uint8Array
  tree : MerkleTree

structure UnshieldInput where
  root : ℤ
  nullifier : ℤ
  changeCommitment : ℤ
  assetId : ℤ
  amount : ℤ
  recipient : ℤ
  inAmount : ℤ
  inS : ℤ
  inBlinding : ℤ
  inLeafIndex : ℤ
  inPath : List ℤ
  changeAmount : ℤ
  changePk : ℤ
  changeBlinding : ℤ

structure TransferResult where
  data : List UInt8
  outputNotes : Note × Note
  nullifiers : ℤ × ℤ

structure UnshieldResult where
  data : List UInt8
  changeNote : Note
  nullifier : ℤ

/-- What the client takes from its libraries: randomness and note encryption, by the number of the
call, and the prover, which fails on inputs that do not satisfy the circuit. -/
structure Libraries where
  randomFr : ℕ → ℤ
  encryptNote : ℕ → Note → Uint8Array → Uint8Array
  fullProveTransfer : TransferInput → Option Groth16Proof
  fullProveUnshield : UnshieldInput → Option Groth16Proof

section Build

variable (P : Prims) (L : Libraries)

def Note.commitmentOf (note : Note) : ℤ :=
  noteCommitment P note.assetId note.amount note.ownerPk note.blinding

/-- The note for output number `call`. -/
def TransferParams.outputNote (params : TransferParams) (out : TransferOutput) (call : ℕ) : Note :=
  ⟨params.assetId, out.amount, out.recipientPk, L.randomFr call⟩

def StoredNote.nullifierOf (note : StoredNote) (spendingKey : ℤ) : ℤ :=
  nullifier P (note.commitmentOf P) note.leafIndex spendingKey

/-- The circuit inputs of a transfer, with what was read from the tree. -/
def TransferParams.circuitInput (params : TransferParams) (root : ℤ) (path₀ path₁ : List ℤ) :
    TransferInput :=
  let note₀ := params.outputNote L params.outputs.1 0
  let note₁ := params.outputNote L params.outputs.2 1
  { root
    nullifier := (params.inputs.1.nullifierOf P params.spendingKey,
      params.inputs.2.nullifierOf P params.spendingKey)
    outCommitment := (note₀.commitmentOf P, note₁.commitmentOf P)
    fee := params.fee
    assetId := params.assetId
    inAmount := (params.inputs.1.amount, params.inputs.2.amount)
    inS := (params.spendingKey, params.spendingKey)
    inBlinding := (params.inputs.1.blinding, params.inputs.2.blinding)
    inLeafIndex := (params.inputs.1.leafIndex, params.inputs.2.leafIndex)
    inPath := (path₀, path₁)
    outAmount := (params.outputs.1.amount, params.outputs.2.amount)
    outPk := (params.outputs.1.recipientPk, params.outputs.2.recipientPk)
    outBlinding := (note₀.blinding, note₁.blinding) }

/-- The circuit inputs `buildTransfer` hands to the prover. -/
def transferInput (params : TransferParams) : Option TransferInput := do
  let root ← params.tree.root
  let path₀ ← params.tree.path params.inputs.1.leafIndex
  let path₁ ← params.tree.path params.inputs.2.leafIndex
  return params.circuitInput P L root path₀ path₁

def fieldArray (value : ℤ) : Uint8Array := .ofBytes (frToBytes value) (by decide)

/-- The instruction's arguments for the circuit inputs and their proof. -/
def TransferParams.args (params : TransferParams) (input : TransferInput) (proof : Groth16Proof) :
    TransferArgs where
  proof := proofToBlob proof
  root := fieldArray input.root
  nullifiers := (fieldArray input.nullifier.1, fieldArray input.nullifier.2)
  commitments := (fieldArray input.outCommitment.1, fieldArray input.outCommitment.2)
  fee := params.fee
  encryptedNotes :=
    (L.encryptNote 0 (params.outputNote L params.outputs.1 0) params.outputs.1.recipientEncPk,
      L.encryptNote 1 (params.outputNote L params.outputs.2 1) params.outputs.2.recipientEncPk)

def buildTransfer (params : TransferParams) : Option TransferResult := do
  let input ← transferInput P L params
  let proof ← L.fullProveTransfer input
  let data ← (encodeTransfer (params.args L input proof)).toOption
  return ⟨data, (params.outputNote L params.outputs.1 0, params.outputNote L params.outputs.2 1),
    input.nullifier⟩

def UnshieldParams.changeNote (params : UnshieldParams) : Note :=
  ⟨params.assetId, params.input.amount - params.amount, params.changePk, L.randomFr 0⟩

/-- The circuit inputs of an unshield, with what was read from the tree; the recipient's bytes are
not reduced. -/
def UnshieldParams.circuitInput (params : UnshieldParams) (root : ℤ) (path : List ℤ) :
    UnshieldInput :=
  let change := params.changeNote L
  { root
    nullifier := params.input.nullifierOf P params.spendingKey
    changeCommitment := change.commitmentOf P
    assetId := params.assetId
    amount := params.amount
    recipient := LittleEndian.decode (params.recipient.toList.take 32)
    inAmount := params.input.amount
    inS := params.spendingKey
    inBlinding := params.input.blinding
    inLeafIndex := params.input.leafIndex
    inPath := path
    changeAmount := change.amount
    changePk := params.changePk
    changeBlinding := change.blinding }

/-- The circuit inputs `buildUnshield` hands to the prover. -/
def unshieldInput (params : UnshieldParams) : Option UnshieldInput := do
  let root ← params.tree.root
  let path ← params.tree.path params.input.leafIndex
  if params.input.amount - params.amount < 0 then none
  else if params.recipient.length < 32 then none
  else return params.circuitInput P L root path

/-- The instruction's arguments for the circuit inputs and their proof. -/
def UnshieldParams.args (params : UnshieldParams) (input : UnshieldInput) (proof : Groth16Proof) :
    UnshieldArgs where
  proof := proofToBlob proof
  root := fieldArray input.root
  nullifier := fieldArray input.nullifier
  changeCommitment := fieldArray input.changeCommitment
  asset := params.asset
  amount := params.amount
  recipient := params.recipient
  encryptedChangeNote := L.encryptNote 0 (params.changeNote L) params.changeEncPk

def buildUnshield (params : UnshieldParams) : Option UnshieldResult := do
  let input ← unshieldInput P L params
  let proof ← L.fullProveUnshield input
  let data ← (encodeUnshield (params.args L input proof)).toOption
  return ⟨data, params.changeNote L, input.nullifier⟩

end Build

/-! ## The circuits on the assembled inputs -/

section Signals

open Privacy.Circuits

/-- The signals of a transfer for some bits of the two leaf indices; all other intermediate signals
are computed from the inputs. -/
def TransferInput.witness (input : TransferInput) (bits₀ bits₁ : List Bool) : TransferWitness where
  assetId := toFr input.assetId
  input₀ := ⟨toFr input.inAmount.1, toFr input.inS.1, toFr input.inBlinding.1,
    toFr input.inLeafIndex.1, input.inPath.1.map toFr, bits₀⟩
  input₁ := ⟨toFr input.inAmount.2, toFr input.inS.2, toFr input.inBlinding.2,
    toFr input.inLeafIndex.2, input.inPath.2.map toFr, bits₁⟩
  output₀ := ⟨toFr input.outAmount.1, toFr input.outPk.1, toFr input.outBlinding.1⟩
  output₁ := ⟨toFr input.outAmount.2, toFr input.outPk.2, toFr input.outBlinding.2⟩

def TransferInput.publicSignals (input : TransferInput) : List Fr :=
  [input.root, input.nullifier.1, input.nullifier.2, input.outCommitment.1, input.outCommitment.2,
    input.fee].map toFr

/-- The inputs satisfy all constraints, with some values of the intermediate signals. -/
def TransferInput.Satisfies (P : Prims) (input : TransferInput) : Prop :=
  ∃ bits₀ bits₁, TransferSystem P input.publicSignals (input.witness bits₀ bits₁)

def UnshieldInput.witness (input : UnshieldInput) (bits : List Bool) : UnshieldWitness where
  input := ⟨toFr input.inAmount, toFr input.inS, toFr input.inBlinding, toFr input.inLeafIndex,
    input.inPath.map toFr, bits⟩
  change := ⟨toFr input.changeAmount, toFr input.changePk, toFr input.changeBlinding⟩

def UnshieldInput.publicSignals (input : UnshieldInput) : List Fr :=
  [input.root, input.nullifier, input.changeCommitment, input.assetId, input.amount,
    input.recipient].map toFr

def UnshieldInput.Satisfies (P : Prims) (input : UnshieldInput) : Prop :=
  ∃ bits, UnshieldSystem P input.publicSignals (input.witness bits)

/-! ## Field elements -/

theorem toFr_natCast (n : ℕ) : toFr n = (n : Fr) := Int.cast_natCast n

theorem val_toFr (value : ℤ) : ((toFr value).val : ℤ) = value % frModulus :=
  ZMod.val_intCast value

theorem frToBytes_eq (value : ℤ) : frToBytes value = Privacy.frToBytes (toFr value) := by
  have hpos : (0 : ℤ) < frModulus := by decide
  have hreduced : ((value.tmod frModulus + frModulus).tmod frModulus).toNat = (toFr value).val := by
    have hlow : 0 ≤ value.tmod frModulus + frModulus := by
      have := Int.lt_tmod_of_pos value hpos
      omega
    rw [Int.tmod_eq_emod_of_nonneg hlow, Int.add_emod_right, Int.tmod_def,
      Int.sub_mul_emod_self_left, ← val_toFr]
    rfl
  rw [frToBytes, Privacy.frToBytes]
  simp only [hreduced]

theorem hash_inj {P : Prims} {inputs inputs' : List ℤ}
    (h : toFr (hash P inputs) = toFr (hash P inputs')) : hash P inputs = hash P inputs' := by
  rw [hash, hash, toFr_val, toFr_val] at h
  rw [hash, hash, h]

theorem amountCheck_toFr {x : ℤ} (h : 0 ≤ x ∧ x < 2 ^ 64) : AmountCheck (toFr x) := by
  obtain ⟨n, rfl⟩ := Int.eq_ofNat_of_zero_le h.1
  have hn : n < 2 ^ 64 := by exact_mod_cast h.2
  refine ⟨MerkleTree.bitsOf 64 n, MerkleTree.length_bitsOf 64 n, ?_⟩
  rw [MerkleTree.pathIndex_bitsOf hn]
  exact toFr_natCast n

theorem lt_of_num2Bits {k n : ℕ} {bits : List Bool} (h : Num2Bits k (n : Fr) bits)
    (hk : 2 ^ k ≤ frModulus) (hn : n < frModulus) : n < 2 ^ k := by
  have hlt := MerkleTree.pathIndex_lt bits
  rw [h.1] at hlt
  rwa [Privacy.natCast_inj_of_lt hn (hlt.trans_le hk) h.2]

section Notes

variable {P : Prims}

theorem toFr_ownerPk (s : ℤ) : toFr (Sdk.ownerPk P s) = Privacy.Circuits.ownerPk P (toFr s) :=
  toFr_hash P [s]

theorem toFr_commitmentOf (note : Note) :
    toFr (note.commitmentOf P) = Privacy.Circuits.noteCommitment P (toFr note.assetId)
      (toFr note.amount) (toFr note.ownerPk) (toFr note.blinding) := by
  rw [Note.commitmentOf, Sdk.noteCommitment, noteCommitmentFromSecret, toFr_hash]
  simp only [List.map_cons, List.map_nil, Sdk.noteSecret, toFr_hash]
  rfl

theorem toFr_nullifierOf (note : StoredNote) (s : ℤ) :
    toFr (note.nullifierOf P s) = Privacy.Circuits.nullifier P (toFr (note.commitmentOf P))
      (note.leafIndex : Fr) (toFr s) := by
  rw [StoredNote.nullifierOf, Sdk.nullifier, toFr_hash]
  simp only [List.map_cons, List.map_nil, toFr_natCast]
  rfl

/-! ## Honest notes -/

structure StoredNote.Owned (P : Prims) (s assetId : ℤ) (note : StoredNote) : Prop where
  ownerPk : note.ownerPk = Sdk.ownerPk P s
  assetId : toFr note.assetId = toFr assetId
  amount : 0 ≤ note.amount ∧ note.amount < 2 ^ 64

def StoredNote.InTree (P : Prims) (leaves : List ℤ) (note : StoredNote) : Prop :=
  ∃ leaf, leaves[note.leafIndex]? = some leaf ∧ toFr leaf = toFr (note.commitmentOf P)

def StoredNote.signals (note : StoredNote) (s : ℤ) (path : List ℤ) : Input :=
  ⟨toFr note.amount, toFr s, toFr note.blinding, toFr note.leafIndex, path.map toFr,
    MerkleTree.bitsOf Privacy.TREE_DEPTH note.leafIndex⟩

theorem StoredNote.Owned.commitment {s assetId : ℤ} {note : StoredNote} (h : note.Owned P s assetId)
    (path : List ℤ) :
    (note.signals s path).commitment P (toFr assetId) = toFr (note.commitmentOf P) := by
  rw [toFr_commitmentOf, h.ownerPk, toFr_ownerPk, h.assetId]
  rfl

/-- An owned note whose index fits the tree meets the constraints on a spent note, where its path
climbs to the root or inclusion is not enabled. -/
theorem StoredNote.Owned.spends {s assetId : ℤ} {note : StoredNote} (h : note.Owned P s assetId)
    (hindex : note.leafIndex < 2 ^ 26) {path : List ℤ} (hpath : path.length = TREE_DEPTH)
    {root : ℤ} {enabled : Fr}
    (hroot : enabled = 0 ∨ MerkleTree.climb (Privacy.treeNode P) (toFr (note.commitmentOf P))
      ((MerkleTree.bitsOf TREE_DEPTH note.leafIndex).zip (path.map toFr)) = toFr root) :
    (note.signals s path).Spends P (toFr assetId) (toFr root) (toFr (note.nullifierOf P s))
      enabled where
  range := amountCheck_toFr h.amount
  nullifier := by
    rw [toFr_nullifierOf, h.commitment, ← toFr_natCast]
    rfl
  inclusion := by
    refine ⟨⟨MerkleTree.length_bitsOf _ _, ?_⟩, ?_, ?_⟩
    · have hbits : MerkleTree.pathIndex (MerkleTree.bitsOf Privacy.TREE_DEPTH note.leafIndex) =
          note.leafIndex := MerkleTree.pathIndex_bitsOf hindex
      exact (toFr_natCast _).trans (congrArg Nat.cast hbits.symm)
    · rw [StoredNote.signals, List.length_map]
      exact hpath
    · rw [h.commitment]
      rcases hroot with hzero | hclimb
      · rw [hzero, mul_zero]
      · have hequal := sub_eq_zero.mpr hclimb
        rw [show (note.signals s path).indexBits = MerkleTree.bitsOf TREE_DEPTH note.leafIndex
          from rfl, show (note.signals s path).path = path.map toFr from rfl, hequal, zero_mul]

theorem StoredNote.InTree.climb {leaves : List ℤ} (hcapacity : leaves.length ≤ 2 ^ 26)
    {note : StoredNote} (h : note.InTree P leaves) :
    note.leafIndex < 2 ^ 26 ∧ ∀ path,
      (MerkleTree.ofLeaves P leaves).path note.leafIndex = some path →
      MerkleTree.climb (Privacy.treeNode P) (toFr (note.commitmentOf P))
        ((MerkleTree.bitsOf TREE_DEPTH note.leafIndex).zip (path.map toFr)) =
          toFr (MerkleTree.nodeAt (treeNode P) (leafAt leaves) TREE_DEPTH 0) := by
  obtain ⟨leaf, hleaf, hcommitment⟩ := h
  have hlt := (List.getElem?_eq_some_iff.mp hleaf).1
  refine ⟨hlt.trans_le hcapacity, fun path hpath => ?_⟩
  have hclimb := MerkleTree.climb_path (hlt.trans_le hcapacity) hpath
  rw [leafAt, List.getD_eq_getElem?_getD, hleaf, Option.getD_some, hcommitment] at hclimb
  rw [hclimb, ← MerkleTree.val_root, toFr_val]

/-! ## Honest transfers -/

/-- Owned notes of one asset, a 64-bit split that conserves their value, no fee but in the native
asset, and two nullifiers; the tree is the wallet's over the chain's leaves. -/
structure TransferParams.Honest (P : Prims) (leaves : List ℤ) (params : TransferParams) :
    Prop where
  tree : (MerkleTree.init P).appendAll P leaves = some params.tree
  capacity : leaves.length ≤ 2 ^ 26
  owned₀ : params.inputs.1.Owned P params.spendingKey params.assetId
  owned₁ : params.inputs.2.Owned P params.spendingKey params.assetId
  output₀ : 0 ≤ params.outputs.1.amount ∧ params.outputs.1.amount < 2 ^ 64
  output₁ : 0 ≤ params.outputs.2.amount ∧ params.outputs.2.amount < 2 ^ 64
  fee : 0 ≤ params.fee ∧ params.fee < 2 ^ 64
  conserved : params.inputs.1.amount + params.inputs.2.amount =
    params.outputs.1.amount + params.outputs.2.amount + params.fee
  native : params.fee = 0 ∨ params.assetId = NATIVE_ASSET_ID
  distinct : params.inputs.1.nullifierOf P params.spendingKey ≠
    params.inputs.2.nullifierOf P params.spendingKey

def StoredNote.Placed (P : Prims) (leaves : List ℤ) (note : StoredNote) : Prop :=
  note.InTree P leaves ∨ note.amount = 0 ∧ note.leafIndex < 2 ^ 26

theorem tree_eq_ofLeaves {leaves : List ℤ} {tree : MerkleTree}
    (h : (MerkleTree.init P).appendAll P leaves = some tree) :
    tree = MerkleTree.ofLeaves P leaves := by
  rw [MerkleTree.init_eq_ofLeaves, MerkleTree.appendAll_ofLeaves, List.nil_append] at h
  exact (Option.some.inj h).symm

theorem StoredNote.Owned.spends_placed {s assetId : ℤ} {note : StoredNote} {leaves : List ℤ}
    (h : note.Owned P s assetId) (hcapacity : leaves.length ≤ 2 ^ 26)
    (hplaced : note.Placed P leaves) {path : List ℤ}
    (hpath : (MerkleTree.ofLeaves P leaves).path note.leafIndex = some path)
    (hlength : path.length = TREE_DEPTH) :
    (note.signals s path).Spends P (toFr assetId)
      (toFr (MerkleTree.nodeAt (treeNode P) (leafAt leaves) TREE_DEPTH 0))
      (toFr (note.nullifierOf P s)) (1 - isZero (toFr note.amount)) := by
  rcases hplaced with htree | ⟨hzero, hindex⟩
  · obtain ⟨hindex, hclimb⟩ := htree.climb hcapacity
    exact h.spends hindex hlength (.inr (hclimb path hpath))
  · refine h.spends hindex hlength (.inl ?_)
    have hamount : toFr note.amount = 0 := by rw [hzero, toFr, Int.cast_zero]
    rw [hamount, isZero, if_pos rfl, sub_self]

theorem isZero_mul {x y : Fr} (h : x = 0 ∨ y = 0) : x * (1 - isZero y) = 0 := by
  rcases h with rfl | rfl
  · exact zero_mul _
  · rw [isZero, if_pos rfl, sub_self, mul_zero]

theorem isEqual_of_ne {x y : Fr} (h : x ≠ y) : isEqual x y = 0 := by
  rw [isEqual, isZero, if_neg (sub_ne_zero.mpr h.symm)]

theorem TransferParams.Honest.assembled {leaves path₀ path₁ : List ℤ} {params : TransferParams}
    (L : Libraries) (h : params.Honest P leaves)
    (hpath₀ : (MerkleTree.ofLeaves P leaves).path params.inputs.1.leafIndex = some path₀)
    (hpath₁ : (MerkleTree.ofLeaves P leaves).path params.inputs.2.leafIndex = some path₁) :
    transferInput P L params = some (params.circuitInput P L
      (MerkleTree.nodeAt (treeNode P) (leafAt leaves) TREE_DEPTH 0) path₀ path₁) := by
  simp only [transferInput, tree_eq_ofLeaves h.tree, MerkleTree.root_ofLeaves, hpath₀, hpath₁,
    Option.bind_eq_bind, Option.bind_some]
  rfl

theorem TransferParams.Honest.satisfies {leaves : List ℤ} {params : TransferParams} (L : Libraries)
    (h : params.Honest P leaves) (hplaced₀ : params.inputs.1.Placed P leaves)
    (hplaced₁ : params.inputs.2.Placed P leaves) :
    ∃ input, transferInput P L params = some input ∧ input.Satisfies P := by
  obtain ⟨path₀, hpath₀, hlength₀⟩ :=
    MerkleTree.exists_path_ofLeaves (P := P) leaves params.inputs.1.leafIndex
  obtain ⟨path₁, hpath₁, hlength₁⟩ :=
    MerkleTree.exists_path_ofLeaves (P := P) leaves params.inputs.2.leafIndex
  have hconserved : toFr params.inputs.1.amount + toFr params.inputs.2.amount =
      toFr params.outputs.1.amount + toFr params.outputs.2.amount + toFr params.fee := by
    have hcast := congrArg toFr h.conserved
    simpa only [toFr, Int.cast_add] using hcast
  have hnative : toFr params.fee = 0 ∨ toFr params.assetId = 0 := by
    rcases h.native with hfee | hasset
    · exact .inl (by rw [hfee, toFr, Int.cast_zero])
    · exact .inr (by rw [hasset, NATIVE_ASSET_ID, toFr, Int.cast_zero])
  have hdistinct : toFr (params.inputs.1.nullifierOf P params.spendingKey) ≠
      toFr (params.inputs.2.nullifierOf P params.spendingKey) :=
        fun heq => h.distinct (hash_inj heq)
  refine ⟨params.circuitInput P L (MerkleTree.nodeAt (treeNode P) (leafAt leaves) TREE_DEPTH 0)
    path₀ path₁, h.assembled L hpath₀ hpath₁,
    MerkleTree.bitsOf Privacy.TREE_DEPTH params.inputs.1.leafIndex,
    MerkleTree.bitsOf Privacy.TREE_DEPTH params.inputs.2.leafIndex, ?_⟩
  exact {
    input₀ := h.owned₀.spends_placed h.capacity hplaced₀ hpath₀ hlength₀
    input₁ := h.owned₁.spends_placed h.capacity hplaced₁ hpath₁ hlength₁
    output₀ := ⟨amountCheck_toFr h.output₀, toFr_commitmentOf _⟩
    output₁ := ⟨amountCheck_toFr h.output₁, toFr_commitmentOf _⟩
    conserved := hconserved
    native := isZero_mul hnative
    distinct := isEqual_of_ne hdistinct }

/-! ## Honest unshields -/

def Asset.id : Asset → Option ℤ
  | .native => some NATIVE_ASSET_ID
  | .spl mint => assetIdForMint mint

/-- An owned note of the asset, split into an amount to release and a change, for an address of 32
bytes. -/
structure UnshieldParams.Honest (P : Prims) (leaves : List ℤ) (params : UnshieldParams) :
    Prop where
  tree : (MerkleTree.init P).appendAll P leaves = some params.tree
  capacity : leaves.length ≤ 2 ^ 26
  asset : params.asset.id = some params.assetId
  owned : params.input.Owned P params.spendingKey params.assetId
  amount : 0 ≤ params.amount ∧ params.amount ≤ params.input.amount
  recipient : params.recipient.length = 32

theorem UnshieldParams.Honest.assembled {leaves path : List ℤ} {params : UnshieldParams}
    (L : Libraries) (h : params.Honest P leaves)
    (hpath : (MerkleTree.ofLeaves P leaves).path params.input.leafIndex = some path) :
    unshieldInput P L params = some (params.circuitInput P L
      (MerkleTree.nodeAt (treeNode P) (leafAt leaves) TREE_DEPTH 0) path) := by
  have hamount := h.amount
  simp only [unshieldInput, tree_eq_ofLeaves h.tree, MerkleTree.root_ofLeaves, hpath,
    Option.bind_eq_bind, Option.bind_some]
  rw [if_neg (by omega), if_neg (by rw [h.recipient]; exact Nat.lt_irrefl _)]
  rfl

theorem UnshieldParams.Honest.satisfies {leaves : List ℤ} {params : UnshieldParams} (L : Libraries)
    (h : params.Honest P leaves) (htree : params.input.InTree P leaves) :
    ∃ input, unshieldInput P L params = some input ∧ input.Satisfies P := by
  obtain ⟨path, hpath, hlength⟩ :=
    MerkleTree.exists_path_ofLeaves (P := P) leaves params.input.leafIndex
  obtain ⟨hindex, hclimb⟩ := htree.climb h.capacity
  have hamount := h.amount
  have hinput := h.owned.amount
  have hreleased : 0 ≤ params.amount ∧ params.amount < 2 ^ 64 := by omega
  have hchange : 0 ≤ params.input.amount - params.amount ∧
      params.input.amount - params.amount < 2 ^ 64 := by omega
  have hconserved : toFr params.input.amount =
      toFr params.amount + toFr (params.input.amount - params.amount) := by
    rw [toFr, toFr, toFr, Int.cast_sub, add_sub_cancel]
  refine ⟨params.circuitInput P L (MerkleTree.nodeAt (treeNode P) (leafAt leaves) TREE_DEPTH 0)
    path, h.assembled L hpath, MerkleTree.bitsOf Privacy.TREE_DEPTH params.input.leafIndex, ?_⟩
  exact {
    range := amountCheck_toFr hreleased
    input := h.owned.spends hindex hlength (.inr (hclimb path hpath))
    change := ⟨amountCheck_toFr hchange, toFr_commitmentOf _⟩
    conserved := hconserved }

/-! ## What the node reads -/

def Groth16Proof.Below (proof : Groth16Proof) (modulus : ℕ) : Prop :=
  ∀ x ∈ proof.coordinates, 0 ≤ x ∧ x < modulus

instance (proof : Groth16Proof) (modulus : ℕ) : Decidable (proof.Below modulus) :=
  inferInstanceAs (Decidable (∀ x ∈ proof.coordinates, 0 ≤ x ∧ x < modulus))

/-- For inputs that satisfy its circuit the prover makes a proof whose points the node's pairing
check accepts with the public signals. -/
structure Libraries.Complete (P : Prims) (L : Libraries)
    (transfer unshield : Privacy.PairingCheck) :
    Prop where
  transfer : ∀ input : TransferInput, input.Satisfies P → ∃ proof,
    L.fullProveTransfer input = some proof ∧ proof.Below Privacy.fqModulus ∧
      transfer (proof.coordinates.map Int.toNat) input.publicSignals = true
  unshield : ∀ input : UnshieldInput, input.Satisfies P → ∃ proof,
    L.fullProveUnshield input = some proof ∧ proof.Below Privacy.fqModulus ∧
      unshield (proof.coordinates.map Int.toNat) input.publicSignals = true

theorem frToBytesBE_eq (x : ℤ) : frToBytesBE x = Privacy.beBytes (toFr x).val := by
  rw [frToBytesBE, frToBytes_eq, Privacy.beBytes]
  rfl

theorem parseProof_proofToBlob (proof : Groth16Proof) :
    Privacy.parseProof (proofToBlob proof).toList =
      .ok (proof.coordinates.map fun x => (toFr x).val) := by
  have hblob : (proofToBlob proof).toList =
      ((proof.coordinates.map fun x => (toFr x).val).map Privacy.beBytes).flatten := by
    rw [List.map_map]
    exact congrArg List.flatten (List.map_congr_left fun x _ => frToBytesBE_eq x)
  rw [hblob]
  apply Privacy.parseProof_coordinates rfl
  intro x hx
  obtain ⟨y, -, rfl⟩ := List.mem_map.mp hx
  exact (ZMod.val_lt (toFr y)).trans (by decide)

theorem val_toFr_eq_toNat_iff {x : ℤ} (h : 0 ≤ x) : (toFr x).val = x.toNat ↔ x < frModulus := by
  have hval := val_toFr x
  constructor
  · intro hsame
    have hlt := ZMod.val_lt (toFr x)
    omega
  · intro hlt
    rw [Int.emod_eq_of_lt h hlt] at hval
    omega

/-- The coordinates survive exactly if the scalar field's reduction leaves them as they are. -/
theorem proof_blob_decodes_iff {proof : Groth16Proof} (h : proof.Below Privacy.fqModulus) :
    Privacy.parseProof (proofToBlob proof).toList = .ok (proof.coordinates.map Int.toNat) ↔
      proof.Below frModulus := by
  rw [parseProof_proofToBlob, Except.ok.injEq, List.map_inj_left]
  constructor
  · intro hsame x hx
    exact ⟨(h x hx).1, (val_toFr_eq_toNat_iff (h x hx).1).mp (hsame x hx)⟩
  · intro hbelow x hx
    exact (val_toFr_eq_toNat_iff (h x hx).1).mpr (hbelow x hx).2

def proofFrom (x : ℤ) : Groth16Proof := ⟨(x, 2), ((3, 4), (5, 6)), (7, 8)⟩

theorem small_proof_decodes :
    Privacy.parseProof (proofToBlob (proofFrom 1)).toList = .ok [1, 2, 4, 3, 6, 5, 7, 8] :=
  (@proof_blob_decodes_iff (proofFrom 1) (by decide)).mpr (by decide)

/-- The least coordinate the scalar field reduces is read as zero. -/
theorem wide_coordinate_lost :
    (proofFrom frModulus).Below Privacy.fqModulus ∧
      Privacy.parseProof (proofToBlob (proofFrom frModulus)).toList =
        .ok [0, 2, 4, 3, 6, 5, 7, 8] ∧
      (proofFrom frModulus).coordinates.map Int.toNat ≠ [0, 2, 4, 3, 6, 5, 7, 8] := by
  refine ⟨by decide, ?_, by decide⟩
  rw [parseProof_proofToBlob]
  decide

theorem verify_proofToBlob {proof : Groth16Proof} (h : proof.Below frModulus)
    (check : Privacy.PairingCheck) (inputs : List Fr) :
    Privacy.verify check (proofToBlob proof).toList inputs =
      check (proof.coordinates.map Int.toNat) inputs := by
  have hcoordinates : (proof.coordinates.map fun x => (toFr x).val) =
      proof.coordinates.map Int.toNat := by
    apply List.map_congr_left
    intro x hx
    exact (val_toFr_eq_toNat_iff (h x hx).1).mpr (h x hx).2
  rw [Privacy.verify, parseProof_proofToBlob, hcoordinates]

theorem frFromBytes_frToBytes (value : ℤ) :
    Privacy.frFromBytes (frToBytes value) = some (toFr value) := by
  rw [frToBytes_eq, Privacy.frFromBytes_frToBytes]

theorem UnshieldParams.Honest.assetId_eq {leaves : List ℤ} {params : UnshieldParams}
    (h : params.Honest P leaves) :
    ∃ asset, params.asset.Describes asset ∧
      Privacy.PoolProcessor.assetIdFr asset = toFr params.assetId := by
  have hasset := h.asset
  cases hkind : params.asset with
  | native =>
    rw [hkind, Asset.id] at hasset
    refine ⟨_, .native, ?_⟩
    rw [← Option.some.inj hasset, NATIVE_ASSET_ID, toFr, Int.cast_zero]
    rfl
  | spl mint =>
    rw [hkind, Asset.id, assetIdForMint] at hasset
    split at hasset
    · cases hasset
    · rename_i hlength
      obtain ⟨b, hb⟩ := Uint8Array.exists_bytes (not_not.mp hlength)
      refine ⟨_, .spl hb, ?_⟩
      rw [← Option.some.inj hasset, toFr, ZMod.intCast_mod, Int.cast_natCast, hb]
      rfl

section Accepted

open Privacy Privacy.PoolProcessor

variable {L : Libraries} {checkT checkU : PairingCheck}

theorem frToBytes_hash_inj {inputs inputs' : List ℤ}
    (h : Sdk.frToBytes (hash P inputs) = Sdk.frToBytes (hash P inputs')) :
    hash P inputs = hash P inputs' := by
  have hfield := congrArg Privacy.frFromBytes h
  rw [frFromBytes_frToBytes, frFromBytes_frToBytes] at hfield
  exact hash_inj (Option.some.inj hfield)

theorem exists_transferInput {params : TransferParams} {input : TransferInput}
    (h : transferInput P L params = some input) :
    ∃ root path₀ path₁, input = params.circuitInput P L root path₀ path₁ := by
  simp only [transferInput, Option.bind_eq_bind, Option.bind_eq_some_iff] at h
  obtain ⟨root, -, path₀, -, path₁, -, hinput⟩ := h
  exact ⟨root, path₀, path₁, (Option.some.inj hinput).symm⟩

theorem exists_unshieldInput {params : UnshieldParams} {input : UnshieldInput}
    (h : unshieldInput P L params = some input) :
    ∃ root path, params.tree.root = some root ∧
      params.tree.path params.input.leafIndex = some path ∧
      input = params.circuitInput P L root path := by
  simp only [unshieldInput, Option.bind_eq_bind, Option.bind_eq_some_iff] at h
  obtain ⟨root, hroot, path, hpath, hinput⟩ := h
  split at hinput
  · cases hinput
  · split at hinput
    · cases hinput
    · exact ⟨root, path, hroot, hpath, (Option.some.inj hinput).symm⟩

theorem buildTransfer_eq {params : TransferParams} {input : TransferInput} {proof : Groth16Proof}
    {bytes : List UInt8} (hinput : transferInput P L params = some input)
    (hproof : L.fullProveTransfer input = some proof)
    (hencoded : encodeTransfer (params.args L input proof) = .ok bytes) :
    buildTransfer P L params = some ⟨bytes, (params.outputNote L params.outputs.1 0,
      params.outputNote L params.outputs.2 1), input.nullifier⟩ := by
  simp only [buildTransfer, hinput, hproof, hencoded, Option.bind_eq_bind, Option.bind_some,
    Except.toOption]
  rfl

theorem buildUnshield_eq {params : UnshieldParams} {input : UnshieldInput} {proof : Groth16Proof}
    {bytes : List UInt8} (hinput : unshieldInput P L params = some input)
    (hproof : L.fullProveUnshield input = some proof)
    (hencoded : encodeUnshield (params.args L input proof) = .ok bytes) :
    buildUnshield P L params = some ⟨bytes, params.changeNote L, input.nullifier⟩ := by
  simp only [buildUnshield, hinput, hproof, hencoded, Option.bind_eq_bind, Option.bind_some,
    Except.toOption]
  rfl

theorem TransferParams.Honest.accepted {leaves : List ℤ} {params : TransferParams}
    (h : params.Honest P leaves) (hcomplete : L.Complete P checkT checkU) {input : TransferInput}
    (hinput : transferInput P L params = some input) (hsatisfies : input.Satisfies P) :
    ∃ result proof root nfs commitments fee notes, buildTransfer P L params = some result ∧
      PoolInstruction.tryFromSlice result.data =
        some (.transfer proof root nfs commitments fee notes) ∧
      [frFromBytes root, frFromBytes nfs.1, frFromBytes nfs.2, frFromBytes commitments.1,
        frFromBytes commitments.2, some (fee.toNat : Fr)] = input.publicSignals.map some ∧
      ((∀ proof, L.fullProveTransfer input = some proof → proof.Below frModulus) →
        ∀ spent ctx, ctx.state.isKnownRoot root = true →
          ctx.nullifiers.contains spent nfs.1 = false →
          ctx.nullifiers.contains spent nfs.2 = false →
          checkTransfer (groth16 checkT checkU) spent ctx proof root nfs commitments fee =
            .ok ()) := by
  obtain ⟨root, path₀, path₁, rfl⟩ := exists_transferInput hinput
  set input := params.circuitInput P L root path₀ path₁ with hdef
  obtain ⟨proof, hproof, -, hcheck⟩ := hcomplete.transfer input hsatisfies
  obtain ⟨fee, hfee⟩ := exists_u64 h.fee
  have hdescribes : (params.args L input proof).Describes (.transfer (proofToBlob proof).toList
      (Sdk.frToBytes input.root) (Sdk.frToBytes input.nullifier.1, Sdk.frToBytes input.nullifier.2)
      (Sdk.frToBytes input.outCommitment.1, Sdk.frToBytes input.outCommitment.2) fee _) :=
    .mk rfl rfl rfl rfl rfl hfee
  have hsignals : input.publicSignals = [toFr input.root, toFr input.nullifier.1,
      toFr input.nullifier.2, toFr input.outCommitment.1, toFr input.outCommitment.2,
      (fee.toNat : Fr)] := by
    have hfeeFr : toFr input.fee = (fee.toNat : Fr) := by
      rw [← toFr_natCast, ← hfee, hdef]
      rfl
    rw [TransferInput.publicSignals, List.map_cons, List.map_cons, List.map_cons, List.map_cons,
      List.map_cons, List.map_singleton, hfeeFr]
  have hbuilt := buildTransfer_eq hinput hproof (encodeTransfer_eq hdescribes)
  have hread := PoolInstruction.tryFromSlice_toBytes _ hdescribes.vecs_lt
  refine ⟨_, _, _, _, _, _, _, hbuilt, hread, ?_, ?_⟩
  · simp only [hsignals, frFromBytes_frToBytes, List.map_cons, List.map_nil]
  · intro hbelow spent ctx hknown hnew₀ hnew₁
    have hdistinct : Sdk.frToBytes input.nullifier.1 ≠ Sdk.frToBytes input.nullifier.2 :=
      fun heq => h.distinct (frToBytes_hash_inj heq)
    have hverify : (groth16 checkT checkU).verifyTransfer (proofToBlob proof).toList
        input.publicSignals = true := by
      rw [groth16_verifyTransfer, verify_proofToBlob (hbelow proof hproof)]
      exact hcheck
    rw [hsignals] at hverify
    have hchecked : CheckedTransfer (groth16 checkT checkU) spent ctx (proofToBlob proof).toList
        (Sdk.frToBytes input.root) (Sdk.frToBytes input.nullifier.1,
          Sdk.frToBytes input.nullifier.2)
        (Sdk.frToBytes input.outCommitment.1, Sdk.frToBytes input.outCommitment.2) fee
        (toFr input.root) (toFr input.nullifier.1) (toFr input.nullifier.2)
        (toFr input.outCommitment.1) (toFr input.outCommitment.2) :=
      { known := hknown
        distinct := hdistinct
        unspent₁ := hnew₀
        unspent₂ := hnew₁
        root := frFromBytes_frToBytes _
        nullifier₁ := frFromBytes_frToBytes _
        nullifier₂ := frFromBytes_frToBytes _
        commitment₁ := frFromBytes_frToBytes _
        commitment₂ := frFromBytes_frToBytes _
        verified := hverify }
    exact hchecked.eq_ok

theorem UnshieldParams.Honest.accepted {leaves : List ℤ} {params : UnshieldParams}
    (h : params.Honest P leaves) (hcomplete : L.Complete P checkT checkU) {input : UnshieldInput}
    (hinput : unshieldInput P L params = some input) (hsatisfies : input.Satisfies P) :
    ∃ result proof root nf change asset amount recipient note,
      buildUnshield P L params = some result ∧
      PoolInstruction.tryFromSlice result.data =
        some (.unshield proof root nf change asset amount recipient note) ∧
      [frFromBytes root, frFromBytes nf, frFromBytes change, some (assetIdFr asset),
        some (amount.toNat : Fr), some (frFromLeBytesModOrder recipient)] =
          input.publicSignals.map some ∧
      (params.amount ≠ 0 →
        (∀ proof, L.fullProveUnshield input = some proof → proof.Below frModulus) →
        ∀ spent ctx, ctx.state.isKnownRoot root = true →
          ctx.nullifiers.contains spent nf = false →
          checkUnshield (groth16 checkT checkU) spent ctx proof root nf change asset amount
            recipient = .ok ()) := by
  obtain ⟨root, path, -, -, rfl⟩ := exists_unshieldInput hinput
  set input := params.circuitInput P L root path with hdef
  obtain ⟨proof, hproof, -, hcheck⟩ := hcomplete.unshield input hsatisfies
  obtain ⟨asset, hasset, hassetId⟩ := h.assetId_eq
  have hbounds := h.owned.amount
  have hreleased := h.amount
  obtain ⟨amount, hamountEq⟩ := exists_u64
    (show 0 ≤ params.amount ∧ params.amount < 2 ^ 64 by omega)
  obtain ⟨recipient, hrecipient⟩ := Uint8Array.exists_bytes h.recipient
  have hdescribes : (params.args L input proof).Describes (.unshield (proofToBlob proof).toList
      (Sdk.frToBytes input.root) (Sdk.frToBytes input.nullifier)
      (Sdk.frToBytes input.changeCommitment) asset amount recipient _) :=
    .mk rfl rfl rfl hasset hamountEq hrecipient
  have hsignals : input.publicSignals = [toFr input.root, toFr input.nullifier,
      toFr input.changeCommitment, assetIdFr asset, (amount.toNat : Fr),
      frFromLeBytesModOrder recipient] := by
    have hassetFr : toFr input.assetId = assetIdFr asset := hassetId.symm
    have hamountFr : toFr input.amount = (amount.toNat : Fr) := by
      rw [← toFr_natCast, ← hamountEq, hdef]
      rfl
    have hrecipientFr : toFr input.recipient = frFromLeBytesModOrder recipient := by
      have htake : params.recipient.toList.take 32 = recipient.toList := by
        rw [hrecipient, List.take_of_length_le recipient.length_toList.le]
      rw [frFromLeBytesModOrder, ← toFr_natCast, ← htake, hdef]
      rfl
    rw [UnshieldInput.publicSignals, List.map_cons, List.map_cons, List.map_cons, List.map_cons,
      List.map_cons, List.map_singleton, hassetFr, hamountFr, hrecipientFr]
  have hbuilt := buildUnshield_eq hinput hproof (encodeUnshield_eq hdescribes)
  have hread := PoolInstruction.tryFromSlice_toBytes _ hdescribes.vecs_lt
  refine ⟨_, _, _, _, _, _, _, _, _, hbuilt, hread, ?_, ?_⟩
  · simp only [hsignals, frFromBytes_frToBytes, List.map_cons, List.map_nil]
  · intro hamount hbelow spent ctx hknown hnew
    have hpositive : amount ≠ 0 := by
      rintro rfl
      exact hamount hamountEq
    have hverify : (groth16 checkT checkU).verifyUnshield (proofToBlob proof).toList
        input.publicSignals = true := by
      rw [groth16_verifyUnshield, verify_proofToBlob (hbelow proof hproof)]
      exact hcheck
    rw [hsignals] at hverify
    have hchecked : CheckedUnshield (groth16 checkT checkU) spent ctx (proofToBlob proof).toList
        (Sdk.frToBytes input.root) (Sdk.frToBytes input.nullifier)
        (Sdk.frToBytes input.changeCommitment) asset amount recipient (toFr input.root)
        (toFr input.nullifier) (toFr input.changeCommitment) :=
      { amount_ne_zero := hpositive
        known := hknown
        unspent := hnew
        root := frFromBytes_frToBytes _
        nullifier := frFromBytes_frToBytes _
        commitment := frFromBytes_frToBytes _
        verified := hverify }
    exact hchecked.eq_ok

namespace Sample

def prims : Prims :=
  ⟨fun _ => Bytes.replicate 32 0, fun _ _ => Bytes.replicate 32 0, fun inputs => inputs.sum⟩

def libraries : Libraries where
  randomFr _ := 0
  encryptNote _ _ _ := ⟨[], by decide⟩
  fullProveTransfer _ := some ⟨(0, 0), ((0, 0), (0, 0)), (0, 0)⟩
  fullProveUnshield _ := some ⟨(0, 0), ((0, 0), (0, 0)), (0, 0)⟩

theorem libraries_complete : libraries.Complete prims (fun _ _ => true) (fun _ _ => true) where
  transfer _ _ := ⟨_, rfl, by decide, rfl⟩
  unshield _ _ := ⟨_, rfl, by decide, rfl⟩

/-- A native note of the spending key 1. -/
def note (amount : ℤ) (leafIndex : ℕ) : StoredNote := ⟨⟨0, amount, 1, 0⟩, leafIndex⟩

theorem ownerPk_one : Sdk.ownerPk prims 1 = 1 := by decide

theorem note_owned {amount : ℤ} (h : 0 ≤ amount ∧ amount < 2 ^ 64) (leafIndex : ℕ) :
    (note amount leafIndex).Owned prims 1 0 :=
  ⟨ownerPk_one.symm, rfl, h⟩

def transferParams (note₀ note₁ : StoredNote) (out fee : ℤ) (tree : MerkleTree) : TransferParams :=
  ⟨1, 0, (note₀, note₁), (⟨out, 1, ⟨[], by decide⟩⟩, ⟨out, 1, ⟨[], by decide⟩⟩), fee, tree⟩

theorem appendAll_init (leaves : List ℤ) :
    (MerkleTree.init prims).appendAll prims leaves = some (MerkleTree.ofLeaves prims leaves) := by
  rw [MerkleTree.init_eq_ofLeaves, MerkleTree.appendAll_ofLeaves, List.nil_append]

theorem climb_eq_sum (x : Fr) (steps : List (Bool × Fr)) :
    MerkleTree.climb (Privacy.treeNode prims) x steps = x + (steps.map Prod.snd).sum := by
  induction steps generalizing x with
  | nil => simp [MerkleTree.climb]
  | cons step steps ih =>
    obtain ⟨right, sibling⟩ := step
    rw [MerkleTree.climb, ih]
    cases right with
    | false =>
      simp only [MerkleTree.sides, Privacy.treeNode, prims, List.sum_cons, List.sum_nil,
        List.map_cons]
      simp [add_assoc]
    | true =>
      simp only [MerkleTree.sides, Privacy.treeNode, prims, List.sum_cons, List.sum_nil,
        List.map_cons]
      simp [add_assoc, add_left_comm]

theorem eq_leaf_of_climb {leaves : List ℤ} {i : ℕ} {x : Fr} {bits : List Bool} {path : List ℤ}
    (hi : i < 2 ^ 26) (hbits : bits.length = TREE_DEPTH)
    (hpath : (MerkleTree.ofLeaves prims leaves).path i = some path)
    (h : MerkleTree.climb (Privacy.treeNode prims) x (bits.zip (path.map toFr)) =
      toFr (MerkleTree.nodeAt (treeNode prims) (leafAt leaves) TREE_DEPTH 0)) :
    x = toFr (leafAt leaves i) := by
  obtain ⟨path', hpath', hlength⟩ := MerkleTree.exists_path_ofLeaves (P := prims) leaves i
  cases hpath.symm.trans hpath'
  have hzip : ∀ bits : List Bool, bits.length = TREE_DEPTH →
      (bits.zip (path.map toFr)).map Prod.snd = path.map toFr := by
    intro bits hbits
    exact List.map_snd_zip (by rw [List.length_map, hbits, hlength])
  have hself := MerkleTree.climb_path hi hpath
  rw [climb_eq_sum, hzip _ hbits] at h
  rw [climb_eq_sum, hzip _ (MerkleTree.length_bitsOf ..)] at hself
  rw [← MerkleTree.val_root, toFr_val, ← hself] at h
  exact add_right_cancel h

end Sample

end Accepted

end Notes

end Signals

end Zul.Sdk
