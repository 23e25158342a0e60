import Zul.Lib.HashTree
import Zul.Primitives.Block

/-! # The transactions root binds the body

The root over payloads is the root of a hash tree with the payloads as its leaves. A promoted node
keeps its place in the tree, so lists of different lengths are trees of different shapes, and one
root for two lists is a collision among the strings hashed for them.
-/

namespace Zul

namespace Merkle

variable (P : Prims)

/-! ## Hashed strings -/

def leafInput (data : List UInt8) : List UInt8 := strBytes "PL2:merkle:leaf" ++ data

def nodeInput (a b : H256) : List UInt8 :=
  strBytes "PL2:merkle:node" ++ [a.toList, b.toList].flatten

def emptyInput : List UInt8 := strBytes "PL2:merkle:empty" ++ []

def levelHashed : List H256 → List (List UInt8)
  | a :: b :: rest => nodeInput a b :: levelHashed rest
  | [_] => []
  | [] => []

def climbHashed : ℕ → List H256 → List (List UInt8)
  | 0, _ => []
  | fuel + 1, level =>
    if 1 < level.length then levelHashed level ++ climbHashed fuel (nextLevel P level) else []

def dataHashed (items : List (List UInt8)) : List (List UInt8) :=
  if items = [] then [emptyInput]
  else items.map leafInput ++ climbHashed P items.length (items.map (leafHash P))

variable {P}

theorem separated : HashTree.Separated leafInput nodeInput where
  leaf_injective _ _ h := List.append_cancel_left h
  node_inj h := by
    have h := List.append_cancel_left h
    simp only [List.flatten_cons, List.flatten_nil, List.append_nil] at h
    obtain ⟨hleft, hright⟩ := List.append_inj h (by simp)
    exact ⟨Bytes.ext hleft, Bytes.ext hright⟩
  leaf_ne_node data a b h := by
    have hdomain := (List.append_inj h (by decide)).1
    exact absurd hdomain (by decide)

theorem leafInput_ne_emptyInput (data : List UInt8) : leafInput data ≠ emptyInput := by
  intro h
  have hdomain := congrArg (List.take 15) h
  rw [leafInput, List.take_append_of_le_length (by decide)] at hdomain
  exact absurd hdomain (by decide)

theorem nodeInput_ne_emptyInput (a b : H256) : nodeInput a b ≠ emptyInput := by
  intro h
  have hdomain := congrArg (List.take 15) h
  rw [nodeInput, List.take_append_of_le_length (by decide)] at hdomain
  exact absurd hdomain (by decide)

/-! ## The tree behind a root -/

variable (P) in
def treeRoot : HashTree (List UInt8) → H256 := HashTree.root P.blake3 leafInput nodeInput

variable (P) in
def treeHashed : HashTree (List UInt8) → List (List UInt8) :=
  HashTree.inputs P.blake3 leafInput nodeInput

theorem nextLevel_map_root (row : List (HashTree (List UInt8))) :
    nextLevel P (row.map (treeRoot P)) = (HashTree.joinPairs row).map (treeRoot P) := by
  fun_induction HashTree.joinPairs row with
  | case1 s t rest ih =>
    simp only [List.map_cons, nextLevel, ih]
    rfl
  | case2 t => rfl
  | case3 => rfl

theorem climb_map_root (fuel : ℕ) (row : List (HashTree (List UInt8))) :
    climb P fuel (row.map (treeRoot P)) = (HashTree.joinAll fuel row).map (treeRoot P) := by
  induction fuel generalizing row with
  | zero => rfl
  | succ fuel ih =>
    rw [climb, HashTree.joinAll, List.length_map]
    split
    · rw [nextLevel_map_root, ih]
    · rfl

theorem hashed_joinPairs (row : List (HashTree (List UInt8))) :
    (HashTree.joinPairs row).flatMap (treeHashed P) ⊆
      row.flatMap (treeHashed P) ++ levelHashed (row.map (treeRoot P)) := by
  fun_induction HashTree.joinPairs row with
  | case1 s t rest ih =>
    intro x hx
    have hrest := @ih x
    simp only [List.flatMap_cons, treeHashed, HashTree.inputs, List.map_cons, levelHashed,
      List.mem_append, List.mem_cons] at hx hrest ⊢
    rcases hx with (rfl | hs | ht) | hx
    · exact .inr (.inl rfl)
    · exact .inl (.inl hs)
    · exact .inl (.inr (.inl ht))
    · rcases hrest hx with hx | hx
      · exact .inl (.inr (.inr hx))
      · exact .inr (.inr hx)
  | case2 t => exact List.subset_append_left _ _
  | case3 => exact List.subset_append_left _ _

theorem hashed_joinAll (fuel : ℕ) (row : List (HashTree (List UInt8))) :
    (HashTree.joinAll fuel row).flatMap (treeHashed P) ⊆
      row.flatMap (treeHashed P) ++ climbHashed P fuel (row.map (treeRoot P)) := by
  induction fuel generalizing row with
  | zero => exact List.subset_append_left _ _
  | succ fuel ih =>
    rw [HashTree.joinAll, climbHashed, List.length_map]
    split
    · intro x hx
      rw [nextLevel_map_root]
      rcases List.mem_append.mp (ih _ hx) with hx | hx
      · rw [← List.append_assoc]
        exact List.mem_append_left _ (hashed_joinPairs row hx)
      · exact List.mem_append_right _ (List.mem_append_right _ hx)
    · exact List.subset_append_left _ _

theorem exists_tree {items : List (List UInt8)} (h : items ≠ []) :
    ∃ t : HashTree (List UInt8), t.leaves = items ∧ rootFromData P items = treeRoot P t ∧
      treeHashed P t ⊆ dataHashed P items := by
  have hrow : (items.map HashTree.leaf).map (treeRoot P) = items.map (leafHash P) := by
    rw [List.map_map]
    rfl
  have hleaves : (items.map HashTree.leaf).flatMap HashTree.leaves = items := by
    simp [List.flatMap_map, HashTree.leaves]
  have hhashed : (items.map HashTree.leaf).flatMap (treeHashed P) = items.map leafInput := by
    rw [List.flatMap_map, List.map_eq_flatMap]
    rfl
  have hlength : (items.map HashTree.leaf).length ≤ items.length := (List.length_map _).le
  obtain ⟨t, ht⟩ := HashTree.exists_joinAll_eq (by simpa using h) hlength
  refine ⟨t, ?_, ?_, ?_⟩
  · have hjoin := HashTree.leaves_joinAll items.length (items.map HashTree.leaf)
    rw [ht, hleaves] at hjoin
    simpa using hjoin
  · rw [rootFromData, rootFromLeaves, List.length_map, ← hrow, climb_map_root, ht]
    rfl
  · have hsub := hashed_joinAll (P := P) items.length (items.map HashTree.leaf)
    rw [ht, hhashed, hrow] at hsub
    rw [dataHashed, if_neg h]
    simpa using hsub

theorem rootFromData_nil : rootFromData P [] = P.blake3 emptyInput := rfl

theorem root_ne_empty_or_collision {items : List (List UInt8)} (hne : items ≠ [])
    (h : rootFromData P items = rootFromData P []) :
    Collision P (dataHashed P items ++ dataHashed P []) := by
  obtain ⟨t, -, hroot, hsub⟩ := exists_tree (P := P) hne
  have hempty : emptyInput ∈ dataHashed P items ++ dataHashed P [] :=
    List.mem_append_right _ List.mem_cons_self
  rw [hroot, rootFromData_nil] at h
  cases t with
  | leaf data =>
    exact ⟨leafInput data, List.mem_append_left _ (hsub List.mem_cons_self), _, hempty,
      leafInput_ne_emptyInput _, h⟩
  | node l r =>
    exact ⟨nodeInput (treeRoot P l) (treeRoot P r),
      List.mem_append_left _ (hsub List.mem_cons_self), _, hempty, nodeInput_ne_emptyInput _ _, h⟩

theorem eq_or_collision {items items' : List (List UInt8)}
    (h : rootFromData P items = rootFromData P items') :
    items = items' ∨ Collision P (dataHashed P items ++ dataHashed P items') := by
  by_cases hitems : items = []
  · by_cases hitems' : items' = []
    · exact .inl (hitems.trans hitems'.symm)
    · subst hitems
      refine .inr ((root_ne_empty_or_collision hitems' h.symm).mono ?_)
      exact List.append_subset.mpr ⟨List.subset_append_right _ _, List.subset_append_left _ _⟩
  · by_cases hitems' : items' = []
    · subst hitems'
      exact .inr (root_ne_empty_or_collision hitems h)
    · obtain ⟨t, hleaves, hroot, hsub⟩ := exists_tree (P := P) hitems
      obtain ⟨t', hleaves', hroot', hsub'⟩ := exists_tree (P := P) hitems'
      rw [hroot, hroot'] at h
      rcases HashTree.eq_or_clash separated h with heq | hclash
      · exact .inl (by rw [← hleaves, ← hleaves', heq])
      · refine .inr (HashTree.Clash.mono hclash ?_)
        exact List.append_subset.mpr ⟨fun x hx => List.mem_append_left _ (hsub hx),
          fun x hx => List.mem_append_right _ (hsub' hx)⟩

end Merkle

/-- Check a sealed block: the count, the root and the sequencer's signature of the header hash. -/
def Block.verify (P : Prims) (serialize : VersionedTransaction → List UInt8)
    (verifySignature : Signature → Pubkey → H256 → Bool) (block : Block) (sequencer : Pubkey) :
    Bool :=
  if block.header.transactionCount.toNat ≠ block.transactions.length then false
  else if block.header.transactionsRoot ≠
    Block.transactionsRoot P serialize block.transactions then false
  else verifySignature block.sequencerSignature sequencer (block.header.hash P)

theorem Block.transactionsRoot_of_verify {P : Prims} {serialize : VersionedTransaction → List UInt8}
    {verifySignature : Signature → Pubkey → H256 → Bool} {block : Block} {sequencer : Pubkey}
    (h : block.verify P serialize verifySignature sequencer = true) :
    block.header.transactionsRoot = Block.transactionsRoot P serialize block.transactions := by
  unfold Block.verify at h
  split_ifs at h with hcount hroot
  exact not_not.mp hroot

/-- Two lists of payloads with one root are equal, or two of the strings hashed for them collide. So
are the bodies of two verified blocks with one header. -/
theorem transactions_root_binds (P : Prims) :
    (∀ items items', Merkle.rootFromData P items = Merkle.rootFromData P items' → items = items' ∨
      Collision P (Merkle.dataHashed P items ++ Merkle.dataHashed P items')) ∧
    ∀ (serialize : VersionedTransaction → List UInt8)
      (verifySignature : Signature → Pubkey → H256 → Bool), Function.Injective serialize →
      ∀ (block block' : Block) (sequencer sequencer' : Pubkey),
        block.verify P serialize verifySignature sequencer = true →
        block'.verify P serialize verifySignature sequencer' = true →
        block.header = block'.header →
        block.transactions = block'.transactions ∨
          Collision P (Merkle.dataHashed P (block.transactions.map serialize) ++
            Merkle.dataHashed P (block'.transactions.map serialize)) := by
  constructor
  · intro items items' h
    exact Merkle.eq_or_collision h
  · intro serialize verifySignature hserialize block block' sequencer sequencer' h h' hheader
    have hroot := Block.transactionsRoot_of_verify h
    rw [hheader, Block.transactionsRoot_of_verify h'] at hroot
    rcases Merkle.eq_or_collision hroot.symm with heq | hcollision
    · exact .inl (hserialize.list_map heq)
    · exact .inr hcollision

namespace Block.Sample

def instructionBytes (ix : CompiledInstruction) : List UInt8 :=
  ix.programIdIndex :: (framed (fun byte => [byte]) ix.accounts ++
    framed (fun byte => [byte]) ix.data)

def headerBytes (header : MessageHeader) : List UInt8 :=
  [header.numRequiredSignatures, header.numReadonlySignedAccounts,
    header.numReadonlyUnsignedAccounts]

/-- The fields of a transaction in order, each list framed. -/
def transactionBytes (tx : VersionedTransaction) : List UInt8 :=
  framed Bytes.toList tx.signatures ++ (headerBytes tx.message.header ++
    (framed Bytes.toList tx.message.staticAccountKeys ++ (tx.message.recentBlockhash.toList ++
      framed instructionBytes tx.message.instructions)))

theorem delimited_byte : Delimited fun byte : UInt8 => [byte] :=
  .of_length (fun _ => rfl) List.singleton_injective

theorem delimited_bytes {n : ℕ} : Delimited (Bytes.toList (n := n)) :=
  .of_length Bytes.length_toList fun _ _ => Bytes.ext

theorem delimited_instructionBytes : Delimited instructionBytes := by
  rintro ⟨program, accounts, data⟩ ⟨program', accounts', data'⟩ s t h
  simp only [instructionBytes, List.cons_append, List.append_assoc, List.cons.injEq] at h
  obtain ⟨rfl, h⟩ := h
  obtain ⟨rfl, hdata⟩ := delimited_byte.of_framed _ _ _ _ h
  obtain ⟨rfl, hrest⟩ := delimited_byte.of_framed _ _ _ _ hdata
  exact ⟨rfl, hrest⟩

theorem delimited_headerBytes : Delimited headerBytes := by
  rintro ⟨a, b, c⟩ ⟨a', b', c'⟩ s t h
  cases h
  exact ⟨rfl, rfl⟩

theorem transactionBytes_injective : Function.Injective transactionBytes := by
  rintro ⟨signatures, header, keys, blockhash, instructions⟩
    ⟨signatures', header', keys', blockhash', instructions'⟩ h
  obtain ⟨rfl, hmessage⟩ := delimited_bytes.of_framed _ _ _ _ h
  obtain ⟨rfl, hkeys⟩ := delimited_headerBytes _ _ _ _ hmessage
  obtain ⟨rfl, hhash⟩ := delimited_bytes.of_framed _ _ _ _ hkeys
  obtain ⟨rfl, hinstructions⟩ := delimited_bytes _ _ _ _ hhash
  cases delimited_instructionBytes.of_framed.injective hinstructions
  rfl

def prims : Prims :=
  ⟨fun _ => Bytes.replicate 32 0, fun _ _ => Bytes.replicate 32 0, fun inputs => inputs.sum⟩

def transaction : VersionedTransaction where
  signatures := [Bytes.replicate 64 1]
  message := ⟨⟨1, 0, 0⟩, [Bytes.replicate 32 2], Bytes.replicate 32 3, [⟨0, [0], [7]⟩]⟩

/-- A block of the transaction under a sequencer's signature. -/
def sealedBlock (sequencerSignature : Signature) : Block where
  header := ⟨1, Bytes.replicate 32 0, Bytes.replicate 32 0,
    Block.transactionsRoot prims transactionBytes [transaction], 5, 1⟩
  transactions := [transaction]
  sequencerSignature

theorem verify_sealedBlock (signature : Signature) (sequencer : Pubkey) :
    (sealedBlock signature).verify prims transactionBytes (fun _ _ _ => true) sequencer = true := by
  simp [Block.verify, sealedBlock]

theorem not_collision : ¬ Collision prims (Merkle.dataHashed prims [transactionBytes transaction] ++
    Merkle.dataHashed prims [transactionBytes transaction]) := by
  have hsingle : ∀ x ∈ Merkle.dataHashed prims [transactionBytes transaction] ++
      Merkle.dataHashed prims [transactionBytes transaction],
      x = Merkle.leafInput (transactionBytes transaction) := by
    simp [Merkle.dataHashed, Merkle.climbHashed]
  rintro ⟨x, hx, y, hy, hne, -⟩
  exact hne ((hsingle x hx).trans (hsingle y hy).symm)

end Block.Sample

open Block.Sample in
/-- A block sealed under two signatures has one body. -/
theorem resealed_body_bound :
    Function.Injective transactionBytes ∧
      (sealedBlock (Bytes.replicate 64 4)).header = (sealedBlock (Bytes.replicate 64 5)).header ∧
      (sealedBlock (Bytes.replicate 64 4)).transactions =
        (sealedBlock (Bytes.replicate 64 5)).transactions := by
  refine ⟨transactionBytes_injective, rfl, ?_⟩
  exact ((transactions_root_binds prims).2 transactionBytes (fun _ _ _ => true)
    transactionBytes_injective _ _ (Bytes.replicate 32 6) (Bytes.replicate 32 6)
    (verify_sealedBlock _ _) (verify_sealedBlock _ _) rfl).resolve_right not_collision

end Zul
