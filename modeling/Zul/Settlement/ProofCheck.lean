import Zul.Node.Bridge
import Zul.Node.WithdrawSmt

/-! # The settlement program's proof check

The L1 program has its own copy of the hashes, the path walk and the table of empty hashes, with
its loop written over a cursor into the siblings. With the table it was generated from, it accepts
exactly the proofs the node's check accepts.
-/

namespace Zul.Settlement.ProofCheck

def SMT_DEPTH : ℕ := 32

variable (P : Prims)

def hashv (slices : List (List UInt8)) : H256 := P.blake3 slices.flatten

def nodeHash (left right : H256) : H256 :=
  hashv P [strBytes "PL2:smt:node", left.toList, right.toList]

def keyPath (pubkey : Bytes 32) : H256 := hashv P [strBytes "PL2:smt:key", pubkey.toList]

def leafHash (pubkey : Bytes 32) (accountHash : H256) : H256 :=
  hashv P [strBytes "PL2:smt:leaf", pubkey.toList, accountHash.toList]

def pathBit (path : H256) (bit : ℕ) : Bool :=
  (path.toList.getD (bit / 8) 0 >>> UInt8.ofNat (7 - bit % 8)) &&& 1 == 1

/-- The loop of `compute_empty_hashes`: the hashes from a depth down to the empty leaves. -/
def computeFrom : ℕ → List H256
  | 0 => [hashv P [strBytes "PL2:smt:empty", []]]
  | height + 1 =>
    let e := computeFrom height
    nodeHash P (e.headD (Bytes.replicate 32 0)) (e.headD (Bytes.replicate 32 0)) :: e

def computeEmptyHashes : List H256 := computeFrom P SMT_DEPTH

/-- One round of the check at level `i`, with the hash so far and the cursor into the siblings;
`none` is a missing sibling. -/
def verifyLevel (empties : List H256) (path : H256) (proof : Smt.SmtProof) (state : H256 × ℕ)
    (i : ℕ) : Option (H256 × ℕ) := do
  let depth := SMT_DEPTH - i
  let bit := depth - 1
  let (sibling, cursor) ←
    if (proof.bitmap.toList.getD (i / 8) 0 >>> UInt8.ofNat (7 - i % 8)) &&& 1 == 1 then
      proof.siblings[state.2]?.map fun s => (s, state.2 + 1)
    else some (empties.getD depth (Bytes.replicate 32 0), state.2)
  let current :=
    if pathBit path bit then nodeHash P sibling state.1 else nodeHash P state.1 sibling
  return (current, cursor)

/-- Verify inclusion of a leaf under a root, with a table of empty hashes. -/
def verify (empties : List H256) (root : H256) (pubkey : Bytes 32) (accountHash : H256)
    (proof : Smt.SmtProof) : Bool :=
  match (List.range SMT_DEPTH).foldlM (verifyLevel P empties (keyPath P pubkey) proof)
      (leafHash P pubkey accountHash, 0) with
  | some (current, cursor) => cursor == proof.siblings.length && current == root
  | none => false

/-- The account hash of a withdrawal's leaf, as a claim recomputes it. -/
def withdrawalAccountHash (recipient assetId : Bytes 32) (amount nonce : UInt64) : H256 :=
  hashv P [strBytes "PL2:bridge:withdraw:v1", recipient.toList, assetId.toList,
    LittleEndian.u64 amount, LittleEndian.u64 nonce]

def withdrawalPubkey (recipient : Bytes 32) (nonce : UInt64) : Bytes 32 :=
  hashv P [strBytes "PL2:bridge:withdraw-addr:v1", recipient.toList, LittleEndian.u64 nonce]

/-! ## Agreement with the node's check -/

open Node.WithdrawSmt

variable {P}

theorem keyPath_eq (pubkey : Bytes 32) : keyPath P pubkey = Smt.keyPath P pubkey := by
  simp [keyPath, hashv, Smt.keyPath, Prims.blake3_32]

theorem leafHash_eq (pubkey : Bytes 32) (accountHash : H256) :
    leafHash P pubkey accountHash = Smt.leafHash P pubkey accountHash := rfl

theorem withdrawalAccountHash_eq (recipient assetId : Bytes 32) (amount nonce : UInt64) :
    withdrawalAccountHash P recipient assetId amount nonce =
      Node.withdrawalAccountHash P recipient assetId amount nonce := rfl

theorem withdrawalPubkey_eq (recipient : Bytes 32) (nonce : UInt64) :
    withdrawalPubkey P recipient nonce = Node.withdrawalPubkey P recipient nonce := rfl

theorem getD_computeFrom (height : ℕ) {d : ℕ} (hd : d ≤ height) :
    (computeFrom P height).getD d (Bytes.replicate 32 0) = (shallow P).emptyAt (height - d) := by
  induction height generalizing d with
  | zero =>
    obtain rfl := Nat.le_zero.mp hd
    simp [computeFrom, hashv, SparseTree.emptyAt, shallow, Smt.tree, Prims.blake3_32]
  | succ height ih =>
    cases d with
    | zero =>
      have hhead : (computeFrom P height).headD (Bytes.replicate 32 0) =
          (shallow P).emptyAt height := by
        have hget := ih (Nat.zero_le _)
        rwa [Nat.sub_zero, List.getD_eq_getElem?_getD, ← List.head?_eq_getElem?,
          ← List.headD_eq_head?_getD] at hget
      simp only [computeFrom, List.getD_cons_zero, hhead]
      rfl
    | succ d =>
      rw [computeFrom, List.getD_cons_succ, ih (Nat.le_of_succ_le_succ hd), Nat.succ_sub_succ]

theorem getD_computeEmptyHashes {d : ℕ} (hd : d ≤ SMT_DEPTH) :
    (computeEmptyHashes P).getD d (Bytes.replicate 32 0) = (shallow P).empties d :=
  getD_computeFrom SMT_DEPTH hd

/-- The levels left to walk from depth `d` up: the cursor stands for the siblings it has passed. -/
theorem foldlM_verifyLevel (path : H256) (proof : Smt.SmtProof) {d : ℕ} (hd : d ≤ SMT_DEPTH)
    (current : H256) {cursor : ℕ} (hcursor : cursor ≤ proof.siblings.length) :
    (shallow P).verifyFrom proof.bitmap.toList path d (proof.siblings.drop cursor) current =
        ((List.range' (SMT_DEPTH - d) d).foldlM (verifyLevel P (computeEmptyHashes P) path proof)
          (current, cursor)).map (fun out => (proof.siblings.drop out.2, out.1)) ∧
      ∀ out, (List.range' (SMT_DEPTH - d) d).foldlM
          (verifyLevel P (computeEmptyHashes P) path proof) (current, cursor) = some out →
        out.2 ≤ proof.siblings.length := by
  induction d generalizing current cursor with
  | zero =>
    refine ⟨rfl, ?_⟩
    rintro out ⟨⟩
    exact hcursor
  | succ d ih =>
    have hlevel : SMT_DEPTH - (SMT_DEPTH - (d + 1)) = d + 1 := by omega
    have hnext : SMT_DEPTH - (d + 1) + 1 = SMT_DEPTH - d := by omega
    rw [List.range'_succ, hnext]
    simp only [List.foldlM_cons]
    unfold SparseTree.verifyFrom
    by_cases hbit : BitString.testBit proof.bitmap.toList (SMT_DEPTH - (d + 1)) = true
    · rw [if_pos (show BitString.testBit _ ((shallow P).depth - (d + 1)) = true from hbit)]
      by_cases hlt : cursor < proof.siblings.length
      · have hstep : verifyLevel P (computeEmptyHashes P) path proof (current, cursor)
            (SMT_DEPTH - (d + 1)) =
              some ((shallow P).join path d proof.siblings[cursor] current, cursor + 1) := by
          unfold verifyLevel
          simp only [BitString.testBit] at hbit
          simp only [hlevel, hbit, if_true, List.getElem?_eq_getElem hlt, Option.map_some,
            Option.bind_eq_bind, Option.bind_some, Nat.add_sub_cancel]
          rfl
        rw [List.drop_eq_getElem_cons hlt, hstep]
        exact ih (by omega) _ hlt
      · have hstep : verifyLevel P (computeEmptyHashes P) path proof (current, cursor)
            (SMT_DEPTH - (d + 1)) = none := by
          unfold verifyLevel
          simp only [BitString.testBit] at hbit
          simp only [hbit, if_true, List.getElem?_eq_none (Nat.not_lt.mp hlt), Option.map_none,
            Option.bind_eq_bind, Option.bind_none]
        rw [List.drop_eq_nil_of_le (Nat.not_lt.mp hlt), hstep]
        refine ⟨rfl, ?_⟩
        intro out hout
        cases hout
    · rw [if_neg (show ¬ BitString.testBit _ ((shallow P).depth - (d + 1)) = true from hbit)]
      have hstep : verifyLevel P (computeEmptyHashes P) path proof (current, cursor)
          (SMT_DEPTH - (d + 1)) =
            some ((shallow P).join path d ((shallow P).empties (d + 1)) current, cursor) := by
        unfold verifyLevel
        simp only [BitString.testBit, Bool.not_eq_true] at hbit
        simp only [hlevel, hbit, Bool.false_eq_true, if_false, Option.bind_eq_bind,
          Option.bind_some, getD_computeEmptyHashes hd, Nat.add_sub_cancel]
        rfl
      rw [hstep]
      exact ih (by omega) _ hcursor

theorem verify_eq (root : H256) (pubkey : Bytes 32) (accountHash : H256) (proof : Smt.SmtProof) :
    verify P (computeEmptyHashes P) root pubkey accountHash proof =
      Node.WithdrawSmt.verify P root pubkey accountHash proof := by
  obtain ⟨hwalk, hcursor⟩ := foldlM_verifyLevel (P := P) (keyPath P pubkey) proof
    (show SMT_DEPTH ≤ SMT_DEPTH from le_rfl) (leafHash P pubkey accountHash) (Nat.zero_le _)
  rw [Nat.sub_self, ← List.range_eq_range'] at hwalk hcursor
  rw [List.drop_zero] at hwalk
  unfold verify Node.WithdrawSmt.verify SparseTree.verify
  rw [← keyPath_eq, ← leafHash_eq, show (shallow P).depth = SMT_DEPTH from rfl, hwalk]
  cases hout : (List.range SMT_DEPTH).foldlM (verifyLevel P (computeEmptyHashes P)
      (keyPath P pubkey) proof) (leafHash P pubkey accountHash, 0) with
  | none => rfl
  | some out =>
    obtain ⟨current, cursor⟩ := out
    have hle : cursor ≤ proof.siblings.length := hcursor _ hout
    rw [Option.map_some]
    by_cases hend : cursor = proof.siblings.length
    · simp [hend, beq_eq_decide]
    · have hne : proof.siblings.drop cursor ≠ [] := by
        rw [ne_eq, List.drop_eq_nil_iff]
        omega
      obtain ⟨s, rest, hrest⟩ := List.exists_cons_of_ne_nil hne
      simp [hend, hrest]

end Zul.Settlement.ProofCheck
