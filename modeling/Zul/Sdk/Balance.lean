import Mathlib.Algebra.BigOperators.Group.Finset.Basic
import Mathlib.Data.Int.Basic
import Zul.Privacy.Commitments
import Zul.Sdk.Notes

/-! # The wallet's balance

The chain emits at most one note event for each leaf; the wallet scans leaves in any order and as
often as it likes. The pool takes equal commitments at different leaves and they are spent one by
one, but the store keeps one note for each commitment. So the balance is what the scanned leaves
are worth exactly if none that is worth something is scanned after another leaf with its
commitment. Notes marked spent stay spent, and a saved store is reloaded as it was.
-/

namespace Zul.Sdk

/-- The note events of the chain, by leaf: the commitment and the encrypted note. -/
abbrev NoteEvents := PartialMap ℕ (ℤ × List UInt8)

/-! ## What a step does to a store -/

namespace NoteStore

variable {s : NoteStore} {n : NoteEntry} {commitment : ℤ}

theorem add_of_contains (h : s.contains n.commitment = true) : s.add n = s := by
  rw [add, dif_pos h]

theorem notes_add_of_not_contains (h : ¬ s.contains n.commitment = true) :
    (s.add n).notes = s.notes ++ [n] := by
  rw [add, dif_neg h]

theorem contains_add :
    (s.add n).contains commitment = true ↔
      s.contains commitment = true ∨ n.commitment = commitment := by
  by_cases h : s.contains n.commitment = true
  · rw [add_of_contains h]
    constructor
    · exact Or.inl
    · rintro (hc | rfl)
      · exact hc
      · exact h
  · simp [contains, notes_add_of_not_contains h]

theorem balance_add_of_not_contains (h : ¬ s.contains n.commitment = true)
    (hn : n.spent = false) (asset : ℤ) :
    (s.add n).balance asset = s.balance asset + if n.assetId = asset then n.amount else 0 := by
  have hnotes := notes_add_of_not_contains h
  by_cases hasset : n.assetId = asset <;>
    simp [balance, unspent, hnotes, List.filter_append, List.foldl_append, hn, hasset]

def Spent (s : NoteStore) (commitment : ℤ) : Prop :=
  s.contains commitment = true ∧ ∀ n ∈ s.notes, n.commitment = commitment → n.spent = true

theorem Spent.add (h : s.Spent commitment) (n : NoteEntry) : (s.add n).Spent commitment := by
  by_cases hn : s.contains n.commitment = true
  · rwa [add_of_contains hn]
  · constructor
    · exact contains_add.mpr (Or.inl h.1)
    · intro n' hn' hcommitment
      rw [notes_add_of_not_contains hn] at hn'
      rcases List.mem_append.mp hn' with hold | hnew
      · exact h.2 n' hold hcommitment
      · cases List.mem_singleton.mp hnew
        exact absurd (hcommitment ▸ h.1) hn

theorem spent_of_mem_markFirst {notes : List NoteEntry}
    (hdistinct : (notes.map (·.commitment)).Nodup) (hn : n ∈ markFirst commitment notes)
    (hcommitment : n.commitment = commitment) : n.spent = true := by
  induction notes with
  | nil => cases hn
  | cons n' notes ih =>
    rw [List.map_cons, List.nodup_cons] at hdistinct
    rw [markFirst] at hn
    split at hn
    · rename_i hfirst
      rcases List.mem_cons.mp hn with rfl | hrest
      · rfl
      · -- a second note with the commitment would repeat it
        exact absurd (List.mem_map.mpr ⟨n, hrest, hcommitment.trans hfirst.symm⟩) hdistinct.1
    · rename_i hfirst
      rcases List.mem_cons.mp hn with rfl | hrest
      · exact absurd hcommitment hfirst
      · exact ih hdistinct.2 hrest

theorem spent_markSpent (h : s.contains commitment = true) :
    (s.markSpent commitment).Spent commitment := by
  constructor
  · obtain ⟨n, hn, hcommitment⟩ := contains_iff.mp h
    have hmem : commitment ∈ (s.markSpent commitment).notes.map (·.commitment) := by
      rw [markSpent, map_commitment_markFirst]
      exact List.mem_map.mpr ⟨n, hn, hcommitment⟩
    obtain ⟨n', hn', hcommitment'⟩ := List.mem_map.mp hmem
    exact contains_iff.mpr ⟨n', hn', hcommitment'⟩
  · intro n hn
    exact spent_of_mem_markFirst s.distinct hn

theorem foldlM_ofJson (s : NoteStore) (notes : List NoteEntry)
    (hdistinct : ((s.notes ++ notes).map (·.commitment)).Nodup) :
    (notes.map (·.toJson)).foldlM (fun store n => return store.add (← NoteEntry.ofJson n)) s =
      some ⟨s.notes ++ notes, hdistinct⟩ := by
  induction notes generalizing s with
  | nil => simp
  | cons n notes ih =>
    have hn : ¬ s.contains n.commitment = true := by
      intro h
      obtain ⟨n', hn', hcommitment⟩ := contains_iff.mp h
      rw [List.map_append, List.map_cons] at hdistinct
      exact (List.nodup_append.mp hdistinct).2.2 _ (List.mem_map.mpr ⟨n', hn', hcommitment⟩) _
        List.mem_cons_self rfl
    have hnotes := notes_add_of_not_contains hn
    have hrest := ih (s.add n) (by rw [hnotes, List.append_assoc]; exact hdistinct)
    rw [List.map_cons, List.foldlM_cons, NoteEntry.ofJson_toJson]
    simp only [Option.pure_def, Option.bind_eq_bind, Option.bind_some] at hrest ⊢
    rw [hrest]
    simp only [hnotes, List.append_assoc, List.singleton_append]

theorem fromJSON_toJSON (s : NoteStore) : fromJSON s.toJSON = some s := by
  rw [fromJSON, toJSON, String.toList_ofList, Json.parse_text]
  exact foldlM_ofJson empty s.notes s.distinct

end NoteStore

/-! ## Scans -/

section Scans

variable (P : Prims) (C : NoteCrypto) (spendingKey : ℤ) (emitted : NoteEvents)

def scanLeaf (store : NoteStore) (leaf : ℕ) : NoteStore :=
  match emitted leaf with
  | none => store
  | some event => (scanNoteEvent P C store spendingKey leaf event.1 event.2).1

def scanLeaves (store : NoteStore) (leaves : List ℕ) : NoteStore :=
  leaves.foldl (scanLeaf P C spendingKey emitted) store

/-- Our note at a leaf: its event decrypts, names our key and opens its commitment. -/
def ownedNote (leaf : ℕ) : Option NoteEntry :=
  (emitted leaf).bind fun event => recoverNote P C spendingKey leaf event.1 event.2

def worth (asset : ℤ) (leaf : ℕ) : ℤ :=
  match ownedNote P C spendingKey emitted leaf with
  | none => 0
  | some n => if n.assetId = asset then n.amount else 0

def ownedBalance (scanned : List ℕ) (asset : ℤ) : ℤ :=
  ∑ leaf ∈ scanned.toFinset, worth P C spendingKey emitted asset leaf

def SameCommitment (leaf leaf' : ℕ) : Prop :=
  ∃ n n', ownedNote P C spendingKey emitted leaf = some n ∧
    ownedNote P C spendingKey emitted leaf' = some n' ∧ n'.commitment = n.commitment

def Shadowed (scanned : List ℕ) (leaf : ℕ) : Prop :=
  ∃ before after, scanned = before ++ leaf :: after ∧ leaf ∉ before ∧
    ∃ earlier ∈ before, SameCommitment P C spendingKey emitted leaf earlier

variable {P C spendingKey emitted}

theorem scanLeaf_of_none {leaf : ℕ} (h : ownedNote P C spendingKey emitted leaf = none)
    (s : NoteStore) : scanLeaf P C spendingKey emitted s leaf = s := by
  unfold ownedNote at h
  unfold scanLeaf
  cases hevent : emitted leaf with
  | none => rfl
  | some event =>
    rw [hevent, Option.bind_some] at h
    simp only [scanNoteEvent, h]

theorem scanLeaf_of_some {leaf : ℕ} {n : NoteEntry}
    (h : ownedNote P C spendingKey emitted leaf = some n) (s : NoteStore) :
    scanLeaf P C spendingKey emitted s leaf = s.add n := by
  obtain ⟨event, hevent, hn⟩ := Option.bind_eq_some_iff.mp h
  simp only [scanLeaf, hevent, scanNoteEvent, hn]

theorem scanLeaves_concat (s : NoteStore) (leaves : List ℕ) (leaf : ℕ) :
    scanLeaves P C spendingKey emitted s (leaves ++ [leaf]) =
      scanLeaf P C spendingKey emitted (scanLeaves P C spendingKey emitted s leaves) leaf := by
  rw [scanLeaves, List.foldl_append]
  rfl

theorem contains_scanLeaves {leaves : List ℕ} {commitment : ℤ} :
    (scanLeaves P C spendingKey emitted .empty leaves).contains commitment = true ↔
      ∃ leaf ∈ leaves, ∃ n, ownedNote P C spendingKey emitted leaf = some n ∧
        n.commitment = commitment := by
  induction leaves using List.reverseRecOn with
  | nil => simp [scanLeaves, NoteStore.empty, NoteStore.contains]
  | append_singleton leaves leaf ih =>
    rw [scanLeaves_concat]
    cases hn : ownedNote P C spendingKey emitted leaf with
    | none =>
      rw [scanLeaf_of_none hn, ih]
      simp [or_and_right, exists_or, hn]
    | some n =>
      rw [scanLeaf_of_some hn, NoteStore.contains_add, ih]
      simp [or_and_right, exists_or, hn]

theorem spent_scanLeaves {s : NoteStore} {commitment : ℤ} (h : s.Spent commitment)
    (leaves : List ℕ) : (scanLeaves P C spendingKey emitted s leaves).Spent commitment := by
  induction leaves using List.reverseRecOn with
  | nil => exact h
  | append_singleton leaves leaf ih =>
    rw [scanLeaves_concat]
    cases hn : ownedNote P C spendingKey emitted leaf with
    | none => rwa [scanLeaf_of_none hn]
    | some n =>
      rw [scanLeaf_of_some hn]
      exact ih.add n

/-! ## What is lost -/

theorem ownedNote_spec {leaf : ℕ} {n : NoteEntry}
    (h : ownedNote P C spendingKey emitted leaf = some n) : n.spent = false ∧ 0 ≤ n.amount := by
  obtain ⟨event, -, hn⟩ := Option.bind_eq_some_iff.mp h
  obtain ⟨note, hnote, hn⟩ := Option.bind_eq_some_iff.mp hn
  obtain ⟨-, -, hn⟩ := Option.bind_eq_some_iff.mp hn
  obtain ⟨-, -, hn⟩ := Option.bind_eq_some_iff.mp hn
  cases hn
  exact ⟨rfl, C.amount_nonneg_of_tryDecryptNote hnote⟩

theorem worth_of_some {leaf : ℕ} {n : NoteEntry}
    (h : ownedNote P C spendingKey emitted leaf = some n) (asset : ℤ) :
    worth P C spendingKey emitted asset leaf = if n.assetId = asset then n.amount else 0 := by
  rw [worth, h]

theorem worth_of_none {leaf : ℕ} (h : ownedNote P C spendingKey emitted leaf = none) (asset : ℤ) :
    worth P C spendingKey emitted asset leaf = 0 := by
  rw [worth, h]

variable (P C spendingKey emitted) in
theorem worth_nonneg (asset : ℤ) (leaf : ℕ) : 0 ≤ worth P C spendingKey emitted asset leaf := by
  cases hn : ownedNote P C spendingKey emitted leaf with
  | none => rw [worth_of_none hn]
  | some n =>
    rw [worth_of_some hn]
    split
    · exact (ownedNote_spec hn).2
    · exact le_rfl

variable (P C spendingKey emitted) in
def shortfall (scanned : List ℕ) (asset : ℤ) : ℤ :=
  ownedBalance P C spendingKey emitted scanned asset -
    (scanLeaves P C spendingKey emitted .empty scanned).balance asset

variable (P C spendingKey emitted) in
def Hidden (scanned : List ℕ) (leaf : ℕ) : Prop :=
  leaf ∉ scanned ∧ ∃ earlier ∈ scanned, SameCommitment P C spendingKey emitted leaf earlier

theorem ownedBalance_concat_of_mem {scanned : List ℕ} {leaf : ℕ} (h : leaf ∈ scanned) (asset : ℤ) :
    ownedBalance P C spendingKey emitted (scanned ++ [leaf]) asset =
      ownedBalance P C spendingKey emitted scanned asset := by
  have hset : (scanned ++ [leaf]).toFinset = scanned.toFinset := by
    ext x
    simp only [List.mem_toFinset, List.mem_append, List.mem_singleton]
    constructor
    · rintro (hx | rfl)
      · exact hx
      · exact h
    · exact Or.inl
  rw [ownedBalance, hset, ownedBalance]

theorem ownedBalance_concat_of_not_mem {scanned : List ℕ} {leaf : ℕ} (h : leaf ∉ scanned)
    (asset : ℤ) :
    ownedBalance P C spendingKey emitted (scanned ++ [leaf]) asset =
      ownedBalance P C spendingKey emitted scanned asset +
        worth P C spendingKey emitted asset leaf := by
  have hset : (scanned ++ [leaf]).toFinset = insert leaf scanned.toFinset := by
    ext x
    simp only [List.mem_toFinset, List.mem_append, List.mem_singleton, Finset.mem_insert]
    exact or_comm
  rw [ownedBalance, hset, Finset.sum_insert (by rwa [List.mem_toFinset]), ownedBalance]
  exact add_comm ..

theorem shortfall_concat_of_hidden {scanned : List ℕ} {leaf : ℕ}
    (h : Hidden P C spendingKey emitted scanned leaf) (asset : ℤ) :
    shortfall P C spendingKey emitted (scanned ++ [leaf]) asset =
      shortfall P C spendingKey emitted scanned asset +
        worth P C spendingKey emitted asset leaf := by
  obtain ⟨hnew, earlier, hearlier, n, n', hn, hn', hsame⟩ := h
  have hcontains :
      (scanLeaves P C spendingKey emitted .empty scanned).contains n.commitment = true :=
    contains_scanLeaves.mpr ⟨earlier, hearlier, n', hn', hsame⟩
  rw [shortfall, ownedBalance_concat_of_not_mem hnew, scanLeaves_concat, scanLeaf_of_some hn,
    NoteStore.add_of_contains hcontains, shortfall]
  omega

theorem shortfall_concat_of_not_hidden {scanned : List ℕ} {leaf : ℕ}
    (h : ¬ Hidden P C spendingKey emitted scanned leaf) (asset : ℤ) :
    shortfall P C spendingKey emitted (scanned ++ [leaf]) asset =
      shortfall P C spendingKey emitted scanned asset := by
  rw [shortfall, shortfall, scanLeaves_concat]
  cases hn : ownedNote P C spendingKey emitted leaf with
  | none =>
    rw [scanLeaf_of_none hn]
    by_cases hmem : leaf ∈ scanned
    · rw [ownedBalance_concat_of_mem hmem]
    · rw [ownedBalance_concat_of_not_mem hmem, worth_of_none hn, add_zero]
  | some n =>
    rw [scanLeaf_of_some hn]
    by_cases hmem : leaf ∈ scanned
    · -- the leaf's own note is there already
      have hcontains :
          (scanLeaves P C spendingKey emitted .empty scanned).contains n.commitment = true :=
        contains_scanLeaves.mpr ⟨leaf, hmem, n, hn, rfl⟩
      rw [ownedBalance_concat_of_mem hmem, NoteStore.add_of_contains hcontains]
    · have hcontains :
          ¬ (scanLeaves P C spendingKey emitted .empty scanned).contains n.commitment = true := by
        intro hc
        obtain ⟨earlier, hearlier, n', hn', hsame⟩ := contains_scanLeaves.mp hc
        exact h ⟨hmem, earlier, hearlier, n, n', hn, hn', hsame⟩
      rw [ownedBalance_concat_of_not_mem hmem, worth_of_some hn,
        NoteStore.balance_add_of_not_contains hcontains (ownedNote_spec hn).1]
      omega

variable (P C spendingKey emitted) in
theorem shortfall_nonneg (scanned : List ℕ) (asset : ℤ) :
    0 ≤ shortfall P C spendingKey emitted scanned asset := by
  induction scanned using List.reverseRecOn with
  | nil => exact le_rfl
  | append_singleton scanned leaf ih =>
    by_cases h : Hidden P C spendingKey emitted scanned leaf
    · rw [shortfall_concat_of_hidden h]
      exact add_nonneg ih (worth_nonneg P C spendingKey emitted asset leaf)
    · rwa [shortfall_concat_of_not_hidden h]

theorem shadowed_concat {scanned : List ℕ} {leaf last : ℕ} :
    Shadowed P C spendingKey emitted (scanned ++ [last]) leaf ↔
      Shadowed P C spendingKey emitted scanned leaf ∨
        leaf = last ∧ Hidden P C spendingKey emitted scanned last := by
  constructor
  · rintro ⟨before, after, hsplit, hnew, hearlier⟩
    rcases List.eq_nil_or_concat' after with rfl | ⟨after, last', rfl⟩
    · obtain ⟨rfl, hlast⟩ := List.append_inj' hsplit rfl
      cases hlast
      exact Or.inr ⟨rfl, hnew, hearlier⟩
    · rw [← List.cons_append, ← List.append_assoc] at hsplit
      obtain ⟨hscanned, -⟩ := List.append_inj' hsplit rfl
      exact Or.inl ⟨before, after, hscanned, hnew, hearlier⟩
  · rintro (⟨before, after, rfl, hnew, hearlier⟩ | ⟨rfl, hnew, hearlier⟩)
    · exact ⟨before, after ++ [last], by rw [List.append_assoc, List.cons_append], hnew, hearlier⟩
    · exact ⟨scanned, [], rfl, hnew, hearlier⟩

theorem shortfall_eq_zero_iff (scanned : List ℕ) :
    (∀ asset, shortfall P C spendingKey emitted scanned asset = 0) ↔
      ∀ leaf n, Shadowed P C spendingKey emitted scanned leaf →
        ownedNote P C spendingKey emitted leaf = some n → n.amount = 0 := by
  induction scanned using List.reverseRecOn with
  | nil =>
    constructor
    · rintro - leaf n ⟨before, after, hsplit, -⟩
      exact absurd hsplit (by simp)
    · exact fun _ _ => rfl
  | append_singleton scanned last ih =>
    by_cases h : Hidden P C spendingKey emitted scanned last
    · constructor
      · intro hzero
        have hsum : ∀ asset, shortfall P C spendingKey emitted scanned asset = 0 ∧
            worth P C spendingKey emitted asset last = 0 := by
          intro asset
          have hasset := hzero asset
          rw [shortfall_concat_of_hidden h] at hasset
          have hshort := shortfall_nonneg P C spendingKey emitted scanned asset
          have hworth := worth_nonneg P C spendingKey emitted asset last
          omega
        intro leaf n hleaf hn
        rcases shadowed_concat.mp hleaf with hold | ⟨rfl, -⟩
        · exact ih.mp (fun asset => (hsum asset).1) leaf n hold hn
        · have hworth := (hsum n.assetId).2
          rwa [worth_of_some hn, if_pos rfl] at hworth
      · intro hzero asset
        obtain ⟨n, -, hn, -⟩ := h.2.choose_spec.2
        rw [shortfall_concat_of_hidden h, worth_of_some hn,
          hzero last n (shadowed_concat.mpr (Or.inr ⟨rfl, h⟩)) hn, ite_self, add_zero]
        exact ih.mpr (fun leaf n hleaf => hzero leaf n (shadowed_concat.mpr (Or.inl hleaf))) asset
    · simp only [shortfall_concat_of_not_hidden h]
      rw [ih]
      constructor
      · intro hzero leaf n hleaf
        rcases shadowed_concat.mp hleaf with hold | ⟨-, hhidden⟩
        · exact hzero leaf n hold
        · exact absurd hhidden h
      · intro hzero leaf n hleaf
        exact hzero leaf n (shadowed_concat.mpr (Or.inl hleaf))

/-- Scanning finds every leaf's note exactly if no leaf that is worth something is first scanned
after another with its commitment. It never brings back a spent note, and a saved store is
reloaded as it was. -/
theorem wallet_balance_exact_iff (P : Prims) (C : NoteCrypto) (spendingKey : ℤ)
    (emitted : NoteEvents) (scanned : List ℕ) :
    ((∀ asset, (scanLeaves P C spendingKey emitted .empty scanned).balance asset =
        ownedBalance P C spendingKey emitted scanned asset) ↔
      ∀ leaf n, Shadowed P C spendingKey emitted scanned leaf →
        ownedNote P C spendingKey emitted leaf = some n → n.amount = 0) ∧
    (∀ (s : NoteStore) (commitment : ℤ), s.contains commitment = true →
      ∀ n ∈ (scanLeaves P C spendingKey emitted (s.markSpent commitment) scanned).unspent none,
        n.commitment ≠ commitment) ∧
    ∀ s : NoteStore, NoteStore.fromJSON s.toJSON = some s := by
  constructor
  · rw [← shortfall_eq_zero_iff]
    constructor
    · intro h asset
      rw [shortfall, h, sub_self]
    · intro h asset
      exact (sub_eq_zero.mp (h asset)).symm
  · constructor
    · intro s commitment hs n hn hcommitment
      have hspent := (spent_scanLeaves (NoteStore.spent_markSpent hs) scanned).2 n
        (List.mem_of_mem_filter hn) hcommitment
      have hunspent := (List.mem_filter.mp hn).2
      rw [hspent] at hunspent
      cases hunspent
    · exact NoteStore.fromJSON_toJSON

end Scans

/-! ## A note shielded twice -/

def NoteEvents.ofList (events : List Privacy.NoteEvent) : NoteEvents := fun leaf =>
  (events.find? fun event => event.leafIndex.toNat = leaf).bind fun event =>
    (frFromBytes event.commitment.toList).map fun commitment => (commitment, event.encryptedNote)

theorem frFromBytes_shieldCommitment (P : Prims) (amount : UInt64) (ownerPk blinding : ℤ) :
    frFromBytes (Privacy.frToBytes (Privacy.noteCommitmentFromSecret P
      (Privacy.PoolProcessor.assetIdFr .native) amount
      (toFr (noteSecret P ownerPk blinding)))).toList =
        some (noteCommitment P 0 amount.toNat ownerPk blinding) := by
  set x := Privacy.noteCommitmentFromSecret P (Privacy.PoolProcessor.assetIdFr .native) amount
    (toFr (noteSecret P ownerPk blinding)) with hx
  have hval : noteCommitment P 0 amount.toNat ownerPk blinding = (x.val : ℤ) := by
    rw [hx, noteCommitment, noteCommitmentFromSecret, hash, Privacy.noteCommitmentFromSecret]
    simp [Privacy.PoolProcessor.assetIdFr, Privacy.nativeAssetId, toFr]
  have hreduced : (0 : ℤ) ≤ x.val ∧ (x.val : ℤ) < frModulus :=
    ⟨Int.natCast_nonneg _, Int.ofNat_lt.mpr (ZMod.val_lt x)⟩
  rw [hval, ← frFromBytes_toList hreduced, frToBytes_eq, toFr_val]

namespace Sample

def crypto : NoteCrypto where
  sha256 _ := Bytes.replicate 32 0
  getPublicKey _ := Bytes.replicate 32 0
  getSharedSecret _ _ := some []
  encrypt _ _ plaintext := plaintext ++ List.replicate 16 0
  decrypt _ _ ciphertext := some (ciphertext.take (ciphertext.length - 16))
  shared_comm _ _ := rfl
  decrypt_encrypt _ _ plaintext := by simp
  length_encrypt _ _ plaintext := by simp

/-- Five native lamports of the spending key 1. -/
def twin : Note := ⟨0, 5, 1, 0⟩

theorem twin_encodable : twin.Encodable where
  assetId := by decide
  amount := by decide
  ownerPk := by decide
  blinding := by decide

def twinEncrypted : List UInt8 :=
  (Bytes.replicate 32 0).toList ++ (Bytes.replicate 24 0).toList ++
    (encodeNotePlaintext twin ++ List.replicate 16 0)

theorem tryDecryptNote_twin : crypto.tryDecryptNote twinEncrypted 1 = some twin :=
  crypto.tryDecryptNote_encryptNote twin_encodable
    (show crypto.encryptNote twin _ (Bytes.replicate 32 0) (Bytes.replicate 24 0) = _ from rfl)

def shieldTwin (ctx : Privacy.PoolContext) :
    Privacy.PoolContext × Except Privacy.PoolError Privacy.PoolOutcome :=
  Privacy.PoolProcessor.shield prims ctx .native 5 (frToBytes (noteSecret prims 1 0)) twinEncrypted

def twinCommitment : ℤ := noteCommitment prims 0 5 1 0

theorem recoverNote_twin (leaf : ℕ) :
    recoverNote prims crypto 1 leaf twinCommitment twinEncrypted =
      some ⟨⟨twin, leaf⟩, twinCommitment, false⟩ := by
  have howner : twin.ownerPk = ownerPk prims 1 := ownerPk_one.symm
  have hcommitment : noteCommitment prims twin.assetId twin.amount twin.ownerPk twin.blinding =
      twinCommitment := rfl
  rw [recoverNote, tryDecryptNote_twin]
  simp only [Option.bind_eq_bind, Option.bind_some, ← howner, hcommitment]
  rfl

def twinEvent (leafIndex : UInt32) : Privacy.NoteEvent :=
  ⟨leafIndex, Privacy.frToBytes (Privacy.noteCommitmentFromSecret prims
    (Privacy.PoolProcessor.assetIdFr .native) 5 (toFr (noteSecret prims 1 0))), twinEncrypted⟩

theorem ownedNote_twin {emitted : NoteEvents} {leaf : ℕ}
    (h : emitted leaf = some (twinCommitment, twinEncrypted)) :
    ownedNote prims crypto 1 emitted leaf = some ⟨⟨twin, leaf⟩, twinCommitment, false⟩ := by
  rw [ownedNote, h, Option.bind_some, recoverNote_twin]

theorem emitted_twins {leaf leaf' : UInt32} (h : leaf.toNat = 0) (h' : leaf'.toNat = 1) :
    NoteEvents.ofList [twinEvent leaf, twinEvent leaf'] 0 = some (twinCommitment, twinEncrypted) ∧
    NoteEvents.ofList [twinEvent leaf, twinEvent leaf'] 1 =
      some (twinCommitment, twinEncrypted) := by
  have hcommitment (i : UInt32) : frFromBytes (twinEvent i).commitment.toList =
      some twinCommitment := frFromBytes_shieldCommitment prims 5 1 0
  constructor
  · rw [NoteEvents.ofList, List.find?_cons_of_pos (by simp [twinEvent, h]), Option.bind_some,
      hcommitment]
    rfl
  · rw [NoteEvents.ofList, List.find?_cons_of_neg (by simp [twinEvent, h]),
      List.find?_cons_of_pos (by simp [twinEvent, h']), Option.bind_some, hcommitment]
    rfl

end Sample

/-- One leaf scanned twice is counted once, stays spent when it is scanned again, and is reloaded as
it was saved. -/
theorem rescanned_note_exact :
    ∃ (emitted : NoteEvents) (s : NoteStore),
      s = scanLeaves Sample.prims Sample.crypto 1 emitted .empty [0, 0] ∧
      s.contains Sample.twinCommitment = true ∧
      s.balance 0 = ownedBalance Sample.prims Sample.crypto 1 emitted [0, 0] 0 ∧
      ownedBalance Sample.prims Sample.crypto 1 emitted [0, 0] 0 = 5 ∧
      (∀ n ∈ (scanLeaves Sample.prims Sample.crypto 1 emitted
          (s.markSpent Sample.twinCommitment) [0, 0]).unspent none,
        n.commitment ≠ Sample.twinCommitment) ∧
      NoteStore.fromJSON s.toJSON = some s := by
  let emitted : NoteEvents := fun _ => some (Sample.twinCommitment, Sample.twinEncrypted)
  obtain ⟨hiff, hspent, hsaved⟩ :=
    wallet_balance_exact_iff Sample.prims Sample.crypto 1 emitted [0, 0]
  have howned : ownedNote Sample.prims Sample.crypto 1 emitted 0 = _ := Sample.ownedNote_twin rfl
  have hcontains : (scanLeaves Sample.prims Sample.crypto 1 emitted .empty [0, 0]).contains
      Sample.twinCommitment = true :=
    contains_scanLeaves.mpr ⟨0, List.mem_cons_self, _, howned, rfl⟩
  have hexact := hiff.mpr (by
    rintro leaf n ⟨before, after, hsplit, hnew, earlier, hearlier, -⟩
    have hzero : ∀ x ∈ before ++ leaf :: after, x = 0 := by simp [← hsplit]
    rw [hzero earlier (List.mem_append_left _ hearlier),
      ← hzero leaf (List.mem_append_right _ List.mem_cons_self)] at hearlier
    exact absurd hearlier hnew)
  refine ⟨emitted, _, rfl, hcontains, hexact 0, ?_, hspent _ _ hcontains, hsaved _⟩
  rw [ownedBalance, show [0, 0].toFinset = ({0} : Finset ℕ) from rfl, Finset.sum_singleton,
    worth_of_some howned 0]
  rfl

/-- A note is shielded twice and emitted at two leaves; the wallet that scans both counts one. -/
theorem twin_notes_counted_once :
    ∃ (ctx ctx' : Privacy.PoolContext) (event event' : Privacy.NoteEvent),
      Sample.shieldTwin ⟨.new Sample.prims, .empty⟩ =
        (ctx, .ok ⟨[.depositToVault .native 5], [event]⟩) ∧
      Sample.shieldTwin ctx = (ctx', .ok ⟨[.depositToVault .native 5], [event']⟩) ∧
      event.leafIndex.toNat = 0 ∧ event'.leafIndex.toNat = 1 ∧
      (scanLeaves Sample.prims Sample.crypto 1 (.ofList [event, event']) .empty [0, 1]).balance 0 =
        5 ∧
      ownedBalance Sample.prims Sample.crypto 1 (.ofList [event, event']) [0, 1] 0 = 10 := by
  have hsecret : Privacy.frFromBytes (frToBytes (noteSecret Sample.prims 1 0)) =
      some (toFr (noteSecret Sample.prims 1 0)) := by
    rw [frToBytes_eq, Privacy.frFromBytes_frToBytes]
  obtain ⟨ctx, hshield, hctx, hnext⟩ := Privacy.PoolProcessor.shield_of_room Sample.prims
    ⟨.new Sample.prims, .empty⟩ (Privacy.PoolState.canonical_new _) (by decide) .native 5
    (by decide) hsecret Sample.twinEncrypted
  obtain ⟨ctx', hshield', -, -⟩ := Privacy.PoolProcessor.shield_of_room Sample.prims ctx hctx
    (by rw [hnext]; decide) .native 5 (by decide) hsecret Sample.twinEncrypted
  refine ⟨ctx, ctx', Sample.twinEvent 0, Sample.twinEvent ctx.state.nextLeafIndex, hshield,
    hshield', rfl, hnext, ?_⟩
  obtain ⟨hfirst, hsecond⟩ := Sample.emitted_twins (rfl : (0 : UInt32).toNat = 0) hnext
  set emitted := NoteEvents.ofList
    [Sample.twinEvent 0, Sample.twinEvent ctx.state.nextLeafIndex]
  have howned := Sample.ownedNote_twin hfirst
  have howned' := Sample.ownedNote_twin hsecond
  constructor
  · have hnone : ¬ NoteStore.empty.contains Sample.twinCommitment = true := by decide
    have hcontains : (NoteStore.empty.add ⟨⟨Sample.twin, 0⟩, Sample.twinCommitment, false⟩).contains
        Sample.twinCommitment = true := NoteStore.contains_add.mpr (Or.inr rfl)
    rw [scanLeaves, List.foldl_cons, List.foldl_cons, List.foldl_nil, scanLeaf_of_some howned,
      scanLeaf_of_some howned', NoteStore.add_of_contains hcontains,
      NoteStore.balance_add_of_not_contains hnone rfl]
    rfl
  · have hworth := worth_of_some howned 0
    have hworth' := worth_of_some howned' 0
    have hset : [0, 1].toFinset = ({0, 1} : Finset ℕ) := rfl
    rw [ownedBalance, hset, Finset.sum_pair Nat.zero_ne_one, hworth, hworth']
    rfl

end Zul.Sdk
