import Zul.Lib.Json
import Zul.Sdk.Pool

/-! # Notes in the wallet

A note is encrypted to its recipient's X25519 key. The wallet tries to decrypt every note event,
checks that what comes out is its own and opens the event's commitment, and keeps it in a store
that is saved as JSON. What the client throws is `none`.
-/

namespace Zul.Sdk

/-! ## Plaintexts -/

/-- 32 little-endian bytes of a reduced value. -/
def frFromBytes (bytes : List UInt8) : Option ℤ :=
  if bytes.length ≠ 32 then none
  else if frModulus ≤ LittleEndian.decode bytes then none
  else some (LittleEndian.decode bytes)

/-- Asset, owner and blinding of 32 bytes each, and an amount of 8. -/
def PLAINTEXT_LEN : ℕ := 32 * 3 + 8

/-- `setBigUint64` keeps 64 bits of the amount. -/
def encodeNotePlaintext (note : Note) : List UInt8 :=
  (frToBytes note.assetId).toList ++ LittleEndian.encode 8 (note.amount % 2 ^ 64).toNat ++
    (frToBytes note.ownerPk).toList ++ (frToBytes note.blinding).toList

def decodeNotePlaintext (bytes : List UInt8) : Option Note :=
  if bytes.length ≠ PLAINTEXT_LEN then none
  else do
    let assetId ← frFromBytes (bytes.take 32)
    let amount := LittleEndian.decode ((bytes.drop 32).take 8)
    let ownerPk ← frFromBytes ((bytes.drop 40).take 32)
    let blinding ← frFromBytes ((bytes.drop 72).take 32)
    return ⟨assetId, amount, ownerPk, blinding⟩

/-- A note whose fields are reduced and whose amount fits its 8 bytes. -/
structure Note.Encodable (note : Note) : Prop where
  assetId : 0 ≤ note.assetId ∧ note.assetId < frModulus
  amount : 0 ≤ note.amount ∧ note.amount < 2 ^ 64
  ownerPk : 0 ≤ note.ownerPk ∧ note.ownerPk < frModulus
  blinding : 0 ≤ note.blinding ∧ note.blinding < frModulus

theorem frFromBytes_toList {value : ℤ} (h : 0 ≤ value ∧ value < frModulus) :
    frFromBytes (frToBytes value).toList = some value := by
  obtain ⟨n, rfl⟩ := Int.eq_ofNat_of_zero_le h.1
  have hn : n < frModulus := Int.ofNat_lt.mp h.2
  have hdecode : LittleEndian.decode (frToBytes n).toList = n := by
    rw [frToBytes_eq, toFr_natCast]
    show LittleEndian.decode (LittleEndian.encode 32 ((n : Fr)).val) = n
    rw [ZMod.val_natCast_of_lt hn, LittleEndian.decode_encode_of_lt (hn.trans (by decide))]
  rw [frFromBytes, if_neg (not_not.mpr (Bytes.length_toList _)), hdecode,
    if_neg (Nat.not_le.mpr hn)]

theorem decodeNotePlaintext_encodeNotePlaintext {note : Note} (h : note.Encodable) :
    decodeNotePlaintext (encodeNotePlaintext note) = some note := by
  have hamount : (LittleEndian.decode (LittleEndian.encode 8 (note.amount % 2 ^ 64).toNat) : ℤ) =
      note.amount := by
    obtain ⟨hpos, hlt⟩ := h.amount
    rw [Int.emod_eq_of_lt hpos hlt, LittleEndian.decode_encode_of_lt (by omega),
      Int.toNat_of_nonneg hpos]
  have h0 : (encodeNotePlaintext note).drop 0 = (frToBytes note.assetId).toList ++
      (LittleEndian.encode 8 (note.amount % 2 ^ 64).toNat ++
        ((frToBytes note.ownerPk).toList ++ (frToBytes note.blinding).toList)) := by
    simp only [encodeNotePlaintext, List.drop_zero, List.append_assoc]
  have h32 := List.drop_past (b := 32) h0 (by rw [Bytes.length_toList])
  have h40 := List.drop_past (b := 40) h32 (by rw [LittleEndian.length_encode])
  have h72 := List.drop_past (b := 72) h40 (by rw [Bytes.length_toList])
  have hlength : (encodeNotePlaintext note).length = PLAINTEXT_LEN := by
    simp [encodeNotePlaintext, PLAINTEXT_LEN]
  rw [decodeNotePlaintext, if_neg (not_not.mpr hlength), h32, h40, h72,
    ← List.drop_zero (l := encodeNotePlaintext note), h0, List.take_left' (Bytes.length_toList _),
    List.take_left' (LittleEndian.length_encode ..), List.take_left' (Bytes.length_toList _),
    List.take_of_length_le (Bytes.length_toList _).le, frFromBytes_toList h.assetId,
    frFromBytes_toList h.ownerPk, frFromBytes_toList h.blinding]
  simp only [Option.bind_eq_bind, Option.bind_some, hamount, Option.pure_def]

theorem amount_nonneg_of_decodeNotePlaintext {bytes : List UInt8} {note : Note}
    (h : decodeNotePlaintext bytes = some note) : 0 ≤ note.amount := by
  unfold decodeNotePlaintext at h
  split at h
  · cases h
  · obtain ⟨assetId, -, h⟩ := Option.bind_eq_some_iff.mp h
    obtain ⟨ownerPk, -, h⟩ := Option.bind_eq_some_iff.mp h
    obtain ⟨blinding, -, h⟩ := Option.bind_eq_some_iff.mp h
    cases h
    exact Int.natCast_nonneg _

/-! ## Encryption -/

/-- The curve, the hash and the cipher, with what is documented of them: both ends of an exchange
get the same secret, and what is encrypted decrypts under the same key and nonce. -/
structure NoteCrypto where
  sha256 : List UInt8 → Bytes 32
  getPublicKey : Bytes 32 → Bytes 32
  getSharedSecret : Bytes 32 → List UInt8 → Option (List UInt8)
  encrypt : Bytes 32 → List UInt8 → List UInt8 → List UInt8
  decrypt : Bytes 32 → List UInt8 → List UInt8 → Option (List UInt8)
  shared_comm : ∀ a b, getSharedSecret a (getPublicKey b).toList =
    getSharedSecret b (getPublicKey a).toList
  decrypt_encrypt : ∀ key nonce plaintext,
    decrypt key nonce (encrypt key nonce plaintext) = some plaintext
  length_encrypt : ∀ key nonce plaintext,
    (encrypt key nonce plaintext).length = plaintext.length + 16

namespace NoteCrypto

variable (C : NoteCrypto)

/-- `zul:enc`. -/
def ENC_DOMAIN : List UInt8 := [0x7a, 0x75, 0x6c, 0x3a, 0x65, 0x6e, 0x63]

/-- The X25519 secret derived from a spending key, and its public key. -/
def encryptionKeypair (spendingKey : ℤ) : Bytes 32 × Bytes 32 :=
  let secret := C.sha256 (ENC_DOMAIN ++ (frToBytes spendingKey).toList)
  (secret, C.getPublicKey secret)

/-- Ephemeral public key, nonce and ciphertext, for the random secret and nonce drawn. -/
def encryptNote (note : Note) (recipientEncPk : List UInt8) (ephemeralSecret : Bytes 32)
    (nonce : Bytes 24) : Option (List UInt8) := do
  let shared ← C.getSharedSecret ephemeralSecret recipientEncPk
  return (C.getPublicKey ephemeralSecret).toList ++ nonce.toList ++
    C.encrypt (C.sha256 shared) nonce.toList (encodeNotePlaintext note)

/-- Attempt to decrypt; `none` is a note that is not ours. -/
def tryDecryptNote (encrypted : List UInt8) (spendingKey : ℤ) : Option Note :=
  if encrypted.length < 56 + 16 then none
  else do
    let ephemeralPublic := encrypted.take 32
    let nonce := (encrypted.drop 32).take 24
    let ciphertext := encrypted.drop 56
    let shared ← C.getSharedSecret (C.encryptionKeypair spendingKey).1 ephemeralPublic
    let plaintext ← C.decrypt (C.sha256 shared) nonce ciphertext
    decodeNotePlaintext plaintext

theorem amount_nonneg_of_tryDecryptNote {encrypted : List UInt8} {spendingKey : ℤ} {note : Note}
    (h : C.tryDecryptNote encrypted spendingKey = some note) : 0 ≤ note.amount := by
  unfold tryDecryptNote at h
  split at h
  · cases h
  · obtain ⟨shared, -, h⟩ := Option.bind_eq_some_iff.mp h
    obtain ⟨plaintext, -, h⟩ := Option.bind_eq_some_iff.mp h
    exact amount_nonneg_of_decodeNotePlaintext h

theorem tryDecryptNote_encryptNote {note : Note} (h : note.Encodable) {spendingKey : ℤ}
    {ephemeralSecret : Bytes 32} {nonce : Bytes 24} {encrypted : List UInt8}
    (hencrypt : C.encryptNote note (C.encryptionKeypair spendingKey).2.toList ephemeralSecret
      nonce = some encrypted) :
    C.tryDecryptNote encrypted spendingKey = some note := by
  obtain ⟨shared, hshared, hbytes⟩ := Option.bind_eq_some_iff.mp hencrypt
  cases hbytes
  set ciphertext := C.encrypt (C.sha256 shared) nonce.toList (encodeNotePlaintext note) with hcipher
  set encrypted := (C.getPublicKey ephemeralSecret).toList ++ nonce.toList ++ ciphertext
    with hencrypted
  have h0 : encrypted.drop 0 =
      (C.getPublicKey ephemeralSecret).toList ++ (nonce.toList ++ ciphertext) := by
    rw [List.drop_zero, hencrypted, List.append_assoc]
  have h32 := List.drop_past (b := 32) h0 (by rw [Bytes.length_toList])
  have h56 := List.drop_past (b := 56) h32 (by rw [Bytes.length_toList])
  have hlength : ¬ encrypted.length < 56 + 16 := by
    have hlength := congrArg List.length hencrypted
    have hsize := C.length_encrypt (C.sha256 shared) nonce.toList (encodeNotePlaintext note)
    rw [← hcipher] at hsize
    simp only [List.length_append, Bytes.length_toList] at hlength
    omega
  have hagreed : C.getSharedSecret (C.encryptionKeypair spendingKey).1
      (C.getPublicKey ephemeralSecret).toList = some shared := (C.shared_comm ..).trans hshared
  have htake : encrypted.take 32 = (C.getPublicKey ephemeralSecret).toList := by
    rw [← List.drop_zero (l := encrypted), h0, List.take_left' (Bytes.length_toList _)]
  rw [tryDecryptNote, if_neg hlength]
  simp only [htake, h32, h56, List.take_left' (Bytes.length_toList nonce), hagreed, hcipher,
    C.decrypt_encrypt, Option.bind_eq_bind, Option.bind_some,
    decodeNotePlaintext_encodeNotePlaintext h]

end NoteCrypto

/-! ## The store -/

structure NoteEntry extends StoredNote where
  commitment : ℤ
  spent : Bool

/-- The notes in the order they were added; no commitment is added twice. -/
@[ext] structure NoteStore where
  notes : List NoteEntry
  distinct : (notes.map (·.commitment)).Nodup

/-- `BigInt` of a parsed value; of texts, the decimal ones. -/
def bigInt : Json.Value → Option ℤ
  | .string text => Json.readInt text.toList
  | .number n => some n
  | .bool b => some b.toNat
  | _ => none

namespace NoteEntry

/-- A note as it is saved; its integers are decimal texts. -/
def toJson (n : NoteEntry) : Json.Value :=
  let text (value : ℤ) := Json.Value.string (.ofList (Json.intText value))
  .object [("assetId", text n.assetId), ("amount", text n.amount), ("ownerPk", text n.ownerPk),
    ("blinding", text n.blinding), ("leafIndex", .number n.leafIndex),
    ("commitment", text n.commitment), ("spent", .bool n.spent)]

def ofJson (json : Json.Value) : Option NoteEntry := do
  let assetId ← (json.field? "assetId").bind bigInt
  let amount ← (json.field? "amount").bind bigInt
  let ownerPk ← (json.field? "ownerPk").bind bigInt
  let blinding ← (json.field? "blinding").bind bigInt
  let commitment ← (json.field? "commitment").bind bigInt
  match json.field? "leafIndex", json.field? "spent" with
  | some (.number (.ofNat leafIndex)), some (.bool spent) =>
    some ⟨⟨⟨assetId, amount, ownerPk, blinding⟩, leafIndex⟩, commitment, spent⟩
  | _, _ => none

theorem ofJson_toJson (n : NoteEntry) : ofJson n.toJson = some n := by
  have htext : ∀ value, bigInt (.string (.ofList (Json.intText value))) = some value := by
    intro value
    rw [bigInt, String.toList_ofList, Json.readInt_intText]
  simp [ofJson, toJson, Json.Value.field?, htext]

end NoteEntry

namespace NoteStore

def empty : NoteStore := ⟨[], List.nodup_nil⟩

def contains (s : NoteStore) (commitment : ℤ) : Bool :=
  s.notes.any (·.commitment = commitment)

theorem contains_iff {s : NoteStore} {commitment : ℤ} :
    s.contains commitment = true ↔ ∃ n ∈ s.notes, n.commitment = commitment := by
  simp [contains]

def add (s : NoteStore) (note : NoteEntry) : NoteStore :=
  if h : s.contains note.commitment then s
  else
    { notes := s.notes ++ [note]
      distinct := by
        rw [List.map_append, List.map_singleton, ← List.concat_eq_append]
        exact List.Nodup.concat (fun hc => h (contains_iff.mpr (List.mem_map.mp hc))) s.distinct }

def markFirst (commitment : ℤ) : List NoteEntry → List NoteEntry
  | [] => []
  | n :: notes =>
    if n.commitment = commitment then { n with spent := true } :: notes
    else n :: markFirst commitment notes

theorem map_commitment_markFirst (commitment : ℤ) (notes : List NoteEntry) :
    (markFirst commitment notes).map (·.commitment) = notes.map (·.commitment) := by
  induction notes with
  | nil => rfl
  | cons n notes ih =>
    rw [markFirst]
    split
    · rfl
    · rw [List.map_cons, ih, List.map_cons]

def markSpent (s : NoteStore) (commitment : ℤ) : NoteStore where
  notes := markFirst commitment s.notes
  distinct := (map_commitment_markFirst commitment s.notes).symm ▸ s.distinct

def unspent (s : NoteStore) (assetId : Option ℤ) : List NoteEntry :=
  s.notes.filter fun n => !n.spent && (assetId.all (n.assetId = ·))

def balance (s : NoteStore) (assetId : ℤ) : ℤ :=
  (s.unspent (some assetId)).foldl (fun sum n => sum + n.amount) 0

def toJSON (s : NoteStore) : String :=
  .ofList (Json.Value.array (s.notes.map (·.toJson))).text

def fromJSON (json : String) : Option NoteStore := do
  match ← Json.parse json.toList with
  | .array notes => notes.foldlM (fun store n => return store.add (← NoteEntry.ofJson n)) empty
  | _ => none

end NoteStore

/-! ## Scanning -/

section Scan

variable (P : Prims) (C : NoteCrypto)

/-- What an event is stored as: it decrypts, names our key and opens the commitment. -/
def recoverNote (spendingKey : ℤ) (leafIndex : ℕ) (commitment : ℤ) (encryptedNote : List UInt8) :
    Option NoteEntry := do
  let decrypted ← C.tryDecryptNote encryptedNote spendingKey
  guard (decrypted.ownerPk = ownerPk P spendingKey)
  guard (noteCommitment P decrypted.assetId decrypted.amount decrypted.ownerPk decrypted.blinding =
    commitment)
  return ⟨⟨decrypted, leafIndex⟩, commitment, false⟩

/-- Store the note of an event if it is ours. The store is only touched by the last step, so
scans that run at the same time are scans in some order. -/
def scanNoteEvent (store : NoteStore) (spendingKey : ℤ) (leafIndex : ℕ) (commitment : ℤ)
    (encryptedNote : List UInt8) : NoteStore × Option NoteEntry :=
  match recoverNote P C spendingKey leafIndex commitment encryptedNote with
  | none => (store, none)
  | some stored => (store.add stored, some stored)

end Scan

end Zul.Sdk
