import Zul.Bridge.DaLog
import Zul.Bridge.Rpc

/-! # The L1 programs' bytes

The node reads batch accounts, chunk instructions and deposit events of the L1 programs at fixed
offsets into their Borsh encodings. Batch accounts and deposit events each have an older, shorter
layout, recognised by its length.
-/

namespace Zul.Bridge

/-! ## Batch accounts -/

/-- The settlement program's `Batch` account: its discriminator, the record and when it was
posted, as the bits of an `i64`. -/
structure BatchAccount where
  discriminator : Bytes 8
  record : BatchRecord
  postedAt : UInt64
  deriving DecidableEq

namespace BatchAccount

def front (a : BatchAccount) : List UInt8 :=
  a.discriminator.toList ++ LittleEndian.u64 a.record.batchNo ++
    LittleEndian.u64 a.record.firstSlot ++ LittleEndian.u64 a.record.lastSlot ++
    a.record.stateRoot.toList

def back (a : BatchAccount) : List UInt8 :=
  a.record.daHash.toList ++ LittleEndian.u32 a.record.chunkCount ++ LittleEndian.u64 a.postedAt

def data (a : BatchAccount) : List UInt8 := a.front ++ a.record.withdrawalsRoot.toList ++ a.back

def legacyData (a : BatchAccount) : List UInt8 := a.front ++ a.back

end BatchAccount

/-- `u64::from_le_bytes(data[o..o + 8])`. -/
def le8 (data : List UInt8) (o : ℕ) : Option UInt64 :=
  (data.range? o (o + 8)).map LittleEndian.toU64

/-- `u32::from_le_bytes(data[o..o + 4])`. -/
def le4 (data : List UInt8) (o : ℕ) : Option UInt32 :=
  (data.range? o (o + 4)).map LittleEndian.toU32

/-- The hash at `data[o..o + 32]`. -/
def h32 (data : List UInt8) (o : ℕ) : Option H256 :=
  (data.range? o (o + 32)).bind (Bytes.ofList? 32)

/-- The record in a batch account's data; a read out of range would panic. -/
def fetchBatchRecord (account : Option (List UInt8)) (batchNo : UInt64) :
    Option (Except L1Error BatchRecord) :=
  match account with
  | none => some (.error (.rpc s!"batch {batchNo} record missing on L1"))
  | some data =>
    if 132 ≤ data.length then do
      return .ok {
        batchNo := ← le8 data 8
        firstSlot := ← le8 data 16
        lastSlot := ← le8 data 24
        stateRoot := ← h32 data 32
        withdrawalsRoot := ← h32 data 64
        daHash := ← h32 data 96
        chunkCount := ← le4 data 128 }
    else if 100 ≤ data.length then do
      return .ok {
        batchNo := ← le8 data 8
        firstSlot := ← le8 data 16
        lastSlot := ← le8 data 24
        stateRoot := ← h32 data 32
        withdrawalsRoot := Bytes.replicate 32 0
        daHash := ← h32 data 64
        chunkCount := ← le4 data 96 }
    else some (.error (.rpc s!"batch {batchNo}: record too small"))

section Offsets

variable {data rest : List UInt8} {o : ℕ}

theorem le8_of_drop {x : UInt64} (h : data.drop o = LittleEndian.u64 x ++ rest)
    (ho : o ≤ data.length) : le8 data o = some x := by
  rw [le8, List.range?_of_drop h (by rw [LittleEndian.length_u64]) ho, Option.map_some,
    LittleEndian.toU64_u64]

theorem le4_of_drop {x : UInt32} (h : data.drop o = LittleEndian.u32 x ++ rest)
    (ho : o ≤ data.length) : le4 data o = some x := by
  rw [le4, List.range?_of_drop h (by rw [LittleEndian.length_u32]) ho, Option.map_some,
    LittleEndian.toU32_u32]

theorem h32_of_drop {x : H256} (h : data.drop o = x.toList ++ rest) (ho : o ≤ data.length) :
    h32 data o = some x := by
  rw [h32, List.range?_of_drop h (by rw [Bytes.length_toList]) ho, Option.bind_some,
    Bytes.ofList?_toList]

end Offsets

namespace BatchAccount

variable (a : BatchAccount)

theorem length_front : a.front.length = 64 := by
  simp [front]

theorem length_back : a.back.length = 44 := by
  simp [back]

theorem length_data : a.data.length = 140 := by
  simp [data, length_front, length_back]

theorem length_legacyData : a.legacyData.length = 108 := by
  simp [legacyData, length_front, length_back]

theorem front_read (rest : List UInt8) :
    le8 (a.front ++ rest) 8 = some a.record.batchNo ∧
    le8 (a.front ++ rest) 16 = some a.record.firstSlot ∧
    le8 (a.front ++ rest) 24 = some a.record.lastSlot ∧
    h32 (a.front ++ rest) 32 = some a.record.stateRoot := by
  have hlength : 64 ≤ (a.front ++ rest).length := by
    rw [List.length_append, length_front]
    omega
  have h0 : (a.front ++ rest).drop 0 = a.discriminator.toList ++
      (LittleEndian.u64 a.record.batchNo ++ (LittleEndian.u64 a.record.firstSlot ++
        (LittleEndian.u64 a.record.lastSlot ++ (a.record.stateRoot.toList ++ rest)))) := by
    simp only [front, List.drop_zero, List.append_assoc]
  have h8 := List.drop_past (b := 8) h0 (by rw [Bytes.length_toList])
  have h16 := List.drop_past (b := 16) h8 (by rw [LittleEndian.length_u64])
  have h24 := List.drop_past (b := 24) h16 (by rw [LittleEndian.length_u64])
  have h32 := List.drop_past (b := 32) h24 (by rw [LittleEndian.length_u64])
  exact ⟨le8_of_drop h8 (by omega), le8_of_drop h16 (by omega), le8_of_drop h24 (by omega),
    h32_of_drop h32 (by omega)⟩

theorem back_read {data : List UInt8} {o : ℕ} (h : data.drop o = a.back)
    (ho : o + 32 ≤ data.length) :
    h32 data o = some a.record.daHash ∧ le4 data (o + 32) = some a.record.chunkCount := by
  have hhash : data.drop o = a.record.daHash.toList ++
      (LittleEndian.u32 a.record.chunkCount ++ LittleEndian.u64 a.postedAt) := by
    rw [h, back, List.append_assoc]
  have hcount := List.drop_past (b := o + 32) hhash (by rw [Bytes.length_toList])
  exact ⟨h32_of_drop hhash (by omega), le4_of_drop hcount ho⟩

theorem fetchBatchRecord_data (batchNo : UInt64) :
    fetchBatchRecord (some a.data) batchNo = some (.ok a.record) := by
  have hlength := a.length_data
  have hdata : a.data = a.front ++ (a.record.withdrawalsRoot.toList ++ a.back) := by
    rw [data, List.append_assoc]
  obtain ⟨hbatch, hfirst, hlast, hstate⟩ :=
    a.front_read (a.record.withdrawalsRoot.toList ++ a.back)
  rw [← hdata] at hbatch hfirst hlast hstate
  have h64 : a.data.drop 64 = a.record.withdrawalsRoot.toList ++ a.back := by
    rw [hdata, List.drop_left' a.length_front]
  have h96 := List.drop_past (b := 96) h64 (by rw [Bytes.length_toList])
  obtain ⟨hhash, hcount⟩ := a.back_read h96 (by omega)
  simp only [fetchBatchRecord, if_pos (show 132 ≤ a.data.length by omega), hbatch, hfirst, hlast,
    hstate, h32_of_drop h64 (by omega), hhash, hcount, Option.bind_eq_bind, Option.bind_some,
    Option.pure_def]

theorem fetchBatchRecord_legacyData (batchNo : UInt64) :
    fetchBatchRecord (some a.legacyData) batchNo =
      some (.ok { a.record with withdrawalsRoot := Bytes.replicate 32 0 }) := by
  have hlength := a.length_legacyData
  obtain ⟨hbatch, hfirst, hlast, hstate⟩ := a.front_read a.back
  have h64 : a.legacyData.drop 64 = a.back := by
    rw [legacyData, List.drop_left' a.length_front]
  obtain ⟨hhash, hcount⟩ := a.back_read h64 (by omega)
  rw [← legacyData] at hbatch hfirst hlast hstate
  simp only [fetchBatchRecord, if_neg (show ¬ 132 ≤ a.legacyData.length by omega),
    if_pos (show 100 ≤ a.legacyData.length by omega), hbatch, hfirst, hlast, hstate, hhash, hcount,
    Option.bind_eq_bind, Option.bind_some, Option.pure_def]

end BatchAccount

/-! ## Deposit events -/

/-- The event as it was before it had a mint: 80 bytes. -/
def Deposited.legacyPayload (d : Deposited) : List UInt8 :=
  DEPOSITED_DISCRIMINATOR ++ d.depositor.toList ++ LittleEndian.u64 d.amount ++
    d.l2Recipient.toList

theorem parseDepositedEvent_legacyPayload (d : Deposited) (signature : String) :
    parseDepositedEvent d.legacyPayload signature =
      some ⟨signature, none, 9, d.amount, d.l2Recipient⟩ := by
  obtain ⟨depositor, amount, l2Recipient, mint, decimals⟩ := d
  have hkey (b : Pubkey) {n : ℕ} (hn : 32 ≤ n) : b.toList.drop n = [] :=
    List.drop_eq_nil_of_le (by simpa using hn)
  have htake : l2Recipient.toList.take 32 = l2Recipient.toList :=
    List.take_of_length_le (by rw [Bytes.length_toList])
  simp [parseDepositedEvent, parseTail, Deposited.legacyPayload, DEPOSITED_DISCRIMINATOR,
    List.drop_append, List.take_append, hkey, htake]

/-! ## Round trips -/

/-- What the programs write is what the node reads: batch accounts in both layouts, chunks of any
length the length field can hold and no others, deposit events in both layouts. -/
theorem wire_formats_round_trip :
    (∀ (a : BatchAccount) (batchNo : UInt64),
      fetchBatchRecord (some a.data) batchNo = some (.ok a.record) ∧
      fetchBatchRecord (some a.legacyData) batchNo =
        some (.ok { a.record with withdrawalsRoot := Bytes.replicate 32 0 })) ∧
    (∀ args : ChunkArgs,
      decodePostChunk (ixPostChunk args) = some args ↔ args.data.length < 2 ^ 32) ∧
    ∀ (d : Deposited) (signature : String),
      parseDepositedEvent d.payload signature =
        some ⟨signature, d.mint, d.decimals, d.amount, d.l2Recipient⟩ ∧
      parseDepositedEvent d.legacyPayload signature =
        some ⟨signature, none, 9, d.amount, d.l2Recipient⟩ :=
  ⟨fun a batchNo => ⟨a.fetchBatchRecord_data batchNo, a.fetchBatchRecord_legacyData batchNo⟩,
    decodePostChunk_ixPostChunk_iff,
    fun d signature => ⟨parseDepositedEvent_payload d signature,
      parseDepositedEvent_legacyPayload d signature⟩⟩

def longChunk : ChunkArgs := ⟨0, 0, 1, List.replicate (2 ^ 32) 7⟩

theorem length_longChunk : longChunk.data.length = 2 ^ 32 := List.length_replicate

/-- It announces no bytes and is read back as an empty one. -/
theorem long_chunk_read_empty :
    decodePostChunk (ixPostChunk longChunk) = some { longChunk with data := [] } ∧
    decodePostChunk (ixPostChunk longChunk) ≠ some longChunk := by
  constructor
  · rw [decodePostChunk_ixPostChunk_take, length_longChunk, Nat.mod_self, List.take_zero]
  · intro h
    have hlength := (decodePostChunk_ixPostChunk_iff longChunk).mp h
    rw [length_longChunk] at hlength
    exact lt_irrefl _ hlength

end Zul.Bridge
