import Zul.Bridge.Batch
import Zul.Settlement.Program

/-! # Posted batches

The settlement program numbers batches from zero without gaps and keeps each record in an account
of its own. The batcher resumes from the last record.
-/

namespace Zul.Settlement

open Bridge

structure BatchAccounts where
  /-- `Config::authority`. -/
  authority : Pubkey
  /-- `Config::batch_count`. -/
  batchCount : UInt64
  /-- The batch accounts by number. -/
  batches : PartialMap UInt64 BatchRecord

namespace BatchAccounts

def initialized (authority : Pubkey) : BatchAccounts := ⟨authority, 0, fun _ => none⟩

/-- Post the next batch; creating an account that exists fails before the program's own checks. -/
def postBatch (s : BatchAccounts) (signer : Pubkey) (record : BatchRecord) :
    Except SettlementError BatchAccounts :=
  if (s.batches record.batchNo).isSome then .error .accountInUse
  else if signer ≠ s.authority then .error .unauthorized
  else if record.batchNo ≠ s.batchCount then .error .nonSequentialBatch
  else if record.lastSlot < record.firstSlot then .error .invalidSlotRange
  else
    match checkedSucc s.batchCount with
    | none => .error .overflow
    | some batchCount => .ok { s with
        batchCount
        batches := s.batches.insert record.batchNo record }

/-! ## What the L1 client reads -/

def latestBatchNo (s : BatchAccounts) : Option UInt64 :=
  if s.batchCount = 0 then none else some (s.batchCount - 1)

/-- One past the last settled slot; slot 1 is the first a block can have. -/
def resumeCursorSlot (s : BatchAccounts) : Option UInt64 :=
  match s.latestBatchNo with
  | none => some 1
  | some latestNo => do
    let record ← s.batches latestNo
    checkedSucc record.lastSlot

/-- A batcher at the position L1 has reached. -/
def buildBatcher (s : BatchAccounts) : Option Batcher := do
  let cursorSlot ← s.resumeCursorSlot
  let nextBatchNo ← match s.latestBatchNo with
    | none => some 0
    | some latestNo => checkedSucc latestNo
  return ⟨cursorSlot, nextBatchNo⟩

/-! ## The records on L1 -/

structure Holds (s : BatchAccounts) (records : List BatchRecord) : Prop where
  count : s.batchCount.toNat = records.length
  lookup : ∀ n, s.batches n = records[n.toNat]?

theorem holds_initialized (authority : Pubkey) : (initialized authority).Holds [] :=
  ⟨rfl, fun _ => rfl⟩

variable {s s' : BatchAccounts} {records : List BatchRecord} {signer : Pubkey}
  {record : BatchRecord}

theorem Holds.postBatch (h : s.Holds records) (hpost : s.postBatch signer record = .ok s') :
    s'.Holds (records ++ [record]) ∧ record.batchNo.toNat = records.length ∧
      record.firstSlot ≤ record.lastSlot := by
  unfold BatchAccounts.postBatch at hpost
  split_ifs at hpost with hnew hsigner hnumber hrange
  split at hpost
  · cases hpost
  · rename_i count hcount
    cases hpost
    rw [ne_eq, not_not] at hnumber
    have hlen : record.batchNo.toNat = records.length := by rw [hnumber, h.count]
    refine ⟨⟨?_, fun n => ?_⟩, hlen, UInt64.not_lt.mp hrange⟩
    · rw [(toNat_of_checkedSucc hcount).2, h.count, List.length_append]
      rfl
    · show (s.batches.insert record.batchNo record) n = _
      rw [PartialMap.insert_apply, h.lookup]
      split
      · rename_i heq
        rw [heq, hlen, List.getElem?_concat_length]
      · rename_i hne
        have hne' : n.toNat ≠ records.length := fun heq =>
          hne (UInt64.toNat_inj.mp (heq.trans hlen.symm))
        rcases Nat.lt_or_ge n.toNat records.length with hlt | hge
        · rw [List.getElem?_append_left hlt]
        · rw [List.getElem?_eq_none hge, List.getElem?_eq_none]
          rw [List.length_append, List.length_singleton]
          omega

theorem signer_of_postBatch (h : s.postBatch signer record = .ok s') : signer = s.authority := by
  unfold BatchAccounts.postBatch at h
  split_ifs at h with hnew hsigner
  exact not_not.mp hsigner

theorem Holds.buildBatcher {b : Batcher} (h : s.Holds records) (hb : s.buildBatcher = some b) :
    b.nextBatchNo.toNat = records.length ∧ (records = [] → b.cursorSlot = 1) ∧
      ∀ record, records.getLast? = some record →
        b.cursorSlot.toNat = record.lastSlot.toNat + 1 := by
  rcases List.eq_nil_or_concat records with rfl | ⟨init, last, rfl⟩
  · have hzero : s.batchCount = 0 := UInt64.toNat_inj.mp h.count
    simp only [BatchAccounts.buildBatcher, resumeCursorSlot, latestBatchNo, hzero] at hb
    cases hb
    simp
  · rw [List.concat_eq_append] at h ⊢
    have hcount := h.count
    rw [List.length_append, List.length_singleton] at hcount
    have hne : s.batchCount ≠ 0 := by
      intro heq
      rw [heq] at hcount
      cases hcount
    have hlatest : (s.batchCount - 1).toNat = init.length := by
      rw [UInt64.toNat_sub_of_ge
        (UInt64.le_iff_toNat_le.mpr (by rw [hcount]; exact Nat.le_add_left _ _)), hcount]
      rfl
    have hrecord : s.batches (s.batchCount - 1) = some last := by
      rw [h.lookup, hlatest, List.getElem?_concat_length]
    simp only [BatchAccounts.buildBatcher, resumeCursorSlot, latestBatchNo, if_neg hne, hrecord,
      Option.bind_eq_bind, Option.bind_some, Option.bind_eq_some_iff] at hb
    obtain ⟨cursor, hcursor, next, hnext, heq⟩ := hb
    cases heq
    refine ⟨?_, by simp, ?_⟩
    · rw [(toNat_of_checkedSucc hnext).2, hlatest, List.length_append]
      rfl
    · intro record hlast
      rw [List.getLast?_concat] at hlast
      cases hlast
      exact (toNat_of_checkedSucc hcursor).2

end BatchAccounts

end Zul.Settlement
