import Mathlib.Data.UInt
import Zul.Bridge.Batch

/-! # Recovery

The batches recovered from L1 are checked to be numbered from zero, to have increasing slot ranges
and to carry blocks within them. The check accepts every sequence built by appending batches that
continue it.
-/

namespace Zul.Bridge

/-- One batch as recovered from L1. -/
structure RecoveredBatch where
  record : BatchRecord
  payload : BatchPayload
  deriving DecidableEq

structure RecoverySummary where
  batches : UInt64
  blocks : UInt64
  transactions : UInt64
  firstSlot : UInt64
  lastSlot : UInt64
  finalStateRoot : H256
  deriving DecidableEq

inductive RecoverError
  | empty
  | sequenceGap (expected got : UInt64)
  | nonContiguous (batch first prev : UInt64)
  | outOfRange (batch slot : UInt64)
  | emptyPayload (batch : UInt64)
  deriving DecidableEq

/-- The variables of the loop of `verify`. -/
structure Progress where
  blocks : UInt64
  transactions : UInt64
  prevLastSlot : Option UInt64
  firstSlot : UInt64
  lastSlot : UInt64
  finalStateRoot : H256

def Progress.start : Progress := ⟨0, 0, none, 0, 0, Bytes.replicate 32 0⟩

def Progress.next (acc : Progress) (rb : RecoveredBatch) : Progress where
  blocks := acc.blocks + UInt64.ofNat rb.payload.blocks.length
  transactions := acc.transactions +
    (rb.payload.blocks.map fun block => UInt64.ofNat block.transactions.length).sum
  prevLastSlot := some rb.record.lastSlot
  firstSlot := if acc.prevLastSlot.isNone then rb.record.firstSlot else acc.firstSlot
  lastSlot := rb.record.lastSlot
  finalStateRoot := rb.record.stateRoot

def verifyBatch (acc : Progress) (entry : RecoveredBatch × ℕ) : Except RecoverError Progress :=
  let (rb, i) := entry
  let r := rb.record
  if r.batchNo ≠ UInt64.ofNat i then .error (.sequenceGap (UInt64.ofNat i) r.batchNo)
  else
    match acc.prevLastSlot.filter (r.firstSlot ≤ ·) with
    | some prev => .error (.nonContiguous r.batchNo r.firstSlot prev)
    | none =>
      if rb.payload.blocks.isEmpty then .error (.emptyPayload r.batchNo)
      else
        match rb.payload.blocks.find? fun block =>
          block.header.slot < r.firstSlot || r.lastSlot < block.header.slot with
        | some block => .error (.outOfRange r.batchNo block.header.slot)
        | none => .ok (acc.next rb)

def verify (batches : List RecoveredBatch) : Except RecoverError RecoverySummary :=
  if batches.isEmpty then .error .empty
  else do
    let acc ← batches.zipIdx.foldlM verifyBatch Progress.start
    return ⟨UInt64.ofNat batches.length, acc.blocks, acc.transactions, acc.firstSlot, acc.lastSlot,
      acc.finalStateRoot⟩

/-! ## What the check accepts -/

inductive Sequenced : List RecoveredBatch → Prop
  | nil : Sequenced []
  | concat {batches : List RecoveredBatch} {rb : RecoveredBatch} (h : Sequenced batches)
      (number : rb.record.batchNo = UInt64.ofNat batches.length)
      (after : ∀ prev, batches.getLast? = some prev → prev.record.lastSlot < rb.record.firstSlot)
      (blocks : rb.payload.blocks ≠ [])
      (inRange : ∀ block ∈ rb.payload.blocks,
        rb.record.firstSlot ≤ block.header.slot ∧ block.header.slot ≤ rb.record.lastSlot) :
      Sequenced (batches ++ [rb])

def blockCount (batches : List RecoveredBatch) : ℕ :=
  (batches.map fun rb => rb.payload.blocks.length).sum

def transactionCount (batches : List RecoveredBatch) : ℕ :=
  (batches.map fun rb => (rb.payload.blocks.map (·.transactions.length)).sum).sum

theorem blockCount_concat (batches : List RecoveredBatch) (rb : RecoveredBatch) :
    blockCount (batches ++ [rb]) = blockCount batches + rb.payload.blocks.length := by
  simp [blockCount]

theorem transactionCount_concat (batches : List RecoveredBatch) (rb : RecoveredBatch) :
    transactionCount (batches ++ [rb]) =
      transactionCount batches + (rb.payload.blocks.map (·.transactions.length)).sum := by
  simp [transactionCount]

theorem sum_map_ofNat (l : List ℕ) : (l.map UInt64.ofNat).sum = UInt64.ofNat l.sum := by
  induction l with
  | nil => rfl
  | cons n l ih => rw [List.map_cons, List.sum_cons, ih, List.sum_cons, UInt64.ofNat_add]

theorem verifyBatch_ok {acc : Progress} {rb : RecoveredBatch} {i : ℕ}
    (number : rb.record.batchNo = UInt64.ofNat i)
    (after : ∀ prev, acc.prevLastSlot = some prev → prev < rb.record.firstSlot)
    (blocks : rb.payload.blocks ≠ [])
    (inRange : ∀ block ∈ rb.payload.blocks,
      rb.record.firstSlot ≤ block.header.slot ∧ block.header.slot ≤ rb.record.lastSlot) :
    verifyBatch acc (rb, i) = .ok (acc.next rb) := by
  have hafter : acc.prevLastSlot.filter (rb.record.firstSlot ≤ ·) = none := by
    rw [Option.filter_eq_none_iff]
    intro prev hprev
    rw [decide_eq_true_eq]
    exact UInt64.not_le.mpr (after prev hprev)
  have hrange : rb.payload.blocks.find? (fun block =>
      block.header.slot < rb.record.firstSlot || rb.record.lastSlot < block.header.slot) =
        none := by
    rw [List.find?_eq_none]
    intro block hblock
    obtain ⟨hge, hle⟩ := inRange block hblock
    rw [Bool.or_eq_true, decide_eq_true_eq, decide_eq_true_eq, not_or]
    exact ⟨UInt64.not_lt.mpr hge, UInt64.not_lt.mpr hle⟩
  have hempty : ¬ rb.payload.blocks.isEmpty = true := fun h => blocks (List.isEmpty_iff.mp h)
  unfold verifyBatch
  dsimp only
  rw [if_neg (not_not.mpr number), hafter]
  dsimp only
  rw [if_neg hempty, hrange]

theorem Sequenced.number {batches : List RecoveredBatch} (h : Sequenced batches) {i : ℕ}
    {rb : RecoveredBatch} (hrb : batches[i]? = some rb) : UInt64.ofNat i = rb.record.batchNo := by
  induction h with
  | nil => cases hrb
  | @concat batches last h number after blocks inRange ih =>
    rcases Nat.lt_trichotomy i batches.length with hlt | rfl | hgt
    · rw [List.getElem?_append_left hlt] at hrb
      exact ih hrb
    · rw [List.getElem?_concat_length] at hrb
      cases hrb
      exact number.symm
    · rw [List.getElem?_eq_none (by rw [List.length_append, List.length_singleton]; exact hgt)]
        at hrb
      cases hrb

theorem Sequenced.foldlM {batches : List RecoveredBatch} (h : Sequenced batches) :
    ∃ acc, batches.zipIdx.foldlM verifyBatch Progress.start = .ok acc ∧
      acc.blocks = UInt64.ofNat (blockCount batches) ∧
      acc.transactions = UInt64.ofNat (transactionCount batches) ∧
      acc.prevLastSlot = batches.getLast?.map (·.record.lastSlot) := by
  induction h with
  | nil => exact ⟨Progress.start, rfl, rfl, rfl, rfl⟩
  | @concat batches rb h number after blocks inRange ih =>
    obtain ⟨acc, hfold, hblocks, htransactions, hprev⟩ := ih
    have hround : verifyBatch acc (rb, batches.length) = .ok (acc.next rb) := by
      refine verifyBatch_ok number (fun prev hacc => ?_) blocks inRange
      rw [hprev, Option.map_eq_some_iff] at hacc
      obtain ⟨last, hlast, rfl⟩ := hacc
      exact after last hlast
    refine ⟨acc.next rb, ?_, ?_, ?_, ?_⟩
    · rw [List.zipIdx_append, List.foldlM_append, hfold, Nat.zero_add]
      exact (bind_pure _).trans hround
    · rw [blockCount_concat, UInt64.ofNat_add, ← hblocks]
      rfl
    · rw [transactionCount_concat, UInt64.ofNat_add, ← htransactions, ← sum_map_ofNat, List.map_map]
      rfl
    · rw [List.getLast?_concat]
      rfl

theorem Sequenced.verify {batches : List RecoveredBatch} (h : Sequenced batches)
    (hne : batches ≠ []) :
    ∃ summary, Bridge.verify batches = .ok summary ∧
      summary.batches = UInt64.ofNat batches.length ∧
      summary.blocks = UInt64.ofNat (blockCount batches) ∧
      summary.transactions = UInt64.ofNat (transactionCount batches) := by
  obtain ⟨acc, hfold, hblocks, htransactions, -⟩ := h.foldlM
  refine ⟨⟨UInt64.ofNat batches.length, acc.blocks, acc.transactions, acc.firstSlot, acc.lastSlot,
    acc.finalStateRoot⟩, ?_, rfl, hblocks, htransactions⟩
  rw [Bridge.verify, if_neg (fun hempty => hne (List.isEmpty_iff.mp hempty)), hfold]
  rfl

end Zul.Bridge
