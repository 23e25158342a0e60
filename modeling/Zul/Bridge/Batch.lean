import Zul.Lib.Lists
import Zul.Store.Store

/-! # Settlement batches

The batcher collects the non-empty blocks since its cursor, publishes them compressed and cut into
chunks, and posts a record of the batch. Cursor arithmetic that overflows panics, here `none`.
-/

namespace Zul.Bridge

def DA_CHUNK_BYTES : ℕ := 800

def BATCH_BLOCK_LIMIT : ℕ := 10000

/-- What gets compressed and published per batch: the non-empty blocks in slot order. -/
structure BatchPayload where
  batchNo : UInt64
  firstSlot : UInt64
  lastSlot : UInt64
  blocks : List Block
  deriving DecidableEq

structure BatchRecord where
  batchNo : UInt64
  firstSlot : UInt64
  lastSlot : UInt64
  stateRoot : H256
  withdrawalsRoot : H256
  /-- Hash of the compressed payload. -/
  daHash : H256
  chunkCount : UInt32
  deriving DecidableEq

structure Codec where
  compress : BatchPayload → List UInt8
  decompress : List UInt8 → Option BatchPayload

def daHash (P : Prims) (compressed : List UInt8) : H256 :=
  P.blake3_32 (strBytes "PL2:da:batch:v1") compressed

def chunkPayload (compressed : List UInt8) : List (List UInt8) :=
  compressed.chunks DA_CHUNK_BYTES

def checkedSucc (x : UInt64) : Option UInt64 :=
  if x.toNat + 1 < 2 ^ 64 then some (x + 1) else none

theorem toNat_of_checkedSucc {x y : UInt64} (h : checkedSucc x = some y) :
    y = x + 1 ∧ y.toNat = x.toNat + 1 := by
  unfold checkedSucc at h
  split at h
  · rename_i hlt
    cases h
    refine ⟨rfl, ?_⟩
    rw [UInt64.toNat_add]
    exact Nat.mod_eq_of_lt hlt
  · cases h

/-- The batcher's own position; its L1 client is the state the driver runs on. -/
structure Batcher where
  /-- First slot not yet batched. -/
  cursorSlot : UInt64
  nextBatchNo : UInt64
  deriving DecidableEq

structure Attempt where
  payload : BatchPayload
  stateRoot : H256
  deriving DecidableEq

namespace Attempt

variable (P : Prims) (C : Codec)

def chunks (a : Attempt) : List (List UInt8) := chunkPayload (C.compress a.payload)

def chunkCount (a : Attempt) : UInt32 := UInt32.ofNat (a.chunks C).length

/-- The record posted after the chunks, with the withdrawals root read at that time. -/
def record (a : Attempt) (withdrawalsRoot : H256) : BatchRecord where
  batchNo := a.payload.batchNo
  firstSlot := a.payload.firstSlot
  lastSlot := a.payload.lastSlot
  stateRoot := a.stateRoot
  withdrawalsRoot
  daHash := Bridge.daHash P (C.compress a.payload)
  chunkCount := a.chunkCount C

end Attempt

/-- One step of the loop over the slots of a window: the last state root and the non-empty
blocks so far. -/
def readBlock (store : Store) (acc : Option H256 × List Block) (slot : UInt64) :
    Option H256 × List Block :=
  match store.getBlock slot with
  | none => acc
  | some block =>
    (some block.header.stateRoot,
      if 0 < block.header.transactionCount then acc.2 ++ [block] else acc.2)

namespace Batcher

def collect (b : Batcher) (store : Store) (tip : UInt64) : Option Attempt :=
  match (store.blockSlotsInRange b.cursorSlot tip BATCH_BLOCK_LIMIT).foldl (readBlock store)
      (none, []) with
  | (none, _) => none
  | (some stateRoot, blocks) =>
    if blocks.isEmpty then none
    else some ⟨⟨b.nextBatchNo, b.cursorSlot, tip, blocks⟩, stateRoot⟩

def skip (b : Batcher) (tip : UInt64) : Option Batcher :=
  (checkedSucc tip).map fun cursorSlot => { b with cursorSlot }

def posted (b : Batcher) (tip : UInt64) : Option Batcher := do
  let cursorSlot ← checkedSucc tip
  let nextBatchNo ← checkedSucc b.nextBatchNo
  return ⟨cursorSlot, nextBatchNo⟩

variable (P : Prims) (C : Codec)

/-- A call of `run_once` whose L1 calls succeed, on a store that does not change meanwhile: the
batcher after it, and the record it posted with the payload it published. -/
def runOnce (b : Batcher) (store : Store) (tip : UInt64) :
    Option (Batcher × Option (BatchRecord × BatchPayload)) :=
  if tip < b.cursorSlot then some (b, none)
  else
    match b.collect store tip with
    | none => (b.skip tip).map fun b => (b, none)
    | some a =>
      (b.posted tip).map fun b => (b, some (a.record P C store.withdrawalsRoot, a.payload))

def runAll (store : Store) : Batcher → List UInt64 →
    Option (Batcher × List (BatchRecord × BatchPayload))
  | b, [] => some (b, [])
  | b, tip :: tips => do
    let (b, out) ← b.runOnce P C store tip
    let (b, rest) ← runAll store b tips
    return (b, out.toList ++ rest)

end Batcher

/-! ## Windows of blocks -/

/-- The committed blocks of the slots in `[first, first + count)`, in slot order. -/
def blocksFrom (store : Store) (first count : ℕ) : List Block :=
  (List.range' first count).filterMap fun slot => store.getBlock (UInt64.ofNat slot)

/-- The committed blocks of the window `[first, last]`. -/
def windowBlocks (store : Store) (first last : UInt64) : List Block :=
  blocksFrom store first.toNat (last.toNat + 1 - first.toNat)

theorem blocksFrom_append (store : Store) (first m n : ℕ) :
    blocksFrom store first (m + n) = blocksFrom store first m ++
      blocksFrom store (first + m) n := by
  rw [blocksFrom, ← List.range'_append_1, List.filterMap_append]
  rfl

theorem blocksFrom_succ (store : Store) (first n : ℕ) :
    blocksFrom store first (n + 1) =
      blocksFrom store first n ++ (store.getBlock (UInt64.ofNat (first + n))).toList := by
  rw [blocksFrom_append]
  congr 1

theorem windowBlocks_self (store : Store) (slot : UInt64) :
    windowBlocks store slot slot = (store.getBlock slot).toList := by
  rw [windowBlocks, Nat.add_sub_cancel_left, blocksFrom_succ, Nat.add_zero, UInt64.ofNat_toNat]
  rfl

theorem length_windowBlocks_le (store : Store) (first last : UInt64) :
    (windowBlocks store first last).length ≤ last.toNat + 1 - first.toNat :=
  (List.length_filterMap_le _ _).trans_eq List.length_range'

theorem filterMap_blockSlotsInRange (store : Store) (first last : UInt64) (limit : ℕ) :
    (store.blockSlotsInRange first last limit).filterMap store.getBlock =
      (windowBlocks store first last).take (max limit 1) := by
  have hwindow : windowBlocks store first last = ((List.range' first.toNat
      (last.toNat + 1 - first.toNat)).map UInt64.ofNat).filterMap store.getBlock :=
    List.filterMap_map.symm
  rw [Store.blockSlotsInRange, hwindow]
  generalize (List.range' first.toNat _).map UInt64.ofNat = slots
  generalize max limit 1 = limit
  induction slots generalizing limit with
  | nil => simp
  | cons slot slots ih =>
    cases hblock : store.blocks slot with
    | none =>
      rw [List.filter_cons_of_neg (by simp [hblock]), ih,
        List.filterMap_cons_none (by rw [Store.getBlock, hblock])]
    | some block =>
      cases limit with
      | zero => simp
      | succ limit =>
        rw [List.filter_cons_of_pos (by simp [hblock]), List.take_succ_cons,
          List.filterMap_cons_some (by rw [Store.getBlock, hblock]), ih,
          List.filterMap_cons_some (by rw [Store.getBlock, hblock]), List.take_succ_cons]

theorem foldl_readBlock (store : Store) (slots : List UInt64) (acc : Option H256 × List Block) :
    slots.foldl (readBlock store) acc =
      (((slots.filterMap store.getBlock).getLast?.map (·.header.stateRoot)).or acc.1,
        acc.2 ++ (slots.filterMap store.getBlock).filter (0 < ·.header.transactionCount)) := by
  induction slots generalizing acc with
  | nil => simp
  | cons slot slots ih =>
    rw [List.foldl_cons, ih]
    cases hblock : store.getBlock slot with
    | none => simp [readBlock, hblock]
    | some block =>
      simp only [readBlock, hblock, List.filterMap_cons_some hblock, List.getLast?_cons,
        List.filter_cons]
      split <;> cases (slots.filterMap store.getBlock).getLast? <;> simp_all

/-- What a window is posted from: the blocks read, of which those with transactions go into the
payload and the last gives the state root. -/
theorem Batcher.collect_eq {b : Batcher} {store : Store} {tip : UInt64} {read : List Block}
    (hread : read = (windowBlocks store b.cursorSlot tip).take BATCH_BLOCK_LIMIT) :
    b.collect store tip = match read.getLast?.map (·.header.stateRoot) with
      | none => none
      | some stateRoot =>
        if (read.filter (0 < ·.header.transactionCount)).isEmpty then none
        else some ⟨⟨b.nextBatchNo, b.cursorSlot, tip, read.filter (0 < ·.header.transactionCount)⟩,
          stateRoot⟩ := by
  rw [Batcher.collect, foldl_readBlock, filterMap_blockSlotsInRange,
    show max BATCH_BLOCK_LIMIT 1 = BATCH_BLOCK_LIMIT from rfl, ← hread, Option.or_none,
    List.nil_append]
  cases read.getLast?.map (·.header.stateRoot) <;> rfl

theorem Batcher.collect_eq_none_iff {b : Batcher} {store : Store} {tip : UInt64} :
    b.collect store tip = none ↔ ((windowBlocks store b.cursorSlot tip).take
      BATCH_BLOCK_LIMIT).filter (0 < ·.header.transactionCount) = [] := by
  rw [Batcher.collect_eq rfl]
  split
  · rename_i hlast
    rw [Option.map_eq_none_iff, List.getLast?_eq_none_iff] at hlast
    simp [hlast]
  · simp

theorem Batcher.collect_eq_some {b : Batcher} {store : Store} {tip : UInt64} {a : Attempt}
    (h : b.collect store tip = some a) :
    a.payload = ⟨b.nextBatchNo, b.cursorSlot, tip, ((windowBlocks store b.cursorSlot tip).take
        BATCH_BLOCK_LIMIT).filter (0 < ·.header.transactionCount)⟩ ∧
      ((windowBlocks store b.cursorSlot tip).take BATCH_BLOCK_LIMIT).getLast?.map
        (·.header.stateRoot) = some a.stateRoot ∧ a.payload.blocks ≠ [] := by
  rw [Batcher.collect_eq rfl] at h
  split at h
  · cases h
  · rename_i stateRoot hlast
    split at h
    · cases h
    · rename_i hne
      cases h
      exact ⟨rfl, hlast, fun hnil => hne (List.isEmpty_iff.mpr hnil)⟩

end Zul.Bridge
