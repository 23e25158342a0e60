import Zul.Bridge.DaLog
import Zul.Node.Lifecycle

/-! # The settlement driver

A thread of the node posts batches to L1 while blocks are produced. Its calls to L1 may fail before
or after they take effect; it then reads its position from L1 again, if it can. The process, or the
thread alone, may end at any time and start over. Anyone may publish to the data-availability log.
-/

namespace Zul.Node

open Bridge Settlement

structure Driver where
  codec : Codec
  /-- The key that signs for the bridge authority. -/
  authority : Pubkey
  batchIntervalSlots : UInt64

/-- A window is never without slots. -/
def Driver.interval (D : Driver) : UInt64 :=
  max D.batchIntervalSlots 1

inductive Thread
  /-- There is no batcher: the process is down, or its position could not be read from L1 yet. -/
  | off
  | idle (b : Batcher)
  /-- The tip of the next window is known. -/
  | tipRead (b : Batcher) (tip : UInt64)
  /-- So many chunks of a batch are published. -/
  | publishing (b : Batcher) (a : Attempt) (sent : ℕ)
  /-- All chunks are published and the record is complete. -/
  | recordReady (b : Batcher) (a : Attempt) (record : BatchRecord)
  /-- A call failed. -/
  | failed (b : Batcher)

def Thread.within (thread : Thread) : Life → Thread
  | .up _ _ => thread
  | .down _ _ => .off

/-- The process with its store, L1, and the thread between them. -/
structure World where
  life : Life
  /-- The blocks committed so far. -/
  drafts : List BlockDraft
  batches : BatchAccounts
  daLog : List DaEntry
  thread : Thread
  /-- The records on L1 with the payloads they were built from. -/
  posted : List RecoveredBatch

/-- An empty database and a settlement program that was just set up. -/
def World.start (authority : Pubkey) : World :=
  ⟨.down Store.empty fun _ => none, [], .initialized authority, [], .off, []⟩

inductive WorldEvent
  /-- The producer, or the process as a whole. -/
  | life (event : LifeEvent)
  /-- The thread starts from what L1 holds. -/
  | build
  | readTip
  /-- The blocks of the window are read. -/
  | scan
  /-- A chunk is published; the call may still fail. -/
  | chunkPosted (ok : Bool)
  | chunkLost
  /-- The withdrawals root is read from the store. -/
  | readRoot
  /-- The record is posted; the call may still fail. -/
  | recordPosted (ok : Bool)
  | recordLost
  /-- A read of the store fails inside `run_once`. -/
  | storeError
  | rederive
  | rederiveFail
  /-- The thread ends. -/
  | restart
  /-- Anyone publishes to the data-availability log. -/
  | foreign

variable (E : Env) (D : Driver)

/-- `min(latest, cursor + interval - 1)`. -/
def Driver.tip (latest cursor : UInt64) : Option UInt64 :=
  if cursor.toNat + D.interval.toNat < 2 ^ 64 then some (min latest (cursor + D.interval - 1))
  else none

def afterScan (b : Batcher) (store : Store) (tip : UInt64) : Thread :=
  if tip < b.cursorSlot then .idle b
  else
    match b.collect store tip with
    | none => (b.skip tip).elim .off .idle
    | some a => .publishing b a 0

def chunkArgs (a : Attempt) (index : ℕ) (chunk : List UInt8) : ChunkArgs :=
  ⟨a.payload.batchNo, UInt32.ofNat index, a.chunkCount D.codec, chunk⟩

inductive WorldStep : World → WorldEvent → World → Prop
  | life {w : World} {life' : Life} {event : LifeEvent} (h : LifeStep E w.life event life') :
      WorldStep w (.life event) { w with
        life := life'
        drafts := w.drafts ++ event.drafts
        thread := w.thread.within life' }
  | build {w : World} {node : Node} {pending : Option H256} {b : Batcher}
      (up : w.life = .up node pending) (off : w.thread = .off)
      (h : w.batches.buildBatcher = some b) : WorldStep w .build { w with thread := .idle b }
  | readTip {w : World} {node : Node} {pending : Option H256} {b : Batcher} {tip : UInt64}
      (up : w.life = .up node pending) (idle : w.thread = .idle b)
      (due : b.cursorSlot ≤ node.store.latestSlot.getD 0)
      (h : D.tip (node.store.latestSlot.getD 0) b.cursorSlot = some tip) :
      WorldStep w .readTip { w with thread := .tipRead b tip }
  | scan {w : World} {node : Node} {pending : Option H256} {b : Batcher} {tip : UInt64}
      (up : w.life = .up node pending) (h : w.thread = .tipRead b tip) :
      WorldStep w .scan { w with thread := afterScan b node.store tip }
  | chunkPosted {w : World} {b : Batcher} {a : Attempt} {sent : ℕ} {chunk : List UInt8} {ok : Bool}
      (h : w.thread = .publishing b a sent) (hchunk : (a.chunks D.codec)[sent]? = some chunk)
      (hlen : (chunkArgs D a sent chunk).data.length < 2 ^ 32)
      (accepted : postChunk (chunkArgs D a sent chunk) = .ok ()) :
      WorldStep w (.chunkPosted ok) { w with
        daLog := w.daLog ++ [.ofChunk (chunkArgs D a sent chunk) hlen accepted]
        thread := if ok then .publishing b a (sent + 1) else .failed b }
  | chunkLost {w : World} {b : Batcher} {a : Attempt} {sent : ℕ}
      (h : w.thread = .publishing b a sent) :
      WorldStep w .chunkLost { w with thread := .failed b }
  | readRoot {w : World} {node : Node} {pending : Option H256} {b : Batcher} {a : Attempt}
      (up : w.life = .up node pending)
      (h : w.thread = .publishing b a (a.chunks D.codec).length) :
      WorldStep w .readRoot { w with
        thread := .recordReady b a (a.record E.prims D.codec node.store.withdrawalsRoot) }
  | recordPosted {w : World} {b : Batcher} {a : Attempt} {record : BatchRecord}
      {batches : BatchAccounts} {ok : Bool} (h : w.thread = .recordReady b a record)
      (accepted : w.batches.postBatch D.authority record = .ok batches) :
      WorldStep w (.recordPosted ok) { w with
        batches
        posted := w.posted ++ [⟨record, a.payload⟩]
        thread := if ok then (b.posted a.payload.lastSlot).elim .off .idle else .failed b }
  | recordLost {w : World} {b : Batcher} {a : Attempt} {record : BatchRecord}
      (h : w.thread = .recordReady b a record) :
      WorldStep w .recordLost { w with thread := .failed b }
  | storeError {w : World} {b : Batcher}
      (h : (∃ tip, w.thread = .tipRead b tip) ∨ ∃ a sent, w.thread = .publishing b a sent) :
      WorldStep w .storeError { w with thread := .failed b }
  | rederive {w : World} {b b' : Batcher} (h : w.thread = .failed b)
      (read : w.batches.buildBatcher = some b') :
      WorldStep w .rederive { w with thread := .idle b' }
  | rederiveFail {w : World} {b : Batcher} (h : w.thread = .failed b) :
      WorldStep w .rederiveFail { w with thread := .idle b }
  | restart {w : World} : WorldStep w .restart { w with thread := .off }
  | foreign {w : World} (entry : DaEntry) :
      WorldStep w .foreign { w with daLog := w.daLog ++ [entry] }

inductive Runs (allowed : World → WorldEvent → Prop) : World → Prop
  | start (authority : Pubkey) : Runs allowed (.start authority)
  | step {w w' : World} {event : WorldEvent} (runs : Runs allowed w) (meets : allowed w event)
      (h : WorldStep E D w event w') : Runs allowed w'

abbrev Reached : World → Prop := Runs E D fun _ _ => True

variable {E D} {allowed : World → WorldEvent → Prop}

theorem WorldStep.lived {w w' : World} {event : WorldEvent} (h : WorldStep E D w event w')
    (lived : Lived E w.life w.drafts) : Lived E w'.life w'.drafts := by
  cases h with
  | life h => exact lived.step h
  | _ => exact lived

theorem Runs.lived {w : World} (runs : Runs E D allowed w) : Lived E w.life w.drafts := by
  induction runs with
  | start authority => exact .start
  | step runs meets h ih => exact h.lived ih

end Zul.Node
