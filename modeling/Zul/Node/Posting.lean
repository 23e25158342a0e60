import Zul.Node.L1
import Zul.Node.Rebuild

/-! # The records on L1

The batcher's position can fall behind L1 but never gets ahead of it: its cursor lies after every
record below its batch number. The program takes a record only under the next number, so the
records on L1 continue each other whatever calls failed, and recovery accepts them.
-/

namespace Zul.Node

open Bridge Settlement

variable {E : Env} {D : Driver}

/-- The position of a batcher that is not ahead of L1. -/
structure Behind (posted : List RecoveredBatch) (b : Batcher) : Prop where
  number : b.nextBatchNo.toNat ≤ posted.length
  cursor_pos : 0 < b.cursorSlot.toNat
  cursor : ∀ prev, (posted.take b.nextBatchNo.toNat).getLast? = some prev →
    prev.record.lastSlot < b.cursorSlot

structure Drawn (b : Batcher) (a : Attempt) : Prop where
  batchNo : a.payload.batchNo = b.nextBatchNo
  firstSlot : a.payload.firstSlot = b.cursorSlot
  blocks : a.payload.blocks ≠ []
  inRange : ∀ block ∈ a.payload.blocks,
    a.payload.firstSlot ≤ block.header.slot ∧ block.header.slot ≤ a.payload.lastSlot
  length_le : a.payload.blocks.length ≤ a.payload.lastSlot.toNat + 1 - a.payload.firstSlot.toNat

/-- What the thread holds fits what is on L1. -/
def Thread.Sound (posted : List RecoveredBatch) : Thread → Prop
  | .off => True
  | .idle b | .failed b => Behind posted b
  | .tipRead b _ => Behind posted b
  | .publishing b a _ => Behind posted b ∧ Drawn b a
  | .recordReady b a record => Behind posted b ∧ Drawn b a ∧
      record.batchNo = a.payload.batchNo ∧ record.firstSlot = a.payload.firstSlot ∧
      record.lastSlot = a.payload.lastSlot

structure Posted (w : World) : Prop where
  holds : w.batches.Holds (w.posted.map (·.record))
  sequenced : Sequenced w.posted
  /-- Every block is posted for a slot of its own. -/
  blockCount_le : ∀ prev, w.posted.getLast? = some prev →
    blockCount w.posted ≤ prev.record.lastSlot.toNat
  thread : w.thread.Sound w.posted

theorem behind_buildBatcher {batches : BatchAccounts} {posted : List RecoveredBatch} {b : Batcher}
    (h : batches.Holds (posted.map (·.record))) (hb : batches.buildBatcher = some b) :
    Behind posted b := by
  obtain ⟨hnumber, hempty, hlast⟩ := h.buildBatcher hb
  rw [List.length_map] at hnumber
  refine ⟨hnumber.le, ?_, fun prev hprev => ?_⟩
  · rcases List.eq_nil_or_concat posted with rfl | ⟨init, last, rfl⟩
    · rw [hempty rfl]
      decide
    · rw [hlast last.record (by simp)]
      exact Nat.succ_pos _
  · rw [hnumber, List.take_length] at hprev
    rw [UInt64.lt_iff_toNat_lt, hlast prev.record (by rw [List.getLast?_map, hprev]; rfl)]
    exact Nat.lt_succ_self _

theorem Behind.concat {posted : List RecoveredBatch} {b : Batcher} (h : Behind posted b)
    (rb : RecoveredBatch) : Behind (posted ++ [rb]) b := by
  refine ⟨?_, h.cursor_pos, ?_⟩
  · rw [List.length_append]
    exact h.number.trans (Nat.le_add_right _ _)
  · rw [List.take_append_of_le_length h.number]
    exact h.cursor

theorem drawn_of_collect {store : Store} {n : ℕ} {b : Batcher} {tip : UInt64} {a : Attempt}
    (hchain : ChainUpTo E store n) (h : b.collect store tip = some a) : Drawn b a := by
  obtain ⟨hpayload, -, hne⟩ := Batcher.collect_eq_some h
  have hsub : a.payload.blocks.Sublist (windowBlocks store b.cursorSlot tip) := by
    rw [hpayload]
    exact List.filter_sublist.trans (List.take_sublist _ _)
  have hfirst : a.payload.firstSlot = b.cursorSlot := by rw [hpayload]
  have hlast : a.payload.lastSlot = tip := by rw [hpayload]
  refine ⟨by rw [hpayload], hfirst, hne, fun block hblock => ?_, ?_⟩
  · rw [hfirst, hlast]
    obtain ⟨k, hk, hget⟩ := List.mem_filterMap.mp (hsub.subset hblock)
    rw [List.mem_range'_1] at hk
    have htip := tip.toNat_lt
    have hslot := (hchain.linked _ _ hget).1
    have htoNat : (UInt64.ofNat k).toNat = k := UInt64.toNat_ofNat_of_lt' (show k < 2 ^ 64 by omega)
    rw [hslot, UInt64.le_iff_toNat_le, UInt64.le_iff_toNat_le, htoNat]
    omega
  · rw [hfirst, hlast]
    exact hsub.length_le.trans (length_windowBlocks_le _ _ _)

theorem Behind.advance {posted : List RecoveredBatch} {b : Batcher} (h : Behind posted b)
    {cursorSlot : UInt64} (hle : b.cursorSlot ≤ cursorSlot) : Behind posted { b with cursorSlot } :=
  ⟨h.number, h.cursor_pos.trans_le (UInt64.le_iff_toNat_le.mp hle),
    fun prev hprev => UInt64.lt_of_lt_of_le (h.cursor prev hprev) hle⟩

theorem sound_afterScan {posted : List RecoveredBatch} {b : Batcher} {store : Store} {n : ℕ}
    (h : Behind posted b) (hchain : ChainUpTo E store n) (tip : UInt64) :
    (afterScan b store tip).Sound posted := by
  unfold afterScan
  split
  · exact h
  · rename_i hge
    cases hcollect : b.collect store tip with
    | some a => exact ⟨h, drawn_of_collect hchain hcollect⟩
    | none =>
      cases hskip : b.skip tip with
      | none => exact trivial
      | some b' =>
        obtain ⟨cursorSlot, hcursor, rfl⟩ := Option.map_eq_some_iff.mp hskip
        have hsucc := (toNat_of_checkedSucc hcursor).2
        have hle := UInt64.le_iff_toNat_le.mp (UInt64.not_lt.mp hge)
        exact h.advance (UInt64.le_iff_toNat_le.mpr (by omega))

theorem sound_posted {posted : List RecoveredBatch} {b : Batcher} {rb : RecoveredBatch}
    (hnext : b.nextBatchNo.toNat = posted.length) :
    Thread.Sound (posted ++ [rb]) ((b.posted rb.record.lastSlot).elim .off .idle) := by
  cases hb : b.posted rb.record.lastSlot with
  | none => exact trivial
  | some b' =>
    simp only [Batcher.posted, Option.bind_eq_bind, Option.bind_eq_some_iff] at hb
    obtain ⟨cursorSlot, hcursor, nextBatchNo, hnumber, heq⟩ := hb
    cases heq
    have hcursor := (toNat_of_checkedSucc hcursor).2
    have hnumber := (toNat_of_checkedSucc hnumber).2
    have hlength : nextBatchNo.toNat = (posted ++ [rb]).length := by
      rw [hnumber, hnext, List.length_append]
      rfl
    refine ⟨hlength.le, ?_, fun prev hprev => ?_⟩
    · show 0 < cursorSlot.toNat
      omega
    · rw [show (Batcher.mk cursorSlot nextBatchNo).nextBatchNo = nextBatchNo from rfl, hlength,
        List.take_length, List.getLast?_concat] at hprev
      cases hprev
      exact UInt64.lt_iff_toNat_lt.mpr (by show _ < cursorSlot.toNat; omega)

theorem Posted.concat {w : World} {b : Batcher} {a : Attempt} {record : BatchRecord}
    {batches : BatchAccounts} (h : Posted w) (hthread : w.thread = .recordReady b a record)
    (accepted : w.batches.postBatch D.authority record = .ok batches) :
    batches.Holds ((w.posted ++ [RecoveredBatch.mk record a.payload]).map (·.record)) ∧
      Sequenced (w.posted ++ [⟨record, a.payload⟩]) ∧
      blockCount (w.posted ++ [⟨record, a.payload⟩]) ≤ record.lastSlot.toNat ∧
      b.nextBatchNo.toNat = w.posted.length := by
  have hsound := h.thread
  rw [hthread] at hsound
  obtain ⟨hbehind, hdrawn, hbatchNo, hfirst, hlast⟩ := hsound
  obtain ⟨hholds, hnumber, hrange⟩ := h.holds.postBatch accepted
  rw [List.length_map] at hnumber
  have hnext : b.nextBatchNo.toNat = w.posted.length := by
    rw [← hdrawn.batchNo, ← hbatchNo, hnumber]
  have hcursor : ∀ prev, w.posted.getLast? = some prev →
      prev.record.lastSlot < record.firstSlot := by
    intro prev hprev
    rw [hfirst, hdrawn.firstSlot]
    refine hbehind.cursor prev ?_
    rw [hnext, List.take_length, hprev]
  refine ⟨?_, .concat h.sequenced ?_ hcursor hdrawn.blocks ?_, ?_, hnext⟩
  · rw [List.map_append]
    exact hholds
  · rw [← hnumber]
    exact UInt64.ofNat_toNat.symm
  · rw [hfirst, hlast]
    exact hdrawn.inRange
  · have hlength := hdrawn.length_le
    rw [← hfirst, ← hlast] at hlength
    have hpos : 0 < record.firstSlot.toNat := by
      rw [hfirst, hdrawn.firstSlot]
      exact hbehind.cursor_pos
    have hcount : blockCount w.posted < record.firstSlot.toNat := by
      rcases List.eq_nil_or_concat w.posted with hnil | ⟨init, prev, hposted⟩
      · rw [hnil]
        exact hpos
      · have hprev : w.posted.getLast? = some prev := by rw [hposted]; simp
        exact (h.blockCount_le prev hprev).trans_lt
          (UInt64.lt_iff_toNat_lt.mp (hcursor prev hprev))
    rw [UInt64.le_iff_toNat_le] at hrange
    rw [blockCount_concat]
    dsimp only
    omega

theorem Posted.step {w w' : World} {event : WorldEvent} (h : Posted w)
    (lived : Lived E w.life w.drafts) (hstep : WorldStep E D w event w') : Posted w' := by
  have hthread := h.thread
  cases hstep with
  | @life life' event hlife =>
    refine ⟨h.holds, h.sequenced, h.blockCount_le, ?_⟩
    cases life' with
    | up node pending => exact hthread
    | down store withdrawals => exact trivial
  | build up off hb => exact ⟨h.holds, h.sequenced, h.blockCount_le, behind_buildBatcher h.holds hb⟩
  | readTip up idle due htip =>
    rw [idle] at hthread
    exact ⟨h.holds, h.sequenced, h.blockCount_le, hthread⟩
  | @scan node pending b tip up hread =>
    rw [hread] at hthread
    have hchain := (lived.chain up).chain
    exact ⟨h.holds, h.sequenced, h.blockCount_le, sound_afterScan hthread hchain tip⟩
  | @chunkPosted b a sent chunk ok hpub hchunk hlen accepted =>
    rw [hpub] at hthread
    refine ⟨h.holds, h.sequenced, h.blockCount_le, ?_⟩
    cases ok with
    | true => exact hthread
    | false => exact hthread.1
  | chunkLost hpub =>
    rw [hpub] at hthread
    exact ⟨h.holds, h.sequenced, h.blockCount_le, hthread.1⟩
  | readRoot up hpub =>
    rw [hpub] at hthread
    exact ⟨h.holds, h.sequenced, h.blockCount_le, hthread.1, hthread.2, rfl, rfl, rfl⟩
  | @recordPosted b a record batches ok hready accepted =>
    obtain ⟨hholds, hsequenced, hcount, hnext⟩ := h.concat hready accepted
    rw [hready] at hthread
    refine ⟨hholds, hsequenced, ?_, ?_⟩
    · intro prev hprev
      rw [List.getLast?_concat] at hprev
      cases hprev
      exact hcount
    · cases ok with
      | false => exact hthread.1.concat _
      | true =>
        have hsound := @sound_posted w.posted b ⟨record, a.payload⟩ hnext
        rw [show (RecoveredBatch.mk record a.payload).record.lastSlot = a.payload.lastSlot from
          hthread.2.2.2.2] at hsound
        exact hsound
  | recordLost hready =>
    rw [hready] at hthread
    exact ⟨h.holds, h.sequenced, h.blockCount_le, hthread.1⟩
  | storeError hreads =>
    refine ⟨h.holds, h.sequenced, h.blockCount_le, ?_⟩
    rcases hreads with ⟨tip, hread⟩ | ⟨a, sent, hread⟩
    · rw [hread] at hthread
      exact hthread
    · rw [hread] at hthread
      exact hthread.1
  | rederive hfailed hb =>
    exact ⟨h.holds, h.sequenced, h.blockCount_le, behind_buildBatcher h.holds hb⟩
  | rederiveFail hfailed =>
    rw [hfailed] at hthread
    exact ⟨h.holds, h.sequenced, h.blockCount_le, hthread⟩
  | restart => exact ⟨h.holds, h.sequenced, h.blockCount_le, trivial⟩
  | foreign entry => exact ⟨h.holds, h.sequenced, h.blockCount_le, hthread⟩

theorem Runs.posted {allowed : World → WorldEvent → Prop} {w : World} (runs : Runs E D allowed w) :
    Posted w := by
  induction runs with
  | start authority => exact ⟨BatchAccounts.holds_initialized authority,
    .nil, by simp [World.start],
      trivial⟩
  | step runs meets h ih => exact ih.step runs.lived h

/-! ## A batch of the sample chain -/

namespace Sample

def driver (decompress : List UInt8 → Option BatchPayload) : Driver where
  codec := ⟨fun _ => [1], decompress⟩
  authority := Bytes.replicate 32 5
  batchIntervalSlots := 1

variable {allowed : World → WorldEvent → Prop}

theorem runs_idle (hopen : ∀ w, allowed w (.life .boot) ∧ allowed w (.life .enqueue))
    (hcommit : ∀ w draft, allowed w (.life (.commit draft))) (hbuild : ∀ w, allowed w .build) :
    ∃ w node draft block, (∀ decompress, Runs env (driver decompress) allowed w) ∧
      w.life = .up node (some (WithdrawSmt.root prims
        (insertLeaves prims (fun _ => none) [contested 9 1000]))) ∧
      w.drafts = [draft] ∧ draft.accepted = [contested 9 1000] ∧
      w.batches = .initialized (Bytes.replicate 32 5) ∧ w.daLog = [] ∧ w.posted = [] ∧
      w.thread = .idle ⟨1, 0⟩ ∧ node.store.latestSlot = some 1 ∧
      windowBlocks node.store 1 1 = [block] ∧ block.header.transactionCount = 1 ∧
      node.store.withdrawalsRoot = WithdrawSmt.root prims (fun _ => none) := by
  obtain ⟨choice, node₀, node, draft, store, hboot, henqueue, hcommits, hincluded,
    haccepted, hempty, hroot, -⟩ := commits_contested
  have hlived : Lived env (.up node none) [] := (Lived.start.step hboot).step henqueue
  obtain ⟨-, -, hdown⟩ | ⟨hsound, htip⟩ := hlived.sound
  · exact absurd rfl (hdown node none)
  have htip := htip node none rfl
  obtain ⟨hsound', -⟩ := hsound.commit htip (length_included_le hcommits) hcommits.committed
  have hpending : rootToWrite env node.withdrawals draft = some (WithdrawSmt.root prims
      (insertLeaves prims (fun _ => none) [contested 9 1000])) := by
    rw [rootToWrite, haccepted, hempty]
    rfl
  have hblock : store.getBlock 1 = some (sealedBlock env choice node.store node.tip draft) := by
    rw [getBlock_commit hcommits.committed, htip.slot]
    exact PartialMap.insert_self ..
  have hruns : ∀ decompress, Runs env (driver decompress) allowed
      ⟨.up (committed env choice node draft store)
        (rootToWrite env node.withdrawals draft), [draft],
        .initialized (Bytes.replicate 32 5), [], .idle ⟨1, 0⟩, []⟩ := by
    intro decompress
    have hrun₁ := (Runs.start (Bytes.replicate 32 5)).step (D := driver decompress) (hopen _).1
      (.life hboot)
    have hrun₂ := hrun₁.step (hopen _).2 (.life henqueue)
    have hrun₃ := hrun₂.step (hcommit _ _) (.life (.commit hcommits))
    exact hrun₃.step (hbuild _) (.build rfl rfl rfl)
  refine ⟨_, committed env choice node draft store, draft,
    sealedBlock env choice node.store node.tip draft, hruns, congrArg _ hpending, rfl,
      haccepted, rfl,
    rfl, rfl, rfl, hsound'.chain.latestSlot, ?_, ?_, ?_⟩
  · exact (windowBlocks_self _ _).trans (congrArg Option.toList hblock)
  · show UInt32.ofNat (draft.included.map Prod.fst).length = 1
    rw [hincluded]
    rfl
  · rw [← hroot]
    show store.withdrawalsRoot = node.store.withdrawalsRoot
    rw [Store.commitBlock_frame hcommits.committed]
    rfl

def attempt (block : Block) : Attempt := ⟨⟨0, 1, 1, [block]⟩, block.header.stateRoot⟩

theorem collect_block {store : Store} {block : Block} (hwindow : windowBlocks store 1 1 = [block])
    (hcount : block.header.transactionCount = 1) :
    Batcher.collect ⟨1, 0⟩ store 1 = some (attempt block) := by
  have hread : [block] = (windowBlocks store 1 1).take BATCH_BLOCK_LIMIT := by rw [hwindow]; rfl
  rw [Batcher.collect_eq hread]
  simp [hcount, attempt]

theorem runs_publishing {decompress : List UInt8 → Option BatchPayload} {w : World} {node : Node}
    {pending : Option H256} {block : Block} (runs : Runs env (driver decompress) allowed w)
    (hreads : ∀ w, allowed w .readTip ∧ allowed w .scan) (hup : w.life = .up node pending)
    (hidle : w.thread = .idle ⟨1, 0⟩) (hlatest : node.store.latestSlot = some 1)
    (hwindow : windowBlocks node.store 1 1 = [block])
    (hcount : block.header.transactionCount = 1) :
    Runs env (driver decompress) allowed
      { w with thread := .publishing ⟨1, 0⟩ (attempt block) 0 } := by
  have hdue : (1 : UInt64) ≤ node.store.latestSlot.getD 0 := by
    rw [hlatest]
    decide
  have htip : (driver decompress).tip (node.store.latestSlot.getD 0) 1 = some 1 := by
    rw [hlatest]
    show (if (1 : UInt64).toNat + (1 : UInt64).toNat < 2 ^ 64 then some (min 1 (1 + 1 - 1))
      else none) = some (1 : UInt64)
    decide
  have hscan := (runs.step (hreads _).1 (.readTip hup hidle hdue htip)).step (hreads _).2
    (.scan hup rfl)
  rw [show afterScan ⟨1, 0⟩ node.store 1 = .publishing ⟨1, 0⟩ (attempt block) 0 by
    rw [afterScan, if_neg (by decide), collect_block hwindow hcount]] at hscan
  exact hscan

def chunkEntry (decompress : List UInt8 → Option BatchPayload) (block : Block) : DaEntry :=
  .ofChunk (chunkArgs (driver decompress) (attempt block) 0 [1])
    (show 1 < 2 ^ 32 by decide) rfl

theorem runs_chunk {decompress : List UInt8 → Option BatchPayload} {w : World} {block : Block}
    (ok : Bool) (hchunk : ∀ w, allowed w (.chunkPosted ok))
    (runs : Runs env (driver decompress) allowed
      { w with thread := .publishing ⟨1, 0⟩ (attempt block) 0 }) :
    Runs env (driver decompress) allowed { w with
      daLog := w.daLog ++ [chunkEntry decompress block]
      thread := if ok then .publishing ⟨1, 0⟩ (attempt block) 1 else .failed ⟨1, 0⟩ } :=
  runs.step (hchunk _) (.chunkPosted rfl rfl _ _)

theorem runs_record {decompress : List UInt8 → Option BatchPayload} {node : Node}
    {pending : Option H256} {block : Block} (w : World) (ok : Bool) (hreadRoot : allowed
      { w with thread := .publishing ⟨1, 0⟩ (attempt block) 1 } .readRoot)
    (hrecord : ∀ w, allowed w (.recordPosted ok))
    (hup : w.life = .up node pending)
    (hbatches : w.batches = .initialized (Bytes.replicate 32 5))
    (runs : Runs env (driver decompress) allowed
      { w with thread := .publishing ⟨1, 0⟩ (attempt block) 1 }) :
    ∃ batches, Runs env (driver decompress) allowed { w with
      batches
      posted := w.posted ++ [⟨(attempt block).record prims (driver decompress).codec
        node.store.withdrawalsRoot, (attempt block).payload⟩]
      thread := if ok then .idle ⟨2, 1⟩ else .failed ⟨1, 0⟩ } ∧
      batches.buildBatcher = some ⟨2, 1⟩ := by
  have hpost : w.batches.postBatch (driver decompress).authority ((attempt block).record prims
      (driver decompress).codec node.store.withdrawalsRoot) = .ok ⟨(driver decompress).authority, 1,
        PartialMap.insert (fun _ => none) 0 ((attempt block).record prims
          (driver decompress).codec node.store.withdrawalsRoot)⟩ := by
    rw [hbatches]
    rfl
  have hrun := (runs.step hreadRoot (.readRoot hup rfl)).step (hrecord _) (.recordPosted rfl hpost)
  refine ⟨_, hrun, ?_⟩
  have hsucc : checkedSucc 1 = some 2 ∧ checkedSucc 0 = some 1 := by decide
  simp only [BatchAccounts.buildBatcher, BatchAccounts.resumeCursorSlot,
    BatchAccounts.latestBatchNo, show (1 : UInt64) ≠ 0 by decide, if_false,
    show (1 : UInt64) - 1 = 0 from rfl, PartialMap.insert_self, Option.bind_eq_bind,
      Option.bind_some,
    Attempt.record, attempt, hsucc.1, hsucc.2]
  rfl

end Sample

/-- Recovery accepts the records on L1 with the payloads they were built from, and counts them. -/
theorem recovery_accepts {w : World} (reached : Reached E D w) :
    w.batches.Holds (w.posted.map (·.record)) ∧
      (w.posted = [] ∨ ∃ summary, verify w.posted = .ok summary ∧
        summary.batches.toNat = w.posted.length ∧ summary.blocks.toNat = blockCount w.posted ∧
        summary.transactions = UInt64.ofNat (transactionCount w.posted)) := by
  have hposted := reached.posted
  refine ⟨hposted.holds, or_iff_not_imp_left.mpr fun hne => ?_⟩
  obtain ⟨summary, hverify, hbatches, hblocks, htransactions⟩ := hposted.sequenced.verify hne
  have hlength : w.posted.length < 2 ^ 64 := by
    have hcount := hposted.holds.count
    rw [List.length_map] at hcount
    rw [← hcount]
    exact UInt64.toNat_lt _
  have hcount : blockCount w.posted < 2 ^ 64 := by
    have hlast := List.getLast?_eq_some_getLast hne
    exact (hposted.blockCount_le _ hlast).trans_lt (UInt64.toNat_lt _)
  refine ⟨summary, hverify, ?_, ?_, htransactions⟩
  · rw [hbatches, UInt64.toNat_ofNat_of_lt' hlength]
  · rw [hblocks, UInt64.toNat_ofNat_of_lt' hcount]

/-- A record whose call failed after taking effect is on L1 once, and the thread goes on after
it. -/
theorem recovery_accepts_retried :
    ∃ w, Reached Sample.env (Sample.driver fun _ => none) w ∧ w.thread = .idle ⟨2, 1⟩ ∧
      ∃ summary, verify w.posted = .ok summary ∧ summary.batches = 1 := by
  obtain ⟨w, node, draft, block, runs, hup, -, -, hbatches, -, hposted, hidle, hlatest, hwindow,
    hcount, -⟩ := @Sample.runs_idle (fun _ _ => True) (fun _ => ⟨trivial, trivial⟩)
      (fun _ _ => trivial) (fun _ => trivial)
  have hpublishing := Sample.runs_publishing (runs fun _ => none)
    (fun _ => ⟨trivial, trivial⟩) hup hidle hlatest
    hwindow hcount
  have hchunk := Sample.runs_chunk true (fun _ => trivial) hpublishing
  obtain ⟨batches, hfailed, hbuild⟩ :=
    Sample.runs_record { w with daLog := w.daLog ++
      [Sample.chunkEntry (fun _ => none) block] } false
      trivial (fun _ => trivial) hup hbatches hchunk
  have hretried := hfailed.step trivial (.rederive rfl hbuild)
  refine ⟨_, hretried, rfl, ?_⟩
  obtain ⟨-, hnil | ⟨summary, hverify, hcounted, -⟩⟩ := recovery_accepts hretried
  · simp at hnil
  · refine ⟨summary, hverify, UInt64.toNat_inj.mp (hcounted.trans ?_)⟩
    rw [List.length_append, hposted]
    rfl

end Zul.Node
