import Zul.Node.Posting

/-! # Posted withdrawals roots

A block's withdrawals reach the stored root in a write transaction of their own, after the block is
committed, and the batcher reads the root last, when the end of its window is long fixed. A record
carries the root of its own window as long as no root is waiting to be written when it is read, and
no block committed after the window accepted a withdrawal.
-/

namespace Zul.Node

open Bridge Settlement

variable {E : Env} {D : Driver}

def settledTree (P : Prims) (drafts : List BlockDraft) : PartialMap Smt.NodeKey H256 :=
  insertLeaves P (fun _ => none) (drafts.flatMap (·.accepted))

/-- Every record carries the root of the withdrawals of the blocks up to its last slot; the block of
slot `n` is the `n`-th committed. -/
def RootsSettled (P : Prims) (w : World) : Prop :=
  ∀ rb ∈ w.posted, rb.record.withdrawalsRoot =
    WithdrawSmt.root P (settledTree P (w.drafts.take rb.record.lastSlot.toNat))

def Uninterrupted : WorldEvent → Prop
  | .life .stop | .life .bootFail | .life .rootLost => False
  | _ => True

/-- When the root is read for a window, none is waiting to be written and the blocks beyond the
window accepted no withdrawal. -/
def RootReady (w : World) (event : WorldEvent) : Prop :=
  event = .readRoot → ∀ node pending b a sent, w.life = .up node pending →
    w.thread = .publishing b a sent →
      pending = none ∧ ∀ draft ∈ w.drafts.drop a.payload.lastSlot.toNat, draft.accepted = []

theorem settledTree_concat (P : Prims) (drafts : List BlockDraft) (draft : BlockDraft) :
    settledTree P (drafts ++ [draft]) = insertLeaves P (settledTree P drafts) draft.accepted := by
  rw [settledTree, List.flatMap_append, List.flatMap_singleton, insertLeaves_append]
  rfl

theorem settledTree_take {P : Prims} {drafts : List BlockDraft} {n : ℕ}
    (h : ∀ draft ∈ drafts.drop n, draft.accepted = []) :
    settledTree P (drafts.take n) = settledTree P drafts := by
  have hrest : (drafts.drop n).flatMap (·.accepted) = [] := List.flatMap_eq_nil_iff.mpr h
  rw [settledTree, settledTree]
  nth_rewrite 2 [← List.take_append_drop n drafts]
  rw [List.flatMap_append, hrest, List.append_nil]

/-- The live tree has the withdrawals of all blocks, and its root is stored or about to be. -/
structure RunningRoot (E : Env) (node : Node) (pending : Option H256) (drafts : List BlockDraft) :
    Prop where
  tree : node.withdrawals = settledTree E.prims drafts
  root : (pending.getD node.store.withdrawalsRoot) =
    WithdrawSmt.root E.prims (settledTree E.prims drafts)

/-- What a window or record of the thread refers to lies in the chain, and a complete record
carries the root of its window. -/
def Thread.Rooted (P : Prims) (drafts : List BlockDraft) : Thread → Prop
  | .tipRead _ tip => tip.toNat ≤ drafts.length
  | .publishing _ a _ => a.payload.lastSlot.toNat ≤ drafts.length
  | .recordReady _ a record => record.lastSlot.toNat ≤ drafts.length ∧
      record.lastSlot = a.payload.lastSlot ∧ record.withdrawalsRoot =
        WithdrawSmt.root P (settledTree P (drafts.take record.lastSlot.toNat))
  | _ => True

structure Rooted (E : Env) (w : World) : Prop where
  down : ∀ store withdrawals, w.life = .down store withdrawals → store = Store.empty ∧ w.drafts = []
  live : ∀ node pending, w.life = .up node pending → RunningRoot E node pending w.drafts
  thread : w.thread.Rooted E.prims w.drafts
  inChain : ∀ rb ∈ w.posted, rb.record.lastSlot.toNat ≤ w.drafts.length
  posted : RootsSettled E.prims w

theorem take_append_of_le {drafts : List BlockDraft} {n : ℕ} (h : n ≤ drafts.length)
    (more : List BlockDraft) : (drafts ++ more).take n = drafts.take n :=
  List.take_append_of_le_length h

theorem Thread.Rooted.append {P : Prims} {drafts : List BlockDraft} {thread : Thread}
    (h : thread.Rooted P drafts) (more : List BlockDraft) : thread.Rooted P (drafts ++ more) := by
  have hle : drafts.length ≤ (drafts ++ more).length := by
    rw [List.length_append]
    exact Nat.le_add_right _ _
  cases thread with
  | tipRead b tip => exact le_trans h hle
  | publishing b a sent => exact le_trans h hle
  | recordReady b a record =>
    obtain ⟨hlast, heq, hroot⟩ := h
    exact ⟨hlast.trans hle, heq, by rw [take_append_of_le hlast, hroot]⟩
  | off | idle b | failed b => exact trivial

theorem rooted_within {P : Prims} {drafts : List BlockDraft} {thread : Thread}
    (h : thread.Rooted P drafts) (life : Life) : (thread.within life).Rooted P drafts := by
  cases life with
  | up node pending => exact h
  | down store withdrawals => exact trivial

theorem RunningRoot.step {w : World} {life' : Life} {event : LifeEvent} (h : Rooted E w)
    (meets : Uninterrupted (.life event)) (hstep : LifeStep E w.life event life') :
    ∃ node pending, life' = .up node pending ∧
      RunningRoot E node pending (w.drafts ++ event.drafts) := by
  have hsame : ∀ {node : Node} {pending : Option H256},
      node.withdrawals = settledTree E.prims w.drafts →
      pending.getD node.store.withdrawalsRoot =
        WithdrawSmt.root E.prims (settledTree E.prims w.drafts) →
      ∃ node' pending', Life.up node pending = .up node' pending' ∧
        RunningRoot E node' pending' (w.drafts ++ []) := by
    intro node pending htree hroot
    rw [List.append_nil]
    exact ⟨node, pending, rfl, htree, hroot⟩
  generalize hlife : w.life = life at hstep
  cases hstep with
  | @commit choice node draft store hcommits =>
    obtain ⟨htree, hroot⟩ := h.live _ _ hlife
    refine ⟨_, _, rfl, ?_, ?_⟩
    · show insertLeaves E.prims node.withdrawals draft.accepted = _
      rw [LifeEvent.drafts, settledTree_concat, htree]
    · rw [LifeEvent.drafts, settledTree_concat, rootToWrite, htree]
      split
      · rename_i hempty
        -- without withdrawals the stored root stays, and the commit does not touch it
        rw [List.isEmpty_iff.mp hempty]
        show store.withdrawalsRoot = _
        rw [Store.commitBlock_frame hcommits.committed]
        exact hroot
      · rfl
  | setRoot node root =>
    obtain ⟨htree, hroot⟩ := h.live _ _ hlife
    exact hsame htree hroot
  | rootLost node root => exact meets.elim
  | fail node =>
    obtain ⟨htree, hroot⟩ := h.live _ _ hlife
    exact hsame htree hroot
  | enqueue node pending =>
    obtain ⟨htree, hroot⟩ := h.live _ _ hlife
    exact hsame htree hroot
  | stop node pending => exact meets.elim
  | boot hboot =>
    obtain ⟨rfl, hdrafts⟩ := h.down _ _ hlife
    rw [hdrafts]
    cases hboot
    exact ⟨_, _, rfl, rfl, rfl⟩
  | bootFail hgenesis => exact meets.elim

theorem tip_le {store : Store} {n : ℕ} {cursor tip : UInt64} (hchain : ChainUpTo E store n)
    (h : D.tip (store.latestSlot.getD 0) cursor = some tip) : tip.toNat ≤ n := by
  have hlatest : (store.latestSlot.getD 0).toNat = n := by
    rw [hchain.latestSlot]
    split
    · rename_i hzero
      rw [hzero]
      rfl
    · exact UInt64.toNat_ofNat_of_lt' hchain.lt
  unfold Driver.tip at h
  split at h
  · cases h
    rw [← hlatest]
    exact UInt64.le_iff_toNat_le.mp Std.min_le_left
  · cases h

theorem rooted_afterScan {P : Prims} {drafts : List BlockDraft} {b : Batcher} {store : Store}
    {tip : UInt64} (h : tip.toNat ≤ drafts.length) : (afterScan b store tip).Rooted P drafts := by
  unfold afterScan
  split
  · exact trivial
  · cases hcollect : b.collect store tip with
    | none => cases b.skip tip <;> exact trivial
    | some a =>
      obtain ⟨hpayload, -, -⟩ := Batcher.collect_eq_some hcollect
      show a.payload.lastSlot.toNat ≤ _
      rw [hpayload]
      exact h

theorem Rooted.step {w w' : World} {event : WorldEvent} (h : Rooted E w)
    (lived : Lived E w.life w.drafts) (meets : Uninterrupted event) (ready : RootReady w event)
    (hstep : WorldStep E D w event w') : Rooted E w' := by
  have hthread := h.thread
  cases hstep with
  | @life life' event hlife =>
    obtain ⟨node, pending, rfl, hlive⟩ := RunningRoot.step h meets hlife
    refine ⟨nofun, ?_, ?_, fun rb hrb => ?_, fun rb hrb => ?_⟩
    · rintro _ _ ⟨⟩
      exact hlive
    · exact rooted_within (hthread.append event.drafts) (.up node pending)
    · rw [List.length_append]
      exact (h.inChain rb hrb).trans (Nat.le_add_right _ _)
    · rw [take_append_of_le (h.inChain rb hrb)]
      exact h.posted rb hrb
  | build up off hb => exact ⟨h.down, h.live, trivial, h.inChain, h.posted⟩
  | readTip up idle due htip =>
    exact ⟨h.down, h.live, tip_le (lived.chain up).chain htip, h.inChain, h.posted⟩
  | scan up hread =>
    rw [hread] at hthread
    exact ⟨h.down, h.live, rooted_afterScan hthread, h.inChain, h.posted⟩
  | @chunkPosted b a sent chunk ok hpub hchunk hlen accepted =>
    rw [hpub] at hthread
    refine ⟨h.down, h.live, ?_, h.inChain, h.posted⟩
    cases ok with
    | true => exact hthread
    | false => exact trivial
  | chunkLost hpub => exact ⟨h.down, h.live, trivial, h.inChain, h.posted⟩
  | @readRoot node pending b a up hpub =>
    rw [hpub] at hthread
    obtain ⟨rfl, hrest⟩ := ready rfl node pending b a _ up hpub
    refine ⟨h.down, h.live, ⟨hthread, rfl, ?_⟩, h.inChain, h.posted⟩
    show node.store.withdrawalsRoot =
      WithdrawSmt.root E.prims (settledTree E.prims (w.drafts.take a.payload.lastSlot.toNat))
    rw [settledTree_take hrest]
    exact (h.live node none up).root
  | @recordPosted b a record batches ok hready accepted =>
    rw [hready] at hthread
    obtain ⟨hle, -, hroot⟩ := hthread
    refine ⟨h.down, h.live, ?_, fun rb hrb => ?_, fun rb hrb => ?_⟩
    · cases ok with
      | false => exact trivial
      | true => cases b.posted a.payload.lastSlot <;> exact trivial
    · rcases List.mem_append.mp hrb with hrb | hrb
      · exact h.inChain rb hrb
      · rw [List.mem_singleton.mp hrb]
        exact hle
    · rcases List.mem_append.mp hrb with hrb | hrb
      · exact h.posted rb hrb
      · rw [List.mem_singleton.mp hrb]
        exact hroot
  | recordLost hready => exact ⟨h.down, h.live, trivial, h.inChain, h.posted⟩
  | storeError hreads => exact ⟨h.down, h.live, trivial, h.inChain, h.posted⟩
  | rederive hfailed hb => exact ⟨h.down, h.live, trivial, h.inChain, h.posted⟩
  | rederiveFail hfailed => exact ⟨h.down, h.live, trivial, h.inChain, h.posted⟩
  | restart => exact ⟨h.down, h.live, trivial, h.inChain, h.posted⟩
  | foreign entry => exact ⟨h.down, h.live, hthread, h.inChain, h.posted⟩

theorem rooted_start (authority : Pubkey) : Rooted E (.start authority) := by
  refine ⟨?_, nofun, trivial, nofun, nofun⟩
  rintro _ _ ⟨⟩
  exact ⟨rfl, rfl⟩

/-- In every interleaving in which a root is read only when it is that of the window, each record
carries the root of the withdrawals of the blocks up to its last slot. -/
theorem roots_settled {w : World}
    (runs : Runs E D (fun w event => Uninterrupted event ∧ RootReady w event) w) :
    RootsSettled E.prims w := by
  have hrooted : Rooted E w := by
    induction runs with
    | start authority => exact rooted_start authority
    | step runs meets h ih => exact ih.step runs.lived meets.1 meets.2 h
  exact hrooted.posted

theorem rootReady_of_ne {w : World} {event : WorldEvent} (hne : event ≠ .readRoot) :
    RootReady w event := fun heq => absurd heq hne

/-- The root of the first block is written before the batcher reads it. -/
theorem roots_settled_written :
    ∃ w, Runs Sample.env (Sample.driver fun _ => none)
        (fun w event => Uninterrupted event ∧ RootReady w event) w ∧
      w.posted.length = 1 ∧ RootsSettled Sample.env.prims w := by
  obtain ⟨w, node, draft, block, runs, hup, hdrafts, -, hbatches, -, hposted, hidle, hlatest,
    hwindow, hcount, -⟩ := @Sample.runs_idle
      (fun w event => Uninterrupted event ∧ RootReady w event)
      (fun _ => ⟨⟨trivial, rootReady_of_ne nofun⟩, trivial, rootReady_of_ne nofun⟩)
      (fun _ _ => ⟨trivial, rootReady_of_ne nofun⟩) (fun _ => ⟨trivial, rootReady_of_ne nofun⟩)
  generalize WithdrawSmt.root Sample.prims
    (insertLeaves Sample.prims (fun _ => none) [Sample.contested 9 1000]) = root at hup
  let node₁ : Node := { node with store := node.store.setWithdrawalsRoot root }
  let w₁ : World := { w with life := .up node₁ none, drafts := w.drafts ++ [] }
  have hset : LifeStep Sample.env w.life .setRoot (.up node₁ none) := by
    rw [hup]
    exact .setRoot node root
  have hwritten : Runs Sample.env (Sample.driver fun _ => none)
      (fun w event => Uninterrupted event ∧ RootReady w event) w₁ :=
    (runs _).step (by exact ⟨trivial, rootReady_of_ne nofun⟩) (.life hset)
  have hpublishing := Sample.runs_publishing hwritten
    (fun _ => ⟨⟨trivial, rootReady_of_ne nofun⟩, trivial, rootReady_of_ne nofun⟩)
    rfl hidle hlatest hwindow hcount
  have hchunk := Sample.runs_chunk true (fun _ => ⟨trivial, rootReady_of_ne nofun⟩) hpublishing
  have hready : RootReady { w₁ with
      daLog := w.daLog ++ [Sample.chunkEntry (fun _ => none) block]
      thread := .publishing ⟨1, 0⟩ (Sample.attempt block) 1 } .readRoot := by
    rintro - _ _ _ _ _ ⟨⟩ ⟨⟩
    refine ⟨rfl, ?_⟩
    show ∀ draft ∈ (w.drafts ++ []).drop 1, _
    rw [hdrafts]
    exact nofun
  obtain ⟨batches, hrun, -⟩ := Sample.runs_record
    { w₁ with daLog := w.daLog ++ [Sample.chunkEntry (fun _ => none) block] } true
    ⟨trivial, hready⟩ (fun _ => ⟨trivial, rootReady_of_ne nofun⟩) rfl hbatches hchunk
  refine ⟨_, hrun, ?_, roots_settled hrun⟩
  show (w.posted ++ [_]).length = 1
  rw [List.length_append, hposted]
  rfl

/-- The batcher posts the first block before its root is written: the record carries the root of a
tree without the block's withdrawal. -/
theorem not_roots_settled_pending :
    ∃ w, Runs Sample.env (Sample.driver fun _ => none) (fun _ event => Uninterrupted event) w ∧
      w.posted.length = 1 ∧ ¬ RootsSettled Sample.prims w := by
  obtain ⟨w, node, draft, block, runs, hup, hdrafts, haccepted, hbatches, -, hposted,
    hidle, hlatest, hwindow, hcount, hroot⟩ := @Sample.runs_idle
      (fun _ event => Uninterrupted event) (fun _ => ⟨trivial, trivial⟩) (fun _ _ => trivial)
      (fun _ => trivial)
  have hpublishing := Sample.runs_publishing (runs fun _ => none)
    (fun _ => ⟨trivial, trivial⟩) hup hidle hlatest
    hwindow hcount
  have hchunk := Sample.runs_chunk true (fun _ => trivial) hpublishing
  obtain ⟨batches, hrun, -⟩ := Sample.runs_record
    { w with daLog := w.daLog ++ [Sample.chunkEntry (fun _ => none) block] } true trivial
    (fun _ => trivial) hup hbatches hchunk
  refine ⟨_, hrun, by rw [List.length_append, hposted]; rfl, fun hsettled => ?_⟩
  have hrecord := hsettled _ (List.mem_append_right _ (List.mem_singleton_self _))
  have htree : settledTree Sample.prims (w.drafts.take 1) =
      insertLeaves Sample.prims (fun _ => none) [Sample.contested 9 1000] := by
    rw [hdrafts, settledTree, List.take_succ_cons, List.take_nil, List.flatMap_singleton, haccepted]
  have hne : WithdrawSmt.root Sample.prims (fun _ => none) ≠ WithdrawSmt.root Sample.prims
      (insertLeaves Sample.prims (fun _ => none) [Sample.contested 9 1000]) := by
    decide +kernel
  apply hne
  rw [← hroot, ← htree]
  exact hrecord

end Zul.Node
