import Zul.Node.Posting

/-! # Recovering the payloads

The driver publishes every chunk of a batch before it posts the record, so the chunks of each record
on L1 are in the log. Recovery takes whatever it finds under the record's number. It gets the batch
back exactly if nothing else was published there, neither by an earlier attempt nor by anyone else.
-/

namespace Zul.Bridge

variable {P : Prims} {C : Codec} {log : List DaEntry}

def Codec.parts (C : Codec) (payload : BatchPayload) : List (UInt32 × List UInt8) :=
  (chunkPayload (C.compress payload)).zipIdx.map fun chunk => (UInt32.ofNat chunk.2, chunk.1)

theorem Codec.length_parts (C : Codec) (payload : BatchPayload) :
    (C.parts payload).length = (chunkPayload (C.compress payload)).length := by
  rw [Codec.parts, List.length_map, List.length_zipIdx]

theorem Codec.getElem?_parts (C : Codec) (payload : BatchPayload) (i : ℕ) :
    (C.parts payload)[i]? =
      (chunkPayload (C.compress payload))[i]?.map fun chunk => (UInt32.ofNat i, chunk) := by
  rw [Codec.parts, List.getElem?_map, List.getElem?_zipIdx, Option.map_map, Nat.zero_add]
  rfl

theorem Codec.flatMap_parts (C : Codec) (payload : BatchPayload) :
    (C.parts payload).flatMap Prod.snd = C.compress payload := by
  have hchunks : (C.parts payload).map Prod.snd = chunkPayload (C.compress payload) := by
    rw [Codec.parts, List.map_map]
    exact List.zipIdx_map_fst 0 _
  rw [List.flatMap_def, hchunks, chunkPayload, List.flatten_chunks (by decide)]

structure Sent (C : Codec) (log : List DaEntry) (payload : BatchPayload) (sent : ℕ) : Prop where
  sublist : ((C.parts payload).take sent).Sublist (chunksUnder log payload.batchNo)
  inRange : ∀ i < sent, UInt32.ofNat i < UInt32.ofNat (chunkPayload (C.compress payload)).length

theorem sent_zero (C : Codec) (log : List DaEntry) (payload : BatchPayload) :
    Sent C log payload 0 :=
  ⟨List.nil_sublist _, nofun⟩

theorem Sent.append {payload : BatchPayload} {sent : ℕ} (h : Sent C log payload sent)
    (log' : List DaEntry) : Sent C (log ++ log') payload sent := by
  refine ⟨?_, h.inRange⟩
  rw [chunksUnder_append]
  exact h.sublist.trans (List.sublist_append_left _ _)

theorem Sent.length_lt {payload : BatchPayload}
    (h : Sent C log payload (chunkPayload (C.compress payload)).length) :
    (chunkPayload (C.compress payload)).length < 2 ^ 32 := by
  by_contra hge
  have hmod := Nat.mod_lt (chunkPayload (C.compress payload)).length (show 0 < 2 ^ 32 by decide)
  have hlt := UInt32.lt_iff_toNat_lt.mp
    (h.inRange ((chunkPayload (C.compress payload)).length % 2 ^ 32) (by omega))
  rw [UInt32.toNat_ofNat', UInt32.toNat_ofNat', Nat.mod_mod] at hlt
  exact Nat.lt_irrefl _ hlt

/-- What is on L1 for a record: its chunks are in the log. -/
structure Published (P : Prims) (C : Codec) (log : List DaEntry) (rb : RecoveredBatch) : Prop where
  sent : Sent C log rb.payload (chunkPayload (C.compress rb.payload)).length
  batchNo : rb.record.batchNo = rb.payload.batchNo
  daHash : rb.record.daHash = Bridge.daHash P (C.compress rb.payload)
  chunkCount : rb.record.chunkCount = UInt32.ofNat (chunkPayload (C.compress rb.payload)).length

theorem Published.append {rb : RecoveredBatch} (h : Published P C log rb) (log' : List DaEntry) :
    Published P C (log ++ log') rb :=
  ⟨h.sent.append log', h.batchNo, h.daHash, h.chunkCount⟩

/-- Recovery puts a published payload together exactly if there are no other chunks under its
number. -/
theorem Published.reassemble_eq_iff {rb : RecoveredBatch} (h : Published P C log rb) :
    reassemble log rb.record.batchNo = C.compress rb.payload ↔
      (chunksUnder log rb.record.batchNo).length = rb.record.chunkCount.toNat := by
  have hlt := h.sent.length_lt
  have hincreasing : (C.parts rb.payload).Pairwise fun a b => a.1 < b.1 := by
    rw [List.pairwise_iff_getElem]
    intro i j hi hj hij
    rw [C.length_parts] at hi hj
    simp only [Codec.parts, List.getElem_map, List.getElem_zipIdx, Nat.zero_add]
    rw [UInt32.lt_iff_toNat_lt, UInt32.toNat_ofNat_of_lt' (hi.trans hlt),
      UInt32.toNat_ofNat_of_lt' (hj.trans hlt)]
    exact hij
  have hsub : (C.parts rb.payload).Sublist (chunksUnder log rb.record.batchNo) := by
    have hall := h.sent.sublist
    rw [← C.length_parts, List.take_length] at hall
    rw [h.batchNo]
    exact hall
  rw [h.chunkCount, UInt32.toNat_ofNat_of_lt' hlt, ← C.length_parts, ← C.flatMap_parts]
  exact Bridge.reassemble_eq_iff hincreasing hsub

theorem fetchBatch_eq_ok_iff {s : Settlement.BatchAccounts} {batchNo : UInt64}
    {rb : RecoveredBatch} (hrecord : s.batches batchNo = some rb.record) :
    fetchBatch P C s (fetchAllDaChunks log) batchNo = .ok rb ↔
      daHash P (reassemble log batchNo) = rb.record.daHash ∧
        C.decompress (reassemble log batchNo) = some rb.payload := by
  have hbytes : (sortParts ((fetchAllDaChunks log batchNo).getD [])).flatMap Prod.snd =
      reassemble log batchNo := by
    rw [fetchAllDaChunks_eq]
    rfl
  unfold fetchBatch
  simp only [hrecord, hbytes]
  split
  · rename_i hne
    constructor
    · intro h
      cases h
    · intro h
      exact absurd h.1 hne
  · rename_i heq
    rw [not_not] at heq
    cases C.decompress (reassemble log batchNo) with
    | none => simp
    | some payload =>
      simp only [heq, true_and, Except.ok.injEq, Option.some.injEq]
      constructor
      · intro h
        rw [← h]
      · rintro rfl
        rfl

end Zul.Bridge

namespace Zul.Node

open Bridge Settlement

variable {E : Env} {D : Driver}

def Thread.Published (P : Prims) (C : Codec) (log : List DaEntry) : Thread → Prop
  | .off | .idle _ | .tipRead _ _ | .failed _ => True
  | .publishing _ a sent => Sent C log a.payload sent
  | .recordReady _ a record => Bridge.Published P C log ⟨record, a.payload⟩

theorem Thread.Published.append {P : Prims} {C : Codec} {log : List DaEntry} {thread : Thread}
    (h : thread.Published P C log) (log' : List DaEntry) :
    thread.Published P C (log ++ log') := by
  cases thread with
  | publishing b a sent => exact Sent.append h log'
  | recordReady b a record => exact Bridge.Published.append h log'
  | off => exact trivial
  | idle b => exact trivial
  | tipRead b tip => exact trivial
  | failed b => exact trivial

theorem published_afterScan {P : Prims} {C : Codec} {log : List DaEntry} (b : Batcher)
    (store : Store) (tip : UInt64) : (afterScan b store tip).Published P C log := by
  unfold afterScan
  split
  · exact trivial
  · cases b.collect store tip with
    | some a => exact sent_zero _ _ _
    | none => cases b.skip tip <;> exact trivial

theorem sent_succ {log : List DaEntry} {a : Attempt} {sent : ℕ} {chunk : List UInt8}
    (h : Sent D.codec log a.payload sent) (hchunk : (a.chunks D.codec)[sent]? = some chunk)
    (hlen : (chunkArgs D a sent chunk).data.length < 2 ^ 32)
    (accepted : postChunk (chunkArgs D a sent chunk) = .ok ()) :
    Sent D.codec (log ++ [.ofChunk (chunkArgs D a sent chunk) hlen accepted]) a.payload
      (sent + 1) := by
  have hfound : chunksUnder [.ofChunk (chunkArgs D a sent chunk) hlen accepted] a.payload.batchNo =
      [(UInt32.ofNat sent, chunk)] := chunksUnder_ofChunk hlen accepted
  refine ⟨?_, fun i hi => ?_⟩
  · have hpart : (D.codec.parts a.payload)[sent]? = some (UInt32.ofNat sent, chunk) := by
      rw [Codec.getElem?_parts]
      exact congrArg _ hchunk
    rw [chunksUnder_append, hfound, List.take_add_one, hpart]
    exact h.sublist.append (List.Sublist.refl _)
  · rcases Nat.lt_succ_iff_lt_or_eq.mp hi with hlt | rfl
    · exact h.inRange i hlt
    · unfold postChunk at accepted
      split_ifs at accepted with _ _ hrange
      exact UInt32.not_le.mp hrange

/-- What holds of every world: the chunks of every record are in the log. -/
structure Available (P : Prims) (C : Codec) (w : World) : Prop where
  posted : ∀ rb ∈ w.posted, Published P C w.daLog rb
  thread : w.thread.Published P C w.daLog

theorem Available.step {w w' : World} {event : WorldEvent} (h : Available E.prims D.codec w)
    (hstep : WorldStep E D w event w') : Available E.prims D.codec w' := by
  have hthread := h.thread
  cases hstep with
  | @life life' event hlife =>
    refine ⟨h.posted, ?_⟩
    cases life' with
    | up node pending => exact hthread
    | down store withdrawals => exact trivial
  | build up off hb => exact ⟨h.posted, trivial⟩
  | readTip up idle due htip => exact ⟨h.posted, trivial⟩
  | scan up hread => exact ⟨h.posted, published_afterScan _ _ _⟩
  | @chunkPosted b a sent chunk ok hpub hchunk hlen accepted =>
    rw [hpub] at hthread
    refine ⟨fun rb hrb => (h.posted rb hrb).append _, ?_⟩
    cases ok with
    | true => exact sent_succ hthread hchunk hlen accepted
    | false => exact trivial
  | chunkLost hpub => exact ⟨h.posted, trivial⟩
  | readRoot up hpub =>
    rw [hpub] at hthread
    exact ⟨h.posted, hthread, rfl, rfl, rfl⟩
  | @recordPosted b a record batches ok hready accepted =>
    rw [hready] at hthread
    refine ⟨fun rb hrb => ?_, ?_⟩
    · rcases List.mem_append.mp hrb with hold | hnew
      · exact h.posted rb hold
      · rw [List.mem_singleton.mp hnew]
        exact hthread
    · cases ok with
      | true => cases b.posted a.payload.lastSlot <;> exact trivial
      | false => exact trivial
  | recordLost hready => exact ⟨h.posted, trivial⟩
  | storeError hreads => exact ⟨h.posted, trivial⟩
  | rederive hfailed hb => exact ⟨h.posted, trivial⟩
  | rederiveFail hfailed => exact ⟨h.posted, trivial⟩
  | restart => exact ⟨h.posted, trivial⟩
  | foreign entry => exact ⟨fun rb hrb => (h.posted rb hrb).append _, hthread.append _⟩

theorem Runs.available {allowed : World → WorldEvent → Prop} {w : World}
    (runs : Runs E D allowed w) : Available E.prims D.codec w := by
  induction runs with
  | start authority => exact ⟨nofun, trivial⟩
  | step runs meets h ih => exact ih.step h

theorem fetchSettlementBatches_eq_ok_iff {P : Prims} {C : Codec} {s : BatchAccounts}
    {log : List DaEntry} {posted : List RecoveredBatch} (holds : s.Holds (posted.map (·.record)))
    (sequenced : Sequenced posted) :
    fetchSettlementBatches P C s log = .ok posted ↔
      ∀ rb ∈ posted, fetchBatch P C s (fetchAllDaChunks log) rb.record.batchNo = .ok rb := by
  have hcount := holds.count
  rw [List.length_map] at hcount
  have hall : (∀ rb ∈ posted, fetchBatch P C s (fetchAllDaChunks log) rb.record.batchNo = .ok rb) ↔
      ∀ i rb, posted[i]? = some rb →
        fetchBatch P C s (fetchAllDaChunks log) (UInt64.ofNat i) = .ok rb := by
    constructor
    · intro h i rb hrb
      rw [sequenced.number hrb]
      exact h rb (List.mem_of_getElem? hrb)
    · intro h rb hrb
      obtain ⟨i, hi⟩ := List.mem_iff_getElem?.mp hrb
      rw [← sequenced.number hi]
      exact h i rb hi
  rw [hall, ← List.mapM_range_eq_ok_iff, fetchSettlementBatches, hcount]
  split
  · rename_i hzero
    rw [hzero] at hcount
    rw [List.length_eq_zero_iff.mp hcount.symm]
    exact Iff.rfl
  · exact Iff.rfl

theorem Posted.lookup {w : World} (h : Posted w) {rb : RecoveredBatch} (hrb : rb ∈ w.posted) :
    w.batches.batches rb.record.batchNo = some rb.record := by
  obtain ⟨i, hi⟩ := List.mem_iff_getElem?.mp hrb
  have hlt : i < 2 ^ 64 := by
    have hcount := h.holds.count
    rw [List.length_map] at hcount
    exact (List.getElem?_eq_some_iff.mp hi).1.trans (hcount ▸ UInt64.toNat_lt _)
  rw [h.holds.lookup, ← h.sequenced.number hi, UInt64.toNat_ofNat_of_lt' hlt, List.getElem?_map, hi]
  rfl

/-- Recovery returns every record on L1 with its payload exactly if no chunk was published under a
record's number but those of its own batch, each once. -/
theorem fetchSettlementBatches_eq_posted_iff {w : World} (reached : Reached E D w)
    (hcodec : ∀ rb ∈ w.posted, D.codec.decompress (D.codec.compress rb.payload) = some rb.payload)
    (hinj : ∀ rb ∈ w.posted,
      daHash E.prims (reassemble w.daLog rb.record.batchNo) =
        daHash E.prims (D.codec.compress rb.payload) →
      reassemble w.daLog rb.record.batchNo = D.codec.compress rb.payload) :
    fetchSettlementBatches E.prims D.codec w.batches w.daLog = .ok w.posted ↔
      ∀ rb ∈ w.posted,
        (chunksUnder w.daLog rb.record.batchNo).length = rb.record.chunkCount.toNat := by
  have hposted := reached.posted
  have havailable := reached.available
  rw [fetchSettlementBatches_eq_ok_iff hposted.holds hposted.sequenced]
  refine forall₂_congr fun rb hrb => ?_
  have hpublished := havailable.posted rb hrb
  rw [fetchBatch_eq_ok_iff (hposted.lookup hrb), ← hpublished.reassemble_eq_iff, hpublished.daHash]
  constructor
  · intro h
    exact hinj rb hrb h.1
  · intro h
    rw [h]
    exact ⟨rfl, hcodec rb hrb⟩

namespace Sample

theorem chunksUnder_chunkEntry (decompress : List UInt8 → Option BatchPayload) (block : Block) :
    chunksUnder [chunkEntry decompress block] 0 = [(0, [1])] :=
  chunksUnder_ofChunk _ _

theorem runs_posted {decompress : List UInt8 → Option BatchPayload} {w : World} {node : Node}
    {pending : Option H256} {block : Block} (runs : Reached env (driver decompress) w)
    (hup : w.life = .up node pending) (hidle : w.thread = .idle ⟨1, 0⟩)
    (hbatches : w.batches = .initialized (Bytes.replicate 32 5)) (hposted : w.posted = [])
    (hlatest : node.store.latestSlot = some 1) (hwindow : windowBlocks node.store 1 1 = [block])
    (hcount : block.header.transactionCount = 1) :
    ∃ w', Reached env (driver decompress) w' ∧ w'.daLog = w.daLog ++ [chunkEntry decompress block] ∧
      w'.posted = [⟨(attempt block).record prims
        (driver decompress).codec node.store.withdrawalsRoot, (attempt block).payload⟩] := by
  have hpublishing := runs_publishing runs (fun _ => ⟨trivial, trivial⟩) hup hidle hlatest hwindow
    hcount
  have hchunk := runs_chunk true (fun _ => trivial) hpublishing
  obtain ⟨batches, hrun, -⟩ :=
    runs_record { w with daLog := w.daLog ++ [chunkEntry decompress block] } true trivial
      (fun _ => trivial) hup hbatches hchunk
  refine ⟨_, hrun, rfl, ?_⟩
  show w.posted ++ _ = _
  rw [hposted]
  rfl

end Sample

/-- The first batch goes through at once, and is recovered. -/
theorem fetchSettlementBatches_eq_posted_clean :
    ∃ w decompress, Reached Sample.env (Sample.driver decompress) w ∧ w.posted.length = 1 ∧
      fetchSettlementBatches Sample.env.prims (Sample.driver decompress).codec w.batches w.daLog =
        .ok w.posted := by
  obtain ⟨w, node, draft, block, runs, hup, -, -, hbatches, hlog, hposted, hidle, hlatest, hwindow,
    hcount, -⟩ := @Sample.runs_idle (fun _ _ => True) (fun _ => ⟨trivial, trivial⟩)
      (fun _ _ => trivial) (fun _ => trivial)
  let decompress : List UInt8 → Option BatchPayload := fun _ => some (Sample.attempt block).payload
  obtain ⟨w', hrun, hlog', hposted'⟩ := Sample.runs_posted (runs decompress) hup hidle hbatches
    hposted hlatest hwindow hcount
  have hfound : chunksUnder w'.daLog 0 = [(0, [1])] := by
    rw [hlog', hlog]
    exact Sample.chunksUnder_chunkEntry decompress block
  refine ⟨w', decompress, hrun, by rw [hposted']; rfl, ?_⟩
  refine (fetchSettlementBatches_eq_posted_iff hrun ?_ ?_).mpr ?_
  · intro rb hrb
    rw [hposted', List.mem_singleton] at hrb
    rw [hrb]
    rfl
  · intro rb hrb _
    rw [hposted', List.mem_singleton] at hrb
    rw [hrb, reassemble]
    show (sortParts (chunksUnder w'.daLog 0).reverse).flatMap Prod.snd = [1]
    rw [hfound]
    rfl
  · intro rb hrb
    rw [hposted', List.mem_singleton] at hrb
    rw [hrb]
    show (chunksUnder w'.daLog 0).length = 1
    rw [hfound]
    rfl

/-- The call for the only chunk fails after taking effect, and the batch is published again: the
log has the chunk twice, and recovery fails though the driver made no mistake. -/
theorem fetchSettlementBatches_ne_posted_retried :
    ∃ w decompress, Reached Sample.env (Sample.driver decompress) w ∧ w.posted.length = 1 ∧
      (∀ rb ∈ w.posted, decompress ((Sample.driver decompress).codec.compress rb.payload) =
        some rb.payload) ∧
      fetchSettlementBatches Sample.env.prims (Sample.driver decompress).codec w.batches w.daLog ≠
        .ok w.posted := by
  obtain ⟨w, node, draft, block, runs, hup, -, -, hbatches, hlog, hposted, hidle, hlatest, hwindow,
    hcount, -⟩ := @Sample.runs_idle (fun _ _ => True) (fun _ => ⟨trivial, trivial⟩)
      (fun _ _ => trivial) (fun _ => trivial)
  let decompress : List UInt8 → Option BatchPayload := fun _ => some (Sample.attempt block).payload
  have hpublishing := Sample.runs_publishing (runs decompress) (fun _ => ⟨trivial, trivial⟩) hup
    hidle hlatest hwindow hcount
  have hfailed := Sample.runs_chunk false (fun _ => trivial) hpublishing
  have hbuild : w.batches.buildBatcher = some ⟨1, 0⟩ := by
    rw [hbatches]
    rfl
  have hretried := hfailed.step trivial (.rederive rfl hbuild)
  obtain ⟨w', hrun, hlog', hposted'⟩ := Sample.runs_posted hretried hup rfl hbatches hposted hlatest
    hwindow hcount
  have hfound : chunksUnder w'.daLog 0 = [(0, [1]), (0, [1])] := by
    rw [hlog', hlog, chunksUnder_append, List.nil_append, Sample.chunksUnder_chunkEntry]
    rfl
  have hbytes : reassemble w'.daLog 0 = [1, 1] := by
    rw [reassemble, hfound]
    rfl
  refine ⟨w', decompress, hrun, by rw [hposted']; rfl, ?_, fun hfetch => ?_⟩
  · intro rb hrb
    rw [hposted', List.mem_singleton] at hrb
    rw [hrb]
  · have hmem := hposted' ▸ List.mem_singleton_self (α := RecoveredBatch) _
    have hrecovered := (fetchSettlementBatches_eq_ok_iff hrun.posted.holds
      hrun.posted.sequenced).mp hfetch _ hmem
    have hhash := ((fetchBatch_eq_ok_iff (hrun.posted.lookup hmem)).mp hrecovered).1
    have hne : daHash Sample.env.prims [1, 1] ≠ daHash Sample.env.prims [1] := by decide
    apply hne
    rw [← hbytes]
    exact hhash

end Zul.Node
