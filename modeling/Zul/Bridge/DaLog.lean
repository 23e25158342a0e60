import Mathlib.Data.List.Sort
import Zul.Bridge.Recover
import Zul.Settlement.Batches

/-! # The data-availability log

Chunks are published as instruction data of a program that anyone may call and that only checks
their shape. Recovery reads every transaction of that program, groups the chunks by batch number,
orders them by index and compares the hash of their concatenation with the posted record.
-/

namespace Zul.Bridge

/-! ## The program -/

def MAX_CHUNK_BYTES : ℕ := 900

/-- The arguments of `post_chunk`. -/
structure ChunkArgs where
  batchNo : UInt64
  chunkIndex : UInt32
  chunkCount : UInt32
  data : List UInt8
  deriving DecidableEq

inductive DaError
  | emptyChunk
  | chunkTooLarge
  | indexOutOfRange
  deriving DecidableEq

def postChunk (args : ChunkArgs) : Except DaError Unit :=
  if args.data.isEmpty then .error .emptyChunk
  else if MAX_CHUNK_BYTES < args.data.length then .error .chunkTooLarge
  else if args.chunkCount ≤ args.chunkIndex then .error .indexOutOfRange
  else .ok ()

/-! ## Instruction data -/

/-- `discriminator("global", "post_chunk")`, the first bytes of `sha256("global:post_chunk")`. -/
def POST_CHUNK_DISCRIMINATOR : List UInt8 := [209, 8, 101, 123, 165, 205, 108, 54]

def ixPostChunk (args : ChunkArgs) : List UInt8 :=
  POST_CHUNK_DISCRIMINATOR ++ LittleEndian.u64 args.batchNo ++ LittleEndian.u32 args.chunkIndex ++
    LittleEndian.u32 args.chunkCount ++ LittleEndian.u32 (UInt32.ofNat args.data.length) ++
    args.data

/-- The arguments in instruction data, as the program and the client read them. -/
def decodePostChunk (bytes : List UInt8) : Option ChunkArgs :=
  if bytes.length < 28 ∨ bytes.take 8 ≠ POST_CHUNK_DISCRIMINATOR then none
  else
    let len := (LittleEndian.toU32 ((bytes.drop 24).take 4)).toNat
    if bytes.length < 28 + len then none
    else some {
      batchNo := LittleEndian.toU64 ((bytes.drop 8).take 8)
      chunkIndex := LittleEndian.toU32 ((bytes.drop 16).take 4)
      chunkCount := LittleEndian.toU32 ((bytes.drop 20).take 4)
      data := (bytes.drop 28).take len }

theorem decodePostChunk_ixPostChunk_take (args : ChunkArgs) :
    decodePostChunk (ixPostChunk args) =
      some { args with data := args.data.take (args.data.length % 2 ^ 32) } := by
  have hlen : (UInt32.ofNat args.data.length).toNat = args.data.length % 2 ^ 32 :=
    UInt32.toNat_ofNat'
  set a := LittleEndian.u64 args.batchNo with ha
  set b := LittleEndian.u32 args.chunkIndex with hb
  set c := LittleEndian.u32 args.chunkCount with hc
  set d := LittleEndian.u32 (UInt32.ofNat args.data.length) with hd
  have hla : a.length = 8 := LittleEndian.length_u64 _
  have hlb : b.length = 4 := LittleEndian.length_u32 _
  have hlc : c.length = 4 := LittleEndian.length_u32 _
  have hld : d.length = 4 := LittleEndian.length_u32 _
  have hl8 : POST_CHUNK_DISCRIMINATOR.length = 8 := rfl
  have hbytes : ixPostChunk args =
      POST_CHUNK_DISCRIMINATOR ++ (a ++ (b ++ (c ++ (d ++ args.data)))) := by
    simp only [ixPostChunk, ← ha, ← hb, ← hc, ← hd, List.append_assoc]
  have h8 := List.drop_past (b := 8) ((List.drop_zero).trans hbytes) (by rw [hl8])
  have h16 := List.drop_past (b := 16) h8 (by rw [hla])
  have h20 := List.drop_past (b := 20) h16 (by rw [hlb])
  have h24 := List.drop_past (b := 24) h20 (by rw [hlc])
  have h28 := List.drop_past (b := 28) h24 (by rw [hld])
  have hlength : (ixPostChunk args).length = 28 + args.data.length := by
    rw [hbytes]
    simp only [List.length_append, hl8, hla, hlb, hlc, hld]
    omega
  have htake : (ixPostChunk args).take 8 = POST_CHUNK_DISCRIMINATOR := by
    rw [hbytes, List.take_left' hl8]
  have hmod := Nat.mod_le args.data.length (2 ^ 32)
  rw [decodePostChunk, if_neg (by rw [htake, not_or, not_not]; exact ⟨by omega, rfl⟩)]
  simp only [h8, h16, h20, h24, h28, List.take_left' hla, List.take_left' hlb, List.take_left' hlc,
    List.take_left' hld]
  rw [ha, hb, hc, hd, LittleEndian.toU64_u64, LittleEndian.toU32_u32, LittleEndian.toU32_u32,
    LittleEndian.toU32_u32, hlen, if_neg (by omega)]

theorem decodePostChunk_ixPostChunk {args : ChunkArgs} (h : args.data.length < 2 ^ 32) :
    decodePostChunk (ixPostChunk args) = some args := by
  rw [decodePostChunk_ixPostChunk_take, Nat.mod_eq_of_lt h, List.take_length]

theorem decodePostChunk_ixPostChunk_iff (args : ChunkArgs) :
    decodePostChunk (ixPostChunk args) = some args ↔ args.data.length < 2 ^ 32 := by
  constructor
  · intro h
    rw [decodePostChunk_ixPostChunk_take] at h
    have hdata := congrArg (fun args => args.data.length) (Option.some.inj h)
    have hmod := Nat.mod_lt args.data.length (Nat.two_pow_pos 32)
    rw [List.length_take] at hdata
    omega
  · exact decodePostChunk_ixPostChunk

/-! ## The transactions of the program -/

/-- One transaction in the program's history: whether it failed, and the data of its top-level
instructions to the program, all of which went through if it did not. -/
structure DaEntry where
  failed : Bool
  instructions : List (List UInt8)
  accepted : failed = false → ∀ data ∈ instructions, ∀ args, decodePostChunk data = some args →
    postChunk args = .ok ()

def DaEntry.ofChunk (args : ChunkArgs) (hlen : args.data.length < 2 ^ 32)
    (h : postChunk args = .ok ()) : DaEntry where
  failed := false
  instructions := [ixPostChunk args]
  accepted _ data hdata args' hdecode := by
    rw [List.mem_singleton.mp hdata, decodePostChunk_ixPostChunk hlen] at hdecode
    cases hdecode
    exact h

/-- The chunk recovery takes from a transaction: that of the first instruction that parses. -/
def fetchPostChunk (entry : DaEntry) : Option ChunkArgs :=
  if entry.failed then none else entry.instructions.findSome? decodePostChunk

theorem fetchPostChunk_ofChunk {args : ChunkArgs} (hlen : args.data.length < 2 ^ 32)
    (h : postChunk args = .ok ()) : fetchPostChunk (.ofChunk args hlen h) = some args := by
  show [ixPostChunk args].findSome? decodePostChunk = some args
  rw [List.findSome?_singleton, decodePostChunk_ixPostChunk hlen]

theorem postChunk_of_fetchPostChunk {entry : DaEntry} {args : ChunkArgs}
    (h : fetchPostChunk entry = some args) : postChunk args = .ok () := by
  unfold fetchPostChunk at h
  split at h
  · cases h
  · rename_i hfailed
    obtain ⟨data, hdata, hdecode⟩ := List.exists_of_findSome?_eq_some h
    exact entry.accepted (Bool.not_eq_true _ ▸ hfailed) data hdata args hdecode

/-! ## Reading the log back -/

def SIGNATURES_PAGE : ℕ := 1000

def collectPages : ℕ → List DaEntry → List ChunkArgs
  | 0, _ => []
  | fuel + 1, history =>
    let page := history.take SIGNATURES_PAGE
    if page.isEmpty then []
    else page.filterMap fetchPostChunk ++
      if page.length < SIGNATURES_PAGE then []
      else collectPages fuel (history.drop SIGNATURES_PAGE)

/-- Chunks by batch number, as index and bytes in the order they are found. -/
abbrev ChunkMap := PartialMap UInt64 (List (UInt32 × List UInt8))

def pushChunk (chunks : ChunkMap) (args : ChunkArgs) : ChunkMap :=
  chunks.insert args.batchNo
    ((chunks args.batchNo).getD [] ++ [(args.chunkIndex, args.data)])

def fetchAllDaChunks (log : List DaEntry) : ChunkMap :=
  (collectPages (log.length + 1) log.reverse).foldl pushChunk fun _ => none

/-- The error of the L1 client, with its text. -/
inductive L1Error
  | rpc (message : String)
  deriving DecidableEq

/-- The parts of a batch in index order; the sort is stable. -/
def sortParts (parts : List (UInt32 × List UInt8)) : List (UInt32 × List UInt8) :=
  parts.insertionSort fun a b => a.1 ≤ b.1

section Fetch

variable (P : Prims) (C : Codec)

/-- One batch of `fetch_settlement_batches`. -/
def fetchBatch (s : Settlement.BatchAccounts) (chunks : ChunkMap) (batchNo : UInt64) :
    Except L1Error RecoveredBatch :=
  match s.batches batchNo with
  | none => .error (.rpc s!"batch {batchNo} record missing on L1")
  | some record =>
    let compressed := (sortParts ((chunks batchNo).getD [])).flatMap Prod.snd
    if daHash P compressed ≠ record.daHash then
      .error (.rpc s!"batch {batchNo}: DA reassembly hash mismatch (missing/corrupt chunks)")
    else
      match C.decompress compressed with
      | none => .error (.rpc s!"batch {batchNo}: decompress: corrupt batch payload")
      | some payload => .ok ⟨record, payload⟩

def fetchSettlementBatches (s : Settlement.BatchAccounts) (log : List DaEntry) :
    Except L1Error (List RecoveredBatch) :=
  if s.batchCount = 0 then .ok []
  else
    (List.range s.batchCount.toNat).mapM fun n =>
      fetchBatch P C s (fetchAllDaChunks log) (UInt64.ofNat n)

end Fetch

/-! ## What is found under a number -/

def chunksUnder (log : List DaEntry) (batchNo : UInt64) : List (UInt32 × List UInt8) :=
  ((log.filterMap fetchPostChunk).filter (·.batchNo = batchNo)).map fun args =>
    (args.chunkIndex, args.data)

theorem collectPages_eq {fuel : ℕ} {history : List DaEntry} (h : history.length < fuel) :
    collectPages fuel history = history.filterMap fetchPostChunk := by
  have hpage : SIGNATURES_PAGE = 1000 := rfl
  induction fuel generalizing history with
  | zero => omega
  | succ fuel ih =>
    rw [collectPages]
    split
    · rename_i hempty
      have hnil : history = [] := by
        simpa [SIGNATURES_PAGE] using hempty
      rw [hnil]
      rfl
    · split
      · rename_i hlast
        rw [List.length_take] at hlast
        rw [List.take_of_length_le (by omega), List.append_nil]
      · rename_i hfull
        rw [List.length_take] at hfull
        rw [ih (by rw [List.length_drop]; omega), ← List.filterMap_append, List.take_append_drop]

theorem foldl_pushChunk (found : List ChunkArgs) (chunks : ChunkMap) (batchNo : UInt64) :
    (found.foldl pushChunk chunks batchNo).getD [] = (chunks batchNo).getD [] ++
      (found.filter (·.batchNo = batchNo)).map fun args => (args.chunkIndex, args.data) := by
  induction found generalizing chunks with
  | nil => simp
  | cons args found ih =>
    rw [List.foldl_cons, ih, pushChunk, PartialMap.insert_apply]
    split
    · rename_i heq
      subst heq
      simp
    · rename_i hne
      rw [List.filter_cons_of_neg (by simpa using fun h => hne h.symm)]

theorem fetchAllDaChunks_eq (log : List DaEntry) (batchNo : UInt64) :
    (fetchAllDaChunks log batchNo).getD [] = (chunksUnder log batchNo).reverse := by
  rw [fetchAllDaChunks, collectPages_eq (by rw [List.length_reverse]; omega), foldl_pushChunk]
  simp [chunksUnder, List.filterMap_reverse, List.filter_reverse, List.map_reverse]

theorem chunksUnder_append (log log' : List DaEntry) (batchNo : UInt64) :
    chunksUnder (log ++ log') batchNo = chunksUnder log batchNo ++ chunksUnder log' batchNo := by
  simp [chunksUnder]

theorem chunksUnder_ofChunk {args : ChunkArgs} (hlen : args.data.length < 2 ^ 32)
    (h : postChunk args = .ok ()) :
    chunksUnder [.ofChunk args hlen h] args.batchNo = [(args.chunkIndex, args.data)] := by
  rw [chunksUnder, List.filterMap_cons_some (fetchPostChunk_ofChunk hlen h)]
  simp

theorem length_pos_of_mem_chunksUnder {log : List DaEntry} {batchNo : UInt64}
    {part : UInt32 × List UInt8} (h : part ∈ chunksUnder log batchNo) : 0 < part.2.length := by
  obtain ⟨args, hargs, rfl⟩ := List.mem_map.mp h
  obtain ⟨entry, -, hentry⟩ := List.mem_filterMap.mp (List.mem_of_mem_filter hargs)
  have hok := postChunk_of_fetchPostChunk hentry
  unfold postChunk at hok
  split at hok
  · cases hok
  · rename_i hempty
    exact List.length_pos_iff.mpr fun hnil => hempty (List.isEmpty_iff.mpr hnil)

def reassemble (log : List DaEntry) (batchNo : UInt64) : List UInt8 :=
  (sortParts (chunksUnder log batchNo).reverse).flatMap Prod.snd

theorem sortParts_of_perm {parts found : List (UInt32 × List UInt8)}
    (hparts : parts.Pairwise fun a b => a.1 < b.1) (hperm : found.Perm parts) :
    sortParts found = parts := by
  let le : UInt32 × List UInt8 → UInt32 × List UInt8 → Prop := fun a b => a.1 ≤ b.1
  have : Std.Total le := ⟨fun a b => UInt32.le_total a.1 b.1⟩
  have : IsTrans _ le := ⟨fun a b c => UInt32.le_trans⟩
  have hsorted : (sortParts found).Pairwise le := List.pairwise_insertionSort le found
  have hall : (sortParts found).Perm parts := (List.perm_insertionSort le found).trans hperm
  have hle : parts.Pairwise le := hparts.imp fun h => UInt32.le_of_lt h
  -- equal indices are one part
  have hkeys : ∀ a ∈ parts, ∀ b ∈ parts, a.1 = b.1 → a = b := by
    have hnodup : (parts.map Prod.fst).Nodup :=
      List.pairwise_map.mpr (hparts.imp fun h => UInt32.ne_of_lt h)
    exact fun a ha b hb => List.inj_on_of_nodup_map hnodup ha hb
  refine List.Perm.eq_of_pairwise (fun a b ha hb hab hba => ?_) hsorted hle hall
  exact hkeys a (hall.mem_iff.mp ha) b hb (UInt32.le_antisymm hab hba)

/-- A batch whose chunks are in the log is put together from them exactly if there are no others
under its number. -/
theorem reassemble_eq_iff {log : List DaEntry} {batchNo : UInt64}
    {parts : List (UInt32 × List UInt8)} (hparts : parts.Pairwise fun a b => a.1 < b.1)
    (hsub : parts.Sublist (chunksUnder log batchNo)) :
    reassemble log batchNo = parts.flatMap Prod.snd ↔
      (chunksUnder log batchNo).length = parts.length := by
  constructor
  · intro h
    have hweight : ∀ l : List (UInt32 × List UInt8),
        (l.flatMap Prod.snd).length = (l.map fun part => part.2.length).sum :=
      fun l => List.length_flatMap
    have hlength := congrArg List.length h
    have hsort : (sortParts (chunksUnder log batchNo).reverse).Perm (chunksUnder log batchNo) :=
      (List.perm_insertionSort _ _).trans (List.reverse_perm _)
    rw [reassemble, hweight, hweight, (hsort.map _).sum_nat] at hlength
    rw [hsub.eq_of_sum_eq (fun part => part.2.length)
      (fun part hpart => length_pos_of_mem_chunksUnder hpart) hlength.symm]
  · intro h
    have heq := hsub.eq_of_length h.symm
    rw [reassemble, ← heq, sortParts_of_perm hparts (List.reverse_perm _)]

end Zul.Bridge
