import Zul.Bridge.Batch

/-! # Settlement completeness

A call reads at most 10,000 blocks of its window but moves the cursor past all of it. Consecutive
calls therefore post every non-empty block exactly when the blocks a window holds beyond the first
10,000 are empty.
-/

namespace Zul.Bridge

/-- The committed blocks with transactions and slots in `[first, last)`, in slot order. -/
def nonEmptyBlocks (store : Store) (first last : UInt64) : List Block :=
  (blocksFrom store first.toNat (last.toNat - first.toNat)).filter
    (0 < ·.header.transactionCount)

/-- The highest committed block with slot at most `last`. -/
structure Highest (store : Store) (last slot : UInt64) (block : Block) : Prop where
  committed : store.getBlock slot = some block
  le : slot ≤ last
  max : ∀ slot', (store.getBlock slot').isSome → slot' ≤ last → slot' ≤ slot

/-- The posted batches carry the non-empty blocks of `[first, last)`, in slot order and each once,
and each record the state root at its last slot. -/
structure Settled (store : Store) (first last : UInt64)
    (posted : List (BatchRecord × BatchPayload)) : Prop where
  blocks : posted.flatMap (·.2.blocks) = nonEmptyBlocks store first last
  stateRoot : ∀ e ∈ posted, ∃ slot block, Highest store e.1.lastSlot slot block ∧
    e.1.stateRoot = block.header.stateRoot

def windows : UInt64 → List UInt64 → List (UInt64 × UInt64)
  | _, [] => []
  | cursor, tip :: tips =>
    if tip < cursor then windows cursor tips else (cursor, tip) :: windows (tip + 1) tips

/-- The blocks of a window beyond those a call reads carry no transactions and, if the window is
posted, leave the state root as it was. -/
structure Fits (store : Store) (first last : UInt64) : Prop where
  rest_empty : ∀ block ∈ (windowBlocks store first last).drop BATCH_BLOCK_LIMIT,
    block.header.transactionCount = 0
  same_root : (∃ block ∈ (windowBlocks store first last).take BATCH_BLOCK_LIMIT,
      0 < block.header.transactionCount) →
    ((windowBlocks store first last).take BATCH_BLOCK_LIMIT).getLast?.map (·.header.stateRoot) =
      (windowBlocks store first last).getLast?.map (·.header.stateRoot)

theorem Highest.unique {store : Store} {last slot slot' : UInt64} {block block' : Block}
    (h : Highest store last slot block) (h' : Highest store last slot' block') :
    block = block' := by
  have hle := h.max slot' (by rw [h'.committed]; rfl) h'.le
  have hge := h'.max slot (by rw [h.committed]; rfl) h.le
  have hslot : slot = slot' := UInt64.le_antisymm hge hle
  have hblock := h.committed
  rw [hslot, h'.committed] at hblock
  exact (Option.some.inj hblock).symm

theorem getLast?_blocksFrom {store : Store} {first count : ℕ} {block : Block}
    (h : (blocksFrom store first count).getLast? = some block) :
    ∃ k, first ≤ k ∧ k < first + count ∧ store.getBlock (UInt64.ofNat k) = some block ∧
      ∀ k', k < k' → k' < first + count → store.getBlock (UInt64.ofNat k') = none := by
  induction count with
  | zero => cases h
  | succ count ih =>
    rw [blocksFrom_succ] at h
    cases hlast : store.getBlock (UInt64.ofNat (first + count)) with
    | none =>
      rw [hlast, Option.toList_none, List.append_nil] at h
      obtain ⟨k, hle, hlt, hblock, hnone⟩ := ih h
      refine ⟨k, hle, by omega, hblock, fun k' hk hk' => ?_⟩
      rcases Nat.lt_succ_iff_lt_or_eq.mp (show k' < (first + count) + 1 by omega) with hk' | rfl
      · exact hnone k' hk hk'
      · exact hlast
    | some b =>
      rw [hlast, Option.toList_some, List.getLast?_concat] at h
      cases h
      exact ⟨first + count, by omega, by omega, hlast, fun k' _ _ => by omega⟩

theorem highest_of_getLast? {store : Store} {first last : UInt64} {block : Block}
    (h : (windowBlocks store first last).getLast? = some block) :
    ∃ slot, Highest store last slot block := by
  obtain ⟨k, hle, hlt, hblock, hnone⟩ := getLast?_blocksFrom h
  have hlast := last.toNat_lt
  have hk : (UInt64.ofNat k).toNat = k := UInt64.toNat_ofNat_of_lt' (show k < 2 ^ 64 by omega)
  refine ⟨UInt64.ofNat k, hblock, UInt64.le_iff_toNat_le.mpr (by omega),
    fun slot' hsome hslot => ?_⟩
  rw [UInt64.le_iff_toNat_le] at hslot ⊢
  by_contra hgt
  have := hnone slot'.toNat (by omega) (by omega)
  rw [UInt64.ofNat_toNat] at this
  rw [this] at hsome
  cases hsome

namespace Batcher

variable {P : Prims} {C : Codec} {store : Store}

/-- A successful call does nothing, or moves the cursor past its window and posts what it
collected. -/
theorem runOnce_cases {b b' : Batcher} {tip : UInt64} {out : Option (BatchRecord × BatchPayload)}
    (h : b.runOnce P C store tip = some (b', out)) :
    (tip < b.cursorSlot ∧ b' = b ∧ out = none) ∨
      b.cursorSlot ≤ tip ∧ checkedSucc tip = some b'.cursorSlot ∧
        out = (b.collect store tip).map fun a =>
          (a.record P C store.withdrawalsRoot, a.payload) := by
  unfold runOnce at h
  split at h
  · rename_i hlt
    cases h
    exact .inl ⟨hlt, rfl, rfl⟩
  · rename_i hge
    refine .inr ⟨UInt64.not_lt.mp hge, ?_⟩
    cases hcollect : b.collect store tip with
    | none =>
      simp only [hcollect, skip, Option.map_map, Option.map_eq_some_iff] at h
      obtain ⟨cursor, hcursor, heq⟩ := h
      cases heq
      exact ⟨hcursor, rfl⟩
    | some a =>
      simp only [hcollect, posted, Option.bind_eq_bind, Option.map_eq_some_iff,
        Option.bind_eq_some_iff] at h
      obtain ⟨_, ⟨cursor, hcursor, next, -, hb⟩, heq⟩ := h
      cases hb
      cases heq
      exact ⟨hcursor, rfl⟩

theorem flatMap_collect (b : Batcher) (store : Store) (tip : UInt64)
    (record : Attempt → BatchRecord) :
    (((b.collect store tip).map fun a => (record a, a.payload)).toList).flatMap (·.2.blocks) =
      ((windowBlocks store b.cursorSlot tip).take BATCH_BLOCK_LIMIT).filter
        (0 < ·.header.transactionCount) := by
  cases hcollect : b.collect store tip with
  | none => exact (collect_eq_none_iff.mp hcollect).symm
  | some a =>
    obtain ⟨hpayload, -, -⟩ := collect_eq_some hcollect
    simp [hpayload]

theorem runAll_cons {b b'' : Batcher} {tip : UInt64} {tips : List UInt64}
    {posted : List (BatchRecord × BatchPayload)}
    (h : runAll P C store b (tip :: tips) = some (b'', posted)) :
    ∃ b' out rest, b.runOnce P C store tip = some (b', out) ∧
      runAll P C store b' tips = some (b'', rest) ∧ posted = out.toList ++ rest := by
  simp only [runAll, Option.bind_eq_bind, Option.bind_eq_some_iff] at h
  obtain ⟨⟨b', out⟩, hone, ⟨b₂, rest⟩, hrest, heq⟩ := h
  cases heq
  exact ⟨b', out, rest, hone, hrest, rfl⟩

theorem runAll_cursor_le {b b' : Batcher} {tips : List UInt64}
    {posted : List (BatchRecord × BatchPayload)}
    (h : runAll P C store b tips = some (b', posted)) :
    b.cursorSlot.toNat ≤ b'.cursorSlot.toNat := by
  induction tips generalizing b posted with
  | nil =>
    cases h
    exact le_rfl
  | cons tip tips ih =>
    obtain ⟨b₁, out, rest, hone, hrest, -⟩ := runAll_cons h
    rcases runOnce_cases hone with ⟨-, rfl, -⟩ | ⟨hle, hcursor, -⟩
    · exact ih hrest
    · have hsucc := (toNat_of_checkedSucc hcursor).2
      have := ih hrest
      rw [UInt64.le_iff_toNat_le] at hle
      omega

end Batcher

variable {P : Prims} {C : Codec} {store : Store}

theorem nonEmptyBlocks_split {first mid last : UInt64} (h : first.toNat ≤ mid.toNat)
    (h' : mid.toNat ≤ last.toNat) :
    nonEmptyBlocks store first last = nonEmptyBlocks store first mid ++
      nonEmptyBlocks store mid last := by
  have hcount : last.toNat - first.toNat =
      (mid.toNat - first.toNat) + (last.toNat - mid.toNat) := by omega
  rw [nonEmptyBlocks, hcount, blocksFrom_append, List.filter_append,
    Nat.add_sub_cancel' h]
  rfl

theorem nonEmptyBlocks_window {first last next : UInt64} (h : next.toNat = last.toNat + 1) :
    nonEmptyBlocks store first next =
      (windowBlocks store first last).filter (0 < ·.header.transactionCount) := by
  rw [nonEmptyBlocks, h, windowBlocks]

/-- A call posts all non-empty blocks of its window exactly if those it does not read are empty. -/
theorem filter_take_eq_iff {window : List Block} {limit : ℕ} :
    (window.take limit).filter (0 < ·.header.transactionCount) =
        window.filter (0 < ·.header.transactionCount) ↔
      ∀ block ∈ window.drop limit, block.header.transactionCount = 0 := by
  nth_rewrite 2 [← List.take_append_drop limit window]
  rw [List.filter_append, List.self_eq_append_right, List.filter_eq_nil_iff]
  simp only [decide_eq_true_eq, UInt32.not_lt, UInt32.le_zero_iff]

/-- What a call posts carries the state root at the window's end exactly if the blocks it does
not read leave the root of the last one it reads. -/
theorem stateRoot_collect_iff (b : Batcher) (store : Store) (tip : UInt64)
    {record : Attempt → BatchRecord}
    (hlast : ∀ a, (record a).lastSlot = a.payload.lastSlot)
    (hroot : ∀ a, (record a).stateRoot = a.stateRoot) :
    (∀ e ∈ ((b.collect store tip).map fun a => (record a, a.payload)).toList,
        ∃ slot block, Highest store e.1.lastSlot slot block ∧
          e.1.stateRoot = block.header.stateRoot) ↔
      ((∃ block ∈ (windowBlocks store b.cursorSlot tip).take BATCH_BLOCK_LIMIT,
          0 < block.header.transactionCount) →
        ((windowBlocks store b.cursorSlot tip).take BATCH_BLOCK_LIMIT).getLast?.map
            (·.header.stateRoot) =
          (windowBlocks store b.cursorSlot tip).getLast?.map (·.header.stateRoot)) := by
  cases hcollect : b.collect store tip with
  | none =>
    have hnone := Batcher.collect_eq_none_iff.mp hcollect
    rw [List.filter_eq_nil_iff] at hnone
    refine iff_of_true (by simp) ?_
    rintro ⟨block, hmem, hpos⟩
    exact absurd (decide_eq_true hpos) (hnone block hmem)
  | some a =>
    obtain ⟨hpayload, hread, hne⟩ := Batcher.collect_eq_some hcollect
    have hpremise : ∃ block ∈ (windowBlocks store b.cursorSlot tip).take BATCH_BLOCK_LIMIT,
        0 < block.header.transactionCount := by
      obtain ⟨block, hmem⟩ := List.exists_mem_of_ne_nil _ hne
      rw [hpayload] at hmem
      obtain ⟨hmem, hpos⟩ := List.mem_filter.mp hmem
      exact ⟨block, hmem, of_decide_eq_true hpos⟩
    obtain ⟨last, hwindow⟩ : ∃ last,
      (windowBlocks store b.cursorSlot tip).getLast? = some last := by
      obtain ⟨block, hmem, -⟩ := hpremise
      exact Option.ne_none_iff_exists'.mp fun hnil =>
        List.ne_nil_of_mem (List.mem_of_mem_take hmem) (List.getLast?_eq_none_iff.mp hnil)
    obtain ⟨slot, hhighest⟩ := highest_of_getLast? hwindow
    have htip : a.payload.lastSlot = tip := by rw [hpayload]
    simp only [Option.map_some, Option.toList_some, List.mem_singleton, forall_eq,
      hlast, hroot, htip, hread, hwindow, hpremise, forall_const, Option.some.injEq]
    constructor
    · rintro ⟨slot', block, hhighest', heq⟩
      rw [hhighest.unique hhighest', heq]
    · intro heq
      exact ⟨slot, last, hhighest, heq⟩

theorem posted_sublist {b b' : Batcher} {tips : List UInt64}
    {posted : List (BatchRecord × BatchPayload)}
    (h : Batcher.runAll P C store b tips = some (b', posted)) :
    (posted.flatMap (·.2.blocks)).Sublist (nonEmptyBlocks store b.cursorSlot b'.cursorSlot) := by
  induction tips generalizing b posted with
  | nil =>
    cases h
    exact List.nil_sublist _
  | cons tip tips ih =>
    obtain ⟨b₁, out, rest, hone, hrest, rfl⟩ := Batcher.runAll_cons h
    rcases Batcher.runOnce_cases hone with ⟨-, rfl, rfl⟩ | ⟨hle, hcursor, rfl⟩
    · exact ih hrest
    · have hsucc := (toNat_of_checkedSucc hcursor).2
      rw [UInt64.le_iff_toNat_le] at hle
      rw [List.flatMap_append, Batcher.flatMap_collect,
        nonEmptyBlocks_split (by omega) (Batcher.runAll_cursor_le hrest),
        nonEmptyBlocks_window hsucc]
      exact ((List.take_sublist _ _).filter _).append (ih hrest)

/-- A call and those after it settle what they pass exactly if its window fits and the others
settle the rest. -/
theorem settled_cons_iff {b b₁ b' : Batcher} {tip : UInt64} {tips : List UInt64}
    {rest : List (BatchRecord × BatchPayload)} (hle : b.cursorSlot ≤ tip)
    (hcursor : checkedSucc tip = some b₁.cursorSlot)
    (hrest : Batcher.runAll P C store b₁ tips = some (b', rest)) :
    Settled store b.cursorSlot b'.cursorSlot (((b.collect store tip).map fun a =>
        (a.record P C store.withdrawalsRoot, a.payload)).toList ++ rest) ↔
      Fits store b.cursorSlot tip ∧ Settled store b₁.cursorSlot b'.cursorSlot rest := by
  have hsucc := (toNat_of_checkedSucc hcursor).2
  rw [UInt64.le_iff_toNat_le] at hle
  have hblocks : (((b.collect store tip).map fun a => (a.record P C store.withdrawalsRoot,
        a.payload)).toList ++ rest).flatMap (·.2.blocks) =
        nonEmptyBlocks store b.cursorSlot b'.cursorSlot ↔
      (∀ block ∈ (windowBlocks store b.cursorSlot tip).drop BATCH_BLOCK_LIMIT,
        block.header.transactionCount = 0) ∧
      rest.flatMap (·.2.blocks) = nonEmptyBlocks store b₁.cursorSlot b'.cursorSlot := by
    rw [List.flatMap_append, Batcher.flatMap_collect,
      nonEmptyBlocks_split (by omega) (Batcher.runAll_cursor_le hrest),
      nonEmptyBlocks_window hsucc, List.append_eq_append_iff_of_sublist
        ((List.take_sublist _ _).filter _) (posted_sublist hrest), filter_take_eq_iff]
  have hroots := @stateRoot_collect_iff b store tip
    (fun a => a.record P C store.withdrawalsRoot) (fun _ => rfl) (fun _ => rfl)
  constructor
  · rintro ⟨hposted, hroot⟩
    obtain ⟨hempty, hposted⟩ := hblocks.mp hposted
    obtain ⟨hroot, hroot'⟩ := List.forall_mem_append.mp hroot
    exact ⟨⟨hempty, hroots.mp hroot⟩, hposted, hroot'⟩
  · rintro ⟨⟨hempty, hroot⟩, hposted, hroot'⟩
    exact ⟨hblocks.mpr ⟨hempty, hposted⟩, List.forall_mem_append.mpr ⟨hroots.mpr hroot, hroot'⟩⟩

theorem fits_of_length_le {first last : UInt64}
    (h : (windowBlocks store first last).length ≤ BATCH_BLOCK_LIMIT) : Fits store first last := by
  constructor
  · rw [List.drop_eq_nil_of_le h]
    simp
  · rw [List.take_of_length_le h]
    exact fun _ => rfl

namespace Batcher.Sample

def prims : Prims where
  blake3 _ := Bytes.replicate 32 0
  findProgramAddress _ _ := Bytes.replicate 32 0
  poseidon _ := 0

def codec : Codec where
  compress _ := [1]
  decompress _ := none

def block (slot : UInt64) : Block :=
  ⟨⟨slot, Bytes.replicate 32 0, Bytes.replicate 32 0, Bytes.replicate 32 0, 0, 1⟩,
    [⟨[Bytes.replicate 64 1], ⟨⟨1, 0, 0⟩, [Bytes.replicate 32 1], Bytes.replicate 32 0, []⟩⟩],
    Bytes.replicate 64 0⟩

/-- A store with a block of one transaction in every slot up to `count`. -/
def chain (count : UInt64) : Store :=
  { Store.empty with
    blocks := fun slot => if 1 ≤ slot ∧ slot ≤ count then some (block slot) else none }

theorem windowBlocks_chain (count : UInt64) :
    windowBlocks (chain count) 1 count =
      (List.range' 1 count.toNat).map fun slot => block (UInt64.ofNat slot) := by
  rw [windowBlocks, blocksFrom, ← List.filterMap_eq_map]
  refine List.filterMap_congr fun slot hslot => ?_
  rw [List.mem_range'_1, show (1 : UInt64).toNat = 1 from rfl] at hslot
  have hcount := count.toNat_lt
  have htoNat : (UInt64.ofNat slot).toNat = slot :=
    UInt64.toNat_ofNat_of_lt' (show slot < 2 ^ 64 by omega)
  refine if_pos ⟨UInt64.le_iff_toNat_le.mpr ?_, UInt64.le_iff_toNat_le.mpr ?_⟩
  · rw [htoNat]
    exact hslot.1
  · rw [htoNat]
    omega

end Batcher.Sample

/-- Consecutive calls settle the blocks they pass exactly if every window fits. -/
theorem settled_iff {b b' : Batcher} {tips : List UInt64}
    {posted : List (BatchRecord × BatchPayload)}
    (h : Batcher.runAll P C store b tips = some (b', posted)) :
    Settled store b.cursorSlot b'.cursorSlot posted ↔
      ∀ w ∈ windows b.cursorSlot tips, Fits store w.1 w.2 := by
  induction tips generalizing b posted with
  | nil =>
    cases h
    simp only [windows, List.not_mem_nil, false_imp_iff, implies_true, iff_true]
    exact ⟨by simp [nonEmptyBlocks, blocksFrom], by simp⟩
  | cons tip tips ih =>
    obtain ⟨b₁, out, rest, hone, hrest, rfl⟩ := Batcher.runAll_cons h
    rcases Batcher.runOnce_cases hone with ⟨hlt, rfl, rfl⟩ | ⟨hle, hcursor, rfl⟩
    · rw [windows, if_pos hlt]
      exact ih hrest
    · rw [windows, if_neg (UInt64.not_lt.mpr hle), List.forall_mem_cons,
        ← (toNat_of_checkedSucc hcursor).1, settled_cons_iff hle hcursor hrest, ih hrest]

/-- Two calls settle a chain of three blocks. -/
theorem settled_iff_three :
    ∃ b posted, Batcher.runAll Batcher.Sample.prims Batcher.Sample.codec (Batcher.Sample.chain 3)
        ⟨1, 0⟩ [2, 3] = some (b, posted) ∧ posted.length = 2 ∧
      Settled (Batcher.Sample.chain 3) 1 4 posted := by
  have hrun : (Batcher.runAll Batcher.Sample.prims Batcher.Sample.codec (Batcher.Sample.chain 3)
      ⟨1, 0⟩ [2, 3]).map (fun out => (out.1, out.2.length)) = some (⟨4, 2⟩, 2) := by
    decide
  obtain ⟨⟨b, posted⟩, hrun, heq⟩ := Option.map_eq_some_iff.mp hrun
  obtain ⟨rfl, hlength⟩ := Prod.mk.inj heq
  refine ⟨_, posted, hrun, hlength, (settled_iff hrun).mpr fun w hw => fits_of_length_le ?_⟩
  have hcases : w = (1, 2) ∨ w = (3, 3) := by simpa [windows] using hw
  refine (length_windowBlocks_le _ _ _).trans ?_
  rcases hcases with rfl | rfl <;> decide

/-- A call over 10,001 non-empty blocks moves the cursor past the last one without posting it. -/
theorem not_settled_long :
    ∃ b posted, Batcher.runAll Batcher.Sample.prims Batcher.Sample.codec
        (Batcher.Sample.chain 10001) ⟨1, 0⟩ [10001] = some (b, posted) ∧
      b.cursorSlot = 10002 ∧ ¬ Settled (Batcher.Sample.chain 10001) 1 10002 posted := by
  let first : Batcher := ⟨1, 0⟩
  have hone : ∃ b, b.cursorSlot = 10002 ∧ first.runOnce Batcher.Sample.prims Batcher.Sample.codec
      (Batcher.Sample.chain 10001) 10001 =
        some (b, (first.collect (Batcher.Sample.chain 10001) 10001).map fun a =>
          (a.record Batcher.Sample.prims Batcher.Sample.codec
            (Batcher.Sample.chain 10001).withdrawalsRoot, a.payload)) := by
    rw [Batcher.runOnce, if_neg (by decide)]
    cases first.collect (Batcher.Sample.chain 10001) 10001 with
    | none => exact ⟨⟨10002, 0⟩, rfl, rfl⟩
    | some a => exact ⟨⟨10002, 1⟩, rfl, rfl⟩
  obtain ⟨b, hcursor, hone⟩ := hone
  refine ⟨b, _ ++ [], by rw [Batcher.runAll, hone]; rfl, hcursor, fun hsettled => ?_⟩
  have hnext : checkedSucc 10001 = some b.cursorSlot := by
    rw [hcursor]
    rfl
  have hnil : Batcher.runAll Batcher.Sample.prims Batcher.Sample.codec (Batcher.Sample.chain 10001)
      b [] = some (b, []) := rfl
  rw [← hcursor] at hsettled
  obtain ⟨hfits, -⟩ := (settled_cons_iff (b := first) (by decide) hnext hnil).mp hsettled
  -- the block of slot 10,001 is not among the first 10,000
  have hmem : Batcher.Sample.block 10001 ∈
      (windowBlocks (Batcher.Sample.chain 10001) 1 10001).drop BATCH_BLOCK_LIMIT := by
    rw [Batcher.Sample.windowBlocks_chain, ← List.map_drop, List.drop_range']
    exact List.mem_map.mpr ⟨10001, List.mem_range'_1.mpr (by decide), rfl⟩
  exact absurd (hfits.rest_empty _ hmem) (by decide)

end Zul.Bridge
