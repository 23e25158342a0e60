import Zul.Primitives.Reader
import Zul.Store.Account

/-! # The recency window

The queue keeps the newest hashes up to its capacity, and beside them an index that is not
persisted: registering and evicting maintain it, reloading rebuilds it. Over any run of the two the
index answers for the window.
-/

namespace Zul

namespace BlockhashQueue

def Indexed (q : BlockhashQueue) : Prop :=
  ∀ hash, (q.index hash).isSome ↔ hash ∈ q.entries.map Prod.snd

def newest (capacity : ℕ) (entries : List (UInt64 × H256)) : List (UInt64 × H256) :=
  entries.drop (entries.length - capacity)

theorem evict_entries (capacity : ℕ) (entries : List (UInt64 × H256))
    (index : PartialMap H256 UInt64) :
    (evict capacity entries index).1 = newest capacity entries := by
  induction entries generalizing index with
  | nil => simp [evict, newest]
  | cons e entries ih =>
    rw [evict]
    split
    · rename_i hfull
      rw [ih, newest, newest, List.length_cons,
        show entries.length + 1 - capacity = (entries.length - capacity) + 1 by omega,
        List.drop_succ_cons]
    · rename_i hroom
      rw [newest, List.length_cons, show entries.length + 1 - capacity = 0 by omega, List.drop_zero]

theorem evict_index (capacity : ℕ) (entries : List (UInt64 × H256))
    (index : PartialMap H256 UInt64) (hash : H256) :
    ((evict capacity entries index).2 hash).isSome ↔
      (index hash).isSome ∧
        hash ∉ (entries.take (entries.length - capacity)).map Prod.snd := by
  induction entries generalizing index with
  | nil => simp [evict]
  | cons e entries ih =>
    rw [evict]
    split
    · rename_i hfull
      rw [ih, List.length_cons,
        show entries.length + 1 - capacity = (entries.length - capacity) + 1 by omega,
        List.take_succ_cons, List.map_cons, List.mem_cons, not_or]
      by_cases heq : hash = e.2
      · simp [heq]
      · simp [heq, PartialMap.remove_of_ne]
    · rename_i hroom
      rw [List.length_cons, show entries.length + 1 - capacity = 0 by omega]
      simp

theorem newest_append (capacity : ℕ) (entries : List (UInt64 × H256)) (e : UInt64 × H256) :
    newest capacity (newest capacity entries ++ [e]) = newest capacity (entries ++ [e]) := by
  rcases Nat.lt_or_ge capacity entries.length with hlong | hshort
  · have hlen : (newest capacity entries).length = capacity := by
      rw [newest, List.length_drop]
      omega
    have hkept : (entries ++ [e]).drop (entries.length - capacity) =
      newest capacity entries ++ [e] :=
      List.drop_append_of_le_length (by omega)
    have hmore : newest capacity (entries ++ [e]) =
        ((entries ++ [e]).drop (entries.length - capacity)).drop 1 := by
      rw [newest, List.drop_drop, List.length_append, List.length_singleton]
      congr 1
      omega
    rw [hmore, hkept, newest, List.length_append, hlen, List.length_singleton,
      Nat.add_sub_cancel_left]
  · rw [newest, newest, show entries.length - capacity = 0 by omega, List.drop_zero]
    rfl

theorem register_entries (q : BlockhashQueue) (slot : UInt64) (hash : H256) :
    (q.register slot hash).entries = newest q.capacity (q.entries ++ [(slot, hash)]) :=
  evict_entries ..

theorem Indexed.register {q : BlockhashQueue} (h : q.Indexed) {slot : UInt64} {hash : H256}
    (hnodup : ((q.entries ++ [(slot, hash)]).map Prod.snd).Nodup) :
    (q.register slot hash).Indexed := by
  intro x
  have hold : ((q.index.insert hash slot) x).isSome ↔
      x ∈ (q.entries ++ [(slot, hash)]).map Prod.snd := by
    rw [PartialMap.insert_apply, List.map_append, List.mem_append, ← h x]
    split <;> simp_all
  rw [register_entries, newest]
  show ((evict q.capacity (q.entries ++ [(slot, hash)]) (q.index.insert hash slot)).2 x).isSome ↔ _
  rw [evict_index, hold]
  generalize q.entries ++ [(slot, hash)] = entries at hnodup
  generalize entries.length - q.capacity = k
  rw [← List.take_append_drop k entries, List.map_append] at hnodup
  have hdisjoint := List.disjoint_of_nodup_append hnodup
  constructor
  · rintro ⟨hmem, hdropped⟩
    rw [← List.take_append_drop k entries, List.map_append, List.mem_append] at hmem
    exact hmem.resolve_left hdropped
  · intro hmem
    refine ⟨?_, fun htaken => hdisjoint htaken hmem⟩
    rw [← List.take_append_drop k entries, List.map_append, List.mem_append]
    exact .inr hmem

theorem indexed_fromBytes (s : SerializedQueue) : (fromBytes s).Indexed := by
  intro hash
  have hinsert : ∀ (entries : List (UInt64 × H256)) (index : PartialMap H256 UInt64),
      (entries.foldl (fun index e => index.insert e.2 e.1) index hash).isSome ↔
        (index hash).isSome ∨ hash ∈ entries.map Prod.snd := by
    intro entries
    induction entries with
    | nil => simp
    | cons e entries ih =>
      intro index
      rw [List.foldl_cons, ih, PartialMap.insert_apply, List.map_cons, List.mem_cons]
      split <;> simp_all
  exact (hinsert s.entries fun _ => none).trans (by simp [fromBytes])

/-! ## Persistence -/

def serialize (s : SerializedQueue) : List UInt8 :=
  LittleEndian.u64 (UInt64.ofNat s.capacity) ++
    LittleEndian.u64 (UInt64.ofNat s.entries.length) ++
    s.entries.flatMap fun e => LittleEndian.u64 e.1 ++ e.2.toList

def deserialize (bytes : List UInt8) : Option SerializedQueue :=
  let reader : Reader SerializedQueue := do
    let capacity ← Reader.u64
    let length ← Reader.u64
    let entries ← Reader.repeated (return (← Reader.u64, ← Reader.array 32)) length.toNat
    return ⟨capacity.toNat, entries⟩
  (reader.run bytes).map Prod.fst

theorem deserialize_serialize {s : SerializedQueue} (hcapacity : s.capacity < 2 ^ 64)
    (hentries : s.entries.length ≤ s.capacity) : deserialize (serialize s) = some s := by
  have hread : ∀ (e : UInt64 × H256) rest, StateT.run
      (return (← Reader.u64, ← Reader.array 32) : Reader (UInt64 × H256))
      ((LittleEndian.u64 e.1 ++ e.2.toList) ++ rest) = some (e, rest) := by
    intro e rest
    rw [List.append_assoc]
    simp [Reader.run_u64, Reader.run_array]
  have hentry := Reader.run_repeated [] hread s.entries
  rw [List.append_nil] at hentry
  have hlength : (UInt64.ofNat s.entries.length).toNat = s.entries.length := by
    rw [UInt64.toNat_ofNat', Nat.mod_eq_of_lt (hentries.trans_lt hcapacity)]
  have hcap : (UInt64.ofNat s.capacity).toNat = s.capacity := by
    rw [UInt64.toNat_ofNat', Nat.mod_eq_of_lt hcapacity]
  rw [serialize, List.append_assoc, deserialize]
  simp only [StateT.run_bind, Reader.run_u64, Option.bind_eq_bind, Option.bind_some, hlength,
    hentry, StateT.run_pure, hcap]
  rfl

def reload (q : BlockhashQueue) : Option BlockhashQueue :=
  (deserialize (serialize q.toBytes)).map fromBytes

def latest (q : BlockhashQueue) : Option (UInt64 × H256) := q.entries.getLast?

def len (q : BlockhashQueue) : ℕ := q.entries.length

/-! ## Runs -/

inductive Step
  | register (slot : UInt64) (hash : H256)
  | reload

def step (q : BlockhashQueue) : Step → Option BlockhashQueue
  | .register slot hash => some (q.register slot hash)
  | .reload => q.reload

def registered (steps : List Step) : List (UInt64 × H256) :=
  steps.filterMap fun
    | .register slot hash => some (slot, hash)
    | .reload => none

structure Window (capacity : ℕ) (entries : List (UInt64 × H256)) (q : BlockhashQueue) : Prop where
  capacity_eq : q.capacity = capacity
  entries_eq : q.entries = newest capacity entries
  indexed : q.Indexed

section Window

variable {capacity : ℕ} {entries : List (UInt64 × H256)} {q : BlockhashQueue}

theorem length_newest_le (capacity : ℕ) (entries : List (UInt64 × H256)) :
    (newest capacity entries).length ≤ capacity := by
  rw [newest, List.length_drop]
  omega

theorem window_withCapacity (capacity : ℕ) : Window capacity [] (withCapacity capacity) where
  capacity_eq := rfl
  entries_eq := by simp [withCapacity, newest]
  indexed _ := by simp [withCapacity]

theorem Window.register (h : Window capacity entries q) {slot : UInt64} {hash : H256}
    (hnodup : ((entries ++ [(slot, hash)]).map Prod.snd).Nodup) :
    Window capacity (entries ++ [(slot, hash)]) (q.register slot hash) where
  capacity_eq := h.capacity_eq
  entries_eq := by rw [register_entries, h.capacity_eq, h.entries_eq, newest_append]
  indexed := by
    apply h.indexed.register
    apply List.Nodup.sublist _ hnodup
    rw [h.entries_eq]
    exact ((List.drop_sublist _ _).append_right _).map _

theorem Window.reload (h : Window capacity entries q) (hcapacity : capacity < 2 ^ 64) :
    ∃ q', q.reload = some q' ∧ Window capacity entries q' := by
  have hlength : q.entries.length ≤ q.capacity := by
    rw [h.entries_eq, h.capacity_eq]
    exact length_newest_le ..
  have hread : deserialize (serialize q.toBytes) = some q.toBytes :=
    deserialize_serialize (h.capacity_eq.trans_lt hcapacity) hlength
  refine ⟨fromBytes q.toBytes, by rw [BlockhashQueue.reload, hread]; rfl, ?_⟩
  exact ⟨h.capacity_eq, h.entries_eq, indexed_fromBytes _⟩

theorem foldlM_step_append {steps : List Step} {q₀ : BlockhashQueue}
    (h : steps.foldlM step q₀ = some q) (s : Step) : (steps ++ [s]).foldlM step q₀ = q.step s := by
  rw [List.foldlM_append, h, Option.bind_eq_bind, Option.bind_some, List.foldlM_cons]
  exact bind_pure (q.step s)

theorem registered_append (steps : List Step) (s : Step) :
    registered (steps ++ [s]) = registered steps ++ registered [s] := List.filterMap_append

theorem window_of_run (hcapacity : capacity < 2 ^ 64) {steps : List Step}
    (hnodup : ((registered steps).map Prod.snd).Nodup) :
    ∃ q, steps.foldlM step (withCapacity capacity) = some q ∧
      Window capacity (registered steps) q := by
  induction steps using List.reverseRecOn with
  | nil => exact ⟨_, rfl, window_withCapacity capacity⟩
  | append_singleton steps s ih =>
    rw [registered_append] at hnodup ⊢
    obtain ⟨q, hrun, hwindow⟩ :=
      ih (List.Nodup.sublist ((List.sublist_append_left _ _).map _) hnodup)
    rw [foldlM_step_append hrun]
    cases s with
    | register slot hash => exact ⟨_, rfl, hwindow.register hnodup⟩
    | reload =>
      have hnone : registered steps ++ registered [.reload] = registered steps := List.append_nil _
      rw [hnone]
      exact hwindow.reload hcapacity

theorem getLast?_newest (hpos : 0 < capacity) (entries : List (UInt64 × H256)) :
    (newest capacity entries).getLast? = entries.getLast? := by
  rcases List.eq_nil_or_concat' entries with rfl | ⟨entries, e, rfl⟩
  · rw [newest, List.drop_nil]
  · rw [newest, List.drop_append_of_le_length (by simp; omega)]
    simp

end Window

/-- Whatever is registered and however often the queue is reloaded, a hash is valid exactly when it
is among the newest registered ones, the latest entry is the last one registered, and the queue
holds no more than its capacity. -/
theorem recency_window {capacity : ℕ} (hpos : 0 < capacity) (hcapacity : capacity < 2 ^ 64)
    {steps : List Step} (hnodup : ((registered steps).map Prod.snd).Nodup) :
    ∃ q, steps.foldlM step (withCapacity capacity) = some q ∧
      (∀ hash, q.isValid hash = true ↔ hash ∈ (newest capacity (registered steps)).map Prod.snd) ∧
      q.latest = (registered steps).getLast? ∧ q.len ≤ capacity := by
  obtain ⟨q, hrun, hwindow⟩ := window_of_run hcapacity hnodup
  refine ⟨q, hrun, ?_, ?_, ?_⟩
  · intro hash
    rw [isValid, hwindow.indexed hash, hwindow.entries_eq]
  · rw [latest, hwindow.entries_eq, getLast?_newest hpos]
  · rw [len, hwindow.entries_eq]
    exact length_newest_le ..

/-- Three hashes in a window of two, reloaded in between: the first is no longer valid. -/
theorem oldest_of_three_invalid :
    let steps : List Step := [.register 4 (Bytes.replicate 32 1), .reload,
      .register 5 (Bytes.replicate 32 2), .register 9 (Bytes.replicate 32 3), .reload]
    ∃ q, steps.foldlM step (withCapacity 2) = some q ∧ q.isValid (Bytes.replicate 32 1) = false ∧
      q.isValid (Bytes.replicate 32 2) = true ∧ q.latest = some (9, Bytes.replicate 32 3) := by
  intro steps
  have hnodup : ((registered steps).map Prod.snd).Nodup := by decide
  obtain ⟨q, hrun, hvalid, hlatest, -⟩ :=
    @recency_window 2 (by decide) (by decide) steps hnodup
  refine ⟨q, hrun, ?_, (hvalid _).mpr (by decide), hlatest⟩
  rw [Bool.eq_false_iff, Ne, hvalid]
  decide

end BlockhashQueue

end Zul
