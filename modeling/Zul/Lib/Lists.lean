import Mathlib.Algebra.Order.BigOperators.Group.List
import Mathlib.Algebra.Order.Ring.Nat
import Mathlib.Data.List.Induction
import Mathlib.Data.List.Perm.Basic
import Mathlib.Tactic.Common

/-! # Lists

Zipping keeps order; splitting a list at the end of a leading run or by a partial parse loses
nothing, and neither does cutting it into chunks or fetching it page by page.
-/

namespace List

variable {α β : Type*}

theorem map_snd_zip_sublist (l : List α) (l' : List β) : ((l.zip l').map Prod.snd).Sublist l' := by
  induction l generalizing l' with
  | nil => simp
  | cons a l ih =>
    cases l' with
    | nil => simp
    | cons b l' => exact (ih l').cons_cons b

/-! ## A run of one entry in front -/

section Run

variable {a : α}

theorem exists_replicate_append [DecidableEq α] (a : α) (l : List α) :
    ∃ n rest, l = replicate n a ++ rest ∧ rest.head? ≠ some a := by
  induction l with
  | nil => exact ⟨0, [], rfl, by simp⟩
  | cons b l ih =>
    obtain ⟨n, rest, rfl, hrest⟩ := ih
    by_cases hb : b = a
    · subst hb
      exact ⟨n + 1, rest, rfl, hrest⟩
    · refine ⟨0, b :: (replicate n a ++ rest), rfl, ?_⟩
      rw [head?_cons, Ne, Option.some_inj]
      exact hb

theorem takeWhile_replicate_append [DecidableEq α] {n : ℕ} {rest : List α}
    (h : rest.head? ≠ some a) : (replicate n a ++ rest).takeWhile (· = a) = replicate n a := by
  have hrest : rest.takeWhile (· = a) = [] := by
    cases rest with
    | nil => rfl
    | cons b rest =>
      rw [head?_cons, Ne, Option.some_inj] at h
      exact takeWhile_cons_of_neg (by simpa using h)
  rw [takeWhile_append_of_pos (by simp), hrest, append_nil]

theorem replicate_append_inj {m n : ℕ} {l l' : List α} (hl : l.head? ≠ some a)
    (hl' : l'.head? ≠ some a) (h : replicate m a ++ l = replicate n a ++ l') :
    m = n ∧ l = l' := by
  induction m generalizing n with
  | zero =>
    cases n with
    | zero => exact ⟨rfl, h⟩
    | succ n =>
      rw [replicate_zero, nil_append] at h
      rw [h] at hl
      exact absurd rfl hl
  | succ m ih =>
    cases n with
    | zero =>
      rw [replicate_zero, nil_append] at h
      rw [← h] at hl'
      exact absurd rfl hl'
    | succ n =>
      rw [replicate_succ, replicate_succ, cons_append, cons_append, cons.injEq] at h
      obtain ⟨rfl, rfl⟩ := ih h.2
      exact ⟨rfl, rfl⟩

end Run

/-! ## First occurrences -/

theorem foldl_insertNew_eq_eraseDups [DecidableEq α] (l : List α) :
    l.foldl (fun acc a => if acc.contains a then acc else acc ++ [a]) [] = l.eraseDups := by
  induction l using reverseRecOn with
  | nil => rfl
  | append_singleton l a ih =>
    rw [foldl_append, ih, foldl_cons, foldl_nil, eraseDups_append]
    by_cases ha : a ∈ l
    · simp [removeAll, ha]
    · simp [removeAll, ha, eraseDups_cons]

theorem eraseDups_filterMap [DecidableEq α] [DecidableEq β] {f : α → Option β} (l : List α)
    (hf : ∀ a ∈ l, ∀ b ∈ l, ∀ c, f a = some c → f b = some c → a = b) :
    (l.filterMap f).eraseDups = l.eraseDups.filterMap f := by
  induction hn : l.length using Nat.strong_induction_on generalizing l with
  | _ n ih =>
    cases l with
    | nil => rfl
    | cons a l =>
      -- what is left once the head is struck out
      have hlength : (l.filter fun b => !b == a).length < n := by
        rw [← hn]
        exact Nat.lt_succ_of_le (length_filter_le _ _)
      have hrest := ih _ hlength (l.filter fun b => !b == a) (fun b hb c hc => hf b
        (mem_cons_of_mem _ (mem_of_mem_filter hb)) c (mem_cons_of_mem _ (mem_of_mem_filter hc))) rfl
      rw [eraseDups_cons]
      cases ha : f a with
      | none =>
        rw [filterMap_cons_none ha, filterMap_cons_none ha, ← hrest, filterMap_filter]
        congr 1
        refine filterMap_congr fun b _ => ?_
        by_cases hb : b = a
        · simp [hb, ha]
        · simp [hb]
      | some c =>
        rw [filterMap_cons_some ha, filterMap_cons_some ha, eraseDups_cons, ← hrest,
          filterMap_filter, filter_filterMap]
        congr 2
        refine filterMap_congr fun b hb => ?_
        by_cases hba : b = a
        · simp [hba, ha]
        · cases hfb : f b with
          | none => simp [hba]
          | some d =>
            have hd : d ≠ c := by
              rintro rfl
              exact hba (hf b (mem_cons_of_mem _ hb) a mem_cons_self d hfb ha)
            simp [hba, hd]

/-! ## Parses -/

theorem map_filterMap_of_parse {f : α → Option β} {g : β → α} (hg : ∀ a b, f a = some b → g b = a)
    (l : List α) : (l.filterMap f).map g = l.filter fun a => (f a).isSome := by
  induction l with
  | nil => rfl
  | cons a l ih =>
    cases ha : f a with
    | none => simpa [ha] using ih
    | some b => simpa [ha, hg a b ha] using ih

/-- Parsing out a part and keeping the rest permutes the list, when a parse remembers what it
was made from. -/
theorem parsed_append_rest_perm {f : α → Option β} {g : β → α} (hg : ∀ a b, f a = some b → g b = a)
    (l : List α) : ((l.filterMap f).map g ++ l.filter fun a => (f a).isNone).Perm l := by
  have hnot : (fun a => (f a).isNone) = fun a => !(f a).isSome := by
    funext a
    cases f a <;> rfl
  rw [map_filterMap_of_parse hg, hnot]
  exact filter_append_perm _ l

theorem filter_flatMap_of_key {κ : Type*} [DecidableEq κ] {key : α → κ} {label : β → κ}
    {group : α → List β} {l : List α} (hnodup : (l.map key).Nodup)
    (hlabel : ∀ a ∈ l, ∀ b ∈ group a, label b = key a) {a : α} (ha : a ∈ l) :
    (l.flatMap group).filter (fun b => label b = key a) = group a := by
  induction l with
  | nil => cases ha
  | cons c l ih =>
    obtain ⟨hfresh, hnodup⟩ := List.nodup_cons.mp hnodup
    rw [List.flatMap_cons, List.filter_append]
    rcases List.mem_cons.mp ha with rfl | hal
    · have hself : (group a).filter (fun b => label b = key a) = group a :=
        List.filter_eq_self.mpr fun b hb => by simp [hlabel a (by simp) b hb]
      have hrest : (l.flatMap group).filter (fun b => label b = key a) = [] := by
        rw [List.filter_eq_nil_iff]
        intro b hb
        obtain ⟨c, hc, hbc⟩ := List.mem_flatMap.mp hb
        rw [hlabel c (by simp [hc]) b hbc]
        simp only [decide_eq_true_eq]
        exact fun heq => hfresh (List.mem_map.mpr ⟨c, hc, heq⟩)
      rw [hself, hrest, List.append_nil]
    · have hne : key c ≠ key a := fun heq => hfresh (List.mem_map.mpr ⟨a, hal, heq.symm⟩)
      have hother : (group c).filter (fun b => label b = key a) = [] := by
        rw [List.filter_eq_nil_iff]
        intro b hb
        rw [hlabel c (by simp) b hb]
        simpa using hne
      rw [hother, List.nil_append]
      exact ih hnodup (fun a ha => hlabel a (by simp [ha])) hal

theorem filter_flatMap_of_key_notMem {κ : Type*} [DecidableEq κ] {key : α → κ} {label : β → κ}
    {group : α → List β} {l : List α} (hlabel : ∀ a ∈ l, ∀ b ∈ group a, label b = key a) {k : κ}
    (hk : k ∉ l.map key) : (l.flatMap group).filter (fun b => label b = k) = [] := by
  rw [List.filter_eq_nil_iff]
  intro b hb
  obtain ⟨a, ha, hab⟩ := List.mem_flatMap.mp hb
  rw [hlabel a ha b hab]
  simp only [decide_eq_true_eq]
  exact fun heq => hk (List.mem_map.mpr ⟨a, ha, heq⟩)

theorem sum_filter_le_of_subset {l l' : List α} (hl : l.Nodup) (h : l ⊆ l') (p : α → Bool)
    (f : α → ℕ) : ((l.filter p).map f).sum ≤ ((l'.filter p).map f).sum := by
  obtain ⟨l₁, hperm, hsub⟩ := (List.subperm_of_subset hl h).filter p
  rw [← (hperm.map f).sum_nat]
  exact (hsub.map f).sum_le_sum fun n _ => Nat.zero_le n

theorem append_eq_append_iff_of_sublist {l₁ l₂ m₁ m₂ : List α} (h₁ : l₁.Sublist m₁)
    (h₂ : l₂.Sublist m₂) : l₁ ++ l₂ = m₁ ++ m₂ ↔ l₁ = m₁ ∧ l₂ = m₂ := by
  constructor
  · intro h
    have hlength := congrArg List.length h
    rw [List.length_append, List.length_append] at hlength
    have hle₁ := h₁.length_le
    have hle₂ := h₂.length_le
    exact ⟨h₁.eq_of_length (by omega), h₂.eq_of_length (by omega)⟩
  · rintro ⟨rfl, rfl⟩
    rfl

theorem Sublist.eq_of_sum_eq {l m : List α} (h : l.Sublist m) (f : α → ℕ) (hf : ∀ a ∈ m, 0 < f a)
    (hsum : (l.map f).sum = (m.map f).sum) : l = m := by
  induction h with
  | slnil => rfl
  | @cons l m a h ih =>
    have hle := (h.map f).sum_le_sum fun n _ => Nat.zero_le n
    have hpos := hf a (by simp)
    rw [List.map_cons, List.sum_cons] at hsum
    omega
  | @cons_cons l m a h ih =>
    rw [List.map_cons, List.sum_cons, List.map_cons, List.sum_cons, Nat.add_left_cancel_iff] at hsum
    rw [ih (fun b hb => hf b (by simp [hb])) hsum]

/-- Reading a list's positions one after the other gives the list exactly if each position gives
its element. -/
theorem mapM_range_eq_ok_iff {ε : Type*} {f : ℕ → Except ε α} {l : List α} :
    (List.range l.length).mapM f = .ok l ↔ ∀ i a, l[i]? = some a → f i = .ok a := by
  induction l using List.reverseRecOn with
  | nil => simp [pure, Except.pure]
  | append_singleton l a ih =>
    have hsplit : (List.range (l ++ [a]).length).mapM f = .ok (l ++ [a]) ↔
        (List.range l.length).mapM f = .ok l ∧ f l.length = .ok a := by
      rw [List.length_append, List.length_singleton, List.range_succ, List.mapM_append]
      cases h₁ : (List.range l.length).mapM f with
      | error e => simp [bind, Except.bind]
      | ok l' =>
        cases h₂ : f l.length with
        | error e => simp [bind, Except.bind, h₂]
        | ok a' => simp [bind, Except.bind, h₂, pure, Except.pure]
    rw [hsplit, ih]
    constructor
    · rintro ⟨hall, hlast⟩ i b hb
      rcases Nat.lt_or_ge i l.length with hlt | hge
      · rw [List.getElem?_append_left hlt] at hb
        exact hall i b hb
      · have hi : i = l.length := by
          have := (List.getElem?_eq_some_iff.mp hb).1
          rw [List.length_append, List.length_singleton] at this
          omega
        subst hi
        rw [List.getElem?_concat_length] at hb
        cases hb
        exact hlast
    · intro h
      refine ⟨fun i b hb => h i b ?_, h _ a List.getElem?_concat_length⟩
      rw [List.getElem?_append_left (List.getElem?_eq_some_iff.mp hb).1, hb]

/-- A condition on every step of a loop, in the state the step runs in. -/
def Along (f : β → α → Option β) (ok : β → α → Prop) : β → List α → Prop
  | _, [] => True
  | b, a :: l => ok b a ∧ ∀ c, f b a = some c → Along f ok c l

theorem foldlM_isSome_iff_along {f : β → α → Option β} {ok : β → α → Prop}
    (h : ∀ b a, (f b a).isSome ↔ ok b a) (b : β) (l : List α) :
    (l.foldlM f b).isSome ↔ Along f ok b l := by
  induction l generalizing b with
  | nil => simp [Along]
  | cons a l ih =>
    rw [List.foldlM_cons, Along, ← h b a]
    cases f b a with
    | none => simp
    | some c => simpa using ih c

/-- Two loops agree after every prefix exactly if each step of the first, in the state it runs
in, is a step of the second on what it maps to. -/
theorem lockstep_iff_along {γ : Type*} {f : β → α → Option β} {g : γ → α → Option γ} (r : β → γ)
    (b : β) (l : List α) :
    (∀ before, before <+: l →
        ∃ c, before.foldlM f b = some c ∧ before.foldlM g (r b) = some (r c)) ↔
      Along f (fun b a => ∃ c, f b a = some c ∧ g (r b) a = some (r c)) b l := by
  induction l generalizing b with
  | nil => simp [Along]
  | cons a l ih =>
    constructor
    · intro h
      have hfirst := h [a] (List.prefix_append [a] l)
      simp only [List.foldlM_cons, List.foldlM_nil, bind_pure] at hfirst
      refine ⟨hfirst, fun c hc => (ih c).mp fun before hbefore => ?_⟩
      obtain ⟨c', hc', hg⟩ := hfirst
      obtain rfl : c = c' := Option.some.inj (hc.symm.trans hc')
      simpa [hc, hg] using h (a :: before) (List.cons_prefix_cons.mpr ⟨rfl, hbefore⟩)
    · rintro ⟨⟨c, hc, hg⟩, hrest⟩ before hbefore
      cases before with
      | nil => exact ⟨b, rfl, rfl⟩
      | cons a' before =>
        obtain ⟨rfl, htail⟩ := List.cons_prefix_cons.mp hbefore
        simpa [hc, hg] using (ih c).mpr (hrest c hc) before htail

theorem Along.and_forall {f : β → α → Option β} {ok : β → α → Prop} {p : α → Prop} {b : β}
    {l : List α} (h : Along f ok b l) (hp : ∀ a ∈ l, p a) :
    Along f (fun b a => ok b a ∧ p a) b l := by
  induction l generalizing b with
  | nil => exact trivial
  | cons a l ih =>
    obtain ⟨ha, hrest⟩ := forall_mem_cons.mp hp
    exact ⟨⟨h.1, ha⟩, fun c hc => ih (h.2 c hc) hrest⟩

theorem along_congr {f : β → α → Option β} {fits ok ok' : β → α → Prop} {b : β} {l : List α}
    (hfits : Along f fits b l) (h : ∀ b a, fits b a → (ok b a ↔ ok' b a)) :
    Along f ok b l ↔ Along f ok' b l := by
  induction l generalizing b with
  | nil => exact Iff.rfl
  | cons a l ih =>
    obtain ⟨hfirst, hrest⟩ := hfits
    exact and_congr (h b a hfirst) (forall₂_congr fun c hc => ih (hrest c hc))

/-- What a loop gains: the gains of its steps, each in the state the step runs in. -/
def tally {ι : Type*} (f : β → α → Option β) (gain : β → α → ι → ℕ) : β → List α → ι → ℕ
  | _, [], _ => 0
  | b, a :: l, i => gain b a i + (f b a).elim 0 fun c => tally f gain c l i

/-- Readings of the state grow by what a loop gains, after every prefix, exactly if each step
grows them by its gain. -/
theorem tally_iff_along {ι : Type*} {f : β → α → Option β} {gain : β → α → ι → ℕ}
    (read : β → ι → ℕ) (b : β) (l : List α) :
    (∀ before, before <+: l → ∃ c, before.foldlM f b = some c ∧
        ∀ i, read c i = read b i + tally f gain b before i) ↔
      Along f (fun b a => ∃ c, f b a = some c ∧ ∀ i, read c i = read b i + gain b a i) b l := by
  induction l generalizing b with
  | nil => simp [Along, tally]
  | cons a l ih =>
    constructor
    · intro h
      have hfirst := h [a] (List.prefix_append [a] l)
      simp only [List.foldlM_cons, List.foldlM_nil, bind_pure] at hfirst
      obtain ⟨c, hc, hgain⟩ := hfirst
      have hstep : ∀ i, read c i = read b i + gain b a i := by
        simpa [tally, hc] using hgain
      refine ⟨⟨c, hc, hstep⟩, fun c' hc' => (ih c').mp fun before hbefore => ?_⟩
      obtain rfl : c = c' := Option.some.inj (hc.symm.trans hc')
      obtain ⟨e, he, hread⟩ := h (a :: before) (List.cons_prefix_cons.mpr ⟨rfl, hbefore⟩)
      refine ⟨e, by simpa [hc] using he, fun i => ?_⟩
      rw [hread i, hstep i, tally, hc, Option.elim_some, Nat.add_assoc]
    · rintro ⟨⟨c, hc, hstep⟩, hrest⟩ before hbefore
      cases before with
      | nil => exact ⟨b, rfl, fun i => rfl⟩
      | cons a' before =>
        obtain ⟨rfl, htail⟩ := List.cons_prefix_cons.mp hbefore
        obtain ⟨e, he, hread⟩ := (ih c).mpr (hrest c hc) before htail
        refine ⟨e, by simpa [hc] using he, fun i => ?_⟩
        rw [hread i, hstep i, tally, hc, Option.elim_some, Nat.add_assoc]

/-- What the elements of a list emit one after the other, each in the state its turn finds. -/
def emit {σ : Type*} (step : σ → α → Option (σ × Option β)) : σ → List α → Option (σ × List β)
  | s, [] => some (s, [])
  | s, a :: l => do
    let (s, out) ← step s a
    let (s, outs) ← emit step s l
    return (s, out.toList ++ outs)

/-- A loop that collects what its steps emit. -/
theorem emit_of_foldlM {γ σ : Type*} {f : γ → α → Option γ}
    (step : σ → α → Option (σ × Option β)) (state : γ → σ) (outs : γ → List β)
    (hstep : ∀ c a c', f c a = some c' →
      ∃ out, step (state c) a = some (state c', out) ∧ outs c' = outs c ++ out.toList)
    {l : List α} {c c' : γ} (h : l.foldlM f c = some c') :
    ∃ new, emit step (state c) l = some (state c', new) ∧ outs c' = outs c ++ new := by
  induction l generalizing c with
  | nil =>
    cases h
    exact ⟨[], rfl, (append_nil _).symm⟩
  | cons a l ih =>
    rw [foldlM_cons, Option.bind_eq_bind, Option.bind_eq_some_iff] at h
    obtain ⟨c₁, hone, h⟩ := h
    obtain ⟨out, hout, houts⟩ := hstep c a c₁ hone
    obtain ⟨new, hnew, hall⟩ := ih h
    refine ⟨out.toList ++ new, ?_, by rw [hall, houts, append_assoc]⟩
    simp only [emit, hout, hnew, Option.bind_eq_bind, Option.bind_some, Option.pure_def]

/-- The loop of `chunks`; the length of the list is enough fuel. -/
def chunksLoop (size : ℕ) : ℕ → List α → List (List α)
  | 0, _ => []
  | fuel + 1, l => if l.isEmpty then [] else l.take size :: chunksLoop size fuel (l.drop size)

/-- Consecutive pieces of a given size, the last one possibly shorter. -/
def chunks (size : ℕ) (l : List α) : List (List α) := chunksLoop size l.length l

theorem flatten_chunksLoop {size : ℕ} (hsize : 0 < size) (fuel : ℕ) {l : List α}
    (hl : l.length ≤ fuel) : (chunksLoop size fuel l).flatten = l := by
  induction fuel generalizing l with
  | zero => rw [List.length_eq_zero_iff.mp (Nat.le_zero.mp hl)]; rfl
  | succ fuel ih =>
    rw [chunksLoop]
    split
    · rename_i hempty
      rw [List.isEmpty_iff.mp hempty]
      rfl
    · rw [List.flatten_cons, ih (by rw [List.length_drop]; omega), List.take_append_drop]

theorem flatten_chunks {size : ℕ} (hsize : 0 < size) (l : List α) :
    (l.chunks size).flatten = l :=
  flatten_chunksLoop hsize l.length le_rfl

theorem chunksLoop_eq_of_le {size : ℕ} (hsize : 0 < size) {fuel fuel' : ℕ} {l : List α}
    (hl : l.length ≤ fuel) (hl' : l.length ≤ fuel') :
    chunksLoop size fuel l = chunksLoop size fuel' l := by
  induction fuel generalizing fuel' l with
  | zero =>
    rw [List.length_eq_zero_iff.mp (Nat.le_zero.mp hl)]
    cases fuel' <;> rfl
  | succ fuel ih =>
    cases fuel' with
    | zero =>
      rw [List.length_eq_zero_iff.mp (Nat.le_zero.mp hl')]
      rfl
    | succ fuel' =>
      rw [chunksLoop, chunksLoop]
      split
      · rfl
      · have hdrop : (l.drop size).length ≤ fuel ∧ (l.drop size).length ≤ fuel' := by
          rw [List.length_drop]
          omega
        rw [ih hdrop.1 hdrop.2]

theorem chunks_nil (size : ℕ) : ([] : List α).chunks size = [] := rfl

theorem chunks_of_ne_nil {size : ℕ} (hsize : 0 < size) {l : List α} (hl : l ≠ []) :
    l.chunks size = l.take size :: (l.drop size).chunks size := by
  cases l with
  | nil => exact absurd rfl hl
  | cons a l =>
    rw [chunks, chunks, List.length_cons, chunksLoop, if_neg (by simp)]
    rw [chunksLoop_eq_of_le hsize (by rw [List.length_drop, List.length_cons]; omega) le_rfl]

theorem length_of_mem_dropLast_chunks {size : ℕ} (hsize : 0 < size) {l piece : List α}
    (h : piece ∈ (l.chunks size).dropLast) : piece.length = size := by
  induction hn : l.length using Nat.strong_induction_on generalizing l with
  | _ n ih =>
    by_cases hl : l = []
    · rw [hl, chunks_nil] at h
      cases h
    · rw [chunks_of_ne_nil hsize hl] at h
      by_cases hrest : l.drop size = []
      · rw [hrest, chunks_nil] at h
        cases h
      · rw [chunks_of_ne_nil hsize hrest, List.dropLast_cons_cons, List.mem_cons,
          ← chunks_of_ne_nil hsize hrest] at h
        have hlong := List.length_pos_iff.mpr hrest
        rw [List.length_drop] at hlong
        rcases h with rfl | h
        · rw [List.length_take]
          omega
        · exact ih _ (by rw [List.length_drop]; omega) h rfl

/-! ## Pages -/

/-- Fetch pages until one is empty, each from the key of the last entry before it. -/
def pages {κ : Type*} (page : Option κ → List α) (key : α → κ) : ℕ → Option κ → List (List α)
  | 0, _ => []
  | fuel + 1, cursor =>
    match (page cursor).getLast? with
    | none => []
    | some last => page cursor :: pages page key fuel (some (key last))

theorem pages_eq_chunks {κ : Type*} {page : Option κ → List α} {key : α → κ} {limit : ℕ}
    (hlimit : 0 < limit) {all : List α} (hfirst : page none = all.take limit)
    (hnext : ∀ before a after, all = before ++ a :: after →
      page (some (key a)) = after.take limit) {fuel : ℕ} (hfuel : all.length < fuel) :
    pages page key fuel none = all.chunks limit := by
  -- from any cursor whose page starts a suffix of the list
  have hfrom : ∀ (fuel : ℕ) (before rest : List α) (cursor : Option κ), all = before ++ rest →
      page cursor = rest.take limit → rest.length < fuel →
      pages page key fuel cursor = rest.chunks limit := by
    intro fuel
    induction fuel with
    | zero =>
      intro before rest cursor _ _ hlt
      exact absurd hlt (Nat.not_lt_zero _)
    | succ fuel ih =>
      intro before rest cursor hall hpage hlt
      by_cases hrest : rest = []
      · rw [pages, hpage, hrest, List.take_nil]
        rfl
      · have hne : rest.take limit ≠ [] := by simpa [hlimit.ne'] using hrest
        rw [pages, hpage, List.getLast?_eq_some_getLast hne, chunks_of_ne_nil hlimit hrest]
        dsimp only
        congr 1
        have hsplit : rest = (rest.take limit).dropLast ++ (rest.take limit).getLast hne ::
            rest.drop limit := by
          rw [List.append_cons, List.dropLast_append_getLast, List.take_append_drop]
        apply ih (before ++ rest.take limit)
        · rw [List.append_assoc, List.take_append_drop, hall]
        · apply hnext (before ++ (rest.take limit).dropLast)
          rw [List.append_assoc, ← hsplit, hall]
        · have hpos := List.length_pos_iff.mpr hrest
          rw [List.length_drop]
          omega
  exact hfrom fuel [] all none rfl hfirst hfuel

end List
