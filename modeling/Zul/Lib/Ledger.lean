import Zul.Lib.PartialMap
import Zul.Lib.Words

/-! # Ledgers of machine words

A ledger gives each account a 64-bit balance. A move that reads both balances before it writes
either is sound between distinct accounts with the amount at hand, and creates value otherwise:
a run of moves never loses value, and it keeps the total exactly when every move is sound.
-/

structure Move (K : Type*) where
  source : K
  target : K
  amount : UInt64
  deriving DecidableEq

namespace Ledger

variable {K : Type*} [DecidableEq K]

/-- Move with both balances read first; between an account and itself the credit wins. -/
def move (bal : K → UInt64) (m : Move K) : K → UInt64 :=
  Function.update (Function.update bal m.source ((bal m.source).saturatingSub m.amount)) m.target
    ((bal m.target).saturatingAdd m.amount)

def Sound (bal : K → UInt64) (m : Move K) : Prop :=
  m.amount = 0 ∨ m.source ≠ m.target ∧ m.amount ≤ bal m.source

def SoundAll (bal : K → UInt64) : List (Move K) → Prop
  | [] => True
  | m :: ms => Sound bal m ∧ SoundAll (move bal m) ms

def FitsAll (bal : K → UInt64) : List (Move K) → Prop
  | [] => True
  | m :: ms => (bal m.target).toNat + m.amount.toNat < 2 ^ 64 ∧ FitsAll (move bal m) ms

instance decidableFitsAll : (bal : K → UInt64) → (ms : List (Move K)) → Decidable (FitsAll bal ms)
  | _, [] => isTrue trivial
  | bal, m :: ms =>
    have := decidableFitsAll (move bal m) ms
    inferInstanceAs (Decidable (_ ∧ _))

def credits (ms : List (Move K)) (k : K) : ℕ :=
  ((ms.filter fun m => m.target = k).map fun m => m.amount.toNat).sum

def debits (ms : List (Move K)) (k : K) : ℕ :=
  ((ms.filter fun m => m.source = k).map fun m => m.amount.toNat).sum

@[simp] theorem credits_nil (k : K) : credits ([] : List (Move K)) k = 0 := rfl

@[simp] theorem debits_nil (k : K) : debits ([] : List (Move K)) k = 0 := rfl

theorem credits_cons (m : Move K) (ms : List (Move K)) (k : K) :
    credits (m :: ms) k = (if m.target = k then m.amount.toNat else 0) + credits ms k := by
  unfold credits
  rw [List.filter_cons]
  by_cases h : m.target = k <;> simp [h]

theorem debits_cons (m : Move K) (ms : List (Move K)) (k : K) :
    debits (m :: ms) k = (if m.source = k then m.amount.toNat else 0) + debits ms k := by
  unfold debits
  rw [List.filter_cons]
  by_cases h : m.source = k <;> simp [h]

theorem le_move {bal : K → UInt64} {m : Move K}
    (hfits : (bal m.target).toNat + m.amount.toNat < 2 ^ 64) (k : K) :
    (bal k).toNat + (if m.target = k then m.amount.toNat else 0) ≤
      (move bal m k).toNat + if m.source = k then m.amount.toNat else 0 := by
  unfold move
  by_cases ht : m.target = k
  · subst ht
    rw [Function.update_self, UInt64.toNat_saturatingAdd_of_lt hfits, if_pos rfl]
    exact Nat.le_add_right _ _
  · rw [Function.update_of_ne (Ne.symm ht), if_neg ht, Nat.add_zero]
    by_cases hs : m.source = k
    · subst hs
      rw [Function.update_self, UInt64.toNat_saturatingSub, if_pos rfl]
      omega
    · rw [Function.update_of_ne (Ne.symm hs)]
      exact Nat.le_add_right _ _

theorem le_foldl_move {bal : K → UInt64} {ms : List (Move K)} (h : FitsAll bal ms) (k : K) :
    (bal k).toNat + credits ms k ≤ (ms.foldl move bal k).toNat + debits ms k := by
  induction ms generalizing bal with
  | nil => exact Nat.le_refl _
  | cons m ms ih =>
    have hone := le_move h.1 k
    have hrest := ih h.2
    rw [List.foldl_cons, credits_cons, debits_cons]
    omega

section Total

variable [Fintype K]

def total (bal : K → UInt64) : ℕ := ∑ k, (bal k).toNat

omit [DecidableEq K] in
theorem le_total (bal : K → UInt64) (k : K) : (bal k).toNat ≤ total bal :=
  Finset.single_le_sum (f := fun k => (bal k).toNat) (fun _ _ => Nat.zero_le _) (Finset.mem_univ k)

theorem total_update (bal : K → UInt64) (k : K) (v : UInt64) :
    total (Function.update bal k v) + (bal k).toNat = total bal + v.toNat := by
  have hsum := Finset.sum_add_of_eq_off (f := fun j => (bal j).toNat)
    (g := fun j => (Function.update bal k v j).toNat) k fun j hj => by
      rw [Function.update_of_ne hj]
  rwa [Function.update_self] at hsum

theorem total_move {bal : K → UInt64} {m : Move K}
    (h : (bal m.target).toNat + m.amount.toNat < 2 ^ 64) :
    total (move bal m) = total bal +
      if m.source = m.target then m.amount.toNat else m.amount.toNat - (bal m.source).toNat := by
  have hadd : ((bal m.target).saturatingAdd m.amount).toNat =
      (bal m.target).toNat + m.amount.toNat := UInt64.toNat_saturatingAdd_of_lt h
  -- first the source is debited, then the target written from its balance before
  have hfst := total_update bal m.source ((bal m.source).saturatingSub m.amount)
  have hsnd := total_update (Function.update bal m.source ((bal m.source).saturatingSub m.amount))
    m.target ((bal m.target).saturatingAdd m.amount)
  rw [UInt64.toNat_saturatingSub] at hfst
  rw [hadd, Function.update_apply] at hsnd
  unfold move
  by_cases hself : m.source = m.target
  · rw [if_pos hself]
    rw [if_pos hself.symm, UInt64.toNat_saturatingSub] at hsnd
    rw [hself] at hfst hsnd ⊢
    omega
  · rw [if_neg hself]
    rw [if_neg (Ne.symm hself)] at hsnd
    omega

theorem total_move_bounds {bal : K → UInt64} {m : Move K}
    (h : (bal m.target).toNat + m.amount.toNat < 2 ^ 64) :
    total bal ≤ total (move bal m) ∧ total (move bal m) ≤ total bal + m.amount.toNat := by
  rw [total_move h]
  split <;> omega

theorem total_move_eq_iff {bal : K → UInt64} {m : Move K}
    (h : (bal m.target).toNat + m.amount.toNat < 2 ^ 64) :
    total (move bal m) = total bal ↔ Sound bal m := by
  rw [total_move h, Sound, ← UInt64.toNat_inj, UInt64.toNat_zero, UInt64.le_iff_toNat_le]
  by_cases hself : m.source = m.target
  · simp [hself]
  · simp only [hself, if_false, ne_eq, not_false_eq_true, true_and]
    omega

theorem total_foldl_move (bal : K → UInt64) {ms : List (Move K)}
    (h : total bal + (ms.map fun m => m.amount.toNat).sum < 2 ^ 64) :
    total bal ≤ total (ms.foldl move bal) ∧
      (total (ms.foldl move bal) = total bal ↔ SoundAll bal ms) := by
  induction ms generalizing bal with
  | nil => simp [SoundAll]
  | cons m ms ih =>
    rw [List.map_cons, List.sum_cons] at h
    have htarget := le_total bal m.target
    have hm : (bal m.target).toNat + m.amount.toNat < 2 ^ 64 := by omega
    obtain ⟨hlow, hup⟩ := total_move_bounds hm
    obtain ⟨hle, hiff⟩ := ih (move bal m) (by omega)
    rw [List.foldl_cons, SoundAll, ← hiff, ← total_move_eq_iff hm]
    omega

end Total

/-! ## Moves that read the target after the debit -/

def shift (bal : K → UInt64) (m : Move K) : K → UInt64 :=
  let debited := Function.update bal m.source ((bal m.source).saturatingSub m.amount)
  Function.update debited m.target ((debited m.target).saturatingAdd m.amount)

def CoveredAll (bal : K → UInt64) : List (Move K) → Prop
  | [] => True
  | m :: ms => m.amount ≤ bal m.source ∧ CoveredAll (shift bal m) ms

/-- No move of a list overflows its target in its turn, once its source is debited. -/
def ShiftFitsAll (bal : K → UInt64) : List (Move K) → Prop
  | [] => True
  | m :: ms =>
    (Function.update bal m.source ((bal m.source).saturatingSub m.amount) m.target).toNat +
      m.amount.toNat < 2 ^ 64 ∧ ShiftFitsAll (shift bal m) ms

theorem le_shift {bal : K → UInt64} {m : Move K}
    (hfits : (Function.update bal m.source ((bal m.source).saturatingSub m.amount)
      m.target).toNat + m.amount.toNat < 2 ^ 64) (k : K) :
    (bal k).toNat + (if m.target = k then m.amount.toNat else 0) ≤
      (shift bal m k).toNat + if m.source = k then m.amount.toNat else 0 := by
  have hdebited : (bal k).toNat ≤ (Function.update bal m.source
      ((bal m.source).saturatingSub m.amount) k).toNat +
        if m.source = k then m.amount.toNat else 0 := by
    by_cases hs : m.source = k
    · subst hs
      rw [Function.update_self, UInt64.toNat_saturatingSub, if_pos rfl]
      omega
    · rw [Function.update_of_ne (Ne.symm hs)]
      exact Nat.le_add_right _ _
  unfold shift
  by_cases ht : m.target = k
  · subst ht
    rw [Function.update_self, UInt64.toNat_saturatingAdd_of_lt hfits, if_pos rfl]
    omega
  · rwa [Function.update_of_ne (Ne.symm ht), if_neg ht, Nat.add_zero]

theorem le_foldl_shift {bal : K → UInt64} {ms : List (Move K)} (h : ShiftFitsAll bal ms) (k : K) :
    (bal k).toNat + credits ms k ≤ (ms.foldl shift bal k).toNat + debits ms k := by
  induction ms generalizing bal with
  | nil => exact Nat.le_refl _
  | cons m ms ih =>
    have hone := le_shift h.1 k
    have hrest := ih h.2
    rw [List.foldl_cons, credits_cons, debits_cons]
    omega

/-- A way to carry out a move that debits its source alone. -/
structure Debiting (step : (K → UInt64) → Move K → K → UInt64) : Prop where
  target : ∀ bal m, bal m.target ≤ step bal m m.target
  other : ∀ bal m k, k ≠ m.target →
    step bal m k = if k = m.source then (bal k).saturatingSub m.amount else bal k

theorem debiting_move : Debiting (move (K := K)) where
  target bal m := by
    rw [move, Function.update_self, UInt64.le_iff_toNat_le, UInt64.toNat_saturatingAdd]
    have := (bal m.target).toNat_lt
    omega
  other bal m k hk := by
    rw [move, Function.update_of_ne hk, Function.update_apply]
    split
    · rename_i hsource
      rw [hsource]
    · rfl

theorem debiting_shift : Debiting (shift (K := K)) where
  target bal m := by
    rw [shift, Function.update_self, UInt64.le_iff_toNat_le, UInt64.toNat_saturatingAdd,
      Function.update_apply]
    have := (bal m.target).toNat_lt
    split
    · rename_i hsource
      rw [UInt64.toNat_saturatingSub, ← hsource]
      omega
    · omega
  other bal m k hk := by
    rw [shift, Function.update_of_ne hk, Function.update_apply]
    split
    · rename_i hsource
      rw [hsource]
    · rfl

namespace Debiting

variable {step : (K → UInt64) → Move K → K → UInt64} {bal : K → UInt64} {k : K}
  {ms : List (Move K)}

theorem source_of_lt (h : Debiting step) {m : Move K} (hlt : step bal m k < bal k) :
    m.source = k ∧ 0 < m.amount := by
  have htarget : k ≠ m.target := by
    rintro rfl
    exact UInt64.not_lt.mpr (h.target bal m) hlt
  rw [h.other bal m k htarget] at hlt
  split at hlt
  · rename_i hsource
    refine ⟨hsource.symm, ?_⟩
    rw [UInt64.lt_iff_toNat_lt, UInt64.toNat_saturatingSub] at hlt
    rw [UInt64.lt_iff_toNat_lt, UInt64.toNat_zero]
    omega
  · exact absurd hlt (UInt64.lt_irrefl _)

/-- A balance that a list of moves lowers is the source of one of them. -/
theorem exists_source_of_foldl_lt (h : Debiting step) (hlt : ms.foldl step bal k < bal k) :
    ∃ m ∈ ms, m.source = k ∧ 0 < m.amount := by
  induction ms generalizing bal with
  | nil => exact absurd hlt (UInt64.lt_irrefl _)
  | cons m ms ih =>
    by_cases hone : step bal m k < bal k
    · exact ⟨m, List.mem_cons_self, h.source_of_lt hone⟩
    · obtain ⟨m', hm', hdebit⟩ := ih (UInt64.lt_of_lt_of_le hlt (UInt64.not_lt.mp hone))
      exact ⟨m', List.mem_cons_of_mem _ hm', hdebit⟩

theorem step_le (h : Debiting step) {m : Move K} (htarget : m.target ≠ k) :
    step bal m k ≤ bal k := by
  rw [h.other bal m k htarget.symm]
  split
  · rw [UInt64.le_iff_toNat_le, UInt64.toNat_saturatingSub]
    exact Nat.sub_le _ _
  · exact UInt64.le_refl _

theorem step_lt (h : Debiting step) {m : Move K} (htarget : m.target ≠ k) (hsource : m.source = k)
    (hamount : 0 < m.amount) (hheld : 0 < bal k) : step bal m k < bal k := by
  rw [h.other bal m k htarget.symm, if_pos hsource.symm, UInt64.lt_iff_toNat_lt,
    UInt64.toNat_saturatingSub]
  rw [UInt64.lt_iff_toNat_lt, UInt64.toNat_zero] at hamount hheld
  omega

theorem foldl_le (h : Debiting step) (hin : ∀ m ∈ ms, m.target ≠ k) :
    ms.foldl step bal k ≤ bal k := by
  induction ms generalizing bal with
  | nil => exact UInt64.le_refl _
  | cons m ms ih =>
    obtain ⟨htarget, hrest⟩ := List.forall_mem_cons.mp hin
    exact UInt64.le_trans (ih hrest) (h.step_le htarget)

/-- A source that no move of the list credits is lowered, if it held anything. -/
theorem foldl_lt_iff (h : Debiting step) (hin : ∀ m ∈ ms, m.target ≠ k) (hheld : 0 < bal k) :
    ms.foldl step bal k < bal k ↔ ∃ m ∈ ms, m.source = k ∧ 0 < m.amount := by
  refine ⟨h.exists_source_of_foldl_lt, ?_⟩
  induction ms generalizing bal with
  | nil => simp
  | cons m ms ih =>
    obtain ⟨htarget, hrest⟩ := List.forall_mem_cons.mp hin
    rintro ⟨m', hm', hsource, hamount⟩
    by_cases hone : step bal m k < bal k
    · rw [List.foldl_cons]
      exact UInt64.lt_of_le_of_lt (h.foldl_le hrest) hone
    · have hkept : step bal m k = bal k :=
        UInt64.le_antisymm (h.step_le htarget) (UInt64.not_lt.mp hone)
      rcases List.mem_cons.mp hm' with rfl | hm'
      · exact absurd (h.step_lt htarget hsource hamount hheld) hone
      · have hlt : ms.foldl step (step bal m) k < step bal m k :=
          ih hrest (by rwa [hkept]) ⟨m', hm', hsource, hamount⟩
        rwa [hkept] at hlt

end Debiting

def Within (A : Finset K) (m : Move K) : Prop := m.source ∈ A ↔ m.target ∈ A

instance (A : Finset K) (m : Move K) : Decidable (Within A m) :=
  inferInstanceAs (Decidable (m.source ∈ A ↔ m.target ∈ A))

theorem sum_credits_eq_sum_debits {A : Finset K} {ms : List (Move K)} (h : ∀ m ∈ ms, Within A m) :
    ∑ k ∈ A, credits ms k = ∑ k ∈ A, debits ms k := by
  induction ms with
  | nil => simp [credits, debits]
  | cons m ms ih =>
    obtain ⟨hm, hms⟩ := List.forall_mem_cons.mp h
    simp only [credits_cons, debits_cons, Finset.sum_add_distrib, ih hms, Finset.sum_ite_eq]
    simp only [Within] at hm
    simp [hm]

theorem shift_apply_of_fits {bal : K → UInt64} {m : Move K} (hcovered : m.amount ≤ bal m.source)
    (hfits : m.source ≠ m.target → (bal m.target).toNat + m.amount.toNat < 2 ^ 64) (k : K) :
    (shift bal m k).toNat + (if m.source = k then m.amount.toNat else 0) =
      (bal k).toNat + if m.target = k then m.amount.toNat else 0 := by
  have hle : m.amount.toNat ≤ (bal m.source).toNat := UInt64.le_iff_toNat_le.mp hcovered
  have hdebited : (Function.update bal m.source ((bal m.source).saturatingSub m.amount) k).toNat
      + (if m.source = k then m.amount.toNat else 0) = (bal k).toNat := by
    by_cases hj : m.source = k
    · subst hj
      rw [Function.update_self, UInt64.toNat_saturatingSub, if_pos rfl]
      omega
    · rw [Function.update_of_ne (Ne.symm hj), if_neg hj, Nat.add_zero]
  by_cases ht : m.target = k
  · subst ht
    have hroom : (Function.update bal m.source ((bal m.source).saturatingSub m.amount)
        m.target).toNat + m.amount.toNat < 2 ^ 64 := by
      by_cases hself : m.source = m.target
      · rw [if_pos hself] at hdebited
        rw [hdebited]
        exact UInt64.toNat_lt _
      · rw [if_neg hself, Nat.add_zero] at hdebited
        rw [hdebited]
        exact hfits hself
    rw [shift, Function.update_self, UInt64.toNat_saturatingAdd_of_lt hroom, if_pos rfl]
    omega
  · rw [shift, Function.update_of_ne (Ne.symm ht), if_neg ht, Nat.add_zero]
    exact hdebited

theorem shift_apply {A : Finset K} {bal : K → UInt64} {m : Move K} (hin : Within A m)
    (hcovered : m.amount ≤ bal m.source) (hsum : ∑ k ∈ A, (bal k).toNat < 2 ^ 64) {k : K}
    (hk : k ∈ A) :
    (shift bal m k).toNat + (if m.source = k then m.amount.toNat else 0) =
      (bal k).toNat + if m.target = k then m.amount.toNat else 0 := by
  by_cases ht : m.target ∈ A
  · apply shift_apply_of_fits hcovered
    intro hself
    have hle : m.amount.toNat ≤ (bal m.source).toNat := UInt64.le_iff_toNat_le.mp hcovered
    have hpair : (bal m.source).toNat + (bal m.target).toNat ≤ ∑ k ∈ A, (bal k).toNat :=
      Finset.add_le_sum (f := fun k => (bal k).toNat) (fun _ _ => Nat.zero_le _)
        (hin.mpr ht) ht hself
    omega
  · have htarget : m.target ≠ k := fun h => ht (h ▸ hk)
    have hsource : m.source ≠ k := fun h => ht (hin.mp (h ▸ hk))
    rw [if_neg htarget, if_neg hsource, shift, Function.update_of_ne htarget.symm,
      Function.update_of_ne hsource.symm]

theorem sum_shift_of_apply {A : Finset K} {bal : K → UInt64} {m : Move K} (hin : Within A m)
    (h : ∀ k ∈ A, (shift bal m k).toNat + (if m.source = k then m.amount.toNat else 0) =
      (bal k).toNat + if m.target = k then m.amount.toNat else 0) :
    ∑ k ∈ A, (shift bal m k).toNat = ∑ k ∈ A, (bal k).toNat := by
  have hsum := Finset.sum_congr rfl h
  simp only [Finset.sum_add_distrib, Finset.sum_ite_eq] at hsum
  simp only [Within] at hin
  simpa [hin] using hsum

theorem sum_shift {A : Finset K} {bal : K → UInt64} {m : Move K} (hin : Within A m)
    (hcovered : m.amount ≤ bal m.source) (hsum : ∑ k ∈ A, (bal k).toNat < 2 ^ 64) :
    ∑ k ∈ A, (shift bal m k).toNat = ∑ k ∈ A, (bal k).toNat :=
  sum_shift_of_apply hin fun _ hk => shift_apply hin hcovered hsum hk

theorem foldl_shift_apply {A : Finset K} {bal : K → UInt64} {ms : List (Move K)}
    (hin : ∀ m ∈ ms, Within A m) (hcovered : CoveredAll bal ms)
    (hsum : ∑ k ∈ A, (bal k).toNat < 2 ^ 64) {k : K} (hk : k ∈ A) :
    (ms.foldl shift bal k).toNat + debits ms k = (bal k).toNat + credits ms k := by
  induction ms generalizing bal with
  | nil => simp [debits, credits]
  | cons m ms ih =>
    obtain ⟨hm, hms⟩ := hcovered
    obtain ⟨hinm, hinms⟩ := List.forall_mem_cons.mp hin
    have hrest := ih hinms hms (by rw [sum_shift hinm hm hsum]; exact hsum)
    have hone := shift_apply hinm hm hsum hk
    rw [List.foldl_cons, debits_cons, credits_cons]
    omega

theorem coveredAll_append {bal : K → UInt64} {ms ms' : List (Move K)} :
    CoveredAll bal (ms ++ ms') ↔ CoveredAll bal ms ∧ CoveredAll (ms.foldl shift bal) ms' := by
  induction ms generalizing bal with
  | nil => simp [CoveredAll]
  | cons m ms ih => simp only [List.cons_append, CoveredAll, List.foldl_cons, ih, and_assoc]

section Held

variable {V : Type*} {s : Finset K} {worth : V → ℕ} {accounts : K → V} {k : K} {v : V}

def held (s : Finset K) (worth : V → ℕ) (accounts : K → V) : ℕ := ∑ k ∈ s, worth (accounts k)

theorem held_update_of_notMem (h : k ∉ s) :
    held s worth (Function.update accounts k v) = held s worth accounts := by
  refine Finset.sum_congr rfl fun j hj => ?_
  rw [Function.update_of_ne (ne_of_mem_of_not_mem hj h)]

theorem held_update_of_mem (h : k ∈ s) :
    held s worth (Function.update accounts k v) + worth (accounts k) =
      held s worth accounts + worth v := by
  have hrest : ∑ j ∈ s.erase k, worth (Function.update accounts k v j) =
      ∑ j ∈ s.erase k, worth (accounts j) := by
    refine Finset.sum_congr rfl fun j hj => ?_
    rw [Function.update_of_ne (Finset.ne_of_mem_erase hj)]
  unfold held
  rw [← Finset.add_sum_erase s _ h, ← Finset.add_sum_erase s (fun j => worth (accounts j)) h, hrest,
    Function.update_self]
  omega

theorem held_update_le {n : ℕ} (h : worth v ≤ worth (accounts k) + n) :
    held s worth (Function.update accounts k v) ≤ held s worth accounts + n := by
  by_cases hk : k ∈ s
  · have hmem : held s worth (Function.update accounts k v) + worth (accounts k) =
        held s worth accounts + worth v := held_update_of_mem hk
    omega
  · rw [held_update_of_notMem hk]
    exact Nat.le_add_right _ _

theorem held_update_anti (h : worth v ≤ worth (accounts k)) :
    held s worth (Function.update accounts k v) ≤ held s worth accounts :=
  held_update_le (n := 0) h

end Held

end Ledger
