import Mathlib.Data.List.Nodup
import Mathlib.Tactic.Common

/-! # Tables with a unique key

The rows of a database table stand under a key that no two of them share. A row is created or
updated under its key, or created only if the key is free.
-/

@[ext] structure Table (K V : Type*) where
  rows : List (K × V)
  unique : (rows.map Prod.fst).Nodup

namespace Table

variable {K V : Type*}

def empty : Table K V := ⟨[], List.nodup_nil⟩

def Has (t : Table K V) (k : K) : Prop := k ∈ t.rows.map Prod.fst

variable [DecidableEq K]

instance (t : Table K V) (k : K) : Decidable (t.Has k) :=
  inferInstanceAs (Decidable (k ∈ t.rows.map Prod.fst))

def count (t : Table K V) (k : K) : ℕ := (t.rows.map Prod.fst).count k

theorem count_eq_one_iff {t : Table K V} {k : K} : t.count k = 1 ↔ t.Has k :=
  ⟨fun h => List.count_pos_iff.mp (by rw [← count, h]; exact Nat.one_pos),
    List.count_eq_one_of_mem t.unique⟩

def updateRow (k : K) (update : V → V) (row : K × V) : K × V :=
  if row.1 = k then (row.1, update row.2) else row

theorem updateRow_fst (k : K) (update : V → V) (row : K × V) :
    (updateRow k update row).1 = row.1 := by
  unfold updateRow
  split <;> rfl

theorem map_fst_updateRow (k : K) (update : V → V) (rows : List (K × V)) :
    (rows.map (updateRow k update)).map Prod.fst = rows.map Prod.fst := by
  rw [List.map_map]
  exact List.map_congr_left fun row _ => updateRow_fst k update row

def upsert (t : Table K V) (k : K) (create : V) (update : V → V) : Table K V :=
  if h : t.Has k then
    { rows := t.rows.map (updateRow k update)
      unique := (map_fst_updateRow k update t.rows).symm ▸ t.unique }
  else
    { rows := t.rows ++ [(k, create)]
      unique := by
        rw [List.map_append, List.map_singleton, ← List.concat_eq_append]
        exact List.Nodup.concat h t.unique }

/-- Create a row under the key; one that is there stays as it is. -/
def insertNew (t : Table K V) (k : K) (create : V) : Table K V := t.upsert k create id

variable {t : Table K V} {k j : K} {create v : V} {update : V → V}

theorem has_upsert : (t.upsert k create update).Has j ↔ t.Has j ∨ j = k := by
  unfold upsert
  split
  · rename_i h
    rw [Has, map_fst_updateRow]
    constructor
    · exact Or.inl
    · rintro (hj | rfl)
      · exact hj
      · exact h
  · rw [Has, List.map_append, List.mem_append, List.map_singleton, List.mem_singleton, Has]

theorem mem_upsert (h : (j, v) ∈ (t.upsert k create update).rows) :
    (j, v) ∈ t.rows ∨ j = k ∧ ((∃ old, (k, old) ∈ t.rows ∧ v = update old) ∨ v = create) := by
  unfold upsert at h
  split at h
  · obtain ⟨⟨j', old⟩, hold, hrow⟩ := List.mem_map.mp h
    unfold updateRow at hrow
    split at hrow
    · rename_i hkey
      cases hrow
      cases hkey
      exact Or.inr ⟨rfl, Or.inl ⟨old, hold, rfl⟩⟩
    · exact Or.inl (hrow ▸ hold)
  · rcases List.mem_append.mp h with hold | hnew
    · exact Or.inl hold
    · cases List.mem_singleton.mp hnew
      exact Or.inr ⟨rfl, Or.inr rfl⟩

theorem upsert_eq_self (hk : t.Has k) (h : ∀ v, (k, v) ∈ t.rows → update v = v) :
    t.upsert k create update = t := by
  rw [upsert, dif_pos hk]
  ext1
  refine (List.map_congr_left ?_).trans (List.map_id t.rows)
  rintro ⟨j, v⟩ hrow
  unfold updateRow
  split
  · rename_i hj
    cases hj
    rw [h v hrow, id]
  · rfl

theorem insertNew_eq_self (hk : t.Has k) : t.insertNew k create = t :=
  upsert_eq_self hk fun _ _ => rfl

end Table
