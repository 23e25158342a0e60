import Mathlib.Data.List.Basic
import Mathlib.Tactic.Common

/-! # Hash trees

A binary tree of any shape, hashed from its leaves up. Leaves and inner nodes are hashed from
strings of their own. Two trees of one root are the same tree, shape included, unless two of the
strings hashed on the way collide. A row of trees is joined in pairs, an odd last tree staying as
it is, until one tree over the row is left.
-/

inductive HashTree (α : Type*) where
  | leaf (a : α)
  | node (left right : HashTree α)

namespace HashTree

variable {α β H : Type*}

def leaves : HashTree α → List α
  | leaf a => [a]
  | node left right => left.leaves ++ right.leaves

section Root

variable (hash : β → H) (leafInput : α → β) (nodeInput : H → H → β)

def root : HashTree α → H
  | leaf a => hash (leafInput a)
  | node left right => hash (nodeInput left.root right.root)

def inputs : HashTree α → List β
  | leaf a => [leafInput a]
  | node left right =>
    nodeInput (left.root hash leafInput nodeInput) (right.root hash leafInput nodeInput) ::
      (left.inputs ++ right.inputs)

def Clash (l : List β) : Prop := ∃ a ∈ l, ∃ b ∈ l, a ≠ b ∧ hash a = hash b

variable {hash leafInput nodeInput}

theorem Clash.mono {l l' : List β} (h : Clash hash l) (hsub : l ⊆ l') : Clash hash l' := by
  obtain ⟨a, ha, b, hb, hne, heq⟩ := h
  exact ⟨a, hsub ha, b, hsub hb, hne, heq⟩

structure Separated (leafInput : α → β) (nodeInput : H → H → β) : Prop where
  leaf_injective : Function.Injective leafInput
  node_inj : ∀ {x y x' y'}, nodeInput x y = nodeInput x' y' → x = x' ∧ y = y'
  leaf_ne_node : ∀ a x y, leafInput a ≠ nodeInput x y

theorem eq_or_clash (hsep : Separated leafInput nodeInput) {t t' : HashTree α}
    (h : t.root hash leafInput nodeInput = t'.root hash leafInput nodeInput) :
    t = t' ∨ Clash hash (t.inputs hash leafInput nodeInput ++
      t'.inputs hash leafInput nodeInput) := by
  induction t generalizing t' with
  | leaf a =>
    cases t' with
    | leaf b =>
      by_cases hab : leafInput a = leafInput b
      · exact .inl (congrArg leaf (hsep.leaf_injective hab))
      · exact .inr ⟨_, by simp [inputs], _, by simp [inputs], hab, h⟩
    | node l r =>
      exact .inr ⟨leafInput a, by simp [inputs], nodeInput _ _, by simp [inputs],
        hsep.leaf_ne_node _ _ _, h⟩
  | node l r ihl ihr =>
    cases t' with
    | leaf b =>
      exact .inr ⟨nodeInput _ _, by simp [inputs], leafInput b, by simp [inputs],
        (hsep.leaf_ne_node _ _ _).symm, h⟩
    | node l' r' =>
      by_cases hsame : nodeInput (l.root hash leafInput nodeInput)
          (r.root hash leafInput nodeInput) = nodeInput (l'.root hash leafInput nodeInput)
          (r'.root hash leafInput nodeInput)
      · obtain ⟨hl, hr⟩ := hsep.node_inj hsame
        rcases ihl hl with rfl | hclash
        · rcases ihr hr with rfl | hclash
          · exact .inl rfl
          · refine .inr (hclash.mono fun x hx => ?_)
            simp only [inputs, List.mem_append, List.mem_cons] at hx ⊢
            tauto
        · refine .inr (hclash.mono fun x hx => ?_)
          simp only [inputs, List.mem_append, List.mem_cons] at hx ⊢
          tauto
      · exact .inr ⟨nodeInput _ _, by simp [inputs], nodeInput _ _, by simp [inputs], hsame, h⟩

end Root

/-! ## Rows of trees -/

/-- Join neighbours; an odd last tree stays. -/
def joinPairs : List (HashTree α) → List (HashTree α)
  | s :: t :: rest => node s t :: joinPairs rest
  | [t] => [t]
  | [] => []

/-- Join neighbours until one tree is left, or the fuel is used up. -/
def joinAll : ℕ → List (HashTree α) → List (HashTree α)
  | 0, row => row
  | fuel + 1, row => if 1 < row.length then joinAll fuel (joinPairs row) else row

theorem leaves_joinPairs (row : List (HashTree α)) :
    (joinPairs row).flatMap leaves = row.flatMap leaves := by
  fun_induction joinPairs row with
  | case1 s t rest ih => simp [leaves, ih]
  | case2 t => rfl
  | case3 => rfl

theorem leaves_joinAll (fuel : ℕ) (row : List (HashTree α)) :
    (joinAll fuel row).flatMap leaves = row.flatMap leaves := by
  induction fuel generalizing row with
  | zero => rfl
  | succ fuel ih =>
    rw [joinAll]
    split
    · rw [ih, leaves_joinPairs]
    · rfl

theorem length_joinPairs (row : List (HashTree α)) :
    (joinPairs row).length = (row.length + 1) / 2 := by
  fun_induction joinPairs row with
  | case1 s t rest ih =>
    simp only [List.length_cons, ih]
    omega
  | case2 t => simp
  | case3 => simp

theorem exists_joinAll_eq {fuel : ℕ} {row : List (HashTree α)} (hrow : row ≠ [])
    (hfuel : row.length ≤ fuel) : ∃ t, joinAll fuel row = [t] := by
  have hpos := List.length_pos_iff.mpr hrow
  induction fuel generalizing row with
  | zero => omega
  | succ fuel ih =>
    rw [joinAll]
    split
    · have hlength := length_joinPairs row
      have hpos' : 0 < (joinPairs row).length := by omega
      exact ih (List.length_pos_iff.mp hpos') (by omega) hpos'
    · exact List.length_eq_one_iff.mp (by omega)

end HashTree
