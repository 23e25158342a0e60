import Mathlib.Control.Basic
import Mathlib.Logic.Basic

/-! # Programs that read

A program over a database asks one question after another. A read is answered; if it fails, the
program ends with an error, or goes on with a default in place of the answer, as the question
says. `run` answers every read; an `Outcome` lets reads of given questions fail, each on its
own. Where every default is the answer, no failure shows but as an error
(`Outcome.error_or_run`); what a program returns over any database made of answers and defaults
is an outcome (`Outcome.of_run`).
-/

/-- A program that reads answers `A q` to questions `q` and ends with a value or an error. -/
inductive Reads (Q : Type) (A : Q → Type) (ε α : Type) : Type
  | done (a : α)
  | fail (e : ε)
  | read (q : Q) (next : A q → Reads Q A ε α)

namespace Reads

variable {Q Q' : Type} {A : Q → Type} {A' : Q' → Type} {ε α β : Type}

def bind : Reads Q A ε α → (α → Reads Q A ε β) → Reads Q A ε β
  | done a, f => f a
  | fail e, _ => fail e
  | read q next, f => read q fun answer => bind (next answer) f

instance : Monad (Reads Q A ε) where
  pure := done
  bind := bind

def ask (q : Q) : Reads Q A ε (A q) := read q done

def run (db : (q : Q) → A q) : Reads Q A ε α → Except ε α
  | done a => .ok a
  | fail e => .error e
  | read q next => run db (next (db q))

/-- The results when reads of the questions in `may` can fail; `missed` says what a failed read
does. -/
inductive Outcome (db : (q : Q) → A q) (missed : (q : Q) → Except ε (A q)) (may : Q → Prop) :
    Reads Q A ε α → Except ε α → Prop
  | done (a : α) : Outcome db missed may (.done a) (.ok a)
  | fail (e : ε) : Outcome db missed may (.fail e) (.error e)
  | read {q : Q} {next : A q → Reads Q A ε α} {out : Except ε α}
      (h : Outcome db missed may (next (db q)) out) : Outcome db missed may (.read q next) out
  | default {q : Q} {next : A q → Reads Q A ε α} {a : A q} {out : Except ε α} (hq : may q)
      (ha : missed q = .ok a) (h : Outcome db missed may (next a) out) :
      Outcome db missed may (.read q next) out
  | abort {q : Q} {next : A q → Reads Q A ε α} {e : ε} (hq : may q) (he : missed q = .error e) :
      Outcome db missed may (.read q next) (.error e)

def through (answer : (q : Q) → Reads Q' A' ε (A q)) : Reads Q A Empty α → Reads Q' A' ε α
  | done a => done a
  | fail e => e.elim
  | read q next => bind (answer q) fun a => through answer (next a)

/-! ## Outcomes -/

section Outcome

variable {db : (q : Q) → A q} {missed : (q : Q) → Except ε (A q)} {may : Q → Prop}

theorem Outcome.error_or_run {p : Reads Q A ε α} {out : Except ε α}
    (hsame : ∀ q a, may q → missed q = .ok a → a = db q) (h : p.Outcome db missed may out) :
    (∃ e, out = .error e) ∨ out = p.run db := by
  induction h with
  | done a => exact .inr rfl
  | fail e => exact .inl ⟨e, rfl⟩
  | read _ ih => exact ih
  | default hq ha _ ih =>
    rw [hsame _ _ hq ha] at ih
    exact ih
  | abort _ _ => exact .inl ⟨_, rfl⟩

theorem Outcome.of_run {db' : (q : Q) → A q}
    (hdb : ∀ q, db' q = db q ∨ may q ∧ missed q = .ok (db' q)) (p : Reads Q A ε α) :
    p.Outcome db missed may (p.run db') := by
  induction p with
  | done a => exact .done a
  | fail e => exact .fail e
  | read q next ih =>
    rcases hdb q with h | ⟨hq, h⟩
    · refine .read ?_
      rw [← h]
      exact ih _
    · exact .default hq h (ih _)

theorem Outcome.bind_of_run {p : Reads Q A ε α} {f : α → Reads Q A ε β} {a : α}
    {out : Except ε β} (hp : p.run db = .ok a) (hf : (f a).Outcome db missed may out) :
    (p >>= f).Outcome db missed may out := by
  induction p with
  | done b =>
    cases hp
    exact hf
  | fail e => cases hp
  | read q next ih => exact .read (ih _ hp)

end Outcome

/-! ## What a program returns -/

def Returns (db : (q : Q) → A q) (p : Reads Q A ε α) (out : Except ε α) : Prop := p.run db = out

namespace Returns

variable {db : (q : Q) → A q}

theorem pure (a : α) : Returns db (Pure.pure a : Reads Q A ε α) (.ok a) := rfl

theorem fail (e : ε) : Returns db (.fail e : Reads Q A ε α) (.error e) := rfl

theorem ask (q : Q) : Returns db (.ask q : Reads Q A ε (A q)) (.ok (db q)) := rfl

theorem bind_ok {x : Reads Q A ε α} {f : α → Reads Q A ε β} {a : α} {out : Except ε β}
    (hx : Returns db x (.ok a)) (hf : Returns db (f a) out) : Returns db (x >>= f) out := by
  induction x with
  | done b =>
    cases hx
    exact hf
  | fail e => cases hx
  | read q next ih => exact ih _ hx

theorem bind_error {x : Reads Q A ε α} {f : α → Reads Q A ε β} {e : ε}
    (hx : Returns db x (.error e)) : Returns db (x >>= f) (.error e) := by
  induction x with
  | done b => cases hx
  | fail e' =>
    cases hx
    rfl
  | read q next ih => exact ih _ hx

theorem ite {c : Prop} [Decidable c] {x y : Reads Q A ε α} {a b : α}
    (hx : c → Returns db x (.ok a)) (hy : ¬ c → Returns db y (.ok b)) :
    Returns db (if c then x else y) (.ok (if c then a else b)) := by
  split
  · rename_i h
    exact hx h
  · rename_i h
    exact hy h

theorem foldlM {f : β → α → Reads Q A ε β} {g : β → α → Except ε β}
    (hf : ∀ b a, Returns db (f b a) (g b a)) (b : β) (l : List α) :
    Returns db (l.foldlM f b) (l.foldlM g b) := by
  induction l generalizing b with
  | nil => exact pure b
  | cons a l ih =>
    rw [List.foldlM_cons, List.foldlM_cons]
    have ha := hf b a
    cases hg : g b a with
    | error e =>
      rw [hg] at ha
      exact ha.bind_error
    | ok b' =>
      rw [hg] at ha
      exact ha.bind_ok (ih b')

theorem foldl {f : β → α → Reads Q A ε β} {g : β → α → β}
    (hf : ∀ b a, Returns db (f b a) (.ok (g b a))) (b : β) (l : List α) :
    Returns db (l.foldlM f b) (.ok (l.foldl g b)) := by
  induction l generalizing b with
  | nil => exact pure b
  | cons a l ih =>
    rw [List.foldlM_cons]
    exact (hf b a).bind_ok (ih _)

theorem mapLoop {f : α → Reads Q A ε β} {g : α → β} (hf : ∀ a, Returns db (f a) (.ok (g a)))
    (l : List α) (acc : List β) :
    Returns db (l.foldlM (fun acc a => do return acc ++ [← f a]) acc) (.ok (acc ++ l.map g)) := by
  induction l generalizing acc with
  | nil =>
    rw [List.map_nil, List.append_nil]
    exact pure acc
  | cons a l ih =>
    rw [List.foldlM_cons, List.map_cons, List.append_cons]
    exact Returns.bind_ok ((hf a).bind_ok (pure _)) (ih _)

theorem through {db' : (q : Q') → A' q} {answer : (q : Q) → Reads Q' A' ε (A q)}
    (hanswer : ∀ q, Returns db' (answer q) (.ok (db q))) {p : Reads Q A Empty α} {a : α}
    (hp : p.run db = .ok a) : Returns db' (p.through answer) (.ok a) := by
  induction p with
  | done b =>
    cases hp
    rfl
  | fail e => exact e.elim
  | read q next ih => exact (hanswer q).bind_ok (ih _ hp)

end Returns

end Reads
