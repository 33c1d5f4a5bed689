import Mathlib.Data.List.Basic

/-! Nested brackets with labels, read by a stack of the labels that are still open. -/
namespace Multicorn.Brackets

variable {α : Type*} [DecidableEq α]

inductive Bracket (α : Type*)
  | opening (a : α)
  | closing (a : α)

/-- A closing bracket needs its own label on top. -/
def step (stack : List α) : Bracket α → Option (List α)
  | .opening a => some (a :: stack)
  | .closing a =>
    match stack with
    | b :: stack => if a = b then some stack else none
    | [] => none

/-- The labels left open by a word, most recent first. -/
def run (stack : List α) (word : List (Bracket α)) : Option (List α) := word.foldlM step stack

/-- Every bracket is closed, in the order of nesting, under its own label. -/
def Nested (word : List (Bracket α)) : Prop := run [] word = some []

@[simp] theorem run_nil (stack : List α) : run stack [] = some stack := rfl

theorem run_append (stack : List α) (v w : List (Bracket α)) :
    run stack (v ++ w) = (run stack v).bind fun stack => run stack w := by
  simp [run, List.foldlM_append]

theorem run_concat {stack stack' : List α} {w : List (Bracket α)} (h : run stack w = some stack')
    (b : Bracket α) : run stack (w ++ [b]) = step stack' b := by
  rw [run_append, h]
  simp [run]

theorem run_openings (stack labels : List α) :
    run stack (labels.map .opening) = some (labels.reverse ++ stack) := by
  induction labels generalizing stack with
  | nil => rfl
  | cons a labels ih =>
    have h := ih (a :: stack)
    simpa [run, step] using h

@[simp] theorem step_closing_self (a : α) (stack : List α) :
    step (a :: stack) (.closing a) = some stack := by
  simp [step]

end Multicorn.Brackets
