import Mathlib.Data.Option.Basic

/-! Three-valued connectives; `none` is the unknown truth value. -/
namespace Multicorn.Kleene

def and3 : Option Bool → Option Bool → Option Bool
  | some false, _ => some false
  | _, some false => some false
  | some true, some true => some true
  | _, _ => none

def or3 : Option Bool → Option Bool → Option Bool
  | some true, _ => some true
  | _, some true => some true
  | some false, some false => some false
  | _, _ => none

def not3 (a : Option Bool) : Option Bool := a.map not

def all3 (l : List (Option Bool)) : Option Bool := l.foldr and3 (some true)

def any3 (l : List (Option Bool)) : Option Bool := l.foldr or3 (some false)

theorem and3_eq_true (a b : Option Bool) :
    and3 a b = some true ↔ a = some true ∧ b = some true := by
  rcases a with _ | _ | _ <;> rcases b with _ | _ | _ <;> simp [and3]

theorem or3_eq_true (a b : Option Bool) :
    or3 a b = some true ↔ a = some true ∨ b = some true := by
  rcases a with _ | _ | _ <;> rcases b with _ | _ | _ <;> simp [or3]

@[simp] theorem not3_eq_true (a : Option Bool) : not3 a = some true ↔ a = some false := by
  simp [not3]

theorem all3_eq_true (l : List (Option Bool)) :
    all3 l = some true ↔ ∀ a ∈ l, a = some true := by
  induction l with
  | nil => simp [all3]
  | cons a l ih =>
    change and3 a (all3 l) = some true ↔ _
    rw [and3_eq_true, ih, List.forall_mem_cons]

theorem any3_eq_true (l : List (Option Bool)) :
    any3 l = some true ↔ some true ∈ l := by
  induction l with
  | nil => simp [any3]
  | cons a l ih =>
    change or3 a (any3 l) = some true ↔ _
    rw [or3_eq_true, ih, List.mem_cons, eq_comm]

theorem or3_eq_false (a b : Option Bool) :
    or3 a b = some false ↔ a = some false ∧ b = some false := by
  rcases a with _ | _ | _ <;> rcases b with _ | _ | _ <;> simp [or3]

theorem any3_eq_false (l : List (Option Bool)) :
    any3 l = some false ↔ ∀ a ∈ l, a = some false := by
  induction l with
  | nil => simp [any3]
  | cons a l ih =>
    change or3 a (any3 l) = some false ↔ _
    rw [or3_eq_false, ih, List.forall_mem_cons]

end Multicorn.Kleene
