import Mathlib.Data.List.Sort

/-! Orders given by a list of keys: each key compares, and the next one decides a tie. -/
namespace Multicorn.KeyOrder
open Std

variable {α β : Type*}

/-- Missing values before or after all others. -/
def nullsCompare (nullsFirst : Bool) (cmp : β → β → Ordering) : Option β → Option β → Ordering
  | none, none => .eq
  | none, some _ => if nullsFirst then .lt else .gt
  | some _, none => if nullsFirst then .gt else .lt
  | some a, some b => cmp a b

def directed (reversed : Bool) (cmp : β → β → Ordering) (a b : β) : Ordering :=
  if reversed then cmp b a else cmp a b

/-- The order of rows by one key. -/
def keyCompare (nullsFirst reversed : Bool) (cmp : β → β → Ordering) (key : α → Option β)
    (a b : α) : Ordering :=
  nullsCompare nullsFirst (directed reversed cmp) (key a) (key b)

def lexCompare : List (α → α → Ordering) → α → α → Ordering
  | [], _, _ => .eq
  | c :: cs, a, b => (c a b).then (lexCompare cs a b)

/-- Every row is at most the rows after it. -/
def SortedBy (cs : List (α → α → Ordering)) (rows : List α) : Prop :=
  rows.Pairwise (fun a b => (lexCompare cs a b).isLE)

instance nullsCompare_trans (nullsFirst : Bool) (cmp : β → β → Ordering) [TransCmp cmp] :
    TransCmp (nullsCompare nullsFirst cmp) where
  eq_swap {a b} := by
    rcases a with _ | a <;> rcases b with _ | b
    case some.some =>
      have h : cmp a b = (cmp b a).swap := OrientedCmp.eq_swap
      exact h
    all_goals cases nullsFirst <;> rfl
  isLE_trans {a b c} hab hbc := by
    cases a <;> cases b <;> cases c <;> cases nullsFirst <;> simp_all [nullsCompare]
    all_goals exact TransCmp.isLE_trans hab hbc

instance directed_trans (reversed : Bool) (cmp : β → β → Ordering) [TransCmp cmp] :
    TransCmp (directed reversed cmp) := by
  cases reversed
  · exact inferInstanceAs (TransCmp cmp)
  · exact inferInstanceAs (TransCmp fun a b => cmp b a)

theorem keyCompare_trans (nullsFirst reversed : Bool) (cmp : β → β → Ordering)
    (h : TransCmp cmp) (key : α → Option β) :
    TransCmp (keyCompare nullsFirst reversed cmp key) := by
  have ht := nullsCompare_trans nullsFirst (directed reversed cmp)
  exact { eq_swap := ht.eq_swap, isLE_trans := ht.isLE_trans }

theorem keyCompare_tie {nullsFirst reversed : Bool} {cmp : β → β → Ordering}
    {key : α → Option β} {a b : α} (ha : key a = none) (hb : key b = none) :
    keyCompare nullsFirst reversed cmp key a b = .eq := by
  simp [keyCompare, ha, hb, nullsCompare]

theorem lexCompare_trans (cs : List (α → α → Ordering)) (h : ∀ c ∈ cs, TransCmp c) :
    TransCmp (lexCompare cs) := by
  induction cs with
  | nil => exact { eq_swap := rfl, isLE_trans := fun _ _ => rfl }
  | cons c cs ih =>
    have := h c (List.mem_cons_self ..)
    have := ih fun d hd => h d (List.mem_cons_of_mem _ hd)
    exact inferInstanceAs (TransCmp (compareLex c (lexCompare cs)))

theorem lexCompare_eq {cs : List (α → α → Ordering)} {a b : α}
    (h : ∀ c ∈ cs, c a b = .eq) : lexCompare cs a b = .eq := by
  induction cs with
  | nil => rfl
  | cons c cs ih =>
    rw [List.forall_mem_cons] at h
    simp [lexCompare, h.1, ih h.2]

/-- Where every other key ties, one key decides. -/
theorem lexCompare_of_tie {before after : List (α → α → Ordering)} {c : α → α → Ordering}
    {a b : α} (hb : ∀ d ∈ before, d a b = .eq) (ha : ∀ d ∈ after, d a b = .eq) :
    lexCompare (before ++ c :: after) a b = c a b := by
  induction before with
  | nil => simp [lexCompare, lexCompare_eq ha]
  | cons d before ih =>
    rw [List.forall_mem_cons] at hb
    simp [lexCompare, hb.1, ih hb.2]

theorem sortedBy_pair (cs : List (α → α → Ordering)) (a b : α) :
    SortedBy cs [a, b] ↔ (lexCompare cs a b).isLE := by
  simp [SortedBy]

end Multicorn.KeyOrder
