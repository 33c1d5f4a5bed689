import Mathlib.Data.List.Basic

/-! Transactions with nested blocks that are kept or rolled back, and what is left of the
operations in them. -/
namespace Multicorn.Savepoint

variable {α σ : Type*}

/-- The operations of a transaction, with the blocks between them. -/
inductive Script (α : Type*)
  | done
  | op (a : α) (rest : Script α)
  | block (level : ℕ) (kept : Bool) (body rest : Script α)

/-- What happens in the course of a script. -/
inductive Event (α : Type*)
  | op (a : α)
  | enter (level : ℕ)
  | leave (level : ℕ) (kept : Bool)

namespace Script

def events : Script α → List (Event α)
  | .done => []
  | .op a rest => .op a :: rest.events
  | .block level kept body rest => .enter level :: (body.events ++ .leave level kept :: rest.events)

/-- All operations, in order. -/
def ops : Script α → List α
  | .done => []
  | .op a rest => a :: rest.ops
  | .block _ _ body rest => body.ops ++ rest.ops

/-- The operations outside every block that is rolled back. -/
def survivors : Script α → List α
  | .done => []
  | .op a rest => a :: rest.survivors
  | .block _ kept body rest => (if kept then body.survivors else []) ++ rest.survivors

/-- Only empty blocks are rolled back. -/
def NothingLost : Script α → Prop
  | .done => True
  | .op _ rest => rest.NothingLost
  | .block _ kept body rest =>
    (if kept then body.NothingLost else body.ops = []) ∧ rest.NothingLost

theorem survivors_sublist (script : Script α) : script.survivors.Sublist script.ops := by
  induction script with
  | done => exact List.Sublist.refl _
  | op a rest ih => exact ih.cons_cons a
  | block level kept body rest ihbody ihrest =>
    have hbody : (if kept then body.survivors else []).Sublist body.ops := by
      split_ifs
      · exact ihbody
      · exact List.nil_sublist _
    exact hbody.append ihrest

/-- All operations survive if and only if nothing is lost. -/
theorem survivors_eq_ops_iff (script : Script α) :
    script.survivors = script.ops ↔ script.NothingLost := by
  induction script with
  | done => exact ⟨fun _ => trivial, fun _ => rfl⟩
  | op a rest ih =>
    rw [survivors, ops, List.cons.injEq]
    exact ⟨fun h => ih.mp h.2, fun h => ⟨rfl, ih.mpr h⟩⟩
  | block level kept body rest ihbody ihrest =>
    have hrest := rest.survivors_sublist.length_le
    rw [survivors, ops, NothingLost]
    cases kept with
    | true =>
      have hbody := body.survivors_sublist.length_le
      simp only [if_true]
      constructor
      · intro h
        have hlen := congrArg List.length h
        rw [List.length_append, List.length_append] at hlen
        obtain ⟨hfirst, hlast⟩ := List.append_inj h (by omega)
        exact ⟨ihbody.mp hfirst, ihrest.mp hlast⟩
      · rintro ⟨hfirst, hlast⟩
        rw [ihbody.mpr hfirst, ihrest.mpr hlast]
    | false =>
      simp only [Bool.false_eq_true, if_false, List.nil_append]
      constructor
      · intro h
        have hlen := congrArg List.length h
        rw [List.length_append] at hlen
        have hnil : body.ops = [] := List.length_eq_zero_iff.mp (by omega)
        rw [hnil, List.nil_append] at h
        exact ⟨hnil, ihrest.mp h⟩
      · rintro ⟨hnil, hlast⟩
        rw [hnil, ihrest.mpr hlast, List.nil_append]

end Script

/-- The operations among the events. -/
def opsOf : List (Event α) → List α
  | [] => []
  | .op a :: events => a :: opsOf events
  | .enter _ :: events => opsOf events
  | .leave _ _ :: events => opsOf events

theorem opsOf_append (first second : List (Event α)) :
    opsOf (first ++ second) = opsOf first ++ opsOf second := by
  induction first with
  | nil => rfl
  | cons e first ih =>
    cases e with
    | op a => exact congrArg (a :: ·) ih
    | enter level => exact ih
    | leave level kept => exact ih

@[simp] theorem opsOf_events (script : Script α) : opsOf script.events = script.ops := by
  induction script with
  | done => rfl
  | op a rest ih => exact congrArg (a :: ·) ih
  | block level kept body rest ihbody ihrest =>
    rw [Script.events, opsOf, opsOf_append, ihbody, opsOf, ihrest, Script.ops]

/-- Where the ends of blocks do nothing, a sequence of events is its operations. -/
theorem foldl_events {step : σ → Event α → σ} {act : σ → α → σ}
    (hop : ∀ s a, step s (.op a) = act s a) (henter : ∀ s level, step s (.enter level) = s)
    (hleave : ∀ s level kept, step s (.leave level kept) = s) (s : σ) (events : List (Event α)) :
    events.foldl step s = (opsOf events).foldl act s := by
  induction events generalizing s with
  | nil => rfl
  | cons e events ih =>
    cases e with
    | op a => rw [List.foldl_cons, hop, ih, opsOf, List.foldl_cons]
    | enter level => rw [List.foldl_cons, henter, ih, opsOf]
    | leave level kept => rw [List.foldl_cons, hleave, ih, opsOf]

end Multicorn.Savepoint
