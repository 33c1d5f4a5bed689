import Multicorn.Fs.Fdw
import Multicorn.General.StateMonad

/-! The calls that reach the wrapper of one table, and sequences of them. -/
namespace Multicorn.Fs
open Multicorn.StateMonad

/-- A call of the server. -/
inductive Action
  | insert (values : Row)
  | update (oldfilename : Str) (newvalues : Row)
  | delete (rowid : Str)
  | scan (quals : List Qual) (columns : List Str)
  | endScan
  | preCommit
  | rollback

namespace FilesystemFdw

variable (t : FilesystemFdw)

def perform : Action → M Unit
  | .insert values => discard <| t.insert values
  | .update oldfilename newvalues => discard <| t.update oldfilename newvalues
  | .delete rowid => t.delete rowid
  | .scan quals columns => discard <| t.execute quals columns
  | .endScan => endScan
  | .preCommit => t.preCommit
  | .rollback => t.rollback

/-- The call succeeds. -/
def Succeeds (s : State) (a : Action) : Prop := (value? (t.perform a s)).isSome

instance (s : State) (a : Action) : Decidable (t.Succeeds s a) :=
  inferInstanceAs (Decidable (_ = true))

/-- The state after a call, whether it succeeds or not. -/
def after (s : State) (a : Action) : State := finalState (t.perform a s)

def run (s : State) (actions : List Action) : State := actions.foldl t.after s

/-- Every call meets the condition in the state in which it is made. -/
def Along (C : State → Action → Prop) (s : State) : List Action → Prop
  | [] => True
  | a :: actions => C s a ∧ Along C (t.after s a) actions

variable {t} {C : State → Action → Prop} {s : State}

/-- What every call preserves holds after the run. -/
theorem run_invariant {I : State → Prop} (hstep : ∀ s a, I s → C s a → I (t.after s a))
    {actions : List Action} (hs : I s) (h : t.Along C s actions) : I (t.run s actions) := by
  induction actions generalizing s with
  | nil => exact hs
  | cons a actions ih => exact ih (hstep s a hs h.1) h.2

/-- What a call in a state with the invariant does, every call of the run does. -/
theorem along_of_invariant {I : State → Prop} {D : State → Action → Prop}
    (hstep : ∀ s a, I s → C s a → I (t.after s a)) (hcall : ∀ s a, I s → C s a → D s a)
    {actions : List Action} (hs : I s) (h : t.Along C s actions) : t.Along D s actions := by
  induction actions generalizing s with
  | nil => trivial
  | cons a actions ih => exact ⟨hcall s a hs h.1, ih (hstep s a hs h.1) h.2⟩

end FilesystemFdw

end Multicorn.Fs
