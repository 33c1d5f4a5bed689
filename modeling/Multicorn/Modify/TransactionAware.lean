import Multicorn.General.Savepoint

/-! `TransactionAwareForeignDataWrapper`: the log of a transaction, which the hooks for
subtransactions leave alone. -/
namespace Multicorn.Modify
open Multicorn.Savepoint

/-- An entry of the log, with the values the operation was called with. -/
inductive LogEntry (V : Type)
  | insert (values : V)
  | update (oldvalues newvalues : V)
  | delete (oldvalues : V)
  deriving DecidableEq

structure TransactionAwareForeignDataWrapper (V : Type) where
  current_transaction_state : List (LogEntry V)

namespace TransactionAwareForeignDataWrapper

variable {V : Type} (w : TransactionAwareForeignDataWrapper V)

/-- `_init_transaction_state`. -/
def initTransactionState : TransactionAwareForeignDataWrapper V := ⟨[]⟩

def insert (values : V) : TransactionAwareForeignDataWrapper V :=
  { w with current_transaction_state := w.current_transaction_state ++ [.insert values] }

def update (oldvalues newvalues : V) : TransactionAwareForeignDataWrapper V :=
  { w with
    current_transaction_state := w.current_transaction_state ++ [.update oldvalues newvalues] }

def delete (oldvalues : V) : TransactionAwareForeignDataWrapper V :=
  { w with current_transaction_state := w.current_transaction_state ++ [.delete oldvalues] }

/-! The hooks of `ForeignDataWrapper`, which this class does not override. -/

def subBegin (_level : ℕ) : TransactionAwareForeignDataWrapper V := w

def subRollback (_level : ℕ) : TransactionAwareForeignDataWrapper V := w

def subCommit (_level : ℕ) : TransactionAwareForeignDataWrapper V := w

/-- One call. A log entry stands for the call that makes it. -/
def perform : Event (LogEntry V) → TransactionAwareForeignDataWrapper V
  | .op (.insert values) => w.insert values
  | .op (.update oldvalues newvalues) => w.update oldvalues newvalues
  | .op (.delete oldvalues) => w.delete oldvalues
  | .enter level => w.subBegin level
  | .leave level true => w.subCommit level
  | .leave level false => w.subRollback level

def run (events : List (Event (LogEntry V))) : TransactionAwareForeignDataWrapper V :=
  events.foldl perform w

/-- The log holds the operations of all calls, in order. -/
theorem run_log (events : List (Event (LogEntry V))) :
    (w.run events).current_transaction_state = w.current_transaction_state ++ opsOf events := by
  induction events generalizing w with
  | nil => simp [run, opsOf]
  | cons e events ih =>
    rw [run, List.foldl_cons]
    change ((w.perform e).run events).current_transaction_state = _
    rw [ih]
    cases e with
    | op a => cases a <;> simp [perform, insert, update, delete, opsOf]
    | enter level => rfl
    | leave level kept => cases kept <;> rfl

/-- From the start of a transaction on, the log holds every operation of the script. -/
theorem run_events (script : Script (LogEntry V)) :
    (initTransactionState.run script.events).current_transaction_state = script.ops := by
  rw [run_log, opsOf_events]
  rfl

end TransactionAwareForeignDataWrapper

end Multicorn.Modify
