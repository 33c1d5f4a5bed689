import Mathlib.Data.List.Basic
import Mathlib.Logic.Function.Basic

/-! Tables whose rows are put, moved and dropped, and the replay of a log of such changes on a
store in which the keys of the log have been prepared. -/
namespace Multicorn.ChangeLog

variable {K V W : Type*}

/-- A table gives the row of a key, if there is one. -/
abbrev Table (K V : Type*) := K → Option V

inductive Change (K V : Type*)
  | put (k : K) (v : V)
  | move (k₀ k : K) (v : V)
  | drop (k : K)
  deriving DecidableEq

namespace Change

/-- The keys whose rows may be others after the change. -/
def keys : Change K V → List K
  | put k _ => [k]
  | move k₀ k _ => [k₀, k]
  | drop k => [k]

def map (g : V → W) : Change K V → Change K W
  | put k v => put k (g v)
  | move k₀ k v => move k₀ k (g v)
  | drop k => drop k

@[simp] theorem keys_map (g : V → W) (c : Change K V) : (c.map g).keys = c.keys := by
  cases c <;> rfl

/-- The key whose row the change takes away, if it takes one away. -/
def taken : Change K V → Option K
  | put _ _ => none
  | move k₀ _ _ => some k₀
  | drop k => some k

/-- The key whose row the change puts, if it puts one. -/
def target : Change K V → Option K
  | put k _ => some k
  | move _ k _ => some k
  | drop _ => none

/-- The row that the change puts, if it puts one. -/
def row : Change K V → Option V
  | put _ v => some v
  | move _ _ v => some v
  | drop _ => none

/-- A row that the change takes away is there. -/
def Fits (T : Table K V) (c : Change K V) : Prop := ∀ k, c.taken = some k → T k ≠ none

theorem taken_mem {c : Change K V} {k : K} (hk : c.taken = some k) : k ∈ c.keys := by
  cases c with
  | put k' v => cases hk
  | move k₀ k' v =>
    cases hk
    exact List.mem_cons_self
  | drop k' =>
    cases hk
    exact List.mem_cons_self

theorem target_mem {c : Change K V} {k : K} (hk : c.target = some k) : k ∈ c.keys := by
  cases c with
  | put k' v =>
    cases hk
    exact List.mem_cons_self
  | move k₀ k' v =>
    cases hk
    exact List.mem_cons_of_mem _ List.mem_cons_self
  | drop k' => cases hk

variable [DecidableEq K]

def apply (T : Table K V) : Change K V → Table K V
  | put k v => Function.update T k (some v)
  | move k₀ k v => Function.update (Function.update T k₀ none) k (some v)
  | drop k => Function.update T k none

theorem apply_of_not_mem {c : Change K V} {k : K} (h : k ∉ c.keys) (T : Table K V) :
    c.apply T k = T k := by
  cases c with
  | put k' v => exact Function.update_of_ne (by simpa [keys] using h) ..
  | move k₀ k' v =>
    obtain ⟨h₀, h'⟩ : k ≠ k₀ ∧ k ≠ k' := by simpa [keys] using h
    simp only [apply, Function.update_of_ne h', Function.update_of_ne h₀]
  | drop k' => exact Function.update_of_ne (by simpa [keys] using h) ..

/-- What a change makes of its own keys does not depend on the table. -/
theorem apply_of_mem {c : Change K V} {k : K} (h : k ∈ c.keys) (T T' : Table K V) :
    c.apply T k = c.apply T' k := by
  cases c with
  | put k' v =>
    obtain rfl : k = k' := by simpa [keys] using h
    simp [apply]
  | move k₀ k' v =>
    by_cases hk' : k = k'
    · subst hk'
      simp [apply]
    · obtain rfl : k = k₀ := by simpa [keys, hk'] using h
      simp [apply, Function.update_of_ne hk']
  | drop k' =>
    obtain rfl : k = k' := by simpa [keys] using h
    simp [apply]

theorem target_of_apply {c : Change K V} {k : K} {v : V} (h : c.apply (fun _ => none) k = some v) :
    c.target = some k := by
  cases c with
  | put k' w =>
    simp only [apply, Function.update_apply] at h
    split_ifs at h with hk
    exact congrArg some hk.symm
  | move k₀ k' w =>
    simp only [apply, Function.update_apply] at h
    split_ifs at h with hk
    exact congrArg some hk.symm
  | drop k' =>
    simp only [apply, Function.update_apply] at h
    split_ifs at h

/-- What a change puts into an empty table is its row. -/
theorem row_of_apply {c : Change K V} {k : K} {v : V} (h : c.apply (fun _ => none) k = some v) :
    c.row = some v := by
  cases c with
  | put k' w =>
    simp only [apply, Function.update_apply] at h
    split_ifs at h
    exact h
  | move k₀ k' w =>
    simp only [apply, Function.update_apply] at h
    split_ifs at h
    exact h
  | drop k' =>
    simp only [apply, Function.update_apply] at h
    split_ifs at h

theorem apply_map (g : V → W) (c : Change K V) (T : Table K V) :
    (c.map g).apply (fun k => (T k).map g) = fun k => (c.apply T k).map g := by
  funext k
  cases c <;> simp only [apply, map, Function.update_apply] <;> split_ifs <;> rfl

end Change

/-- The keys of a log. -/
def touched (log : List (Change K V)) : List K := log.flatMap Change.keys

@[simp] theorem touched_append (log log' : List (Change K V)) :
    touched (log ++ log') = touched log ++ touched log' := List.flatMap_append

@[simp] theorem touched_cons (c : Change K V) (log : List (Change K V)) :
    touched (c :: log) = c.keys ++ touched log := rfl

@[simp] theorem touched_nil : touched ([] : List (Change K V)) = [] := rfl

@[simp] theorem touched_map (g : V → W) (log : List (Change K V)) :
    touched (log.map (Change.map g)) = touched log := by
  simp [touched, List.flatMap_map]

section Apply

variable [DecidableEq K] {T : Table K V}

/-- The table after all changes of a log. -/
def applyAll (T : Table K V) (log : List (Change K V)) : Table K V := log.foldl Change.apply T

theorem applyAll_append (T : Table K V) (log log' : List (Change K V)) :
    applyAll T (log ++ log') = applyAll (applyAll T log) log' := List.foldl_append

theorem applyAll_concat (T : Table K V) (log : List (Change K V)) (c : Change K V) :
    applyAll T (log ++ [c]) = c.apply (applyAll T log) := by
  simp [applyAll]

theorem applyAll_of_not_mem {log : List (Change K V)} {k : K} (h : k ∉ touched log)
    (T : Table K V) : applyAll T log k = T k := by
  induction log generalizing T with
  | nil => rfl
  | cons c log ih =>
    rw [touched_cons, List.mem_append, not_or] at h
    exact (ih h.2 _).trans (Change.apply_of_not_mem h.1 T)

theorem applyAll_map (g : V → W) (T : Table K V) (log : List (Change K V)) :
    applyAll (fun k => (T k).map g) (log.map (Change.map g)) =
      fun k => (applyAll T log k).map g := by
  induction log generalizing T with
  | nil => rfl
  | cons c log ih =>
    have hstep := congrArg (applyAll · (log.map (Change.map g))) (Change.apply_map g c T)
    exact hstep.trans (ih (c.apply T))

/-- Every change of the log fits the table that the changes before it have left. -/
def FitsAll (T : Table K V) : List (Change K V) → Prop
  | [] => True
  | c :: log => c.Fits T ∧ FitsAll (c.apply T) log

theorem FitsAll.map {log : List (Change K V)} (h : FitsAll T log) (g : V → W) :
    FitsAll (fun k => (T k).map g) (log.map (Change.map g)) := by
  induction log generalizing T with
  | nil => trivial
  | cons c log ih =>
    refine ⟨fun k hk => ?_, ?_⟩
    · have hthere : T k ≠ none := h.1 k (by cases c <;> exact hk)
      simpa using hthere
    · rw [Change.apply_map]
      exact ih h.2

theorem FitsAll.concat {log : List (Change K V)} (h : FitsAll T log) {c : Change K V}
    (hc : c.Fits (applyAll T log)) : FitsAll T (log ++ [c]) := by
  induction log generalizing T with
  | nil => exact ⟨hc, trivial⟩
  | cons c' log ih => exact ⟨h.1, ih h.2 hc⟩

end Apply

/-! The replay. -/

variable [DecidableEq K] {T D : Table K V} {done todo : List (Change K V)} {c : Change K V}

/-- The changes `done` have been replayed on the store `D`. A key of the changes `todo` that has
not had its turn is in the store with some row, prepared for it. -/
structure Replayed (T : Table K V) (done todo : List (Change K V)) (D : Table K V) : Prop where
  settled : ∀ k ∈ touched done, D k = applyAll T done k
  pending : ∀ k, k ∉ touched done → k ∈ touched todo → D k ≠ none
  untouched : ∀ k, k ∉ touched done → k ∉ touched todo → D k = T k

namespace Replayed

/-- The store of a replay that is about to begin. -/
theorem initial (hprepared : ∀ k ∈ touched todo, D k ≠ none)
    (huntouched : ∀ k, k ∉ touched todo → D k = T k) : Replayed T [] todo D where
  settled k hk := by cases hk
  pending k _ hk := hprepared k hk
  untouched k _ hk := huntouched k hk

/-- A row that a change of the log takes away is in the store. -/
theorem there (h : Replayed T done (c :: todo) D) (hc : c.Fits (applyAll T done)) {k : K}
    (hk : c.taken = some k) : D k ≠ none := by
  by_cases hdone : k ∈ touched done
  · rw [h.settled k hdone]
    exact hc k hk
  · apply h.pending k hdone
    rw [touched_cons]
    exact List.mem_append_left _ (Change.taken_mem hk)

/-- Replaying one change. -/
theorem step (h : Replayed T done (c :: todo) D) :
    Replayed T (done ++ [c]) todo (c.apply D) where
  settled k hk := by
    rw [applyAll_concat]
    by_cases hc : k ∈ c.keys
    · exact Change.apply_of_mem hc _ _
    · have hdone : k ∈ touched done := by simpa [hc] using hk
      rw [Change.apply_of_not_mem hc, Change.apply_of_not_mem hc, h.settled k hdone]
  pending k hk htodo := by
    obtain ⟨hdone, hc⟩ : k ∉ touched done ∧ k ∉ c.keys := by simpa using hk
    rw [Change.apply_of_not_mem hc]
    exact h.pending k hdone (List.mem_append_right _ htodo)
  untouched k hk htodo := by
    obtain ⟨hdone, hc⟩ : k ∉ touched done ∧ k ∉ c.keys := by simpa using hk
    rw [Change.apply_of_not_mem hc]
    apply h.untouched k hdone
    rw [touched_cons, List.mem_append, not_or]
    exact ⟨hc, htodo⟩

/-- After the replay the store is the table that the log makes. -/
theorem finished (h : Replayed T done [] D) : D = applyAll T done := by
  funext k
  by_cases hk : k ∈ touched done
  · exact h.settled k hk
  · rw [h.untouched k hk (by simp), applyAll_of_not_mem hk]

end Replayed

end Multicorn.ChangeLog
