import Multicorn.Xact.Hooks

/-! Runs of a backend, and what its wrappers see from the start of a transaction to its end. -/
namespace Multicorn.Xact
open Multicorn.Brackets Multicorn.Catalog

variable {s s' : Session}

section Runs

variable {P : Session → Event → Prop}

theorem AllSteps.cons_of_ok {e : Event} {events : List Event} (hP : P s e)
    (hexec : exec e s = .ok () s') (hrest : AllSteps P s' events) : AllSteps P s (e :: events) := by
  refine ⟨hP, fun s'' h => ?_⟩
  rw [hexec] at h
  cases h
  exact hrest

theorem AllSteps.imp {Q : Session → Event → Prop} (hPQ : ∀ s e, P s e → Q s e)
    {events : List Event} (h : AllSteps P s events) : AllSteps Q s events := by
  induction events generalizing s with
  | nil => trivial
  | cons e events ih => exact ⟨hPQ s e h.1, fun s' hexec => ih (h.2 s' hexec)⟩

/-- What every step preserves holds after a run. -/
theorem execAll_preserves {I : Session → Prop}
    (hI : ∀ s e s', I s → P s e → exec e s = .ok () s' → I s') {events : List Event} (hs : I s)
    (hrun : AllSteps P s events) (h : execAll events s = .ok () s') : I s' := by
  induction events generalizing s with
  | nil =>
    cases h
    exact hs
  | cons e events ih =>
    simp only [execAll, bind, EStateM.bind] at h
    cases hexec : exec e s with
    | ok u s₁ =>
      rw [hexec] at h
      exact ih (hI s e s₁ hs hrun.1 hexec) (hrun.2 s₁ hexec) h
    | error err s₁ =>
      rw [hexec] at h
      cases h

/-- A run comes to its end if no step can fail. -/
theorem execAll_ok {I : Session → Prop}
    (hI : ∀ s e, I s → P s e → ∃ s', exec e s = .ok () s' ∧ I s') {events : List Event} (hs : I s)
    (hrun : AllSteps P s events) : ∃ s', execAll events s = .ok () s' := by
  induction events generalizing s with
  | nil => exact ⟨s, rfl⟩
  | cons e events ih =>
    obtain ⟨s₁, hexec, hs₁⟩ := hI s e hs hrun.1
    obtain ⟨s', h⟩ := ih hs₁ (hrun.2 s₁ hexec)
    refine ⟨s', ?_⟩
    simp only [execAll, bind, EStateM.bind, hexec]
    exact h

end Runs

/-- A backend that has just started, in which no Python call is going to raise. -/
def Session.start (catalogs : Catalogs) : Session :=
  ⟨catalogs, [], [], [], .idle, [], 1, [], [], []⟩

def Enabled (s : Session) (e : Event) : Prop := e.Enabled s

def Reachable (s : Session) : Prop :=
  ∃ catalogs events, AllSteps Enabled (.start catalogs) events ∧
    execAll events (.start catalogs) = .ok () s

theorem core_start (catalogs : Catalogs) : Core (.start catalogs) :=
  ⟨rfl, Keyed.nil, fun p hp => (by cases hp), fun p hp => (by cases hp), rfl⟩

theorem Reachable.core (h : Reachable s) : Core s := by
  obtain ⟨catalogs, events, hrun, hexec⟩ := h
  exact execAll_preserves (fun _ _ _ hs he hexec => hs.step (step_of_exec hs he hexec))
    (core_start catalogs) hrun hexec

theorem inv_step (hs : Inv s) {e : Event} (he : e.Enabled s) (hkeep : ¬ Abandons s e)
    (h : exec e s = .ok () s') : Inv s' :=
  hs.step (step_of_exec hs.toCore he h) hkeep

/-- Table 7, of one column, on a server that names the wrapper. -/
def oneTable (options : List DefElem) : Catalogs where
  foreignTable oid := if oid = 7 then some ⟨3, options, [⟨"a", 23, -1, false, []⟩]⟩ else none
  foreignServer oid := if oid = 3 then some [⟨"wrapper", "w"⟩] else none
  userMapping _ _ := none
  userId := 10

theorem reachable_start (catalogs : Catalogs) : Reachable (.start catalogs) :=
  ⟨catalogs, [], trivial, rfl⟩

/-- In a transaction that rebuilds no entry of an instance taking part in it, each instance
sees `begin`, nested subtransactions that end the way they ended locally, and one ending. -/
theorem hooks_wellBracketed (hs : Reachable s) {events : List Event}
    (hrun : AllSteps (fun s e => e.Enabled s ∧ ¬ Abandons s e) s (.beginXact :: events))
    (h : execAll (.beginXact :: events) s = .ok () s') :
    (s'.phase = .idle →
      ∀ inst, callsOf inst s'.trace = [] ∨ WellBracketed (callsOf inst s'.trace)) ∧
    (∀ c ∈ s'.trace, Agrees s'.outcomes c.2) ∧ ∀ p ∈ s'.entries, p.2.xact_depth ≤ s'.nestLevel := by
  obtain ⟨⟨hphase, -⟩, hrest⟩ := hrun
  have hinv : Inv s' := by
    have hbegin := inv_beginXact hs.core (.beginXact hphase)
    exact execAll_preserves (fun _ _ _ hs he hexec => inv_step hs he.1 he.2 hexec) hbegin
      (hrest _ rfl) h
  refine ⟨fun hidle inst => ?_, hinv.agrees, hinv.bounded⟩
  have hj := hinv.joined inst
  simp only [Session.Joined, hidle] at hj
  exact hj.2

/-- A savepoint is released in between, and the table is accessed inside it. -/
theorem hooks_wellBracketed_savepoint : ∃ s',
    execAll [.beginXact, .access 7 0, .subStart, .access 7 0, .subCommit, .preCommit, .commit]
      (.start (oneTable [])) = .ok () s' ∧
    callsOf 0 s'.trace = [.begin, .subBegin 2 2, .subCommit 2 2, .preCommit, .commit] ∧
    ∀ inst, callsOf inst s'.trace = [] ∨ WellBracketed (callsOf inst s'.trace) := by
  have hrun : AllSteps (fun s e => e.Enabled s ∧ ¬ Abandons s e) (.start (oneTable []))
      [.beginXact, .access 7 0, .subStart, .access 7 0, .subCommit, .preCommit, .commit] := by
    refine .cons_of_ok ⟨rfl, id⟩ rfl <| .cons_of_ok ⟨⟨rfl, rfl⟩, ?_⟩ rfl <|
      .cons_of_ok ⟨rfl, id⟩ rfl <| .cons_of_ok ⟨⟨rfl, rfl⟩, ?_⟩ rfl <|
      .cons_of_ok ⟨⟨rfl, Nat.le_refl _⟩, id⟩ rfl <| .cons_of_ok ⟨⟨rfl, rfl⟩, id⟩ rfl <|
      .cons_of_ok ⟨rfl, id⟩ rfl trivial
    · rintro ⟨entry, hentry, -⟩
      cases hentry
    · rintro ⟨entry, hentry, -, hstale⟩
      cases hentry
      rcases hstale with hstale | hstale <;> exact hstale rfl
  exact ⟨_, rfl, rfl, (hooks_wellBracketed (reachable_start (oneTable [])) hrun rfl).1 rfl⟩

/-- `pre_commit` with `commit`, or `rollback` alone. -/
def StrictlyBracketed (calls : List Hook) : Prop :=
  ∃ body ending, calls = body ++ ending ∧ OpenAt body [] ∧
    (ending = [.preCommit, .commit] ∨ ending = [.rollback])

private theorem not_strictlyBracketed :
    ¬ StrictlyBracketed [.begin, .preCommit, .rollback] := by
  rintro ⟨body, ending, hcalls, ⟨subs, word, rfl, hsubs, -⟩, rfl | rfl⟩
  · have hsplit : [Hook.begin] ++ [.preCommit, .rollback] =
        .begin :: subs ++ [.preCommit, .commit] := hcalls
    have hending := List.append_inj_right' hsplit rfl
    cases hending
  · have hbody : [Hook.begin, .preCommit] = .begin :: subs := List.append_inj_left' hcalls rfl
    obtain rfl : [Hook.preCommit] = subs := (List.cons.inj hbody).2
    cases word with
    | nil => cases hsubs
    | cons b word => cases (List.cons.inj hsubs).1

/-- A transaction that fails between its pre-commit and its commit is rolled back, and the
instance then sees `pre_commit` and `rollback`. -/
theorem preCommit_then_rollback : ∃ s',
    AllSteps (fun s e => e.Enabled s ∧ ¬ Abandons s e) (.start (oneTable []))
      [.beginXact, .access 7 0, .preCommit, .abort] ∧
    execAll [.beginXact, .access 7 0, .preCommit, .abort] (.start (oneTable [])) = .ok () s' ∧
    s'.phase = .idle ∧ callsOf 0 s'.trace = [.begin, .preCommit, .rollback] ∧
    ¬ StrictlyBracketed (callsOf 0 s'.trace) := by
  refine ⟨_, ?_, rfl, rfl, rfl, ?_⟩
  · refine .cons_of_ok ⟨rfl, id⟩ rfl <| .cons_of_ok ⟨⟨rfl, rfl⟩, ?_⟩ rfl <|
      .cons_of_ok ⟨⟨rfl, rfl⟩, id⟩ rfl <| .cons_of_ok ⟨.inl rfl, id⟩ rfl trivial
    rintro ⟨entry, hentry, -⟩
    cases hentry
  · exact not_strictlyBracketed

section Closing

def Hook.closes : Hook → Bool
  | .commit => true
  | .rollback => true
  | _ => false

/-- There is one closing hook, at the end, and a `commit` comes after `pre_commit`. -/
def ClosedOnce (calls : List Hook) : Prop :=
  ∃ before closing, calls = before ++ [closing] ∧ (∀ h ∈ before, h.closes = false) ∧
    (closing = .commit ∧ .preCommit ∈ before ∨ closing = .rollback)

theorem OpenAt.not_closes {calls : List Hook} {labels : List (ℕ × SubTransactionId)}
    (h : OpenAt calls labels) : ∀ h ∈ calls, h.closes = false := by
  obtain ⟨subs, word, rfl, hsubs, -⟩ := h
  intro h hh
  rcases List.mem_cons.mp hh with rfl | hh
  · rfl
  · have hmem : h.bracket ∈ word.map some := hsubs ▸ List.mem_map_of_mem hh
    obtain ⟨b, -, hb⟩ := List.mem_map.mp hmem
    cases h with
    | subBegin | subCommit | subRollback => rfl
    | begin | preCommit | commit | rollback => cases hb

theorem WellBracketed.closedOnce {calls : List Hook} (h : WellBracketed calls) :
    ClosedOnce calls := by
  obtain ⟨body, ending, rfl, hopen, hending⟩ := h
  have hbody := hopen.not_closes
  have hpre : ∀ h ∈ body ++ [.preCommit], h.closes = false := by
    intro h hh
    rcases List.mem_append.mp hh with hh | hh
    · exact hbody h hh
    · obtain rfl := List.mem_singleton.mp hh
      rfl
  cases hending with
  | committed =>
    refine ⟨body ++ [.preCommit], .commit, by simp, hpre, .inl ⟨rfl, by simp⟩⟩
  | aborted => exact ⟨body, .rollback, rfl, hbody, .inr rfl⟩
  | abortedLate => exact ⟨body ++ [.preCommit], .rollback, by simp, hpre, .inr rfl⟩

/-- A transaction that neither abandons an instance nor compares an empty list of columns
runs to its end, and by then every instance that saw `begin` is closed. -/
theorem begun_closedOnce (hs : Reachable s) {events : List Event}
    (hrun : AllSteps (fun s e => e.Enabled s ∧ ¬ Abandons s e ∧ ¬ ComparesNil s e) s
      (.beginXact :: events)) :
    ∃ s', execAll (.beginXact :: events) s = .ok () s' ∧
      (s'.phase = .idle → ∀ inst, .begin ∈ callsOf inst s'.trace →
        ClosedOnce (callsOf inst s'.trace)) := by
  have hok : ∃ s', execAll (.beginXact :: events) s = .ok () s' := by
    refine execAll_ok (fun s e hs he => ?_) hs.core hrun
    obtain ⟨hnil, -⟩ | ⟨s', hexec, hstep⟩ := exec_cases hs he.1
    · exact absurd hnil he.2.2
    · exact ⟨s', hexec, hs.step hstep⟩
  obtain ⟨s', h⟩ := hok
  obtain ⟨⟨hphase, -⟩, hrest⟩ := hrun
  have hinv : Inv s' := by
    have hbegin := inv_beginXact hs.core (.beginXact hphase)
    exact execAll_preserves (fun _ _ _ hs he hexec => inv_step hs he.1 he.2.1 hexec) hbegin
      (hrest _ rfl) h
  refine ⟨s', h, fun hidle inst hbegin => ?_⟩
  have hj := hinv.joined inst
  simp only [Session.Joined, hidle] at hj
  obtain ⟨-, hnone | hcalls⟩ := hj
  · rw [hnone] at hbegin
    cases hbegin
  · exact hcalls.closedOnce

theorem begun_closedOnce_rollback : ∃ s',
    execAll [.beginXact, .access 7 0, .subStart, .subAbort, .abort] (.start (oneTable [])) =
      .ok () s' ∧
    (s'.phase = .idle → ∀ inst, .begin ∈ callsOf inst s'.trace →
      ClosedOnce (callsOf inst s'.trace)) := by
  refine begun_closedOnce (reachable_start (oneTable [])) ?_
  refine .cons_of_ok ⟨rfl, id, id⟩ rfl <| .cons_of_ok ⟨⟨rfl, rfl⟩, ?_, ?_⟩ rfl <|
    .cons_of_ok ⟨rfl, id, id⟩ rfl <| .cons_of_ok ⟨⟨rfl, Nat.le_refl _⟩, id, id⟩ rfl <|
    .cons_of_ok ⟨.inr ⟨rfl, rfl⟩, id, id⟩ rfl trivial
  · rintro ⟨entry, hentry, -⟩
    cases hentry
  · rintro ⟨entry, hentry, -⟩
    cases hentry

/-- When the options of a table change between two accesses of a transaction, the first
instance saw `begin` and is never closed. -/
theorem rebuilt_instance_abandoned : ∃ s',
    AllSteps Enabled (.start (oneTable []))
      [.beginXact, .access 7 0, .ddl (oneTable [⟨"a", "b"⟩]), .access 7 0, .preCommit, .commit] ∧
    execAll [.beginXact, .access 7 0, .ddl (oneTable [⟨"a", "b"⟩]), .access 7 0, .preCommit,
      .commit] (.start (oneTable [])) = .ok () s' ∧
    s'.phase = .idle ∧ .begin ∈ callsOf 0 s'.trace ∧ ¬ ClosedOnce (callsOf 0 s'.trace) ∧
    callsOf 1 s'.trace = [.begin, .preCommit, .commit] := by
  refine ⟨_, ?_, rfl, rfl, List.mem_singleton_self _, ?_, rfl⟩
  · refine .cons_of_ok rfl rfl <| .cons_of_ok ⟨rfl, rfl⟩ rfl <|
      .cons_of_ok (fun h => by cases h) rfl <| .cons_of_ok ⟨rfl, rfl⟩ rfl <|
      .cons_of_ok ⟨rfl, rfl⟩ rfl <| .cons_of_ok rfl rfl trivial
  · rintro ⟨before, closing, hcalls, -, hclosing⟩
    have hlast : [Hook.begin].getLast? = (before ++ [closing]).getLast? := congrArg _ hcalls
    rw [List.getLast?_concat] at hlast
    obtain rfl : Hook.begin = closing := Option.some.inj hlast
    rcases hclosing with ⟨hcommit, -⟩ | hrollback
    · cases hcommit
    · cases hrollback

end Closing

end Multicorn.Xact
