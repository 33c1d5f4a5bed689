import Multicorn.Xact.Joined

/-! What each event does to a session in which no Python call raises. -/
namespace Multicorn.Xact
open Multicorn.StateMonad (run_get run_modifyGet)
open Multicorn.Catalog

def Session.LevelsFit (s : Session) : Prop :=
  match s.phase with
  | .idle => s.nestLevel = 0
  | .inProgress => 1 ≤ s.nestLevel
  | .committing => s.nestLevel = 1

/-- What holds of the cache in every state of such a session. -/
structure Core (s : Session) : Prop where
  faults : s.faults = []
  keyed : Keyed s.entries
  built : ∀ p ∈ s.entries, ∃ inst < s.instances.length, p.2.value = .obj inst
  bounded : ∀ p ∈ s.entries, p.2.xact_depth ≤ s.nestLevel
  levels : s.LevelsFit

theorem Core.initialized {s : Session} (hs : Core s) : Initialized s.entries := by
  intro p hp
  obtain ⟨inst, -, hv⟩ := hs.built p hp
  exact ⟨inst, hv⟩

/-- Every entry can be called, whatever its depth. -/
theorem Core.ready {s : Session} (hs : Core s) (C : Oid × CacheEntry → Prop) :
    ∀ p ∈ s.entries, (∃ inst, p.2.value = .obj inst) ∨ C p :=
  fun p hp => Or.inl (hs.initialized p hp)

/-- The end of the innermost subtransaction. -/
def Session.subEnd (s : Session) (event : SubXactEvent) (outcome : SubOutcome) : Session :=
  { s with
    entries := s.entries.map fun p => (p.1, subEnded s.nestLevel p.2)
    trace := s.trace ++ s.entries.flatMap fun p =>
      callsTo p.2.value (subEndHooks s.nestLevel (event.hook s.nestLevel (s.stack.headD 0)) p.2)
    stack := s.stack.tail
    outcomes := s.outcomes ++ [(s.stack.headD 0, outcome)] }

/-- A top-level callback, and where it leaves the transaction. -/
def Session.xactEvent (s : Session) (event : XactEvent) (phase : Phase)
    (stack : List SubTransactionId) : Session :=
  { s with
    entries := s.entries.map fun p => (p.1, xactEnded event p.2)
    trace := s.trace ++ s.entries.flatMap fun p => callsTo p.2.value (xactHooks event p.2)
    phase
    stack }

inductive Step (s : Session) : Event → Session → Prop
  | beginXact (hphase : s.phase = .idle) :
      Step s .beginXact { s with
        phase := .inProgress, stack := [s.nextSubid], nextSubid := s.nextSubid + 1, trace := [],
        outcomes := [] }
  | access {oid slot s'} (hphase : s.phase = .inProgress) (haccess : Access oid slot s s') :
      Step s (.access oid slot) s'
  | ddl {catalogs} : Step s (.ddl catalogs) { s with catalogs }
  | subStart (hphase : s.phase = .inProgress) :
      Step s .subStart { s with stack := s.nextSubid :: s.stack, nextSubid := s.nextSubid + 1 }
  | subCommit (hphase : s.phase = .inProgress) (hlevel : 2 ≤ s.nestLevel) :
      Step s .subCommit (s.subEnd .preCommitSub .committed)
  | subAbort (hphase : s.phase = .inProgress) (hlevel : 2 ≤ s.nestLevel) :
      Step s .subAbort (s.subEnd .abortSub .aborted)
  | preCommit (hphase : s.phase = .inProgress) (hlevel : s.nestLevel = 1) :
      Step s .preCommit (s.xactEvent .preCommit .committing s.stack)
  | commit (hphase : s.phase = .committing) : Step s .commit (s.xactEvent .commit .idle [])
  | abort (hphase : s.phase = .committing ∨ s.phase = .inProgress ∧ s.nestLevel = 1) :
      Step s .abort (s.xactEvent .abort .idle [])

/-- `compareColumns` is about to read the length of NIL. -/
def ComparesNil (s : Session) : Event → Prop
  | .access oid _ => ∃ entry, lookupEntry oid s.entries = some entry ∧
      getOptions s.catalogs oid = some entry.options ∧
      (tableColumns s.catalogs oid = [] ∨ entry.columns = [])
  | _ => False

variable {s s' : Session}

private theorem subEnd_ok (hs : Core s) {event : SubXactEvent} {outcome : SubOutcome}
    (hevent : event = .preCommitSub ∨ event = .abortSub) :
    (do multicornSubxactCallback event (s.stack.headD 0); popSub outcome : M Unit) s =
      .ok () (s.subEnd event outcome) := by
  simp [bind, EStateM.bind, multicornSubxactCallback_ok hs.faults (hs.ready _) hevent, popSub,
    modify, modifyGet, MonadStateOf.modifyGet, run_modifyGet, Session.subEnd]

/-- An event crashes on an empty list of columns or makes its step. -/
theorem exec_cases (hs : Core s) {e : Event} (he : e.Enabled s) :
    ComparesNil s e ∧ exec e s = .error .crashed s ∨ ∃ s', exec e s = .ok () s' ∧ Step s e s' := by
  cases e with
  | beginXact => exact .inr ⟨_, rfl, .beginXact he⟩
  | access oid slot =>
    obtain ⟨hphase, hsome⟩ := he
    obtain ⟨options, hoptions⟩ := Option.isSome_iff_exists.mp hsome
    have hlevel : 1 ≤ s.nestLevel := by
      have hlevels := hs.levels
      simpa [Session.LevelsFit, hphase] using hlevels
    obtain ⟨entry, hentry, ho, hnil, hcrash⟩ | ⟨s', hok, haccess, -⟩ :=
      getCacheEntry_cases hs.faults hs.initialized hs.keyed.keys hlevel hs.bounded slot hoptions
    · left
      exact ⟨⟨entry, hentry, by rw [ho, hoptions], hnil⟩, hcrash⟩
    · right
      exact ⟨s', hok, .access hphase haccess⟩
  | ddl catalogs => exact .inr ⟨_, rfl, .ddl⟩
  | subStart =>
    right
    refine ⟨_, ?_, .subStart he⟩
    simp [exec, bind, EStateM.bind, modify, modifyGet, MonadStateOf.modifyGet, run_modifyGet,
      get, getThe, MonadStateOf.get, run_get, multicornSubxactCallback_skip]
  | subCommit =>
    right
    refine ⟨_, ?_, .subCommit he.1 he.2⟩
    rw [← subEnd_ok hs (.inl rfl)]
    simp [exec, bind, EStateM.bind, get, getThe, MonadStateOf.get, run_get,
      multicornSubxactCallback_ok hs.faults (hs.ready _), multicornSubxactCallback_skip]
  | subAbort =>
    right
    refine ⟨_, ?_, .subAbort he.1 he.2⟩
    rw [← subEnd_ok hs (.inr rfl)]
    rfl
  | preCommit =>
    right
    refine ⟨_, ?_, .preCommit he.1 he.2⟩
    simp [exec, bind, EStateM.bind, multicornXactCallback_ok hs.faults (hs.ready _), modify,
      modifyGet, MonadStateOf.modifyGet, run_modifyGet, Session.xactEvent]
  | commit =>
    right
    refine ⟨_, ?_, .commit he⟩
    simp [exec, bind, EStateM.bind, multicornXactCallback_ok hs.faults (hs.ready _), endXact,
      modify, modifyGet, MonadStateOf.modifyGet, run_modifyGet, Session.xactEvent]
  | abort =>
    right
    refine ⟨_, ?_, .abort he⟩
    simp [exec, bind, EStateM.bind, multicornXactCallback_ok hs.faults (hs.ready _), endXact,
      modify, modifyGet, MonadStateOf.modifyGet, run_modifyGet, Session.xactEvent]

theorem step_of_exec (hs : Core s) {e : Event} (he : e.Enabled s) (h : exec e s = .ok () s') :
    Step s e s' := by
  obtain ⟨-, hcrash⟩ | ⟨s'', hok, hstep⟩ := exec_cases hs he
  · rw [hcrash] at h
    cases h
  · rw [hok] at h
    cases h
    exact hstep

end Multicorn.Xact
