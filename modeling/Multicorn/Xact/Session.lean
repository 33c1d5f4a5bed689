import Multicorn.Catalog.Options
import Multicorn.General.Bracket

/-! The instance cache of a backend and the callbacks that drive the transaction hooks of
the cached wrappers. -/
namespace Multicorn.Xact
open Multicorn.Catalog

abbrev SubTransactionId := ℕ

/-- A call of a transaction hook. The subtransaction that is at `level` is not an argument
in Python; it is noted here to tell which local subtransaction a call belongs to. -/
inductive Hook
  | begin
  | subBegin (level : ℕ) (subid : SubTransactionId)
  | subCommit (level : ℕ) (subid : SubTransactionId)
  | subRollback (level : ℕ) (subid : SubTransactionId)
  | preCommit
  | commit
  | rollback
  deriving DecidableEq

/-- `entry->value`: NULL, an instance, or memory nobody has written yet. -/
inductive Pointer
  | null
  | obj (inst : ℕ)
  | wild
  deriving DecidableEq

structure CacheEntry where
  value : Pointer
  options : List DefElem
  columns : List Attribute
  xact_depth : ℕ

inductive Phase
  | idle
  | inProgress
  | committing
  deriving DecidableEq

inductive SubOutcome
  | committed
  | aborted
  deriving DecidableEq

/-- `instances` keeps what each instance was constructed with and `released` the instances
whose reference the cache gave up. `stack` has the running subtransactions, innermost first,
down to the top-level one. `faults` tells which of the coming Python calls raise (none, once
it is empty). `trace` and `outcomes` record the current transaction. -/
structure Session where
  catalogs : Catalogs
  entries : List (Oid × CacheEntry)
  instances : List (PyDict × List Attribute)
  released : List ℕ
  phase : Phase
  stack : List SubTransactionId
  nextSubid : SubTransactionId
  faults : List Bool
  trace : List (ℕ × Hook)
  outcomes : List (SubTransactionId × SubOutcome)

/-- Where control leaves a function: a Python error that `errorCheck` turns into an
`ereport`, or a crash of the backend. -/
inductive Failure
  | raised
  | crashed
  deriving DecidableEq

abbrev M := EStateM Failure Session

/-- `GetCurrentTransactionNestLevel`. -/
def Session.nestLevel (s : Session) : ℕ := s.stack.length

/-- The subtransaction at a nest level, from the outermost one at level 1. -/
def Session.subidAt (s : Session) (level : ℕ) : SubTransactionId :=
  s.stack.reverse.getD (level - 1) 0

/-- A call into Python, which may raise. -/
def pyCall : M Unit := fun s =>
  match s.faults with
  | [] => .ok () s
  | true :: faults => .error .raised { s with faults }
  | false :: faults => .ok () { s with faults }

/-- `PyObject_CallMethod` on a cached instance, then `errorCheck`. On NULL it fails with a
`SystemError`. -/
def callHook (value : Pointer) (h : Hook) : M Unit :=
  match value with
  | .obj inst => do
    modify fun s => { s with trace := s.trace ++ [(inst, h)] }
    pyCall
  | .null => throw .raised
  | .wild => throw .crashed

def updateEntry (oid : Oid) (f : CacheEntry → CacheEntry) (entries : List (Oid × CacheEntry)) :
    List (Oid × CacheEntry) :=
  entries.map fun p => if p.1 = oid then (p.1, f p.2) else p

def setEntry (oid : Oid) (f : CacheEntry → CacheEntry) : M Unit :=
  modify fun s => { s with entries := updateEntry oid f s.entries }

/-- `Py_XDECREF` of the reference the cache holds. -/
def releaseValue : Pointer → M Unit
  | .null => pure ()
  | .obj inst => modify fun s => { s with released := s.released ++ [inst] }
  | .wild => throw .crashed

def liveColumns (desc : TupleDesc) : List Attribute := desc.filter fun att => !att.attisdropped

def tableColumns (catalogs : Catalogs) (oid : Oid) : List Attribute :=
  ((catalogs.foreignTable oid).map fun t => liveColumns t.desc).getD []

def compareOptions (options1 options2 : List DefElem) : Bool := options1 == options2

/-- What `compareColumns` looks at in a column. -/
def columnKey (att : Attribute) : String × Oid × ℤ × List DefElem :=
  (att.attname, att.atttypid, att.atttypmod, att.attfdwoptions)

/-- `columns1->length` is read without a test for NIL. -/
def compareColumns (columns1 columns2 : List Attribute) : M Bool :=
  if columns1.isEmpty || columns2.isEmpty then throw .crashed
  else return columns1.map columnKey == columns2.map columnKey

/-- The column definitions are made once: `p_columns` tells whether they are there. -/
def getColumnsFromTable (p_columns : Bool) : M Unit := if p_columns then pure () else pyCall

/-- The initialization part of `getCacheEntry`. -/
def initializeEntry (oid : Oid) (options : List DefElem) (columns : List Attribute)
    (p_columns : Bool) : M Unit := do
  pyCall -- get_class
  setEntry oid fun e => { e with value := .null }
  getColumnsFromTable p_columns
  pyCall -- the constructor
  let s ← get
  set { s with
    instances := s.instances ++ [((optionsListToPyDict options).erase "wrapper", columns)] }
  setEntry oid fun _ => ⟨.obj s.instances.length, options, columns, 0⟩

def withDepth (depth : ℕ) (entry : CacheEntry) : CacheEntry := { entry with xact_depth := depth }

/-- One round of the loop of `begin_remote_xact`. -/
def joinLevel (oid : Oid) (value : Pointer) (level : ℕ) : M Unit := do
  setEntry oid (withDepth level)
  let s ← get
  callHook value (.subBegin level (s.subidAt level))

/-- `begin`, then one `sub_begin` for every level the instance has not joined yet. -/
def beginRemoteXact (oid : Oid) (entry : CacheEntry) : M Unit := do
  let curlevel := (← get).nestLevel
  if entry.xact_depth = 0 then
    callHook entry.value .begin
    setEntry oid (withDepth 1)
  let depth := max entry.xact_depth 1
  (List.range' (depth + 1) (curlevel - depth)).forM (joinLevel oid entry.value)

def lookupEntry (oid : Oid) (entries : List (Oid × CacheEntry)) : Option CacheEntry :=
  (entries.find? fun p => p.1 = oid).map (·.2)

/-- `HASH_ENTER`: a new entry goes to an arbitrary place in the iteration order of the hash
table, and its value is not written yet. -/
def insertEntry (oid : Oid) (slot : ℕ) (entries : List (Oid × CacheEntry)) :
    List (Oid × CacheEntry) :=
  entries.take slot ++ (oid, ⟨.wild, [], [], 0⟩) :: entries.drop slot

/-- The checks of `getCacheEntry` on an entry it found: is it to be initialized again, and are
the column definitions there, which are made before columns are compared? -/
def needInitialization (oid : Oid) (entry : CacheEntry) (options : List DefElem)
    (columns : List Attribute) : M (Bool × Bool) := do
  if entry.value = .null then
    setEntry oid fun e => ⟨e.value, [], [], 0⟩
    return (true, false)
  else if !compareOptions entry.options options then
    releaseValue entry.value
    return (true, false)
  else
    getColumnsFromTable false
    if !(← compareColumns columns entry.columns) then
      releaseValue entry.value
      return (true, true)
    else return (false, true)

/-- The last step of `getCacheEntry`, on the entry as the hash table has it now. -/
def enterXact (oid : Oid) : M Unit := do
  match lookupEntry oid (← get).entries with
  | some entry => beginRemoteXact oid entry
  | none => throw .crashed

def getCacheEntry (oid : Oid) (slot : ℕ) : M Unit := do
  let s ← get
  let some options := getOptions s.catalogs oid | throw .raised
  let columns := tableColumns s.catalogs oid
  let (init, p_columns) ← match lookupEntry oid s.entries with
    | none => do
      set { s with entries := insertEntry oid slot s.entries }
      pure (true, false)
    | some entry => needInitialization oid entry options columns
  if init then initializeEntry oid options columns p_columns
  enterXact oid

inductive SubXactEvent
  | startSub
  | preCommitSub
  | commitSub
  | abortSub
  deriving DecidableEq

inductive XactEvent
  | preCommit
  | commit
  | abort
  | prePrepare
  | prepare
  deriving DecidableEq

/-- `hash_seq_search`: `visit` is applied to every entry in turn and its result stored. -/
def forEntries (visit : Oid → CacheEntry → M CacheEntry) (visited : List (Oid × CacheEntry)) :
    List (Oid × CacheEntry) → M Unit
  | [] => pure ()
  | (oid, entry) :: rest => do
    let entry ← visit oid entry
    modify fun s => { s with entries := visited ++ (oid, entry) :: rest }
    forEntries visit (visited ++ [(oid, entry)]) rest

/-- The hook for the end of a subtransaction. -/
def SubXactEvent.hook (event : SubXactEvent) (level : ℕ) (subid : SubTransactionId) : Hook :=
  if event = .preCommitSub then .subCommit level subid else .subRollback level subid

def subxactVisit (event : SubXactEvent) (curlevel : ℕ) (mySubid : SubTransactionId)
    (entry : CacheEntry) : M CacheEntry :=
  if entry.xact_depth < curlevel then pure entry
  else do
    callHook entry.value (event.hook curlevel mySubid)
    return { entry with xact_depth := entry.xact_depth - 1 }

def multicornSubxactCallback (event : SubXactEvent) (mySubid : SubTransactionId) : M Unit := do
  if event = .commitSub ∨ event = .startSub then return
  let s ← get
  forEntries (fun _ => subxactVisit event s.nestLevel mySubid) [] s.entries

/-- The depth is reset after the hook and before its error is raised. -/
def xactVisit (event : XactEvent) (oid : Oid) (entry : CacheEntry) : M CacheEntry :=
  if entry.xact_depth = 0 then pure entry
  else
    match event with
    | .preCommit => do
      callHook entry.value .preCommit
      return entry
    | .commit => do
      setEntry oid (withDepth 0)
      callHook entry.value .commit
      return withDepth 0 entry
    | .abort => do
      setEntry oid (withDepth 0)
      callHook entry.value .rollback
      return withDepth 0 entry
    | _ => pure entry

def multicornXactCallback (event : XactEvent) : M Unit := do
  let s ← get
  forEntries (xactVisit event) [] s.entries

/-- What happens in a backend: `ddl` is any change of the catalogs or of the current user,
and the end of a subtransaction stands for its callbacks and the return to the level below. -/
inductive Event
  | beginXact
  | access (oid : Oid) (slot : ℕ)
  | ddl (catalogs : Catalogs)
  | subStart
  | subCommit
  | subAbort
  | preCommit
  | commit
  | abort

def popSub (outcome : SubOutcome) : M Unit :=
  modify fun s => { s with
    stack := s.stack.tail, outcomes := s.outcomes ++ [(s.stack.headD 0, outcome)] }

def endXact : M Unit := modify fun s => { s with phase := .idle, stack := [] }

def exec : Event → M Unit
  | .beginXact => modify fun s => { s with
      phase := .inProgress, stack := [s.nextSubid], nextSubid := s.nextSubid + 1, trace := [],
      outcomes := [] }
  | .access oid slot => getCacheEntry oid slot
  | .ddl catalogs => modify fun s => { s with catalogs }
  | .subStart => do
    modify fun s => { s with stack := s.nextSubid :: s.stack, nextSubid := s.nextSubid + 1 }
    multicornSubxactCallback .startSub ((← get).stack.headD 0)
  | .subCommit => do
    multicornSubxactCallback .preCommitSub ((← get).stack.headD 0)
    multicornSubxactCallback .commitSub ((← get).stack.headD 0)
    popSub .committed
  | .subAbort => do
    multicornSubxactCallback .abortSub ((← get).stack.headD 0)
    popSub .aborted
  | .preCommit => do
    multicornXactCallback .preCommit
    modify fun s => { s with phase := .committing }
  | .commit => do
    multicornXactCallback .commit
    endXact
  | .abort => do
    multicornXactCallback .abort
    endXact

/-- When the backend can produce an event. -/
def Event.Enabled (s : Session) : Event → Prop
  | .beginXact => s.phase = .idle
  | .access oid _ => s.phase = .inProgress ∧ (getOptions s.catalogs oid).isSome
  | .ddl _ => s.phase ≠ .committing
  | .subStart => s.phase = .inProgress
  | .subCommit => s.phase = .inProgress ∧ 2 ≤ s.nestLevel
  | .subAbort => s.phase = .inProgress ∧ 2 ≤ s.nestLevel
  | .preCommit => s.phase = .inProgress ∧ s.nestLevel = 1
  | .commit => s.phase = .committing
  | .abort => s.phase = .committing ∨ s.phase = .inProgress ∧ s.nestLevel = 1

def execAll : List Event → M Unit
  | [] => pure ()
  | e :: events => do
    exec e
    execAll events

/-- Every step of a run meets `P` in the state it is taken in. -/
def AllSteps (P : Session → Event → Prop) (s : Session) : List Event → Prop
  | [] => True
  | e :: events => P s e ∧ ∀ s', exec e s = .ok () s' → AllSteps P s' events

end Multicorn.Xact
