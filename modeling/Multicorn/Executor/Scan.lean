import Mathlib.Logic.Function.Basic
import Multicorn.Catalog.Options

/-! The foreign scan node: rows fetched one by one from the iterator of `execute`, which a
rescan drops, and the references that the node holds meanwhile. -/
namespace Multicorn.Executor
open Multicorn.Catalog (PgError)

/-- What an iterator yields, or the error that an exception becomes. -/
inductive PyItem (Row : Type)
  | none
  | row (r : Row)
  | raise (e : PgError)

/-- The result of one call of `execute`: an error, `None`, or what its iterator will yield. -/
abbrev Answer (Row : Type) := Except PgError (Option (List (PyItem Row)))

/-- The pointer `p_iterator`; iterators are numbered by the call that made them. -/
inductive IteratorPtr
  | null
  | pyNone
  | iterator (id : ℕ)
  deriving DecidableEq

/-- `left` is what the iterators have not yielded yet. The other counts are the references
taken less those released since the scan began, except that the one on the instance is the
node's own. -/
structure ScanState (Row : Type) where
  p_iterator : IteratorPtr
  executed : ℕ
  left : ℕ → List (PyItem Row)
  iteratorRefs : ℕ → ℤ
  noneRefs : ℤ
  instanceRefs : ℤ

section Source

variable {Row Slot : Type} (answers : ℕ → Answer Row) (convert : Row → Except PgError Slot)

def multicornBeginForeignScan : ScanState Row := ⟨.null, 0, fun _ => [], fun _ => 0, 0, 1⟩

/-- The reference on `None` goes with `p_iterable`, and the one on the iterable of another
answer is left to its iterator. -/
def execute (s : ScanState Row) : Except PgError (ScanState Row) := do
  match ← answers s.executed with
  | none => return { s with p_iterator := .pyNone, executed := s.executed + 1 }
  | some items =>
    return { s with
      p_iterator := .iterator s.executed
      executed := s.executed + 1
      left := Function.update s.left s.executed items
      iteratorRefs := Function.update s.iteratorRefs s.executed 1 }

/-- `Py_XDECREF` of `p_iterator`. -/
def ScanState.decref (s : ScanState Row) : ScanState Row :=
  match s.p_iterator with
  | .null => s
  | .pyNone => { s with noneRefs := s.noneRefs - 1 }
  | .iterator id =>
    { s with iteratorRefs := Function.update s.iteratorRefs id (s.iteratorRefs id - 1) }

def ScanState.yielded (s : ScanState Row) (id : ℕ) (items : List (PyItem Row)) : ScanState Row :=
  { s with left := Function.update s.left id items }

/-- The second half of `multicornIterateForeignScan`; `none` is the empty slot. -/
def nextSlot (s : ScanState Row) : Except PgError (Option Slot × ScanState Row) :=
  match s.p_iterator with
  | .null => .ok (none, s)
  | .pyNone => .ok (none, s.decref)
  | .iterator id =>
    match s.left id with
    | [] => .ok (none, s)
    | .raise e :: _ => .error e
    | .none :: items => .ok (none, s.yielded id items)
    | .row r :: items => do
      let slot ← convert r
      return (some slot, s.yielded id items)

def multicornIterateForeignScan (s : ScanState Row) :
    Except PgError (Option Slot × ScanState Row) := do
  let s ← if s.p_iterator = .null then execute answers s else pure s
  nextSlot convert s

def multicornReScanForeignScan (s : ScanState Row) : ScanState Row :=
  { s.decref with p_iterator := .null }

def multicornEndForeignScan (end_scan : Except PgError Unit) (s : ScanState Row) :
    Except PgError (ScanState Row) := do
  end_scan
  return { s.decref with p_iterator := .null, instanceRefs := s.instanceRefs - 1 }

/-- What the executor calls between begin and end. -/
inductive ScanCall
  | iterate
  | rescan

/-- The slots of the calls in order; an error ends the scan. -/
def runCalls : List ScanCall → ScanState Row →
    Except PgError (List (Option Slot) × ScanState Row)
  | [], s => .ok ([], s)
  | .iterate :: calls, s => do
    let (slot, s) ← multicornIterateForeignScan answers convert s
    let (slots, s) ← runCalls calls s
    return (slot :: slots, s)
  | .rescan :: calls, s => runCalls calls (multicornReScanForeignScan s)

end Source

/-! A cursor over the answers. -/

/-- The number of the current execution, and how many fetches it has served. -/
structure Cursor where
  execution : ℕ
  fetched : ℕ

/-- Only a rescan after a fetch starts another execution. -/
def Cursor.call (c : Cursor) : ScanCall → Cursor
  | .iterate => { c with fetched := c.fetched + 1 }
  | .rescan => if c.fetched = 0 then c else ⟨c.execution + 1, 0⟩

/-- The calls of `execute` so far. -/
def Cursor.executions (c : Cursor) : ℕ := if c.fetched = 0 then c.execution else c.execution + 1

section Cursor

variable {Row Slot : Type} (answers : ℕ → Answer Row) (convert : Row → Except PgError Slot)

/-- An item as a slot; behind the last one the slot stays empty. -/
def slotOf : Option (PyItem Row) → Except PgError (Option Slot)
  | some (.row r) => (convert r).map some
  | some (.raise e) => .error e
  | _ => .ok none

/-- The next item of the current execution. -/
def Cursor.fetch (c : Cursor) : Except PgError (Option Slot) := do
  match ← answers c.execution with
  | none => return none
  | some items => slotOf convert items[c.fetched]?

def runCursor : List ScanCall → Cursor → Except PgError (List (Option Slot))
  | [], _ => .ok []
  | .iterate :: calls, c => do
    let slot ← c.fetch answers convert
    let slots ← runCursor calls (c.call .iterate)
    return slot :: slots
  | .rescan :: calls, c => runCursor calls (c.call .rescan)

/-- The node is where the cursor is. -/
inductive Tracks (s : ScanState Row) : Cursor → Prop
  | fresh (k : ℕ) (hptr : s.p_iterator = .null) (hexecuted : s.executed = k) : Tracks s ⟨k, 0⟩
  | empty (k i : ℕ) (hptr : s.p_iterator = .pyNone) (hexecuted : s.executed = k + 1)
      (hanswer : answers k = .ok none) : Tracks s ⟨k, i + 1⟩
  | within (k i : ℕ) (items : List (PyItem Row)) (hptr : s.p_iterator = .iterator k)
      (hexecuted : s.executed = k + 1) (hanswer : answers k = .ok (some items))
      (hleft : s.left k = items.drop (i + 1)) : Tracks s ⟨k, i + 1⟩

variable {answers convert}

variable (convert) in
/-- One item is taken from the front of what an iterator has left. -/
theorem nextSlot_within {s : ScanState Row} {k i : ℕ} {items : List (PyItem Row)}
    (hptr : s.p_iterator = .iterator k) (hleft : s.left k = items.drop i) :
    (nextSlot convert s).map Prod.fst = slotOf convert items[i]? ∧
      ∀ slot s', nextSlot convert s = .ok (slot, s') → s'.p_iterator = .iterator k ∧
        s'.executed = s.executed ∧ s'.left k = items.drop (i + 1) := by
  have hhead : items[i]? = (items.drop i).head? := by
    rw [List.head?_drop]
  have htail : items.drop (i + 1) = (items.drop i).tail := by
    rw [List.tail_drop]
  rw [hhead, htail, ← hleft]
  unfold nextSlot
  rw [hptr]
  cases hitems : s.left k with
  | nil =>
    simp only [hitems]
    refine ⟨rfl, fun slot s' h => ?_⟩
    cases h
    exact ⟨hptr, rfl, hitems⟩
  | cons item rest =>
    cases item with
    | none =>
      simp only [hitems]
      refine ⟨rfl, fun slot s' h => ?_⟩
      cases h
      exact ⟨hptr, rfl, Function.update_self ..⟩
    | raise e =>
      simp only [hitems]
      refine ⟨rfl, fun slot s' h => ?_⟩
      cases h
    | row r =>
      cases hconvert : convert r with
      | error e =>
        simp only [hitems, hconvert, List.head?_cons, slotOf]
        refine ⟨rfl, fun slot s' h => ?_⟩
        cases h
      | ok slot =>
        simp only [hitems, hconvert, List.head?_cons, slotOf]
        refine ⟨rfl, fun slot s' h => ?_⟩
        cases h
        exact ⟨hptr, rfl, Function.update_self ..⟩

variable (convert) in
/-- One fetch. -/
theorem iterate_tracks {s : ScanState Row} {c : Cursor} (h : Tracks answers s c) :
    (multicornIterateForeignScan answers convert s).map Prod.fst = c.fetch answers convert ∧
      ∀ slot s', multicornIterateForeignScan answers convert s = .ok (slot, s') →
        Tracks answers s' (c.call .iterate) := by
  unfold multicornIterateForeignScan Cursor.fetch
  cases h with
  | fresh k hptr hexecuted =>
    rw [if_pos hptr]
    unfold execute
    rw [hexecuted]
    cases hanswer : answers k with
    | error e =>
      refine ⟨rfl, fun slot s' h => ?_⟩
      cases h
    | ok answer =>
      cases answer with
      | none =>
        refine ⟨rfl, fun slot s' h => ?_⟩
        cases h
        exact .empty k 0 rfl rfl hanswer
      | some items =>
        let s₁ : ScanState Row := { s with
          p_iterator := .iterator k
          executed := k + 1
          left := Function.update s.left k items
          iteratorRefs := Function.update s.iteratorRefs k 1 }
        have hleft : s₁.left k = items.drop 0 := Function.update_self ..
        obtain ⟨hslot, hnext⟩ := nextSlot_within convert (s := s₁) rfl hleft
        refine ⟨hslot, fun slot s' h => ?_⟩
        obtain ⟨hptr', hexecuted', hleft'⟩ := hnext slot s' h
        exact .within k 0 items hptr' hexecuted' hanswer hleft'
  | empty k i hptr hexecuted hanswer =>
    rw [if_neg (by rw [hptr]; exact nofun), hanswer]
    have hnext : nextSlot convert s = .ok (none, s.decref) := by
      unfold nextSlot
      rw [hptr]
    have hdecref : s.decref.p_iterator = .pyNone ∧ s.decref.executed = s.executed := by
      unfold ScanState.decref
      rw [hptr]
      exact ⟨rfl, rfl⟩
    change (nextSlot convert s).map Prod.fst = _ ∧ ∀ slot s', nextSlot convert s = _ → _
    rw [hnext]
    refine ⟨rfl, fun slot s' h => ?_⟩
    cases h
    exact .empty k (i + 1) hdecref.1 (hdecref.2.trans hexecuted) hanswer
  | within k i items hptr hexecuted hanswer hleft =>
    rw [if_neg (by rw [hptr]; exact nofun), hanswer]
    obtain ⟨hslot, hnext⟩ := nextSlot_within convert hptr hleft
    refine ⟨hslot, fun slot s' h => ?_⟩
    obtain ⟨hptr', hexecuted', hleft'⟩ := hnext slot s' h
    exact .within k (i + 1) items hptr' (hexecuted'.trans hexecuted) hanswer hleft'

theorem rescan_tracks {s : ScanState Row} {c : Cursor} (h : Tracks answers s c) :
    Tracks answers (multicornReScanForeignScan s) (c.call .rescan) := by
  have hexecuted : (multicornReScanForeignScan s).executed = s.executed := by
    unfold multicornReScanForeignScan ScanState.decref
    split <;> rfl
  cases h with
  | fresh k _ h => exact .fresh k rfl (hexecuted.trans h)
  | empty k i _ h => exact .fresh (k + 1) rfl (hexecuted.trans h)
  | within k i items _ h => exact .fresh (k + 1) rfl (hexecuted.trans h)

theorem runCalls_refines (calls : List ScanCall) {s : ScanState Row} {c : Cursor}
    (h : Tracks answers s c) :
    (runCalls answers convert calls s).map Prod.fst = runCursor answers convert calls c := by
  induction calls generalizing s c with
  | nil => rfl
  | cons call calls ih =>
    cases call with
    | rescan => exact ih (rescan_tracks h)
    | iterate =>
      obtain ⟨hslot, htracks⟩ := iterate_tracks convert h
      unfold runCalls runCursor
      rw [← hslot]
      cases hiterate : multicornIterateForeignScan answers convert s with
      | error e => rfl
      | ok result =>
        have hrest := ih (htracks result.1 result.2 hiterate)
        change (runCalls answers convert calls result.2 >>= _).map Prod.fst =
          runCursor answers convert calls (c.call .iterate) >>= _
        rw [← hrest]
        cases runCalls answers convert calls result.2 <;> rfl

variable (answers convert) in
/-- Whatever the executor calls in which order, the slots it gets are those of a cursor that
reads one execution of the wrapper item by item, and another one after each rescan. -/
theorem scan_refines_cursor (calls : List ScanCall) :
    (runCalls answers convert calls multicornBeginForeignScan).map Prod.fst =
      runCursor answers convert calls ⟨0, 0⟩ :=
  runCalls_refines calls (.fresh 0 rfl rfl)

end Cursor

/-! References. -/

section References

variable {Row Slot : Type} {answers : ℕ → Answer Row} {convert : Row → Except PgError Slot}

@[simp] theorem decref_executed (s : ScanState Row) : s.decref.executed = s.executed := by
  unfold ScanState.decref
  split <;> rfl

@[simp] theorem decref_instanceRefs (s : ScanState Row) :
    s.decref.instanceRefs = s.instanceRefs := by
  unfold ScanState.decref
  split <;> rfl

theorem decref_noneRefs (s : ScanState Row) :
    s.decref.noneRefs = s.noneRefs - if s.p_iterator = .pyNone then 1 else 0 := by
  unfold ScanState.decref
  split
  · next h => simp [h]
  · next h => simp [h]
  · next id h => simp [h]

/-- The current iterator has one reference and the older ones none, and the count of `None`
has dropped if an execution returned it. -/
structure Counted (answers : ℕ → Answer Row) (s : ScanState Row) : Prop where
  older : ∀ id, s.p_iterator = .iterator id → id < s.executed
  iterators : ∀ id, s.iteratorRefs id = if s.p_iterator = .iterator id then 1 else 0
  none_le : s.noneRefs ≤ 0
  none_eq : s.noneRefs = 0 ↔ ∀ k < s.executed, answers k ≠ .ok none
  current : s.p_iterator = .pyNone → s.noneRefs < 0
  instance_eq : s.instanceRefs = 1

theorem counted_begin : Counted answers multicornBeginForeignScan where
  older := nofun
  iterators _ := rfl
  none_le := Int.le_refl 0
  none_eq := by simp [multicornBeginForeignScan]
  current := nofun
  instance_eq := rfl

namespace Counted

variable {s : ScanState Row}

theorem decref_iterators (h : Counted answers s) (id : ℕ) : s.decref.iteratorRefs id = 0 := by
  have hrefs := h.iterators
  unfold ScanState.decref
  cases hptr : s.p_iterator with
  | null => simp [hrefs, hptr]
  | pyNone => simp [hrefs, hptr]
  | iterator k =>
    by_cases hid : id = k
    · subst hid
      simp [hrefs, hptr]
    · simp [hrefs, hptr, hid, Ne.symm hid]

/-- Releasing `None` once more changes nothing about whether its count has dropped. -/
theorem decref_none (h : Counted answers s) : s.decref.noneRefs ≤ 0 ∧
    (s.decref.noneRefs = 0 ↔ ∀ k < s.executed, answers k ≠ .ok none) := by
  have hle := h.none_le
  have hcurrent := h.current
  rw [decref_noneRefs, ← h.none_eq]
  split_ifs with hptr
  · have := hcurrent hptr
    omega
  · omega

theorem rescan (h : Counted answers s) : Counted answers (multicornReScanForeignScan s) where
  older := nofun
  iterators id := h.decref_iterators id
  none_le := h.decref_none.1
  none_eq := by
    rw [show (multicornReScanForeignScan s).executed = s.executed from decref_executed s]
    exact h.decref_none.2
  current := nofun
  instance_eq := (decref_instanceRefs s).trans h.instance_eq

/-- The items that an iterator has left are not counted. -/
theorem yielded (h : Counted answers s) (id : ℕ) (items : List (PyItem Row)) :
    Counted answers (s.yielded id items) :=
  ⟨h.older, h.iterators, h.none_le, h.none_eq, h.current, h.instance_eq⟩

theorem nextSlot (h : Counted answers s) (hptr : s.p_iterator ≠ .pyNone) {slot : Option Slot}
    {s' : ScanState Row} (hnext : nextSlot convert s = .ok (slot, s')) : Counted answers s' := by
  unfold Executor.nextSlot at hnext
  cases hp : s.p_iterator with
  | null =>
    rw [hp] at hnext
    cases hnext
    exact h
  | pyNone => exact absurd hp hptr
  | iterator id =>
    rw [hp] at hnext
    cases hleft : s.left id with
    | nil =>
      simp only [hleft] at hnext
      cases hnext
      exact h
    | cons item items =>
      cases item with
      | none =>
        simp only [hleft] at hnext
        cases hnext
        exact h.yielded id items
      | raise e =>
        simp only [hleft] at hnext
        cases hnext
      | row r =>
        simp only [hleft] at hnext
        cases hconvert : convert r with
        | error e =>
          rw [hconvert] at hnext
          cases hnext
        | ok d =>
          rw [hconvert] at hnext
          cases hnext
          exact h.yielded id items

/-- The first fetch of an execution that returned an iterable. -/
theorem execute_some (h : Counted answers s) (hptr : s.p_iterator = .null)
    {items : List (PyItem Row)} (hanswer : answers s.executed = .ok (some items)) :
    Counted answers { s with
      p_iterator := .iterator s.executed
      executed := s.executed + 1
      left := Function.update s.left s.executed items
      iteratorRefs := Function.update s.iteratorRefs s.executed 1 } where
  older id hid := by
    cases hid
    exact Nat.lt_succ_self _
  iterators id := by
    have hrefs := h.iterators id
    rw [hptr, if_neg nofun] at hrefs
    by_cases hid : id = s.executed
    · simp [hid]
    · simp [hid, hrefs, Ne.symm hid]
  none_le := h.none_le
  none_eq := by
    show s.noneRefs = 0 ↔ _
    rw [h.none_eq, Nat.forall_lt_succ_right]
    exact ⟨fun hall => ⟨hall, by simp [hanswer]⟩, And.left⟩
  current := nofun
  instance_eq := h.instance_eq

/-- The first fetch of an execution that returned `None`. -/
theorem execute_none (h : Counted answers s) (hptr : s.p_iterator = .null)
    (hanswer : answers s.executed = .ok none) :
    Counted answers
      { s with p_iterator := .pyNone, executed := s.executed + 1, noneRefs := s.noneRefs - 1 } where
  older := nofun
  iterators id := by
    have hrefs := h.iterators id
    rwa [hptr] at hrefs
  none_le := by
    have := h.none_le
    show s.noneRefs - 1 ≤ 0
    omega
  none_eq := by
    have := h.none_le
    refine iff_of_false (by show ¬ s.noneRefs - 1 = 0; omega) fun hall => ?_
    exact hall s.executed (Nat.lt_succ_self _) hanswer
  current _ := by
    have := h.none_le
    show s.noneRefs - 1 < 0
    omega
  instance_eq := h.instance_eq

/-- A further fetch behind `None`. -/
theorem decref_pyNone (h : Counted answers s) (hptr : s.p_iterator = .pyNone) :
    Counted answers s.decref := by
  have hnone := h.decref_none
  have hneg := h.current hptr
  have hdecref : s.decref = { s with noneRefs := s.noneRefs - 1 } := by
    unfold ScanState.decref
    rw [hptr]
  rw [hdecref] at hnone ⊢
  refine ⟨h.older, h.iterators, hnone.1, hnone.2, fun _ => ?_, h.instance_eq⟩
  show s.noneRefs - 1 < 0
  omega

theorem iterate (h : Counted answers s) {slot : Option Slot} {s' : ScanState Row}
    (hiterate : multicornIterateForeignScan answers convert s = .ok (slot, s')) :
    Counted answers s' := by
  unfold multicornIterateForeignScan at hiterate
  cases hptr : s.p_iterator with
  | null =>
    rw [if_pos hptr] at hiterate
    unfold execute at hiterate
    cases hanswer : answers s.executed with
    | error e =>
      rw [hanswer] at hiterate
      cases hiterate
    | ok answer =>
      rw [hanswer] at hiterate
      cases answer with
      | none =>
        cases hiterate
        exact h.execute_none hptr hanswer
      | some items => exact (h.execute_some hptr hanswer).nextSlot nofun hiterate
  | pyNone =>
    rw [if_neg (by rw [hptr]; exact nofun)] at hiterate
    change Executor.nextSlot convert s = _ at hiterate
    unfold Executor.nextSlot at hiterate
    rw [hptr] at hiterate
    cases hiterate
    exact h.decref_pyNone hptr
  | iterator id =>
    rw [if_neg (by rw [hptr]; exact nofun)] at hiterate
    exact h.nextSlot (by rw [hptr]; exact nofun) hiterate

end Counted

/-- A run keeps the node where the cursor is, and its references counted. -/
theorem runCalls_keeps {calls : List ScanCall} {s s' : ScanState Row} {c : Cursor}
    {slots : List (Option Slot)} (htracks : Tracks answers s c) (hcounted : Counted answers s)
    (hrun : runCalls answers convert calls s = .ok (slots, s')) :
    Tracks answers s' (calls.foldl Cursor.call c) ∧ Counted answers s' := by
  induction calls generalizing s c slots with
  | nil =>
    cases hrun
    exact ⟨htracks, hcounted⟩
  | cons call calls ih =>
    cases call with
    | rescan => exact ih (rescan_tracks htracks) hcounted.rescan hrun
    | iterate =>
      unfold runCalls at hrun
      cases hiterate : multicornIterateForeignScan answers convert s with
      | error e =>
        rw [hiterate] at hrun
        cases hrun
      | ok result =>
        rw [hiterate] at hrun
        change (runCalls answers convert calls result.2 >>= _) = _ at hrun
        cases hrest : runCalls answers convert calls result.2 with
        | error e =>
          rw [hrest] at hrun
          cases hrun
        | ok rest =>
          rw [hrest] at hrun
          cases hrun
          exact ih ((iterate_tracks convert htracks).2 _ _ hiterate) (hcounted.iterate hiterate) hrest

theorem Tracks.executed_eq {s : ScanState Row} {c : Cursor} (h : Tracks answers s c) :
    s.executed = c.executions := by
  cases h with
  | fresh k _ h => exact h
  | empty k i _ h => exact h
  | within k i items _ h => exact h

/-- A scan from begin to end gives back every reference exactly when no execution in it
returned `None`: each fetch, rescan or end over `None` releases a reference that the node does
not own. -/
theorem references_balanced_iff {calls : List ScanCall} {slots : List (Option Slot)}
    {s s' : ScanState Row}
    (hrun : runCalls answers convert calls multicornBeginForeignScan = .ok (slots, s))
    (hend : multicornEndForeignScan (.ok ()) s = .ok s') :
    ((∀ id, s'.iteratorRefs id = 0) ∧ s'.instanceRefs = 0 ∧ s'.noneRefs = 0) ↔
      ∀ k < (calls.foldl Cursor.call ⟨0, 0⟩).executions, answers k ≠ .ok none := by
  obtain ⟨htracks, hcounted⟩ := runCalls_keeps (.fresh 0 rfl rfl) counted_begin hrun
  rw [← htracks.executed_eq]
  cases hend
  have hinstance : s.instanceRefs - 1 = 0 := by
    rw [hcounted.instance_eq]
    rfl
  exact ⟨fun ⟨_, _, hnone⟩ => hcounted.decref_none.2.mp hnone,
    fun hall => ⟨hcounted.decref_iterators, hinstance, hcounted.decref_none.2.mpr hall⟩⟩

/-- One row at first, and `None` from the second execution on. -/
def rowThenNone : ℕ → Answer ℕ
  | 0 => .ok (some [.row 7])
  | _ => .ok none

def fetchTwice : List ScanCall := [.iterate, .rescan, .iterate]

theorem rowThenNone_unbalanced : ∃ s s' : ScanState ℕ,
    runCalls rowThenNone Except.ok fetchTwice multicornBeginForeignScan =
        .ok ([some 7, none], s) ∧
      multicornEndForeignScan (.ok ()) s = .ok s' ∧
      ¬ ((∀ id, s'.iteratorRefs id = 0) ∧ s'.instanceRefs = 0 ∧ s'.noneRefs = 0) :=
  ⟨_, _, rfl, rfl, (references_balanced_iff
    (show runCalls rowThenNone Except.ok fetchTwice multicornBeginForeignScan =
      .ok ([some 7, none], _) from rfl) rfl).not.mpr fun h => h 1 (by decide) rfl⟩

end References

end Multicorn.Executor
