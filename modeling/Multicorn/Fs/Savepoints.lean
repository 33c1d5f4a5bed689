import Multicorn.Fs.Effects
import Multicorn.Modify.TransactionAware

/-! Savepoints: the hooks for subtransactions reach the wrapper and change nothing, so what a
rolled back block has done stays. -/
namespace Multicorn.Fs
open Multicorn.StateMonad Multicorn.Savepoint

variable {s s' : State} {t : FilesystemFdw}

/-- Dropping descriptors that cannot write. -/
theorem Drops.sameView {keys : List Str} (h : Drops s s' keys) (hs : Sound s)
    (hkeys : ∀ k ∈ keys, ∀ i, ¬ Held s k i) : SameView s s' := by
  refine ⟨hs, ⟨h.coherent hs.coherent, h.grows.faults.trans hs.faults⟩, h.nodes, h.grows.process,
    h.content, h.nextInode, h.log, h.invisible, h.updated, fun k i => ?_⟩
  constructor
  · rintro ⟨fd, hentry, hfd⟩
    obtain ⟨-, hold, hsame⟩ := h.entry hentry
    exact ⟨fd, hold, hsame.symm.trans hfd⟩
  · intro hheld
    have hk : k ∉ keys := fun hk => hkeys k hk i hheld
    obtain ⟨fd, hentry, hfd⟩ := hheld
    refine ⟨fd, ?_, (h.fds k _ hk hentry).trans hfd⟩
    rw [h.lookup, if_neg hk, hentry]

/-- A call that only reads. -/
def Action.Reads : Action → Prop
  | .scan _ _ | .endScan => True
  | _ => False

namespace FilesystemFdw

/-! The hooks are those of `ForeignDataWrapper`. -/

def subBegin (_level : ℕ) : M Unit := pure ()

def subRollback (_level : ℕ) : M Unit := pure ()

def subCommit (_level : ℕ) : M Unit := pure ()

def performEvent (t : FilesystemFdw) : Event Action → M Unit
  | .op a => t.perform a
  | .enter level => subBegin level
  | .leave level true => subCommit level
  | .leave level false => subRollback level

/-- The state after some calls and hooks. -/
def runEvents (t : FilesystemFdw) (s : State) (events : List (Event Action)) : State :=
  events.foldl (fun s e => finalState (t.performEvent e s)) s

/-- A run with hooks is the run of its calls. -/
theorem runEvents_eq (s : State) (events : List (Event Action)) :
    t.runEvents s events = t.run s (opsOf events) := by
  apply foldl_events
  · intro s a
    rfl
  · intro s level
    rfl
  · intro s level kept
    cases kept <;> rfl

/-- Reading, also when it fails, leaves everything as it was but for the descriptor cache. -/
theorem sameView_reads {a : Action} (ha : a.Reads) (hs : Sound s) : SameView s (t.after s a) := by
  cases a with
  | scan quals columns =>
    have hview := (observes_execute viewing_sameView quals columns (t := t) s s (.refl hs)).2
    have hfinal : t.after s (.scan quals columns) = finalState (t.execute quals columns s) := by
      unfold after perform
      simp only [discard, Functor.discard, Functor.mapConst, EStateM.map, Function.comp_apply,
        Function.const]
      cases t.execute quals columns s <;> rfl
    rw [hfinal]
    exact hview
  | endScan =>
    obtain ⟨s', hclear, hdrops⟩ := clearCache_drops hs.coherent.toOpened hs.faults true
    have hfinal : t.after s .endScan = s' := by
      change finalState (clearCache true s) = s'
      rw [hclear]
      rfl
    rw [hfinal]
    apply hdrops.sameView hs
    rintro k hk i ⟨fd, hentry, -⟩
    obtain ⟨e, he, rfl⟩ := List.mem_map.mp hk
    obtain ⟨he, hshared⟩ := List.mem_filter.mp he
    rw [AList.mem_lookup_iff.mpr he] at hentry
    have hflag : e.2.2 = false := congrArg Prod.snd (Option.some.inj hentry)
    simp [hflag] at hshared
  | insert values => exact absurd ha id
  | update oldfilename newvalues => exact absurd ha id
  | delete rowid => exact absurd ha id
  | preCommit => exact absurd ha id
  | rollback => exact absurd ha id

theorem sameView_run {actions : List Action} (h : ∀ a ∈ actions, a.Reads) (hs : Sound s) :
    SameView s (t.run s actions) := by
  induction actions generalizing s with
  | nil => exact .refl hs
  | cons a actions ih =>
    rw [List.forall_mem_cons] at h
    have hstep : SameView s (t.after s a) := sameView_reads h.1 hs
    exact hstep.trans _ _ _ (ih h.2 hstep.right)

/-- A transaction in which every call so far has succeeded, and that is still going on. -/
def Succeeding (t : FilesystemFdw) : State → List Action → Prop :=
  t.Along fun s a => a.Inside ∧ t.Succeeds s a

theorem sound_run {actions : List Action} (hs : Sound s) (h : t.Succeeding s actions) :
    Sound (t.run s actions) :=
  run_invariant (I := Sound) (fun _ _ hs h => sound_after hs h.1 h.2) hs h

theorem run_append (s : State) (first second : List Action) :
    t.run s (first ++ second) = t.run (t.run s first) second := List.foldl_append

/-- After the rollback of a block, a scan shows what it showed just before, and if nothing but
reads came between, what it showed at the beginning of the block. -/
theorem scan_after_rollback (s : State) (before : List (Event Action)) (body : Script Action)
    (level : ℕ) (quals : List Qual) (columns : List Str) :
    t.runEvents s (before ++ .enter level :: (body.events ++ [.leave level false])) =
        t.runEvents s (before ++ .enter level :: body.events) ∧
      (Sound s → t.Succeeding s (opsOf before) → (∀ a ∈ body.ops, a.Reads) →
        outcome (t.execute quals columns
            (t.runEvents s (before ++ .enter level :: (body.events ++ [.leave level false])))) =
          outcome (t.execute quals columns (t.runEvents s (before ++ [.enter level])))) := by
  have hentered : t.runEvents s (before ++ [.enter level]) = t.run s (opsOf before) := by
    rw [runEvents_eq, opsOf_append]
    change t.run s (opsOf before ++ []) = _
    rw [List.append_nil]
  have hinner : t.runEvents s (before ++ .enter level :: body.events) =
      t.run (t.run s (opsOf before)) body.ops := by
    rw [runEvents_eq, opsOf_append, opsOf, opsOf_events, run_append]
  have hleft : t.runEvents s (before ++ .enter level :: (body.events ++ [.leave level false])) =
      t.run (t.run s (opsOf before)) body.ops := by
    rw [runEvents_eq, opsOf_append, opsOf, opsOf_append, opsOf_events, run_append]
    change t.run _ (body.ops ++ []) = _
    rw [List.append_nil]
  constructor
  · rw [hleft, hinner]
  · intro hs hsucceeding hreads
    have hview := sameView_run hreads (sound_run hs hsucceeding) (t := t)
    rw [hleft, hentered]
    exact (observes_execute viewing_sameView quals columns _ _ hview).1.symm

end FilesystemFdw

open Multicorn.Modify

/-- The log holds every operation of the transaction, in order, whatever has become of the
blocks around it; so it holds just the surviving ones if and only if only empty blocks are
rolled back. For the file wrapper, a full scan after the rollback of a block shows what one
just before it shows. -/
theorem subtransactions_ignored (V : Type) (script : Script (LogEntry V)) (t : FilesystemFdw)
    (s : State) (before : List (Event Action)) (body : Script Action) (level : ℕ)
    (columns : List Str) :
    let log := (TransactionAwareForeignDataWrapper.initTransactionState.run
      script.events).current_transaction_state
    let entered := t.runEvents s (before ++ [.enter level])
    let inside := t.runEvents s (before ++ .enter level :: body.events)
    let left := t.runEvents s (before ++ .enter level :: (body.events ++ [.leave level false]))
    log = script.ops ∧ (log = script.survivors ↔ script.NothingLost) ∧ left = inside ∧
      (s.cache = ∅ → s.os.faults = [] → t.Succeeding s (opsOf before) →
        (∀ a ∈ body.ops, a.Reads) →
        outcome (t.execute [] columns left) = outcome (t.execute [] columns entered)) := by
  intro log entered inside left
  have hlog : log = script.ops := TransactionAwareForeignDataWrapper.run_events script
  obtain ⟨hleft, hscan⟩ := t.scan_after_rollback s before body level [] columns
  refine ⟨hlog, ?_, hleft, fun hcache hfaults => ?_⟩
  · rw [hlog, eq_comm]
    exact script.survivors_eq_ops_iff
  · exact hscan ⟨coherent_of_empty hcache, hfaults⟩

/-- A file in the root directory, and a transaction that rolls one block back. -/
theorem subtransactions_ignored_insert :
    let s := sampleState [] fun _ => []
    let before := [Event.op (.insert (flatRow ['x'] (.str ['1'])))]
    let body := Script.op (.scan [] [['c']]) .done
    outcome (flatTable.execute [] [['c']]
        (flatTable.runEvents s (before ++ .enter 2 :: (body.events ++ [.leave 2 false])))) =
      outcome (flatTable.execute [] [['c']] (flatTable.runEvents s (before ++ [.enter 2]))) := by
  intro s before body
  apply (subtransactions_ignored ℕ .done flatTable s before body 2 [['c']]).2.2.2 rfl rfl
  · exact ⟨⟨trivial, by decide⟩, trivial⟩
  · intro a ha
    obtain rfl := List.mem_singleton.mp ha
    trivial

/-- An insert in a block that is rolled back stays in the log, and its row in the scan. -/
theorem rolledBack_insert_kept :
    let script : Script (LogEntry ℕ) := .block 2 false (.op (.insert 0) .done) .done
    let s := sampleState [] fun _ => []
    let body : Script Action := .op (.insert (flatRow ['x'] (.str ['1']))) .done
    (TransactionAwareForeignDataWrapper.initTransactionState.run
        script.events).current_transaction_state ≠ script.survivors ∧
      outcome (flatTable.execute [] [['c']]
          (flatTable.runEvents s (.enter 2 :: (body.events ++ [.leave 2 false])))) ≠
        outcome (flatTable.execute [] [['c']] (flatTable.runEvents s [.enter 2])) := by
  intro script s body
  constructor
  · decide
  · intro h
    have hlength := congrArg (fun rows => rows.toOption.map List.length) h
    revert hlength
    decide

end Multicorn.Fs
