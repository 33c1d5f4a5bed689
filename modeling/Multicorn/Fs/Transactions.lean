import Multicorn.Fs.Published

/-! Transactions one after the other: those that commit change the table, those that are rolled
back leave it as it was. -/
namespace Multicorn.Fs
open Multicorn.StateMonad Multicorn.ChangeLog Multicorn.UndoLog

variable {s s' : State} {t : FilesystemFdw} {d : Directory} {r : Path} {f : Str}
  {name content : Str}

/-- The calls of a transaction, and whether it commits. -/
structure Transaction where
  actions : List Action
  commits : Bool

namespace FilesystemFdw

/-- The state after a transaction, unless its end raises. -/
def transact (t : FilesystemFdw) (s : State) (x : Transaction) : Option State :=
  let last := if x.commits then Action.preCommit else .rollback
  if t.Succeeds (t.run s x.actions) last then some (t.after (t.run s x.actions) last) else none

/-- What a transaction does to the table: the contents that it commits are bytes from then on. -/
def applied (t : FilesystemFdw) (process : Process) (T : Table Str PyVal) (x : Transaction) :
    Table Str PyVal :=
  if x.commits then
    fun f => (applyAll T (t.changes x.actions) f).map fun v => .bytes (v.toBytes process)
  else T

/-- A transaction that commits makes orderly calls, and one that is rolled back careful ones. -/
def Proper (t : FilesystemFdw) (s : State) (x : Transaction) : Prop :=
  if x.commits then t.Along t.Orderly s x.actions else t.Along t.Careful s x.actions

def AllProper (t : FilesystemFdw) : State → List Transaction → Prop
  | _, [] => True
  | s, x :: xs => t.Proper s x ∧ ∀ s', t.transact s x = some s' → AllProper t s' xs

theorem transact_eq_some {x : Transaction} {last : Action}
    (hlast : (if x.commits then Action.preCommit else .rollback) = last)
    (hrun : t.perform last (t.run s x.actions) = .ok () s') : t.transact s x = some s' := by
  unfold transact
  simp only [hlast]
  have hok : t.Succeeds (t.run s x.actions) last := by
    unfold Succeeds
    rw [hrun]
    rfl
  rw [if_pos hok]
  exact congrArg (fun r => some (finalState r)) hrun

theorem after_of_commit {actions : List Action} (h : t.transact s ⟨actions, true⟩ = some s') :
    s' = t.after (t.run s actions) .preCommit := by
  unfold transact at h
  simp only [if_true] at h
  by_cases hok : t.Succeeds (t.run s actions) .preCommit
  · rw [if_pos hok] at h
    exact (Option.some.inj h).symm
  · rw [if_neg hok] at h
    cases h

/-- A rollback leaves the disk as it was at the start of the transaction. -/
theorem rollback_idle (hs : Idle t.structured_directory r s) {actions : List Action}
    (h : t.Along t.Careful s actions) : ∃ s', t.rollback (t.run s actions) = .ok () s' ∧
      Idle t.structured_directory r s' ∧ s'.os.process = s.os.process ∧
      t.onDisk s' = t.onDisk s := by
  obtain ⟨plans, hbacked⟩ := backed_run hs.fresh h
  have husable : Usable (t.run s actions) :=
    ⟨hbacked.sound.coherent.toOpened, hbacked.sound.faults⟩
  obtain ⟨s₁, hundo, husable₁, hundone⟩ := undoLog_ok husable hbacked.log hbacked.undoes
  obtain ⟨s', hclean, hdata, hfile, hcache, hstate, hinvisible, hupdated⟩ :=
    postXactCleanup_idle husable₁.opened husable₁.faults
  have hrun : t.rollback (t.run s actions) = .ok () s' := by
    unfold rollback
    rw [get_bind, bind_eq_ok]
    exact ⟨_, s₁, hundo, hclean⟩
  have hafter : t.after (t.run s actions) .rollback = s' := congrArg finalState hrun
  have hsettled : s.os.Settled (fun _ => True) s'.os := hafter ▸ preserved_after
    (sustained_settled _ s.os).preserved (hs.settled_run t actions) .rollback
  have htree : s'.os.Tree := hafter ▸ preserved_after sustained_tree.preserved
    (preserved_run sustained_tree.preserved hs.scannable.tree actions) .rollback
  have hsame : ∀ p, s'.os.data p = s.os.data p := fun p =>
    (hdata p).trans (data_of_undoes hundone p)
  have hfresh : Fresh s' :=
    ⟨hstate, hinvisible, hupdated, hcache, hsettled.faults, hsettled.numbered.bound⟩
  have hscan : Scannable t.structured_directory r s' := by
    refine ⟨⟨hfresh.sound, hsettled.dirs.resolve hs.scannable.root,
      hsettled.dirs.dirs r hs.scannable.isDir, hfresh.inodes, fun names i hi => ?_⟩, htree, by
      rw [hsettled.dirs.process]
      exact hs.scannable.literals⟩
    have hthere : (s.os.data (r ++ names)).isSome = true := by
      rw [← hsame]
      unfold Os.data
      rw [hi]
      rfl
    obtain ⟨j, hj, -⟩ := Option.map_eq_some_iff.mp (Option.some_get hthere).symm
    exact hs.scannable.newline names j hj
  refine ⟨s', hrun, ⟨hfresh, hscan, fun p q i => hsettled.numbered.alone p q i trivial⟩,
    hsettled.dirs.process, ?_⟩
  rw [hscan.onDisk_eq, hs.scannable.onDisk_eq]
  funext f
  exact congrArg (Option.map _) (disk_congr fun _ => hsame _)

variable (hplain : t.Plain name content)

include hplain

/-- One transaction succeeds and does what is said of it. -/
theorem transact_applied (hs : Idle t.structured_directory r s) {x : Transaction}
    (h : t.Proper s x) : ∃ s', t.transact s x = some s' ∧ Idle t.structured_directory r s' ∧
      s'.os.process = s.os.process ∧ t.onDisk s' = t.applied s.os.process (t.onDisk s) x := by
  unfold Proper at h
  unfold applied
  cases hx : x.commits with
  | true =>
    simp only [hx, if_true] at h ⊢
    have htracked := tracked_run hplain (hs.fresh.tracked hs.scannable) h
    obtain ⟨s', hrun, hidle, hprocess, hstored⟩ := hs.commit htracked
    exact ⟨s', transact_eq_some (if_pos hx) hrun, hidle, hprocess, hstored⟩
  | false =>
    simp only [hx] at h ⊢
    obtain ⟨s', hrun, hidle, hprocess, hstored⟩ := rollback_idle hs h
    exact ⟨s', transact_eq_some (if_neg (by simp [hx])) hrun, hidle, hprocess, hstored⟩

theorem transact_run (hs : Idle t.structured_directory r s) {xs : List Transaction}
    (h : t.AllProper s xs) : ∃ s', xs.foldlM t.transact s = some s' ∧
      Idle t.structured_directory r s' ∧
      t.onDisk s' = xs.foldl (t.applied s.os.process) (t.onDisk s) := by
  induction xs generalizing s with
  | nil => exact ⟨s, rfl, hs, rfl⟩
  | cons x xs ih =>
    obtain ⟨s₁, hx, hidle, hprocess, hstored⟩ := transact_applied hplain hs h.1
    obtain ⟨s', hrest, hidle', hstored'⟩ := ih hidle (h.2 s₁ hx)
    rw [hprocess] at hstored'
    refine ⟨s', ?_, hidle', ?_⟩
    · rw [List.foldlM_cons, hx]
      exact hrest
    · rw [hstored', hstored]
      rfl

/-- Every end of a series of transactions succeeds, and a full scan then shows the table of the
start with the changes of those that have committed, one transaction after the other. -/
theorem transactions_serial (hs : Idle t.structured_directory r s) {xs : List Transaction}
    (h : t.AllProper s xs) : ∃ s', xs.foldlM t.transact s = some s' ∧
      Idle t.structured_directory r s' ∧ ∀ f shown, t.Shows s' f shown ↔
        ∃ v, xs.foldl (t.applied s.os.process) (t.onDisk s) f = some v ∧ shown = some v := by
  obtain ⟨s', hrun, hidle, hstored⟩ := transact_run hplain hs h
  refine ⟨s', hrun, hidle, fun f shown => ?_⟩
  rw [(hidle.fresh.tracked hidle.scannable).shows_iff hplain, hstored]
  rfl

end FilesystemFdw

section Sample

/-- A transaction that commits, and one whose new file is rolled back. -/
def twoTransactions : List Transaction :=
  [⟨swapped, true⟩, ⟨[.insert (flatRow ['z'] (.str ['3']))], false⟩]

/-- Nothing is at the path of the new file, whatever the state is. -/
theorem fresh_careful (hfree : s.os.exists? "/r/z".toList = false)
    (hok : flatTable.Succeeds s (.insert (flatRow ['z'] (.str ['3'])))) :
    flatTable.Along flatTable.Careful s [.insert (flatRow ['z'] (.str ['3']))] := by
  have htarget : flatTable.target (.insert (flatRow ['z'] (.str ['3']))) =
      .ok (some "/r/z".toList) := by decide +kernel
  refine ⟨⟨trivial, .inr hok, ⟨fun k hk => ?_, fun k text hk => ?_⟩⟩, trivial⟩
  · rw [htarget] at hk
    cases hk
    exact hfree
  · cases hk

theorem twoTransactions_proper : flatTable.AllProper oneFile twoTransactions := by
  refine ⟨swapped_orderly, fun s' hs' => ⟨?_, fun _ _ => trivial⟩⟩
  have hafter : s' = flatTable.after (flatTable.run oneFile swapped) .preCommit :=
    FilesystemFdw.after_of_commit hs'
  have hcareful : flatTable.Along flatTable.Careful s' [.insert (flatRow ['z'] (.str ['3']))] := by
    rw [hafter]
    exact fresh_careful (by decide +kernel) (by decide +kernel)
  exact hcareful

theorem twoTransactions_serial : ∃ s', twoTransactions.foldlM flatTable.transact oneFile = some s' ∧
    Idle flat [['r']] s' ∧ ∀ f shown, flatTable.Shows s' f shown ↔
      ∃ v, twoTransactions.foldl (flatTable.applied oneFile.os.process)
        (flatTable.onDisk oneFile) f = some v ∧ shown = some v :=
  FilesystemFdw.transactions_serial flat_plain oneFile_idle twoTransactions_proper

end Sample

end Multicorn.Fs
