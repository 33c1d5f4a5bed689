import Multicorn.Fs.Effects
import Multicorn.Fs.Root

/-! What the calls that open, close and remove files keep, every call of the wrapper keeps. -/
namespace Multicorn.Fs
open Multicorn.StateMonad

variable {s s' : State} {t : FilesystemFdw} {d : Directory} {item : Item} {I : State → Prop}

/-- The nodes and the descriptors are the same. -/
structure Os.Rewrites (os os' : Os) : Prop where
  nodes : os'.nodes = os.nodes
  process : os'.process = os.process
  nextInode : os'.nextInode = os.nextInode
  fds : os'.fds = os.fds
  faults : os.faults = [] → os'.faults = []

theorem Os.Rewrites.trans (a b c : Os) (h : a.Rewrites b) (h' : b.Rewrites c) : a.Rewrites c :=
  ⟨h'.nodes.trans h.nodes, h'.process.trans h.process, h'.nextInode.trans h.nextInode,
    h'.fds.trans h.fds, fun hf => h'.faults (h.faults hf)⟩

/-- The contents of the files are the same as well. -/
structure Os.Steady (os os' : Os) : Prop extends Os.Rewrites os os' where
  content : os'.content = os.content

theorem Os.Steady.refl (os : Os) : os.Steady os := ⟨⟨rfl, rfl, rfl, rfl, id⟩, rfl⟩

theorem Os.Steady.trans (a b c : Os) (h : a.Steady b) (h' : b.Steady c) : a.Steady c :=
  ⟨h.toRewrites.trans _ _ _ h'.toRewrites, h'.content.trans h.content⟩

/-! Calls that neither make nor remove a node and neither open nor close a descriptor. -/

theorem steady_enter : Moves Os.Steady enter := by
  intro os
  unfold enter
  cases hf : os.faults with
  | nil => exact .refl os
  | cons fault faults =>
    have hne : os.faults ≠ [] := by simp [hf]
    cases fault with
    | none => exact ⟨⟨rfl, rfl, rfl, rfl, fun h => absurd h hne⟩, rfl⟩
    | some e => exact ⟨⟨rfl, rfl, rfl, rfl, fun h => absurd h hne⟩, rfl⟩

theorem steady_resolveCall (path : Str) : Moves Os.Steady (resolveCall path) := by
  refine Moves.bind Os.Steady.trans (Moves.modify fun os => ⟨⟨rfl, rfl, rfl, rfl, id⟩, rfl⟩) fun _ => ?_
  refine Moves.bind Os.Steady.trans (Moves.get Os.Steady.refl) fun os => ?_
  cases os.resolve path with
  | ok p => exact Moves.pure Os.Steady.refl p
  | error e => exact Moves.throw Os.Steady.refl e

theorem steady_pathExists (path : Str) : Moves Os.Steady (pathExists path) :=
  fun _ => ⟨⟨rfl, rfl, rfl, rfl, id⟩, rfl⟩

theorem steady_pathIsfile (path : Str) : Moves Os.Steady (pathIsfile path) :=
  fun _ => ⟨⟨rfl, rfl, rfl, rfl, id⟩, rfl⟩

theorem steady_listdir (path : Str) : Moves Os.Steady (listdir path) := by
  refine Moves.bind Os.Steady.trans steady_enter fun _ => ?_
  refine Moves.bind Os.Steady.trans (steady_resolveCall path) fun p => ?_
  refine Moves.bind Os.Steady.trans (Moves.get Os.Steady.refl) fun os => ?_
  cases os.node p with
  | none => exact Moves.throw Os.Steady.refl _
  | some node =>
    cases node with
    | file i => exact Moves.throw Os.Steady.refl _
    | dir => exact Moves.bind Os.Steady.trans (Moves.get Os.Steady.refl) fun _ =>
        Moves.pure Os.Steady.refl _

theorem steady_getFd (fd : ℕ) : Moves Os.Steady (getFd fd) := by
  refine Moves.bind Os.Steady.trans (Moves.get Os.Steady.refl) fun os => ?_
  cases os.fd fd with
  | some file => exact Moves.pure Os.Steady.refl file
  | none => exact Moves.throw Os.Steady.refl _

theorem steady_getInode (fd : ℕ) : Moves Os.Steady (getInode fd) := by
  refine Moves.bind Os.Steady.trans (steady_getFd fd) fun file => ?_
  cases file.node with
  | file i => exact Moves.pure Os.Steady.refl i
  | dir => exact Moves.throw Os.Steady.refl _

theorem steady_readStart (fd : ℕ) : Moves Os.Steady (readStart fd) :=
  Moves.bind Os.Steady.trans steady_enter fun _ =>
    Moves.bind Os.Steady.trans (steady_getInode fd) fun _ =>
      Moves.bind Os.Steady.trans (Moves.get Os.Steady.refl) fun _ => Moves.pure Os.Steady.refl _

theorem rewrites_of_steady {α : Type} {x : Call α} (h : Moves Os.Steady x) : Moves Os.Rewrites x :=
  fun os => (h os).toRewrites

theorem rewrites_ftruncate (fd : ℕ) : Moves Os.Rewrites (ftruncate fd) := by
  refine Moves.bind Os.Rewrites.trans (rewrites_of_steady steady_enter) fun _ => ?_
  refine Moves.bind Os.Rewrites.trans (rewrites_of_steady (steady_getInode fd)) fun i => ?_
  refine Moves.bind Os.Rewrites.trans (rewrites_of_steady (steady_getFd fd)) fun file => ?_
  split_ifs
  · exact Moves.modify fun os => ⟨rfl, rfl, rfl, rfl, id⟩
  · exact Moves.throw (fun os => (Os.Steady.refl os).toRewrites) _

theorem rewrites_writeStart (fd : ℕ) (data : Bytes) : Moves Os.Rewrites (writeStart fd data) := by
  refine Moves.bind Os.Rewrites.trans (rewrites_of_steady steady_enter) fun _ => ?_
  refine Moves.bind Os.Rewrites.trans (rewrites_of_steady (steady_getInode fd)) fun i => ?_
  refine Moves.bind Os.Rewrites.trans (rewrites_of_steady (steady_getFd fd)) fun file => ?_
  split_ifs
  · exact Moves.modify fun os => ⟨rfl, rfl, rfl, rfl, id⟩
  · exact Moves.throw (fun os => (Os.Steady.refl os).toRewrites) _

/-- The invariant looks at the tree, the descriptors and the cache, and opening and closing files
keeps it. -/
structure KeptInside (I : State → Prop) : Prop where
  steady : ∀ s s', s.os.Steady s'.os → s'.cache = s.cache → I s → I s'
  openShared : ∀ k, Keeps I (openShared k) fun _ => True
  openExclusive : ∀ k fail_if, Keeps I (openExclusive k fail_if) fun _ => True
  clearCacheEntry : ∀ k, Keeps I (clearCacheEntry k) fun _ => True

/-- Writing and removing files keep the invariant as well. -/
structure Preserved (I : State → Prop) : Prop extends KeptInside I where
  rewrites : ∀ s s', s.os.Rewrites s'.os → s'.cache = s.cache → I s → I s'
  unlink : ∀ k, Keeps I (call (unlink k)) fun _ => True

section Calls

variable (hI : KeptInside I)

include hI

theorem keeps_steady {α : Type} {x : Call α} (h : Moves Os.Steady x) :
    Keeps I (call x) fun _ => True := by
  intro s hs
  have hos := h s.os
  unfold call
  cases hrun : x s.os with
  | ok a os =>
    rw [hrun] at hos
    exact ends_ok (hI.steady s _ hos rfl hs) trivial
  | error e os =>
    rw [hrun] at hos
    exact ends_error (hI.steady s _ hos rfl hs)

/-- The log and what a scan shows do not matter. -/
theorem keeps_bookkeeping {f : State → State} (hos : ∀ s, (f s).os = s.os)
    (hcache : ∀ s, (f s).cache = s.cache) : Keeps I (modify f : M PUnit) fun _ => True := by
  refine Keeps.modify fun s hs => hI.steady s _ ?_ (hcache s) hs
  rw [hos]
  exact .refl _

theorem keeps_openFd (shared_lock : Bool) (fail_if : Option FailIf) :
    Keeps I (item.openFd d shared_lock fail_if) fun _ => True := by
  refine Keeps.bind (liftExcept_keeps _) fun full _ => ?_
  cases shared_lock with
  | true => exact hI.openShared full
  | false => exact hI.openExclusive full fail_if

theorem keeps_read : Keeps I (item.read d) fun _ => True :=
  Keeps.bind (keeps_openFd hI true _) fun fd _ => keeps_steady hI (steady_readStart fd)

theorem keeps_clearCache (only_shared : Bool) : Keeps I (clearCache only_shared) fun _ => True := by
  refine Keeps.bind (Keeps.get) fun s _ => Keeps.forM fun entry _ => ?_
  split_ifs
  · exact hI.clearCacheEntry _
  · exact Keeps.pure trivial

/-! The walk. -/

theorem keeps_findMatchingNames (previous : List Str) (part : Part) (fixed : Fixed) :
    Keeps I (findMatchingNames d previous part fixed) fun _ => True := by
  unfold findMatchingNames
  cases fixed.1 with
  | some name => exact Keeps.pure trivial
  | none =>
    refine Keeps.bind (Keeps.tryCatch (keeps_steady hI (steady_listdir _)) fun e => ?_) fun _ _ =>
      Keeps.pure trivial
    split_ifs
    · exact Keeps.pure trivial
    · exact Keeps.throw e

theorem keeps_walk (previous : List Str) (values : List (Str × Str)) (parts : List (Part × Fixed)) :
    Keeps I (walk d previous values parts) fun _ => True := by
  induction parts generalizing previous values with
  | nil => exact Keeps.pure trivial
  | cons e rest ih =>
    obtain ⟨part, fixed⟩ := e
    unfold walk
    refine Keeps.bind (keeps_findMatchingNames hI previous part fixed) fun names _ => ?_
    refine Keeps.bind (Keeps.mapM (Q := fun _ _ => True) fun p _ => ?_) fun _ _ => Keeps.pure trivial
    by_cases hrest : rest = []
    · simp only [hrest, if_true]
      refine Keeps.bind (keeps_steady hI (steady_pathIsfile _)) fun there _ => ?_
      cases there with
      | false => exact Keeps.pure trivial
      | true => exact Keeps.bind (liftExcept_keeps _) fun _ _ => Keeps.pure trivial
    · simp only [if_neg hrest]
      exact ih _ _

theorem keeps_getItems (values : List (Str × Str)) : Keeps I (getItems d values) fun _ => True := by
  unfold getItems
  split_ifs
  · exact Keeps.throw _
  · exact Keeps.bind (liftExcept_keeps _) fun fixed _ => keeps_walk hI [] [] _
  · exact Keeps.throw _

end Calls

namespace FilesystemFdw

section Calls

variable (hI : KeptInside I)

include hI

theorem preserves_logOperation (op : Operation) : Keeps I (logOperation op) fun _ => True :=
  keeps_bookkeeping hI (fun _ => rfl) fun _ => rfl

omit hI in
theorem preserves_returnValue : Keeps I (t.returnValue item) fun _ => True :=
  Keeps.bind (liftExcept_keeps _) fun _ _ => Keeps.pure trivial

theorem preserves_openNew : Keeps I (t.openNew item) fun _ => True := by
  refine Keeps.tryCatch (keeps_openFd hI false _).discard fun e => ?_
  split_ifs
  · exact Keeps.throw _
  · exact Keeps.throw _

theorem preserves_insert (values : Row) : Keeps I (t.insert values) fun _ => True := by
  refine Keeps.bind (liftExcept_keeps _) fun item _ => ?_
  refine Keeps.bind (preserves_openNew hI) fun _ _ => ?_
  refine Keeps.bind (liftExcept_keeps _) fun full _ => ?_
  refine Keeps.bind (keeps_bookkeeping hI (fun _ => rfl) fun _ => rfl) fun _ _ => ?_
  exact Keeps.bind (preserves_logOperation hI _) fun _ _ => preserves_returnValue

theorem preserves_oldItem (oldfilename : Str) : Keeps I (t.oldItem oldfilename) fun _ => True := by
  refine Keeps.bind (liftExcept_keeps _) fun olditem _ => ?_
  refine Keeps.bind (liftExcept_keeps _) fun full _ => ?_
  refine Keeps.bind Keeps.get fun s _ => ?_
  simp only
  split_ifs
  · exact Keeps.pure trivial
  · exact Keeps.bind (keeps_read hI) fun data _ => Keeps.pure trivial

theorem preserves_update (oldfilename : Str) (newvalues : Row) :
    Keeps I (t.update oldfilename newvalues) fun _ => True := by
  refine Keeps.bind (preserves_oldItem hI oldfilename) fun olditem _ => ?_
  refine Keeps.bind (liftExcept_keeps _) fun values _ => ?_
  refine Keeps.bind (liftExcept_keeps _) fun newitem _ => ?_
  refine Keeps.bind (liftExcept_keeps _) fun new_full _ => ?_
  refine Keeps.bind (keeps_bookkeeping hI (fun _ => rfl) fun _ => rfl) fun _ _ => ?_
  refine Keeps.bind (keeps_openFd hI false _).discard fun _ _ => ?_
  refine Keeps.bind (liftExcept_keeps _) fun old_full _ => ?_
  split_ifs
  · refine Keeps.bind (preserves_openNew hI) fun _ _ => ?_
    refine Keeps.bind (keeps_bookkeeping hI (fun _ => rfl) fun _ => rfl) fun _ _ => ?_
    exact Keeps.bind (preserves_logOperation hI _) fun _ _ => preserves_returnValue
  · exact Keeps.bind (preserves_logOperation hI _) fun _ _ => preserves_returnValue

theorem preserves_delete (rowid : Str) : Keeps I (t.delete rowid) fun _ => True := by
  refine Keeps.bind (liftExcept_keeps _) fun item _ => ?_
  refine Keeps.bind (keeps_openFd hI false _).discard fun _ _ => ?_
  refine Keeps.bind (liftExcept_keeps _) fun full _ => ?_
  refine Keeps.bind (keeps_bookkeeping hI (fun _ => rfl) fun _ => rfl) fun _ _ => ?_
  exact preserves_logOperation hI _

theorem preserves_itemToDict (columns : List Str) :
    Keeps I (t.itemToDict columns item) fun _ => True := by
  have hnamed : ∀ row, Keeps I (t.named columns item row) fun _ => True := by
    intro row
    unfold named
    split_ifs
    · exact Keeps.bind (liftExcept_keeps _) fun _ _ => Keeps.pure trivial
    · exact Keeps.pure trivial
  rw [itemToDict_eq]
  refine Keeps.bind (liftExcept_keeps _) fun full _ => ?_
  refine Keeps.bind Keeps.get fun s _ => ?_
  split_ifs
  · exact Keeps.pure trivial
  · refine Keeps.bind Keeps.get fun s' _ => ?_
    cases (s'.updated_content.lookup full).getD .none with
    | none => exact Keeps.bind (keeps_read hI) fun data _ => hnamed _
    | str v => exact hnamed _
    | bytes v => exact hnamed _
    | other text truth => exact hnamed _
  · exact hnamed _

theorem preserves_getItems (quals : List Qual) : Keeps I (t.getItems quals) fun _ => True := by
  unfold getItems
  simp only
  cases quals.find? fun q => t.filename_column = some q.field_name ∧ q.operator = ['='] with
  | none => exact keeps_getItems hI _
  | some q =>
    refine Keeps.bind (liftExcept_keeps _) fun found _ => ?_
    cases found with
    | none => exact Keeps.pure trivial
    | some item =>
      refine Keeps.bind (liftExcept_keeps _) fun full _ => ?_
      refine Keeps.bind (keeps_steady hI (steady_pathExists full)) fun there _ => ?_
      cases there with
      | true => exact Keeps.pure trivial
      | false => exact Keeps.pure trivial

theorem preserves_execute (quals : List Qual) (columns : List Str) :
    Keeps I (t.execute quals columns) fun _ => True := by
  refine Keeps.bind (preserves_getItems hI quals) fun items _ => ?_
  refine Keeps.bind (Keeps.mapM (Q := fun _ _ => True) fun item _ => ?_) fun _ _ =>
    Keeps.pure trivial
  exact preserves_itemToDict hI columns

/-- Every call in the course of a transaction keeps the invariant, whether it succeeds or not. -/
theorem preserves_inside {a : Action} (ha : a.Inside) : Keeps I (t.perform a) fun _ => True := by
  cases a with
  | insert values => exact (preserves_insert hI values).discard
  | update oldfilename newvalues => exact (preserves_update hI oldfilename newvalues).discard
  | delete rowid => exact preserves_delete hI rowid
  | scan quals columns => exact (preserves_execute hI quals columns).discard
  | endScan => exact keeps_clearCache hI true
  | preCommit => exact absurd ha id
  | rollback => exact absurd ha id

theorem keptInside_after (hs : I s) {a : Action} (ha : a.Inside) : I (t.after s a) :=
  (preserves_inside hI ha s hs).1

theorem keptInside_run (hs : I s) {actions : List Action} (h : ∀ a ∈ actions, a.Inside) :
    I (t.run s actions) := by
  induction actions generalizing s with
  | nil => exact hs
  | cons a actions ih =>
    rw [List.forall_mem_cons] at h
    exact ih (keptInside_after hI hs h.1) h.2

end Calls

end FilesystemFdw

/-! The two ends of a transaction. -/

section Calls

variable (hI : Preserved I)

include hI

theorem keeps_rewrites {α : Type} {x : Call α} (h : Moves Os.Rewrites x) :
    Keeps I (call x) fun _ => True := by
  intro s hs
  have hos := h s.os
  unfold call
  cases hrun : x s.os with
  | ok a os =>
    rw [hrun] at hos
    exact ends_ok (hI.rewrites s _ hos rfl hs) trivial
  | error e os =>
    rw [hrun] at hos
    exact ends_error (hI.rewrites s _ hos rfl hs)

theorem keeps_write (fd : Option ℕ) : Keeps I (item.write d fd) fun _ => True := by
  unfold Item.write
  cases fd
  case' some fd => refine Keeps.bind (Keeps.pure (Q := fun _ => True) trivial) fun fd _ => ?_
  case' none => refine Keeps.bind (keeps_openFd hI.toKeptInside false none) fun fd _ => ?_
  all_goals
    refine Keeps.bind (keeps_rewrites hI (rewrites_ftruncate fd)) fun _ _ => ?_
    refine Keeps.bind Keeps.get fun s _ => ?_
    refine Keeps.bind (liftExcept_keeps _) fun data _ => ?_
    cases data with
    | none => exact Keeps.pure trivial
    | some data => exact keeps_rewrites hI (rewrites_writeStart fd data)

theorem keeps_remove : Keeps I (item.remove d) fun _ => True :=
  Keeps.bind (liftExcept_keeps _) fun full _ => hI.unlink full

end Calls

namespace FilesystemFdw

section Calls

variable (hI : Preserved I)

include hI

theorem preserves_postXactCleanup : Keeps I postXactCleanup fun _ => True := by
  refine Keeps.bind (keeps_bookkeeping hI.toKeptInside (fun _ => rfl) fun _ => rfl) fun _ _ => ?_
  refine Keeps.bind (keeps_clearCache hI.toKeptInside false) fun _ _ => ?_
  exact keeps_bookkeeping hI.toKeptInside (fun _ => rfl) fun _ => rfl

theorem preserves_commitOperation (op : Operation) :
    Keeps I (t.commitOperation op) fun _ => True := by
  cases op with
  | insert item => exact keeps_write hI none
  | update olditem newitem =>
    refine Keeps.bind (liftExcept_keeps _) fun old_full _ => ?_
    refine Keeps.bind (liftExcept_keeps _) fun new_full _ => ?_
    split_ifs
    · exact Keeps.bind (keeps_openFd hI.toKeptInside false none) fun fd _ => keeps_write hI (some fd)
    · refine Keeps.bind (keeps_openFd hI.toKeptInside false none) fun fd _ => ?_
      refine Keeps.bind (hI.unlink old_full) fun _ _ => ?_
      exact Keeps.bind (hI.clearCacheEntry old_full) fun _ _ => keeps_write hI (some fd)
  | delete item =>
    refine Keeps.bind (keeps_remove hI) fun _ _ => ?_
    exact Keeps.bind (liftExcept_keeps _) fun full _ => hI.clearCacheEntry full

theorem preserves_preCommit : Keeps I t.preCommit fun _ => True := by
  refine Keeps.bind Keeps.get fun s _ => ?_
  refine Keeps.bind (Keeps.forM fun op _ => ?_) fun _ _ => preserves_postXactCleanup hI
  exact preserves_commitOperation hI op

theorem preserves_undoOperation (op : Operation) : Keeps I (t.undoOperation op) fun _ => True := by
  cases op with
  | insert item => exact keeps_remove hI
  | update olditem newitem =>
    refine Keeps.bind (liftExcept_keeps _) fun old_full _ => ?_
    refine Keeps.bind (liftExcept_keeps _) fun new_full _ => ?_
    split_ifs
    · exact Keeps.bind (hI.unlink new_full) fun _ _ => keeps_write hI none
    · exact keeps_write hI none
  | delete item => exact Keeps.pure trivial

theorem preserves_rollback : Keeps I t.rollback fun _ => True := by
  refine Keeps.bind Keeps.get fun s _ => ?_
  refine Keeps.bind (Keeps.forM fun op _ => ?_) fun _ _ => preserves_postXactCleanup hI
  exact preserves_undoOperation hI op

/-- Every call of the wrapper keeps the invariant, whether it succeeds or not. -/
theorem preserves_perform (a : Action) : Keeps I (t.perform a) fun _ => True := by
  cases a with
  | preCommit => exact preserves_preCommit hI
  | rollback => exact preserves_rollback hI
  | _ => exact preserves_inside hI.toKeptInside trivial

theorem preserved_after (hs : I s) (a : Action) : I (t.after s a) :=
  (preserves_perform hI a s hs).1

theorem preserved_run (hs : I s) (actions : List Action) : I (t.run s actions) := by
  induction actions generalizing s with
  | nil => exact hs
  | cons a actions ih => exact ih (preserved_after hI hs a)

end Calls

end FilesystemFdw

end Multicorn.Fs
