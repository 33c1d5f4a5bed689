import Multicorn.Fs.Accounted

/-! A commit that fails half way, and the rollback that follows. -/
namespace Multicorn.Fs
open Multicorn.StateMonad Multicorn.HandleLog

variable {s s' s₀ : State} {t : FilesystemFdw} {d : Directory} {start : FileVolume}
  {undos : List HandleUndo} {k : Str} {p : Path}

/-! Undoing the log. -/

section Undoing

variable {W : Str → Prop}

theorem Midway.removed (h : Midway s₀ W start (.remove p :: undos) s) (k : Str) :
    s.os.file p ≠ none ∧ Midway s₀ W start undos (s.unlinked k p) := by
  obtain ⟨hfile, hready⟩ := h.ready.removed
  have hp := Os.ne_nil_of_file hfile
  have hfiles : (s.unlinked k p).os.file = Function.update s.os.file p none :=
    @Os.file_erase (s.os.touch k) _ hp
  have hnode : ∀ q, (s.unlinked k p).os.node q = if q = p then none else s.os.node q :=
    @Os.node_erase (s.os.touch k) _ hp
  refine ⟨hfile, ⟨h.opened.fds, h.opened.distinct⟩, h.process, fun q => ?_, h.log, fun q i hq => ?_,
    h.handles, h.usable, ?_⟩
  · rw [hnode]
    by_cases hq : q = p
    · subst hq
      obtain ⟨i, hi⟩ := Option.ne_none_iff_exists'.mp hfile
      have hi' : s.os.file q = some i := hi
      rw [if_pos rfl, ← h.dirs, Os.file_eq_some.mp hi']
      simp
    · rw [if_neg hq]
      exact h.dirs q
  · rw [hfiles] at hq
    by_cases hqp : q = p
    · subst hqp
      rw [Function.update_self] at hq
      cases hq
    · rw [Function.update_of_ne hqp] at hq
      exact h.inodes q i hq
  · have hvolume : (s.unlinked k p).volume = { s.volume with
        file := Function.update s.volume.file p none } := by
      apply Volume.ext_iff_held
      · intro q
        exact congrFun hfiles q
      · intro i
        rfl
      · intro k' i
        rfl
    rw [hvolume]
    exact hready

theorem Midway.restored {data : Bytes} (h : Midway s₀ W start (.restore k p data :: undos) s)
    {i : ℕ} (hi : Held s k i) (hdata : s.os.content i = data) : Midway s₀ W start undos s :=
  ⟨h.opened, h.process, h.dirs, h.log, h.inodes, h.handles, h.usable, h.ready.restored hi hdata⟩

/-- Undoing a new file. -/
theorem unlink_midway (h : Midway s₀ W start (.remove p :: undos) s) (hf : s.os.faults = [])
    (hk : Locked s₀ k p) : ∃ s', call (unlink k) s = .ok () s' ∧ s'.os.faults = [] ∧
      Midway s₀ W start undos s' := by
  obtain ⟨hfile, hremoved⟩ := h.removed k
  obtain ⟨i, hi⟩ := Option.ne_none_iff_exists'.mp hfile
  refine ⟨s.unlinked k p, ?_, hf, hremoved⟩
  apply call_eq_ok.mpr
  exact ⟨_, (unlink_eq_ok hf).mpr ⟨p, i, h.resolve hk.path, hi, rfl⟩, rfl⟩

/-- Writing the old content back, into the file that is there or a new one. -/
theorem write_midway {item : Item}
    (h : Midway s₀ (fun _ => True) start (.restore k p (item.content.toBytes s₀.os.process) :: undos) s)
    (hf : s.os.faults = []) (hk : d.fullFilename item = .ok k) (hp : Locked s₀ k p)
    (hw : item.content.Writable s₀.os.process) :
    ∃ s', item.write d none s = .ok () s' ∧ s'.os.faults = [] ∧
      Midway s₀ (fun _ => True) start undos s' := by
  have hnofault : ∀ {s₁ : State}, s₁.os.faults = [] → ∀ e, some e ∈ s₁.os.faults → False := by
    intro s₁ hf₁ e he
    rw [hf₁] at he
    cases he
  have hspent : ∀ {m : ℕ} {a b : List (Option Errno)}, Spends m a b → a = [] → b = [] := by
    intro m a b hspends ha
    rw [hspends.2, ha, List.drop_nil]
  have hnever : ∀ e, item.content.written s₀.os.process = .error e → False := by
    intro e he
    obtain ⟨data, hdata⟩ := hw
    rw [hdata] at he
    cases he
  have hrestores : Restores (.restore k p (item.content.toBytes s₀.os.process) :: undos) k p :=
    ⟨_, List.mem_cons_self ..⟩
  have hwritten : Leaves (fun _ => False) (Midway s₀ (fun _ => True) start
        (.restore k p (item.content.toBytes s₀.os.process) :: undos))
      (fun _ s' => s'.os.faults = [] ∧ Midway s₀ (fun _ => True) start undos s')
      ((item.openFd d false none >>= fun fd => item.write d (some fd)) s) := by
    apply Leaves.bind (P := fun fd s' => Midway s₀ (fun _ => True) start
      (.restore k p (item.content.toBytes s₀.os.process) :: undos) s' ∧ Regained s s' k p fd)
    · rw [openFd_eq hk]
      exact leaves_open h hp (.inr ⟨hrestores, trivial⟩) (hnofault hf)
    intro fd s₁ hs₁
    obtain ⟨h₁, hr⟩ := hs₁
    obtain ⟨i, hfd⟩ := hr.fd
    have hf₁ := hspent hr.spends hf
    have hi : Held s₁ k i := ⟨fd, hr.entry, hfd⟩
    apply (leaves_write h₁ hp hi hfd (.inr ⟨hrestores, trivial⟩) (hnofault hf₁)
      hnever).mono
    intro u s₂ hs₂
    obtain ⟨-, h₂, hspends, hwrote⟩ := hs₂
    have hi₂ : Held s₂ k i := by
      apply (held_congr _ _ i).mpr hi
      · rw [hwrote.cache]
      · intro entry _
        unfold Os.fd
        rw [hwrote.fds]
    exact ⟨hspent hspends hf₁, h₂.restored hi₂ hwrote.content⟩
  obtain ⟨u, s', hrun, hf', h'⟩ := hwritten.exists_ok
  exact ⟨s', hrun, hf', h'⟩

/-- Undoing one operation, whatever the commit has done of it. -/
theorem undoOperation_midway {op : Operation} {plan : List HandleUndo}
    (hop : Reverts t.structured_directory s₀ op plan)
    (h : Midway s₀ (fun _ => True) start (plan ++ undos) s) (hf : s.os.faults = []) :
    ∃ s', t.undoOperation op s = .ok () s' ∧ s'.os.faults = [] ∧
      Midway s₀ (fun _ => True) start undos s' := by
  cases hop with
  | @insert item k p hk hp =>
    obtain ⟨s', hrun, hrest⟩ := unlink_midway h hf hp
    refine ⟨s', ?_, hrest⟩
    unfold FilesystemFdw.undoOperation Item.remove
    simp only [bind_eq_ok, liftExcept_eq_ok]
    exact ⟨k, s, ⟨hk, rfl⟩, hrun⟩
  | @content olditem newitem k p hk₀ hk hp hcontent =>
    obtain ⟨s', hrun, hrest⟩ := write_midway h hf hk₀ hp hcontent
    refine ⟨s', ?_, hrest⟩
    unfold FilesystemFdw.undoOperation
    simp only [bind_eq_ok, liftExcept_eq_ok]
    refine ⟨k, s, ⟨hk₀, rfl⟩, k, s, ⟨hk, rfl⟩, ?_⟩
    rw [if_neg (fun h => h rfl)]
    exact hrun
  | @rename olditem newitem k₀ k p₀ p hk₀ hk hne hp₀ hp hcontent =>
    obtain ⟨s₁, hunlink, hf₁, h₁⟩ := unlink_midway h hf hp
    obtain ⟨s', hrun, hrest⟩ := write_midway h₁ hf₁ hk₀ hp₀ hcontent
    refine ⟨s', ?_, hrest⟩
    unfold FilesystemFdw.undoOperation
    simp only [bind_eq_ok, liftExcept_eq_ok]
    refine ⟨k₀, s, ⟨hk₀, rfl⟩, k, s, ⟨hk, rfl⟩, ?_⟩
    rw [if_pos fun heq => hne heq.symm]
    simp only [bind_eq_ok]
    exact ⟨(), s₁, hunlink, hrun⟩
  | delete => exact ⟨s, rfl, hf, h⟩

theorem undoLog_midway {ops : List Operation} {plans : List (List HandleUndo)}
    (hops : List.Forall₂ (Reverts t.structured_directory s₀) ops plans)
    (h : Midway s₀ (fun _ => True) start plans.flatten s) (hf : s.os.faults = []) :
    ∃ s', ops.forM t.undoOperation s = .ok () s' ∧ s'.os.faults = [] ∧
      Midway s₀ (fun _ => True) start [] s' := by
  induction hops generalizing s with
  | nil => exact ⟨s, rfl, hf, h⟩
  | @cons op plan ops plans hop hops ih =>
    rw [List.flatten_cons] at h
    obtain ⟨s₁, hrun, hf₁, h₁⟩ := undoOperation_midway hop h hf
    obtain ⟨s', hrest, hdone⟩ := ih h₁ hf₁
    refine ⟨s', ?_, hdone⟩
    have hcons : (op :: ops).forM t.undoOperation =
        (t.undoOperation op >>= fun _ => ops.forM t.undoOperation) := rfl
    rw [hcons, bind_eq_ok]
    exact ⟨(), s₁, hrun, hrest⟩

/-- A rollback brings every file back that the log still accounts for. -/
theorem rollback_midway {plans : List (List HandleUndo)}
    (hlog : List.Forall₂ (Reverts t.structured_directory s₀)
      s₀.current_transaction_state.reverse plans)
    (h : Midway s₀ (fun _ => True) start plans.flatten s) (hf : s.os.faults = []) :
    ∃ s', t.rollback s = .ok () s' ∧ ∀ p, s'.os.data p = start.data p := by
  rw [← h.log] at hlog
  obtain ⟨s₁, hundo, hf₁, h₁⟩ := undoLog_midway hlog h hf
  obtain ⟨s', hcleanup, hstore, -⟩ := postXactCleanup_ok ⟨h₁.opened, hf₁⟩
  refine ⟨s', ?_, fun q => ?_⟩
  · unfold FilesystemFdw.rollback
    simp only [bind_eq_ok, get_eq_ok]
    exact ⟨s, s, ⟨rfl, rfl⟩, (), s₁, hundo, hcleanup⟩
  · have hdata : s'.os.data q = s₁.os.data q := by
      have hfile : s'.os.file = s₁.os.file := congrArg UndoLog.Store.file hstore
      have hcontent : s'.os.content = s₁.os.content := congrArg UndoLog.Store.content hstore
      unfold Os.data
      rw [hfile, hcontent]
    exact hdata.trans (h₁.ready.data_eq q)

end Undoing

/-! Committing. -/

/-- The calls after this one are not made to fail; the one after the next `n` is. -/
def State.failing (s : State) (n : ℕ) (e : Errno) : State :=
  s.withFaults (List.replicate n none ++ [some e])

/-- The tree and the log are the same, and the cached descriptors are open. -/
structure Emptied (s s' : State) : Prop where
  opened : Opened s'
  nodes : s'.os.nodes = s.os.nodes
  content : s'.os.content = s.os.content
  log : s'.current_transaction_state = s.current_transaction_state

theorem Emptied.cleared (h : Emptied s s') (k : Str) : Leaves (fun _ => True) (Emptied s)
    (fun _ s₁ => Emptied s s₁) (clearCacheEntry k s') := by
  have hdropped : Opened (s'.dropped k) := by
    constructor
    · intro k' e he
      rw [lookup_dropped] at he
      split_ifs at he
      exact h.opened.fds k' e he
    · intro k₁ k₂ e₁ e₂ h₁ h₂
      rw [lookup_dropped] at h₁ h₂
      split_ifs at h₁ h₂
      exact h.opened.distinct k₁ k₂ e₁ e₂ h₁ h₂
  apply leaves_clearCacheEntry h.opened
  · exact fun _ => h
  · exact fun fs => ⟨⟨hdropped.fds, hdropped.distinct⟩, h.nodes, h.content, h.log⟩
  · exact fun fd shared fs _ _ hcached => ⟨hcached.opened hdropped, h.nodes, h.content, h.log⟩

theorem Emptied.clearCache (h : Emptied s s') : Leaves (fun _ => True) (Emptied s)
    (fun _ s₁ => Emptied s s₁) (clearCache false s') := by
  unfold Fs.clearCache
  apply Leaves.bind (P := fun s₁ s₂ => s₁ = s' ∧ s₂ = s')
  · exact Leaves.of_ok (a := s') rfl ⟨rfl, rfl⟩
  intro s₁ s₂ hs
  obtain ⟨rfl, rfl⟩ := hs
  apply Leaves.forM _ h
  intro entry _ s₃ h₃
  exact h₃.cleared entry.1

/-- A cleanup that fails has emptied the log, and left the tree alone. -/
theorem postXactCleanup_fails {f : Failure} {s₁ : State} (hs : Opened s)
    (h : FilesystemFdw.postXactCleanup s = .error f s₁) : Opened s₁ ∧ s₁.os.nodes = s.os.nodes ∧
      s₁.os.content = s.os.content ∧ s₁.current_transaction_state = [] := by
  let s₀ : State := { s with current_transaction_state := [], invisible_files := [] }
  have hempty : Emptied s₀ s₀ := ⟨⟨hs.fds, hs.distinct⟩, rfl, rfl, rfl⟩
  have hleaves : Leaves (fun _ => True) (Emptied s₀) (fun _ _ => True)
      (FilesystemFdw.postXactCleanup s) := by
    unfold FilesystemFdw.postXactCleanup
    apply Leaves.bind (P := fun _ s₂ => s₂ = s₀)
    · exact Leaves.of_ok (a := ()) rfl rfl
    intro u s₂ hs₂
    subst hs₂
    apply hempty.clearCache.bind
    intro u s₃ hs₃
    exact Leaves.of_ok (a := ()) rfl trivial
  rw [h] at hleaves
  obtain ⟨-, hopened, hnodes, hcontent, hlog⟩ := hleaves
  exact ⟨hopened, hnodes, hcontent, hlog⟩

namespace FilesystemFdw

/-- Where a commit fails in the replay, before it has taken a file away for good, a rollback
still leaves every regular file with the content that it had at the start. -/
theorem rollback_after_failure (hs : Fresh s) {actions : List Action}
    (h : t.Along t.Careful s actions) {n : ℕ} {e : Errno} {f : Failure} {s₁ : State}
    (hwhen : (t.run s actions).current_transaction_state = [] ∨
      Reversible t.structured_directory (t.run s actions).os n [] []
        (t.run s actions).current_transaction_state)
    (hfails : t.preCommit ((t.run s actions).failing n e) = .error f s₁) :
    ∃ s₂, t.rollback (s₁.withFaults []) = .ok () s₂ ∧ ∀ p, s₂.os.data p = s.os.data p := by
  obtain ⟨plans, haccounted⟩ := accounted_run hs h
  generalize t.run s actions = s₀ at haccounted hwhen hfails
  have hmidway := haccounted.midway
  have hback : ∀ s', Midway s₀ (fun _ => True) s.volume plans.flatten s' →
      ∃ s₂, t.rollback (s'.withFaults []) = .ok () s₂ ∧ ∀ p, s₂.os.data p = s.os.data p :=
    fun s' h' => rollback_midway haccounted.log (h'.withFaults []) rfl
  rcases hwhen with hempty | hreversible
  · have hcleanup : postXactCleanup (s₀.failing n e) = .error f s₁ := by
      have hrun : t.preCommit (s₀.failing n e) = postXactCleanup (s₀.failing n e) := by
        have hlog : (s₀.failing n e).current_transaction_state = [] := hempty
        unfold preCommit
        rw [get_bind, hlog]
        rfl
      rw [← hrun]
      exact hfails
    have hopened : Opened (s₀.failing n e) := (hmidway.withFaults _).opened
    obtain ⟨hopened₁, hnodes, hcontent, hlog⟩ := postXactCleanup_fails hopened hcleanup
    have husable : Usable (s₁.withFaults []) := ⟨⟨hopened₁.fds, hopened₁.distinct⟩, rfl⟩
    obtain ⟨s₂, hrun, hstore, -⟩ := postXactCleanup_ok husable
    have hnone : plans.flatten = [] := by
      have hall := haccounted.log
      rw [hempty] at hall
      cases hall
      rfl
    rw [hnone] at hmidway
    refine ⟨s₂, ?_, fun p => ?_⟩
    · have hlog₁ : (s₁.withFaults []).current_transaction_state = [] := hlog
      unfold rollback
      rw [get_bind, hlog₁]
      exact hrun
    · have hfile : s₂.os.file = s₀.os.file := by
        have hfile₁ : s₂.os.file = s₁.os.file := congrArg UndoLog.Store.file hstore
        rw [hfile₁]
        funext q
        unfold Os.file Os.node
        rw [hnodes]
        rfl
      have hcontent₂ : s₂.os.content = s₀.os.content :=
        (congrArg UndoLog.Store.content hstore).trans hcontent
      have hdata : s₂.os.data p = s₀.os.data p := by
        unfold Os.data
        rw [hfile, hcontent₂]
      exact hdata.trans (hmidway.ready.data_eq p)
  · have hreplaying : Replaying t.structured_directory s₀ s.volume plans.flatten e
        s₀.current_transaction_state (s₀.failing n e) :=
      ⟨n, [], [], rfl, hmidway.withFaults _, Tracks.initial s₀ _, hreversible⟩
    have hleaves : Leaves (fun _ => True) (Midway s₀ (fun _ => True) s.volume plans.flatten)
        (fun _ _ => False) (t.preCommit (s₀.failing n e)) := by
      unfold preCommit
      rw [get_bind]
      apply (leaves_replay _ _ hreplaying).bind
      · intro u s' hfalse
        exact absurd hfalse id
      · intro op hop
        exact reverts_of_mem haccounted.log (List.mem_reverse.mpr hop)
      · exact fun p i hp => (haccounted.files.kept p i hp).1
    rw [hfails] at hleaves
    exact hback s₁ hleaves.2

end FilesystemFdw

section Sample

open Errno

/-- The file has been renamed and unlinked when writing the new one fails. -/
theorem renamed_undone :
    let actions := [Action.update ['x'] (flatRow ['y'] (.str ['1']))]
    ∃ f s₁, flatTable.preCommit ((flatTable.run oneFile actions).failing 4 EIO) = .error f s₁ ∧
      ∃ s₂, flatTable.rollback (s₁.withFaults []) = .ok () s₂ ∧
        ∀ p, s₂.os.data p = oneFile.os.data p := by
  intro actions
  have hx : flat.fullFilename ⟨[(['a'], ['x'])], .bytes [65]⟩ = .ok "/r/x".toList := by
    decide +kernel
  have hy : flat.fullFilename ⟨[(['a'], ['y'])], .str ['1']⟩ = .ok "/r/y".toList := by
    decide +kernel
  obtain ⟨f, s₁, hfails⟩ := error_of_value? (r := flatTable.preCommit
    ((flatTable.run oneFile actions).failing 4 EIO)) (by decide)
  have halong : flatTable.Along flatTable.Careful oneFile actions := by
    refine ⟨⟨trivial, .inr (by decide), fun k hk => ?_, fun k text _ hupdated => ?_⟩, trivial⟩
    · have htarget : flatTable.target (.update ['x'] (flatRow ['y'] (.str ['1']))) =
          .ok (some "/r/y".toList) := by decide +kernel
      rw [htarget] at hk
      cases hk
      decide
    · cases hupdated
  refine ⟨f, s₁, hfails, FilesystemFdw.rollback_after_failure oneFile_fresh halong
    (.inr ⟨_, _, hx, hy, ?_⟩) hfails⟩
  rw [if_neg (by decide)]
  right
  right
  refine ⟨.inr fun hmem => ?_, .inl (by decide)⟩
  cases hmem

/-- A file that is deleted is gone when a later write fails, and a rollback does not bring it
back. -/
theorem deleted_lost :
    let actions := [Action.delete ['x'], .insert (flatRow ['y'] (.str ['1']))]
    let failed := flatTable.preCommit ((flatTable.run oneFile actions).failing 5 EIO)
    flatTable.Along (fun s a => flatTable.Succeeds s a) oneFile actions ∧
      oneFile.os.data [['r'], ['x']] = some [65] ∧ outcome failed = .error (.os EIO) ∧
      (finalState (flatTable.rollback ((finalState failed).withFaults []))).os.data
        [['r'], ['x']] = none := by
  intro actions failed
  refine ⟨⟨by decide, by decide, trivial⟩, rfl, by decide, by decide⟩

end Sample

end Multicorn.Fs
