import Multicorn.Fs.Agreement
import Multicorn.Fs.Filters
import Multicorn.Fs.Fruitless

/-! Duplicate file names: when an insert or a renaming update of a name that a scan shows is
rejected, and what it leaves behind. -/
namespace Multicorn.Fs
open Multicorn.StateMonad

variable {s s' : State} {t : FilesystemFdw} {d : Directory} {k k₀ : Str}

namespace FilesystemFdw

/-- A full scan shows a row with this file name and this content. -/
def Shows (t : FilesystemFdw) (s : State) (f : Str) (content : Option PyVal) : Prop :=
  ∃ rows, outcome (t.execute [] (t.filename_column.toList ++ t.content_column.toList) s) =
    .ok rows ∧ ∃ row ∈ rows, column t.filename_column row = some (.str f) ∧
      column t.content_column row = content

/-- A full scan shows a row of the file at the path. -/
def Visible (t : FilesystemFdw) (s : State) (k : Str) : Prop :=
  ∃ f content, t.Shows s f content ∧ t.structured_directory.join (f.splitOn '/') = k

/-- The item that a row spells out, whatever its columns are called. -/
def spelledItem (t : FilesystemFdw) (values : Row) : Except Failure Item :=
  t.itemFromColumns (fun properties => t.structured_directory.item properties (.bytes [])) values

/-- The row from which a call makes its item. -/
def madeFrom (t : FilesystemFdw) : Action → Except Failure (Option Row)
  | .insert values => return some values
  | .update oldfilename newvalues => do
    return some (← t.updateValues (← t.rowItem oldfilename) oldfilename newvalues)
  | _ => return none

/-- The path of the file that a call is to make, by the row that it gets. -/
def spelled (t : FilesystemFdw) : Action → Except Failure (Option Str)
  | .insert values => do
    return some (← t.structured_directory.fullFilename (← t.spelledItem values))
  | .update oldfilename newvalues => do
    let olditem ← t.rowItem oldfilename
    let newitem ← t.spelledItem (← t.updateValues olditem oldfilename newvalues)
    let old_full ← t.structured_directory.fullFilename olditem
    let new_full ← t.structured_directory.fullFilename newitem
    return if old_full = new_full then none else some new_full
  | _ => return none

/-- The call is to make a file that a scan shows already: it inserts its name, or renames a row
that is shown to it. -/
def Duplicates (t : FilesystemFdw) (s : State) (a : Action) : Prop :=
  ∃ k, t.spelled a = .ok (some k) ∧ t.Visible s k ∧
    ∀ k₀, t.source a = .ok (some k₀) → t.Visible s k₀

/-- The call raises the error for duplicate keys, and a scan shows what it showed before. -/
def Rejects (t : FilesystemFdw) (s : State) (a : Action) : Prop :=
  (∃ item, t.spelled a = (t.structured_directory.fullFilename item).map some ∧
    outcome (t.perform a s) = .error (pkViolation item)) ∧
    ∀ f content, t.Shows (t.after s a) f content ↔ t.Shows s f content

/-- The path of the row that a call updates or deletes. -/
def rowPath (t : FilesystemFdw) : Action → Except Failure (Option Str)
  | .delete rowid => do
    let item ← t.rowItem rowid
    return some (← t.structured_directory.fullFilename item)
  | a => t.source a

/-- The content of a row as an update finds it. -/
def oldContent (s : State) (path : Str) : PyVal :=
  let content := (s.updated_content.lookup path).getD (.bytes [])
  if content.truthy then content else .bytes ((s.os.fileContent path).getD [])

/-- The content that a renaming update records for its target. -/
def newContent (t : FilesystemFdw) (s : State) (path : Str) : Action → PyVal
  | .update _ newvalues => (column t.content_column newvalues).getD (oldContent s path)
  | _ => .none

/-- What rejects a duplicate: no column `self` is supplied for `create`, no descriptor of the
target is cached, the target is on the disk, its path does not end in a slash and has a directory
part, and a row that is renamed there is a file too, and brings the content that the target
shows. -/
structure Caught (t : FilesystemFdw) (s : State) (a : Action) (k : Str) : Prop where
  unclashed : ∀ row, t.madeFrom a = .ok (some row) → Directory.self ∉ suppliedKeys (t.rest row)
  uncached : s.cache.lookup k = none
  exists? : s.os.exists? k = true
  unslashed : endsInSlash k = false
  directory : dirname k ≠ []
  source : ∀ k₀, t.source a = .ok (some k₀) → s.os.isfile k₀ = true ∧ dirname k₀ ≠ [] ∧
    s.os.shownAs k (t.newContent s k₀ a) = s.shows k

/-- A duplicate is caught, and no call gives up a descriptor that it cannot replace: none of a file
that it is to make, none of a directory. -/
structure Vigilant (t : FilesystemFdw) (s : State) (a : Action) : Prop where
  inside : a.Inside
  target : ∀ k fd, t.target a = .ok (some k) → s.cache.lookup k ≠ some (fd, true)
  row : ∀ k fd, t.rowPath a = .ok (some k) → s.cache.lookup k = some (fd, true) →
    s.os.stat k ≠ some .dir
  duplicate : t.Duplicates s a → ∀ k, t.spelled a = .ok (some k) → t.Caught s a k

/-! A call keeps the descriptor cache right, whether it succeeds or not. -/

theorem leaves_openFd (hs : Sound s) {item : Item} {fail_if : Option FailIf}
    (hcached : ∀ k fd, d.fullFilename item = .ok k → s.cache.lookup k = some (fd, true) →
      fail_if ≠ some .exists ∧ s.os.stat k ≠ some .dir) :
    Leaves (fun _ => True) Sound (fun fd s' => ∃ k p i, d.fullFilename item = .ok k ∧
      Opens s s' k fail_if fd p i) (item.openFd d false fail_if s) := by
  cases hk : d.fullFilename item with
  | error e =>
    unfold Item.openFd
    rw [hk]
    exact ⟨trivial, hs⟩
  | ok k =>
    have hopen : item.openFd d false fail_if s = openExclusive k fail_if s := by
      unfold Item.openFd
      rw [hk]
      rfl
    rw [hopen]
    cases hrun : openExclusive k fail_if s with
    | ok fd s₁ =>
      obtain ⟨p, i, hopens⟩ := openExclusive_ok hs.coherent hs.faults hrun
      exact ⟨k, p, i, rfl, hopens⟩
    | error e s₁ =>
      exact ⟨trivial, (fruitless_of_error hs (fun fd => hcached k fd hk) hrun).sound hs⟩

theorem leaves_openNew (hs : Sound s) {item : Item}
    (hcached : ∀ k fd, t.structured_directory.fullFilename item = .ok k →
      s.cache.lookup k ≠ some (fd, true)) :
    Leaves (fun _ => True) Sound (fun _ => Sound) (t.openNew item s) := by
  have hleaves : Leaves (fun _ => True) Sound _
      (item.openFd t.structured_directory false (some .exists) s) :=
    leaves_openFd hs fun k fd hk hentry => absurd hentry (hcached k fd hk)
  cases hrun : item.openFd t.structured_directory false (some .exists) s with
  | ok fd s₁ =>
    rw [hrun] at hleaves
    obtain ⟨k, p, i, -, hopens⟩ := hleaves
    have hnew : t.openNew item s = .ok () s₁ := openNew_eq_ok.mpr ⟨fd, hrun⟩
    rw [hnew]
    exact hopens.sound hs
  | error e s₁ =>
    rw [hrun] at hleaves
    have hdiscard : (discard (item.openFd t.structured_directory false (some .exists)) : M Unit) s =
        .error e s₁ := discard_eq_error.mpr hrun
    have hnew : ∃ e', t.openNew item s = .error e' s₁ := by
      unfold openNew
      simp only [tryCatch, tryCatchThe, MonadExceptOf.tryCatch, EStateM.tryCatch, hdiscard]
      by_cases he : e = .os .EEXIST
      · exact ⟨pkViolation item, by rw [if_pos he]; rfl⟩
      · exact ⟨e, by rw [if_neg he]; rfl⟩
    obtain ⟨e', hnew⟩ := hnew
    rw [hnew]
    exact hleaves

theorem keeps_returnValue (item : Item) : Keeps Sound (t.returnValue item) fun _ => True := by
  unfold returnValue
  cases t.structured_directory.filename item with
  | ok filename => exact Keeps.pure trivial
  | error e => exact Keeps.throw e

theorem keeps_liftExcept {α : Type} (x : Except Failure α) :
    Keeps Sound (liftExcept x) fun _ => True := by
  cases x with
  | ok a => exact Keeps.pure trivial
  | error e => exact Keeps.throw e

/-- A change of the log or of what a scan shows. -/
theorem keeps_modify {f : State → State} (hos : ∀ s, (f s).os = s.os)
    (hcache : ∀ s, (f s).cache = s.cache) : Keeps Sound (modify f : M PUnit) fun _ => True :=
  Keeps.modify fun s hs => hs.congr (hos s) (hcache s)

theorem keeps_logged (op : Operation) (item : Item) : Keeps Sound (do
    logOperation op
    t.returnValue item) fun _ => True :=
  Keeps.bind (keeps_modify (fun _ => rfl) fun _ => rfl) fun _ _ => keeps_returnValue item

theorem sound_insert (hs : Sound s) {values : Row}
    (htarget : ∀ k fd, t.target (.insert values) = .ok (some k) →
      s.cache.lookup k ≠ some (fd, true)) : Sound (finalState (t.insert values s)) := by
  apply Leaves.final (E := fun _ => True)
  unfold insert
  apply Leaves.bind (P := fun item s₁ => t.itemFromDml values = .ok item ∧ s₁ = s)
  · cases hitem : t.itemFromDml values with
    | error e => exact ⟨trivial, hs⟩
    | ok item => exact ⟨rfl, rfl⟩
  intro item s₁ hitem
  obtain ⟨hitem, rfl⟩ := hitem
  have hcached : ∀ k fd, t.structured_directory.fullFilename item = .ok k →
      s₁.cache.lookup k ≠ some (fd, true) := by
    intro k fd hk
    apply htarget
    unfold target
    simp only [hitem, hk, bind, Except.bind, pure, Except.pure]
  apply (leaves_openNew hs hcached).bind
  intro u s₂ hs₂
  refine Keeps.leaves (P := fun _ => True) ?_ hs₂
  exact Keeps.bind (keeps_liftExcept _) fun full _ =>
    Keeps.bind (keeps_modify (fun _ => rfl) fun _ => rfl) fun _ _ => keeps_logged _ _

theorem sound_delete (hs : Sound s) {rowid : Str}
    (hrow : ∀ k fd, t.rowPath (.delete rowid) = .ok (some k) →
      s.cache.lookup k = some (fd, true) → s.os.stat k ≠ some .dir) :
    Sound (finalState (t.delete rowid s)) := by
  apply Leaves.final (E := fun _ => True)
  unfold delete
  apply Leaves.bind (P := fun item s₁ => t.rowItem rowid = .ok item ∧ s₁ = s)
  · cases hitem : t.rowItem rowid with
    | error e => exact ⟨trivial, hs⟩
    | ok item => exact ⟨rfl, rfl⟩
  intro item s₁ hitem
  obtain ⟨hitem, rfl⟩ := hitem
  have hcached : ∀ k fd, t.structured_directory.fullFilename item = .ok k →
      s₁.cache.lookup k = some (fd, true) →
        (some .missing : Option FailIf) ≠ some .exists ∧ s₁.os.stat k ≠ some .dir := by
    intro k fd hk hentry
    refine ⟨by simp, hrow k fd ?_ hentry⟩
    unfold rowPath
    simp only [hitem, hk, bind, Except.bind, pure, Except.pure]
  have hopen : Leaves (fun _ => True) Sound (fun _ => Sound)
      (item.openFd t.structured_directory false (some .missing) s₁) := by
    apply (leaves_openFd hs hcached).mono
    intro fd s₂ h
    obtain ⟨k, p, i, -, hopens⟩ := h
    exact hopens.sound hs
  apply hopen.discard.bind
  intro u s₂ hs₂
  refine Keeps.leaves (P := fun _ => True) ?_ hs₂
  exact Keeps.bind (keeps_liftExcept _) fun full _ =>
    Keeps.bind (keeps_modify (fun _ => rfl) fun _ => rfl) fun _ _ =>
      keeps_modify (fun _ => rfl) fun _ => rfl

/-- Reading caches no descriptor but that of the path that is read. -/
theorem read_cache {item : Item} {data : Bytes} (hk : d.fullFilename item = .ok k)
    (h : item.read d s = .ok data s') : ∀ k', k' ≠ k → s'.cache.lookup k' = s.cache.lookup k' := by
  unfold Item.read Item.openFd at h
  simp only [bind_eq_ok, liftExcept_eq_ok, if_true, call_eq_ok] at h
  obtain ⟨fd, s₁, ⟨k'', _, ⟨hk'', rfl⟩, hopen⟩, os', -, rfl⟩ := h
  rw [hk] at hk''
  cases hk''
  intro k' hne
  cases hentry : s.cache.lookup k with
  | some e =>
    rw [openShared_cached hentry] at hopen
    cases hopen
    rfl
  | none =>
    rw [openShared_uncached hentry] at hopen
    simp only [bind_eq_ok, call_eq_ok, setCache_eq_ok, pure_eq_ok] at hopen
    obtain ⟨n, _, ⟨os₁, -, rfl⟩, _, _, ⟨os₂, -, rfl⟩, _, _, rfl, rfl, rfl⟩ := hopen
    exact AList.lookup_insert_ne hne

/-- The old item of an update leaves the state as it is, or has been read from its file. -/
theorem oldItem_cache (hs : Sound s) {oldfilename : Str} {olditem : Item}
    (h : t.oldItem oldfilename s = .ok olditem s') :
    ∃ item k, t.rowItem oldfilename = .ok item ∧ olditem.properties = item.properties ∧
      t.structured_directory.fullFilename olditem = .ok k ∧
      (s' = s ∨ s.os.stat k ≠ some .dir ∧
        ∀ k', k' ≠ k → s'.cache.lookup k' = s.cache.lookup k') := by
  unfold oldItem at h
  simp only [bind_eq_ok, liftExcept_eq_ok, get_eq_ok] at h
  obtain ⟨item, _, ⟨hitem, rfl⟩, k, _, ⟨hk, rfl⟩, _, _, ⟨rfl, rfl⟩, h⟩ := h
  have hsame : ∀ content, t.structured_directory.fullFilename { item with content } = .ok k :=
    fun content => (fullFilename_congr rfl).trans hk
  split_ifs at h
  · obtain ⟨rfl, rfl⟩ := pure_eq_ok.mp h
    exact ⟨item, k, hitem, rfl, hsame _, .inl rfl⟩
  · simp only [bind_eq_ok, pure_eq_ok] at h
    obtain ⟨data, s₁, hread, rfl, rfl⟩ := h
    obtain ⟨-, k', hk', hdata⟩ := fileContent_of_read hs.coherent hs.faults hread
    rw [hk] at hk'
    cases hk'
    refine ⟨item, k, hitem, rfl, hsame _, .inr ⟨?_, read_cache hk hread⟩⟩
    obtain ⟨i, hstat, -⟩ := Os.fileContent_eq_some.mp hdata
    rw [hstat]
    simp

theorem keeps_read (item : Item) : Keeps Sound (item.read d) fun _ => True := fun s hs =>
  ⟨(observes_read viewing_sameView item s s (.refl hs)).2.right, fun _ _ => trivial⟩

theorem keeps_oldItem (oldfilename : Str) :
    Keeps Sound (t.oldItem oldfilename) fun _ => True := by
  unfold oldItem
  refine Keeps.bind (keeps_liftExcept _) fun item _ => Keeps.bind (keeps_liftExcept _) fun k _ =>
    Keeps.bind Keeps.get fun s _ => ?_
  dsimp only
  split_ifs
  · exact Keeps.pure trivial
  · exact Keeps.bind (keeps_read item) fun data _ => Keeps.pure trivial

theorem leaves_liftExcept {α : Type} {I : State → Prop} (hs : I s) (x : Except Failure α) :
    Leaves (fun _ => True) I (fun a s' => x = .ok a ∧ s' = s) (liftExcept x s) := by
  cases x with
  | ok a => exact ⟨rfl, rfl⟩
  | error e => exact ⟨trivial, hs⟩

theorem sound_update (hs : Sound s) {oldfilename : Str} {newvalues : Row}
    (htarget : ∀ k fd, t.target (.update oldfilename newvalues) = .ok (some k) →
      s.cache.lookup k ≠ some (fd, true))
    (hrow : ∀ k fd, t.rowPath (.update oldfilename newvalues) = .ok (some k) →
      s.cache.lookup k = some (fd, true) → s.os.stat k ≠ some .dir) :
    Sound (finalState (t.update oldfilename newvalues s)) := by
  apply Leaves.final (E := fun _ => True)
  unfold update
  apply Leaves.bind (P := fun olditem s₁ => t.oldItem oldfilename s = .ok olditem s₁)
  · have hkeeps := (keeps_oldItem oldfilename (t := t) s hs).1
    cases hrun : t.oldItem oldfilename s with
    | ok olditem s₁ => exact rfl
    | error e s₁ =>
      rw [hrun] at hkeeps
      exact ⟨trivial, hkeeps⟩
  intro olditem s₁ hold
  have hs₁ : Sound s₁ := (oldItem_sameView hs hold).right
  obtain ⟨item₀, k₀, hitem₀, hproperties, hk₀, hcache⟩ := oldItem_cache hs hold
  apply (leaves_liftExcept hs₁ _).bind
  intro values s₂ h₂
  obtain ⟨hvalues, rfl⟩ := h₂
  apply (leaves_liftExcept hs₁ _).bind
  intro item s₃ h₃
  obtain ⟨hitem, rfl⟩ := h₃
  apply (leaves_liftExcept hs₁ _).bind
  intro k s₄ h₄
  obtain ⟨hk, rfl⟩ := h₄
  let content := (column t.content_column newvalues).getD olditem.content
  apply Leaves.bind (P := fun _ s₅ => s₅ = recorded s₄ k content)
  · exact rfl
  intro u s₅ h₅
  subst h₅
  have hs₅ : Sound (recorded s₄ k content) := hs₁.congr rfl rfl
  have hview := oldItem_sameView hs hold
  have hcached : ∀ k' fd, t.structured_directory.fullFilename olditem = .ok k' →
      (recorded s₄ k content).cache.lookup k' = some (fd, true) →
        (some .missing : Option FailIf) ≠ some .exists ∧
          (recorded s₄ k content).os.stat k' ≠ some .dir := by
    intro k' fd hk' hentry
    rw [hk₀] at hk'
    cases hk'
    refine ⟨by simp, ?_⟩
    change s₄.os.stat k₀ ≠ some .dir
    rw [hview.stat]
    rcases hcache with rfl | ⟨hnotDir, -⟩
    · apply hrow k₀ fd _ hentry
      unfold rowPath source
      rw [fullFilename_congr hproperties] at hk₀
      simp only [hitem₀, hk₀, bind, Except.bind, pure, Except.pure]
    · exact hnotDir
  have hopen : Leaves (fun _ => True) Sound
      (fun _ s₆ => ∃ fd p i, Opens (recorded s₄ k content) s₆ k₀ (some .missing) fd p i)
      (olditem.openFd t.structured_directory false (some .missing) (recorded s₄ k content)) := by
    apply (leaves_openFd hs₅ hcached).mono
    intro fd s₆ h₆
    obtain ⟨k', p, i, hk', hopens⟩ := h₆
    rw [hk₀] at hk'
    cases hk'
    exact ⟨fd, p, i, hopens⟩
  apply hopen.discard.bind
  intro u s₆ h₆
  obtain ⟨fd, p, i, hopens⟩ := h₆
  have hs₆ : Sound s₆ := hopens.sound hs₅
  apply (leaves_liftExcept hs₆ _).bind
  intro k₁ s₇ h₇
  obtain ⟨hk₁, rfl⟩ := h₇
  rw [hk₀] at hk₁
  cases hk₁
  by_cases hne : k₀ = k
  · rw [if_neg (fun h => h hne)]
    exact (keeps_logged _ _).leaves hs₆
  · rw [if_pos hne]
    have hfree : ∀ k' fd', t.structured_directory.fullFilename
        { item with content := content } = .ok k' → s₇.cache.lookup k' ≠ some (fd', true) := by
      intro k' fd' hk' hentry
      have heq : k' = k := Except.ok.inj (hk'.symm.trans hk)
      subst heq
      have hne' : k' ≠ k₀ := fun h => hne h.symm
      have hnew : t.newItem olditem oldfilename newvalues = .ok { item with content := content } := by
        unfold newItem
        simp only [hvalues, hitem, bind, Except.bind, pure, Except.pure]
        rfl
      have htarget' := target_of_update hs hold hnew hk₀ hk hne
      apply htarget k' fd' htarget'
      rw [hopens.lookup, if_neg hne'] at hentry
      rcases hcache with rfl | ⟨-, hothers⟩
      · exact hentry
      · exact (hothers k' hne').symm.trans hentry
    apply (leaves_openNew hs₆ hfree).bind
    intro u s₈ h₈
    refine Keeps.leaves (P := fun _ => True) ?_ h₈
    exact Keeps.bind (keeps_modify (fun _ => rfl) fun _ => rfl) fun _ _ => keeps_logged _ _

theorem finalState_discard {α : Type} (x : M α) :
    finalState ((discard x : M Unit) s) = finalState (x s) := by
  simp only [Functor.discard, Functor.mapConst, EStateM.map, Function.comp_apply, Function.const]
  cases x s with
  | ok a s' => rfl
  | error e s' => rfl

/-- A vigilant call keeps the descriptor cache right, whether it succeeds or not. -/
theorem sound_of_vigilant (hs : Sound s) {a : Action} (h : t.Vigilant s a) :
    Sound (t.after s a) := by
  unfold after
  cases a with
  | insert values =>
    unfold perform
    rw [finalState_discard]
    exact sound_insert hs h.target
  | update oldfilename newvalues =>
    unfold perform
    rw [finalState_discard]
    exact sound_update hs h.target h.row
  | delete rowid => exact sound_delete hs h.row
  | scan quals columns => exact (sameView_reads (a := .scan quals columns) trivial hs).right
  | endScan => exact (sameView_reads (t := t) (a := .endScan) trivial hs).right
  | preCommit => exact absurd h.inside id
  | rollback => exact absurd h.inside id

/-! A duplicate that is caught. -/

theorem shownAs_sameFiles {os os' : Os} (h : os.SameFiles os') (path : Str) (content : PyVal) :
    os'.shownAs path content = os.shownAs path content := by
  have hfile : os'.fileContent path = os.fileContent path := by
    unfold Os.fileContent
    rw [Os.stat_congr h.node h.process, h.content]
  unfold Os.shownAs
  rw [hfile]

theorem alike_of_sameFiles (hs : Sound s) (hs' : Sound s') (htree : s.os.SameFiles s'.os)
    (hinvisible : s'.invisible_files = s.invisible_files)
    (hshows : ∀ path, s.os.shownAs path ((s'.updated_content.lookup path).getD .none) =
      s.shows path) : Alike s s' := by
  refine ⟨hs, hs', htree.nodes, htree.process, htree.content, hinvisible, fun path => ?_⟩
  unfold State.shows
  rw [shownAs_sameFiles htree]
  exact hshows path

theorem shows_of_alike (h : Alike s s') (f : Str) (content : Option PyVal) :
    t.Shows s' f content ↔ t.Shows s f content := by
  have hout := (observes_execute viewing_alike (t := t) []
    (t.filename_column.toList ++ t.content_column.toList) s s' h).1
  unfold Shows
  rw [hout]

/-- The target of an insert or a renaming update that exists makes it raise. -/
theorem openNew_taken (hs : Sound s) {item : Item}
    (hk : t.structured_directory.fullFilename item = .ok k) (hnone : s.cache.lookup k = none)
    (hthere : s.os.exists? k = true) (hslash : endsInSlash k = false) (hdir : dirname k ≠ []) :
    ∃ os, t.openNew item s = .error (pkViolation item) { s with os } ∧ s.os.SameFiles os ∧
      Sound { s with os } := by
  obtain ⟨os, hrun, hsame, hdirs⟩ := openExclusive_taken hs hnone hthere hslash hdir
  have hopen : item.openFd t.structured_directory false (some .exists) s =
      .error (.os .EEXIST) { s with os } := by
    unfold Item.openFd
    rw [hk]
    exact hrun
  have hdiscard : (discard (item.openFd t.structured_directory false (some .exists)) : M Unit) s =
      .error (.os .EEXIST) { s with os } := discard_eq_error.mpr hopen
  refine ⟨os, ?_, hsame, Fruitless.sound ⟨os, hdirs, rfl⟩ hs⟩
  unfold openNew
  simp only [tryCatch, tryCatchThe, MonadExceptOf.tryCatch, EStateM.tryCatch, hdiscard]
  rfl

theorem discard_error {α : Type} {x : M α} {e : Failure} (h : x s = .error e s') :
    (discard x : M Unit) s = .error e s' := discard_eq_error.mpr h

theorem rejects_of_error {a : Action} {item : Item}
    (htarget : t.spelled a = (t.structured_directory.fullFilename item).map some)
    (hrun : t.perform a s = .error (pkViolation item) s') (halike : Alike s s') :
    t.Rejects s a := by
  refine ⟨⟨item, htarget, ?_⟩, fun f content => ?_⟩
  · rw [hrun]
    rfl
  · have hafter : t.after s a = s' := by
      unfold after
      rw [hrun]
      rfl
    rw [hafter]
    exact shows_of_alike halike f content

theorem create_of_item {properties : List (Str × Str)} {item : Item}
    (h : d.item properties (.bytes []) = .ok item)
    (hself : Directory.self ∈ d.properties → Directory.self ∉ properties.map Prod.fst) :
    d.create properties = .ok item := by
  have hknown : ∀ p ∈ properties, p.1 ∈ d.properties := by
    unfold Directory.item at h
    split_ifs at h with hmissing hunknown hslash
    exact fun p hp => decide_eq_true_iff.mp (List.all_eq_true.mp hunknown p hp)
  have hclash : ¬ properties.any (fun p => p.1 = Directory.self) := by
    intro hany
    obtain ⟨p, hp, hname⟩ := List.any_eq_true.mp hany
    have hname : p.1 = Directory.self := decide_eq_true_iff.mp hname
    exact hself (hname ▸ hknown p hp) (List.mem_map.mpr ⟨p, hp, hname⟩)
  unfold Directory.create
  rw [if_neg hclash]
  exact h

/-- Where no column `self` is supplied, `create` makes the item that the columns spell out. -/
theorem itemFromValues_of_item {a b : Option Item} {values : Row}
    (h : t.itemFromValues (fun properties => t.structured_directory.item properties (.bytes []))
      a values = .ok b) (hself : Directory.self ∉ suppliedKeys values) :
    t.itemFromValues t.structured_directory.create a values = .ok b := by
  have hcases := itemFromValues_ok h
  change (if suppliedKeys values ≠ [] then _ else _) = Except.ok b at h
  change (if suppliedKeys values ≠ [] then _ else _) = Except.ok b
  rcases hcases with ⟨hnone, -, -⟩ | ⟨hall, item, -, hitem⟩
  · rw [if_neg (not_not.mpr hnone)] at h ⊢
    exact h
  · -- A property `self` would have to be supplied, like every other.
    have hcreate := create_of_item hitem fun hproperty => absurd (hall _ hproperty) hself
    split_ifs at h ⊢
    · rw [hcreate, ← hitem]
      exact h
    · exact h

theorem itemFromDml_of_spelledItem {values : Row} {item : Item}
    (h : t.spelledItem values = .ok item) (hself : Directory.self ∉ suppliedKeys (t.rest values)) :
    t.itemFromDml values = .ok item := by
  obtain ⟨a, ha, h⟩ := Pointwise.bind_eq_ok.mp h
  obtain ⟨b, hb, h⟩ := Pointwise.bind_eq_ok.mp h
  exact Pointwise.bind_eq_ok.mpr
    ⟨a, ha, Pointwise.bind_eq_ok.mpr ⟨b, itemFromValues_of_item hb hself, h⟩⟩

theorem insert_of_spelled {values : Row} (h : t.spelled (.insert values) = .ok (some k))
    (hself : Directory.self ∉ suppliedKeys (t.rest values)) :
    ∃ item, t.itemFromDml values = .ok item ∧
      t.structured_directory.fullFilename item = .ok k := by
  obtain ⟨item, hitem, h⟩ := Pointwise.bind_eq_ok.mp h
  obtain ⟨k', hk, h⟩ := Pointwise.bind_eq_ok.mp h
  cases h
  exact ⟨item, itemFromDml_of_spelledItem hitem hself, hk⟩

theorem update_of_spelled {oldfilename : Str} {newvalues : Row}
    (h : t.spelled (.update oldfilename newvalues) = .ok (some k))
    (hself : ∀ row, t.madeFrom (.update oldfilename newvalues) = .ok (some row) →
      Directory.self ∉ suppliedKeys (t.rest row)) :
    ∃ olditem newitem k₀, t.rowItem oldfilename = .ok olditem ∧
      t.newItem olditem oldfilename newvalues = .ok newitem ∧
      t.structured_directory.fullFilename olditem = .ok k₀ ∧
      t.structured_directory.fullFilename newitem = .ok k ∧ k₀ ≠ k := by
  obtain ⟨olditem, hold, h⟩ := Pointwise.bind_eq_ok.mp h
  obtain ⟨values, hvalues, h⟩ := Pointwise.bind_eq_ok.mp h
  obtain ⟨item, hitem, h⟩ := Pointwise.bind_eq_ok.mp h
  obtain ⟨k₀, hk₀, h⟩ := Pointwise.bind_eq_ok.mp h
  obtain ⟨k', hk, h⟩ := Pointwise.bind_eq_ok.mp h
  have hmade : t.madeFrom (.update oldfilename newvalues) = .ok (some values) :=
    Pointwise.bind_eq_ok.mpr ⟨olditem, hold, Pointwise.bind_eq_ok.mpr ⟨values, hvalues, rfl⟩⟩
  have hdml := itemFromDml_of_spelledItem hitem (hself values hmade)
  have hnew : t.newItem olditem oldfilename newvalues = .ok
      { item with content := (column t.content_column newvalues).getD olditem.content } :=
    Pointwise.bind_eq_ok.mpr ⟨values, hvalues, Pointwise.bind_eq_ok.mpr ⟨item, hdml, rfl⟩⟩
  simp only [pure, Except.pure, Except.ok.injEq] at h
  split_ifs at h with hne
  cases h
  exact ⟨olditem, _, k₀, hold, hnew, hk₀, hk, hne⟩

theorem rejects_insert (hs : Sound s) {values : Row}
    (htarget : t.spelled (.insert values) = .ok (some k))
    (hcaught : t.Caught s (.insert values) k) : t.Rejects s (.insert values) := by
  obtain ⟨item, hitem, hk⟩ := insert_of_spelled htarget (hcaught.unclashed values rfl)
  obtain ⟨os, hnew, hsame, hsound⟩ :=
    openNew_taken hs hk hcaught.uncached hcaught.exists? hcaught.unslashed hcaught.directory
  have hrun : t.perform (.insert values) s = .error (pkViolation item) { s with os } := by
    unfold perform
    apply discard_error
    unfold insert
    apply bind_eq_error.mpr
    refine .inr ⟨item, s, by rw [hitem]; rfl, ?_⟩
    exact bind_eq_error.mpr (.inl hnew)
  refine rejects_of_error ?_ hrun
    (alike_of_sameFiles hs hsound hsame rfl fun path => rfl)
  rw [htarget, hk]
  rfl

theorem rowItem_ok {rowid : Str} {item : Item} (h : t.rowItem rowid = .ok item) :
    ∃ values, Directory.matchParts t.structured_directory.parts (rowid.splitOn '/') = some values ∧
      item = ⟨values, .bytes []⟩ := by
  unfold rowItem at h
  rw [fromFilename_eq] at h
  cases hmatch : Directory.matchParts t.structured_directory.parts (rowid.splitOn '/') with
  | none =>
    rw [hmatch] at h
    cases h
  | some values =>
    rw [hmatch] at h
    cases h
    exact ⟨values, rfl, rfl⟩

theorem content_of_rowItem {rowid : Str} {item : Item} (h : t.rowItem rowid = .ok item) :
    item.content = .bytes [] := by
  obtain ⟨values, -, rfl⟩ := rowItem_ok h
  rfl

theorem newItem_ok {olditem newitem : Item} {oldfilename : Str} {newvalues : Row}
    (h : t.newItem olditem oldfilename newvalues = .ok newitem) :
    ∃ values item, t.updateValues olditem oldfilename newvalues = .ok values ∧
      t.itemFromDml values = .ok item ∧
      newitem = { item with content := (column t.content_column newvalues).getD olditem.content } := by
  obtain ⟨values, hvalues, h⟩ := Pointwise.bind_eq_ok.mp h
  obtain ⟨item, hitem, h⟩ := Pointwise.bind_eq_ok.mp h
  exact ⟨values, item, hvalues, hitem, (Except.ok.inj h).symm⟩

/-- The old item of an update of a row whose file is there. -/
theorem oldItem_there (hs : Sound s) {oldfilename : Str} {item : Item}
    (hitem : t.rowItem oldfilename = .ok item)
    (hk : t.structured_directory.fullFilename item = .ok k) (hfile : s.os.isfile k = true) :
    ∃ s₁, t.oldItem oldfilename s = .ok { item with content := oldContent s k } s₁ := by
  unfold oldItem oldContent
  simp only [bind_eq_ok, liftExcept_eq_ok, get_eq_ok]
  by_cases htruthy : ((s.updated_content.lookup k).getD (.bytes [])).truthy = true
  · refine ⟨s, item, s, ⟨hitem, rfl⟩, k, s, ⟨hk, rfl⟩, s, s, ⟨rfl, rfl⟩, ?_⟩
    rw [content_of_rowItem hitem, if_pos htruthy, if_pos htruthy]
    rfl
  · obtain ⟨data, hdata⟩ : ∃ data, s.os.fileContent k = some data := by
      unfold Os.isfile at hfile
      unfold Os.fileContent
      cases hstat : s.os.stat k with
      | none =>
        rw [hstat] at hfile
        cases hfile
      | some node =>
        cases node with
        | dir =>
          rw [hstat] at hfile
          cases hfile
        | file i => exact ⟨_, rfl⟩
    obtain ⟨s₁, hread⟩ := read_of_fileContent hs.coherent hs.faults hk hdata
    refine ⟨s₁, item, s, ⟨hitem, rfl⟩, k, s, ⟨hk, rfl⟩, s, s, ⟨rfl, rfl⟩, ?_⟩
    rw [content_of_rowItem hitem, if_neg htruthy, if_neg htruthy, hdata]
    simp only [bind_eq_ok, pure_eq_ok]
    exact ⟨_, s₁, hread, rfl, rfl⟩

theorem rejects_update (hs : Sound s) {oldfilename : Str} {newvalues : Row}
    (htarget : t.spelled (.update oldfilename newvalues) = .ok (some k))
    (hcaught : t.Caught s (.update oldfilename newvalues) k) :
    t.Rejects s (.update oldfilename newvalues) := by
  obtain ⟨item, newitem, k₀, hitem, hnew, hk₀, hk, hne⟩ :=
    update_of_spelled htarget hcaught.unclashed
  have hsource : t.source (.update oldfilename newvalues) = .ok (some k₀) := by
    unfold source
    simp only [hitem, hk₀, bind, Except.bind, pure, Except.pure]
  obtain ⟨hfile, hdir, hshown⟩ := hcaught.source k₀ hsource
  let olditem : Item := { item with content := oldContent s k₀ }
  obtain ⟨s₁, hold⟩ := oldItem_there hs hitem hk₀ hfile
  have hview := oldItem_sameView hs hold
  obtain ⟨newitem', hnew', hproperties⟩ := newItem_congr (a := item) (b := olditem) rfl hnew
  obtain ⟨values, base, hvalues, hbase, rfl⟩ := newItem_ok hnew'
  let content := (column t.content_column newvalues).getD olditem.content
  have hk' : t.structured_directory.fullFilename { base with content := content } = .ok k :=
    (fullFilename_congr hproperties).trans hk
  have hk₀' : t.structured_directory.fullFilename olditem = .ok k₀ :=
    (fullFilename_congr rfl).trans hk₀
  have hs₁ : Sound (recorded s₁ k content) := hview.right.congr rfl rfl
  obtain ⟨p, i, hp, hnode⟩ := Os.node_of_isfile hfile
  have hmissing : (some .missing : Option FailIf) ≠ some .exists := by simp
  obtain ⟨fd, s₂, hopen, htree⟩ := openExclusive_there hs₁ ((hview.resolve k₀).trans hp)
    ((hview.node p).trans hnode) hdir hmissing
  obtain ⟨p', i', hopens⟩ := openExclusive_ok hs₁.coherent hs₁.faults hopen
  have hs₂ : Sound s₂ := hopens.sound hs₁
  have hsame : s.os.SameFiles s₂.os := hview.sameFiles.trans htree
  have hnone : s₂.cache.lookup k = none := by
    rw [hopens.lookup, if_neg fun h => hne h.symm]
    change s₁.cache.lookup k = none
    obtain ⟨item', k₁, hitem', -, hk₁, hcache⟩ := oldItem_cache hs hold
    rw [hk₀'] at hk₁
    cases hk₁
    rcases hcache with rfl | ⟨-, hothers⟩
    · exact hcaught.uncached
    · exact (hothers k fun h => hne h.symm).trans hcaught.uncached
  have hthere : s₂.os.exists? k = true := by
    unfold Os.exists?
    rw [Os.stat_congr hsame.node hsame.process]
    exact hcaught.exists?
  obtain ⟨os, htaken, htree', hsound⟩ := openNew_taken hs₂ hk' hnone hthere
    hcaught.unslashed hcaught.directory
  have hopenFd : olditem.openFd t.structured_directory false (some .missing)
      (recorded s₁ k content) = .ok fd s₂ := openFd_exclusive.mpr ⟨k₀, hk₀', hopen⟩
  have hrun : t.perform (.update oldfilename newvalues) s =
      .error (pkViolation { base with content := content }) { s₂ with os } := by
    unfold perform
    apply discard_error
    unfold update
    apply bind_eq_error.mpr
    refine .inr ⟨olditem, s₁, hold, ?_⟩
    apply bind_eq_error.mpr
    refine .inr ⟨values, s₁, liftExcept_eq_ok.mpr ⟨hvalues, rfl⟩, ?_⟩
    apply bind_eq_error.mpr
    refine .inr ⟨base, s₁, liftExcept_eq_ok.mpr ⟨hbase, rfl⟩, ?_⟩
    apply bind_eq_error.mpr
    refine .inr ⟨k, s₁, liftExcept_eq_ok.mpr ⟨hk', rfl⟩, ?_⟩
    apply bind_eq_error.mpr
    refine .inr ⟨(), recorded s₁ k content, rfl, ?_⟩
    apply bind_eq_error.mpr
    refine .inr ⟨(), s₂, discard_eq_ok.mpr ⟨fd, hopenFd⟩, ?_⟩
    apply bind_eq_error.mpr
    refine .inr ⟨k₀, s₂, liftExcept_eq_ok.mpr ⟨hk₀', rfl⟩, ?_⟩
    rw [if_pos hne]
    exact bind_eq_error.mpr (.inl htaken)
  apply rejects_of_error _ hrun
  · apply alike_of_sameFiles hs hsound (hsame.trans htree')
    · exact hopens.invisible.trans hview.invisible
    · intro path
      have hupdated : s₂.updated_content = s.updated_content.insert k content := by
        rw [hopens.updated, ← hview.updated]
        rfl
      change s.os.shownAs path ((s₂.updated_content.lookup path).getD .none) = _
      rw [hupdated]
      by_cases hpath : path = k
      · subst hpath
        rw [AList.lookup_insert]
        exact hshown
      · rw [AList.lookup_insert_ne hpath]
        rfl
  · rw [htarget, hk']
    rfl

/-- Where every duplicate is caught, and no call gives up a descriptor that it cannot replace,
every duplicate in a transaction is rejected. -/
theorem duplicates_rejected (hs : Fresh s) {actions : List Action}
    (h : t.Along t.Vigilant s actions) :
    t.Along (fun s a => t.Duplicates s a → t.Rejects s a) s actions := by
  apply along_of_invariant (I := Sound) _ _ hs.sound h
  · exact fun s a hs ha => sound_of_vigilant hs ha
  · intro s a hs ha hduplicates
    obtain ⟨k, htarget, -⟩ := id hduplicates
    have hcaught := ha.duplicate hduplicates k htarget
    cases a with
    | insert values => exact rejects_insert hs htarget hcaught
    | update oldfilename newvalues => exact rejects_update hs htarget hcaught
    | delete rowid => cases htarget
    | scan quals columns => cases htarget
    | endScan => cases htarget
    | preCommit => cases htarget
    | rollback => cases htarget

end FilesystemFdw

section Sample

/-- A row of `flatTable` as a scan shows it. -/
def flatShown (a : Str) (content : PyVal) : Row := (flatRow a content).insert ['f'] (.str a)

theorem flat_shows_iff {rows : List Row} {a : Str} {content : Option PyVal}
    (h : (value? (flatTable.execute [] [['f'], ['c']] s)).map (List.map AList.entries) =
      some (rows.map AList.entries)) :
    flatTable.Shows s a content ↔
      ∃ row ∈ rows, row.lookup ['f'] = some (.str a) ∧ row.lookup ['c'] = content := by
  obtain ⟨s', hrun⟩ := rows_of_entries h
  have hout : outcome (flatTable.execute [] [['f'], ['c']] s) = .ok rows := by
    rw [hrun]
    rfl
  constructor
  · intro hshows
    obtain ⟨rows', hrows, hrow⟩ := hshows
    have heq : rows = rows' := Except.ok.inj (hout.symm.trans hrows)
    rw [heq]
    exact hrow
  · intro hrow
    exact ⟨rows, hout, hrow⟩

/-- The insert of a file that is there. -/
theorem duplicate_rejected :
    flatTable.Rejects oneFile (.insert (flatRow ['x'] (.str ['2']))) := by
  have htarget : flatTable.spelled (.insert (flatRow ['x'] (.str ['2']))) =
      .ok (some "/r/x".toList) := by decide +kernel
  have hrows : (value? (flatTable.execute [] [['f'], ['c']] oneFile)).map
      (List.map AList.entries) = some ([flatShown ['x'] (.bytes [65])].map AList.entries) := by
    decide +kernel
  have hshows : flatTable.Shows oneFile ['x'] (some (.bytes [65])) :=
    (flat_shows_iff hrows).mpr ⟨_, List.mem_cons_self, rfl, rfl⟩
  have hduplicates : flatTable.Duplicates oneFile (.insert (flatRow ['x'] (.str ['2']))) :=
    ⟨_, htarget, ⟨['x'], _, hshows, by decide⟩, fun k hk => by cases hk⟩
  have halong : flatTable.Along flatTable.Vigilant oneFile
      [.insert (flatRow ['x'] (.str ['2']))] := by
    refine ⟨⟨trivial, fun k fd _ hentry => ?_, fun k fd hk => ?_, fun _ k hk => ?_⟩, trivial⟩
    · cases hentry
    · cases hk
    · rw [htarget] at hk
      cases hk
      refine ⟨fun row hrow => ?_, rfl, by decide, by decide, by decide, fun k hk => by cases hk⟩
      cases hrow
      decide
  exact (FilesystemFdw.duplicates_rejected oneFile_fresh halong).1 hduplicates

def twoFiles : State :=
  sampleState [([['r'], ['x']], .file 0), ([['r'], ['y']], .file 1)] fun _ => [65]

/-- A name that the transaction has inserted can be inserted again, and a rename to a file that is
there is rejected, but its content shows under the name of that file. -/
theorem duplicate_accepted :
    let s := flatTable.run oneFile [.insert (flatRow ['y'] (.str ['1']))]
    let again := Action.insert (flatRow ['y'] (.str ['2']))
    let rename := Action.update ['x'] (flatRow ['y'] (.str ['1']))
    (flatTable.Duplicates s again ∧ ¬ flatTable.Rejects s again) ∧
      flatTable.Duplicates twoFiles rename ∧ ¬ flatTable.Rejects twoFiles rename := by
  intro s again rename
  have hvisible : ∀ {b content s'}, flatTable.Shows s' b content →
      flat.join (b.splitOn '/') = "/r/".toList ++ b → flatTable.Visible s' ("/r/".toList ++ b) :=
    fun hshows hjoin => ⟨_, _, hshows, hjoin⟩
  have hinserted : ∀ {s' : State}, (value? (flatTable.execute [] [['f'], ['c']] s')).map
      (List.map AList.entries) =
        some ([flatShown ['y'] (.str ['1']), flatShown ['x'] (.bytes [65])].map AList.entries) →
      flatTable.Shows s' ['y'] (some (.str ['1'])) :=
    fun hrows => (flat_shows_iff hrows).mpr ⟨_, List.mem_cons_self, rfl, rfl⟩
  have hbefore : ∀ {b content}, flatTable.Shows twoFiles b content ↔
      ∃ row ∈ [flatShown ['y'] (.bytes [65]), flatShown ['x'] (.bytes [65])],
        row.lookup ['f'] = some (.str b) ∧ row.lookup ['c'] = content :=
    flat_shows_iff (by decide +kernel)
  refine ⟨⟨⟨"/r/y".toList, by decide +kernel, ?_, fun k hk => by cases hk⟩, fun hrejects => ?_⟩,
    ⟨"/r/y".toList, by decide +kernel, ?_, fun k hk => ?_⟩, fun hrejects => ?_⟩
  · exact hvisible (hinserted (by decide +kernel)) (by decide)
  · obtain ⟨⟨item, -, hrun⟩, -⟩ := hrejects
    have hsucceeds : flatTable.Succeeds s again := by decide
    unfold FilesystemFdw.Succeeds at hsucceeds
    cases hresult : flatTable.perform again s with
    | ok u s' =>
      rw [hresult] at hrun
      cases hrun
    | error e s' =>
      rw [hresult] at hsucceeds
      cases hsucceeds
  · exact hvisible (hbefore.mpr ⟨_, List.mem_cons_self, rfl, rfl⟩) (by decide)
  · have hsource : flatTable.source rename = .ok (some "/r/x".toList) := by decide +kernel
    rw [hsource] at hk
    cases hk
    exact hvisible (hbefore.mpr ⟨_, List.mem_cons_of_mem _ List.mem_cons_self, rfl, rfl⟩)
      (by decide)
  · have hafter : flatTable.Shows (flatTable.after twoFiles rename) ['y'] (some (.str ['1'])) :=
      hinserted (by decide +kernel)
    obtain ⟨row, hrow, -, hcontent⟩ := hbefore.mp ((hrejects.2 _ _).mp hafter)
    have hcases : row = flatShown ['y'] (.bytes [65]) ∨ row = flatShown ['x'] (.bytes [65]) := by
      simpa using hrow
    rcases hcases with rfl | rfl
    · cases hcontent
    · cases hcontent

end Sample

end Multicorn.Fs
