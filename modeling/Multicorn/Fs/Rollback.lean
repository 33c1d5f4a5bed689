import Multicorn.Fs.Savepoints
import Multicorn.General.Pointwise
import Multicorn.General.UndoLog

/-! Rollback: the log, read backwards, undoes what the transaction has done to the tree. -/
namespace Multicorn.Fs
open Multicorn.StateMonad Multicorn.UndoLog

variable {s s' : State} {t : FilesystemFdw} {d : Directory}

abbrev FileStore := Store Path ℕ Bytes

abbrev FileUndo := Undo Path ℕ Bytes

def Os.store (os : Os) : FileStore := ⟨os.file, os.content⟩

/-- The content of the regular file at a path. -/
def Os.data (os : Os) (p : Path) : Option Bytes := (os.file p).map os.content

/-- Paths lead where they led, and descriptors that can write are still cached. -/
structure Carries (s s' : State) : Prop where
  process : s'.os.process = s.os.process
  resolve : ∀ k p, s.os.resolve k = .ok p → s'.os.resolve k = .ok p
  held : ∀ k i, Held s k i → Held s' k i

theorem Carries.trans {a b c : State} (h : Carries a b) (h' : Carries b c) : Carries a c :=
  ⟨h'.process.trans h.process, fun k p hp => h'.resolve k p (h.resolve k p hp),
    fun k i hi => h'.held k i (h.held k i hi)⟩

theorem Carries.congr (hos : s'.os = s.os) (hcache : s'.cache = s.cache) : Carries s s' := by
  refine ⟨congrArg Os.process hos, fun k p hp => ?_, fun k i hi => hi.congr hos hcache⟩
  rw [hos]
  exact hp

theorem SameView.carries (h : SameView s s') : Carries s s' :=
  ⟨h.process, fun k _ hp => (h.resolve k).trans hp, fun k i hi => (h.held k i).mpr hi⟩

theorem Opens.carries {k : Str} {fail_if : Option FailIf} {fd i : ℕ} {p : Path}
    (h : Opens s s' k fail_if fd p i) : Carries s s' :=
  ⟨h.grows.process, fun _ _ hp => h.grows.dirsKept.resolve hp, fun _ _ hi => h.held hi⟩

theorem Held.unique {k : Str} {i j : ℕ} (h : Held s k i) (h' : Held s k j) : i = j := by
  obtain ⟨fd, hentry, hfd⟩ := h
  obtain ⟨fd', hentry', hfd'⟩ := h'
  rw [hentry] at hentry'
  cases hentry'
  rw [hfd] at hfd'
  cases hfd'
  rfl

/-- A key with a descriptor that can write names a file. -/
theorem Held.node (hs : Sound s) {k : Str} {i : ℕ} (h : Held s k i) :
    ∃ p, s.os.resolve k = .ok p ∧ s.os.node p = some (.file i) := by
  obtain ⟨fd, hentry, hfd⟩ := h
  exact hs.coherent.located k _ _ hentry hfd

theorem Held.exists (hs : Sound s) {k : Str} {i : ℕ} (h : Held s k i) : s.os.exists? k = true := by
  obtain ⟨p, hp, hnode⟩ := h.node hs
  simp only [Os.exists?, Os.stat, hp, hnode, Option.isSome_some]

theorem fullFilename_congr {a b : Item} (h : a.properties = b.properties) :
    d.fullFilename a = d.fullFilename b := by
  unfold Directory.fullFilename Directory.filename
  rw [h]

/-- The properties of the new item of an update depend on those of the old one only. -/
theorem newItem_congr {a b newitem : Item} {oldfilename : Str} {newvalues : Row}
    (h : a.properties = b.properties) (hnew : t.newItem a oldfilename newvalues = .ok newitem) :
    ∃ newitem', t.newItem b oldfilename newvalues = .ok newitem' ∧
      newitem'.properties = newitem.properties := by
  have hvalues : t.updateValues a oldfilename newvalues =
      t.updateValues b oldfilename newvalues := by
    unfold FilesystemFdw.updateValues Item.row
    rw [h]
  unfold FilesystemFdw.newItem at hnew ⊢
  rw [hvalues] at hnew
  obtain ⟨values, hv, hnew⟩ := Pointwise.bind_eq_ok.mp hnew
  obtain ⟨item, hitem, hnew⟩ := Pointwise.bind_eq_ok.mp hnew
  cases hnew
  exact ⟨_, Pointwise.bind_eq_ok.mpr ⟨values, hv, Pointwise.bind_eq_ok.mpr ⟨item, hitem, rfl⟩⟩, rfl⟩

/-- What undoing a logged operation does to the tree. -/
inductive Undone (d : Directory) (s : State) : Operation → List FileUndo → Prop
  | insert {item : Item} {k : Str} {p : Path} (hk : d.fullFilename item = .ok k)
      (hp : s.os.resolve k = .ok p) : Undone d s (.insert item) [.remove p]
  | content {olditem newitem : Item} {k : Str} {i : ℕ} (hk₀ : d.fullFilename olditem = .ok k)
      (hk : d.fullFilename newitem = .ok k) (hi : Held s k i)
      (hcontent : olditem.content.Writable s.os.process) :
      Undone d s (.update olditem newitem) [.restore i (olditem.content.toBytes s.os.process)]
  | rename {olditem newitem : Item} {k₀ k : Str} {i : ℕ} {p : Path}
      (hk₀ : d.fullFilename olditem = .ok k₀) (hk : d.fullFilename newitem = .ok k) (hne : k ≠ k₀)
      (hp : s.os.resolve k = .ok p) (hi : Held s k₀ i)
      (hcontent : olditem.content.Writable s.os.process) :
      Undone d s (.update olditem newitem)
        [.remove p, .restore i (olditem.content.toBytes s.os.process)]
  | delete {item : Item} : Undone d s (.delete item) []

theorem Undone.carries {op : Operation} {undos : List FileUndo} (h : Undone d s op undos)
    (hc : Carries s s') : Undone d s' op undos := by
  cases h with
  | insert hk hp => exact .insert hk (hc.resolve _ _ hp)
  | content hk₀ hk hi hcontent =>
    rw [← hc.process] at hcontent ⊢
    exact .content hk₀ hk (hc.held _ _ hi) hcontent
  | rename hk₀ hk hne hp hi hcontent =>
    rw [← hc.process] at hcontent ⊢
    exact .rename hk₀ hk hne (hc.resolve _ _ hp) (hc.held _ _ hi) hcontent
  | delete => exact .delete

/-- The path of a file that a call is to make. -/
def FilesystemFdw.target (t : FilesystemFdw) : Action → Except Failure (Option Str)
  | .insert values => do
    let item ← t.itemFromDml values
    return some (← t.structured_directory.fullFilename item)
  | .update oldfilename newvalues => do
    let olditem ← t.rowItem oldfilename
    let newitem ← t.newItem olditem oldfilename newvalues
    let old_full ← t.structured_directory.fullFilename olditem
    let new_full ← t.structured_directory.fullFilename newitem
    return if old_full = new_full then none else some new_full
  | _ => return none

/-- The path of the file that an update is about. -/
def FilesystemFdw.source (t : FilesystemFdw) : Action → Except Failure (Option Str)
  | .update oldfilename _ => do
    let olditem ← t.rowItem oldfilename
    return some (← t.structured_directory.fullFilename olditem)
  | _ => return none

/-- The call makes no file where there is one, and an update finds no content recorded for its
file, other than an empty one, that cannot be written to a file. -/
structure FilesystemFdw.Undoable (t : FilesystemFdw) (s : State) (a : Action) : Prop where
  target : ∀ k, t.target a = .ok (some k) → s.os.exists? k = false
  source : ∀ k v, t.source a = .ok (some k) → s.updated_content.lookup k = some v →
    v.truthy = true → v.Writable s.os.process

/-! One call after the other. -/

section Opening

variable {k : Str} {fd i : ℕ} {p : Path}

/-- Without a cached descriptor that can write, opening a file that must not exist makes it. -/
theorem Opens.new (h : Opens s s' k (some .exists) fd p i) (hk : ∀ j, ¬ Held s k j) :
    s.os.node p = none ∧ i = s.os.nextInode ∧ s'.os.content i = [] ∧ s'.os.nextInode = i + 1 ∧
      ∀ q, s'.os.file q = if q = p then some i else s.os.file q := by
  rcases h.files with ⟨-, -, hheld⟩ | ⟨hnone, hi, hcontent, hnext, -, hfiles⟩
  · exact absurd (hheld rfl) (hk i)
  · exact ⟨hnone, hi, hcontent, hnext, hfiles⟩

theorem not_held_of_free (hs : Sound s) (hk : s.os.exists? k = false) (j : ℕ) :
    ¬ Held s k j := by
  intro hj
  have hthere := hj.exists hs
  rw [hk] at hthere
  cases hthere

theorem Opens.held_of_ne (h : Opens s s' k (some .missing) fd p i) {k' : Str} {j : ℕ}
    (hne : k' ≠ k) (hj : Held s' k' j) : Held s k' j := by
  obtain ⟨n, hentry, hn⟩ := hj
  rw [h.lookup, if_neg hne] at hentry
  obtain ⟨-, hsame⟩ := h.others k' _ hne hentry
  exact ⟨n, hentry, hsame.symm.trans hn⟩

/-- A file that must not be missing is there. -/
theorem Opens.there (h : Opens s s' k (some .missing) fd p i) :
    s.os.node p = some (.file i) ∧ ∀ q, s'.os.file q = s.os.file q := by
  rcases h.files with ⟨hnode, hfiles, -⟩ | ⟨-, -, -, -, hmissing, -⟩
  · exact ⟨hnode, hfiles⟩
  · exact absurd rfl hmissing

end Opening

/-- The log of the transaction undoes what has happened to the tree since `start`, and a content
that is recorded for a path is that of a new file or of one whose old content is in the log. -/
structure Backed (d : Directory) (start : FileStore) (s : State) (plans : List (List FileUndo)) :
    Prop where
  sound : Sound s
  bound : ∀ p i, start.file p = some i → i < s.os.nextInode
  log : List.Forall₂ (Undone d s) s.current_transaction_state.reverse plans
  undoes : Undoes plans.flatten start s.os.store
  recorded : ∀ k c, s.updated_content.lookup k = some c → ∃ i, Held s k i ∧
    ((∀ p, start.file p ≠ some i) ∨ lastRestore i plans.flatten ≠ none)

section Steps

variable {start : FileStore} {plans : List (List FileUndo)}

theorem undone_carries {ops : List Operation} (h : List.Forall₂ (Undone d s) ops plans)
    (hc : Carries s s') : List.Forall₂ (Undone d s') ops plans :=
  h.imp fun _ _ hop => hop.carries hc

/-- Reading changes nothing that matters. -/
theorem Backed.still (h : Backed d start s plans) (hview : SameView s s') :
    Backed d start s' plans where
  sound := hview.right
  bound p i hp := by
    rw [hview.nextInode]
    exact h.bound p i hp
  log := by
    rw [hview.log]
    exact undone_carries h.log hview.carries
  undoes := by
    apply h.undoes.congr
    · intro p
      change s'.os.file p = s.os.file p
      unfold Os.file
      rw [hview.node]
    · intro p i _
      change s'.os.content i = s.os.content i
      rw [hview.content]
  recorded k c hk := by
    rw [hview.updated] at hk
    obtain ⟨i, hi, hcase⟩ := h.recorded k c hk
    exact ⟨i, (hview.held _ _).mpr hi, hcase⟩

/-- An opened file that was there before. -/
theorem Backed.opens_there (h : Backed d start s plans) {k : Str} {fd i : ℕ} {p : Path}
    (hopens : Opens s s' k (some .missing) fd p i) : Backed d start s' plans where
  sound := hopens.sound h.sound
  bound p i hp := Nat.lt_of_lt_of_le (h.bound p i hp) hopens.grows.nextInode
  log := by
    rw [hopens.log]
    exact undone_carries h.log hopens.carries
  undoes := by
    apply h.undoes.congr
    · exact hopens.there.2
    · intro p j hp
      exact hopens.grows.content j (h.bound p j hp)
  recorded k c hk := by
    rw [hopens.updated] at hk
    obtain ⟨j, hj, hcase⟩ := h.recorded k c hk
    exact ⟨j, hopens.held hj, hcase⟩

/-- A new file is undone by its removal; nothing in the tree of the start has its inode. -/
theorem undoes_new {undos : List FileUndo} (hundoes : Undoes undos start s.os.store)
    (hbound : ∀ p i, start.file p = some i → i < s.os.nextInode) {k : Str} {fd i : ℕ} {p : Path}
    (hopens : Opens s s' k (some .exists) fd p i) (hk : ∀ j, ¬ Held s k j) :
    Undoes (.remove p :: undos) start s'.os.store ∧
      (∀ q j, start.file q = some j → j < s'.os.nextInode) ∧ ∀ q, start.file q ≠ some i := by
  obtain ⟨hnone, hi, -, -, hfiles⟩ := hopens.new hk
  have hfile : s.os.file p = none := by
    unfold Os.file
    rw [hnone]
  refine ⟨hundoes.push_remove hfile hfiles ?_, ?_, ?_⟩
  · intro q j hq
    exact hopens.grows.content j (hbound q j hq)
  · intro q j hq
    exact Nat.lt_of_lt_of_le (hbound q j hq) hopens.grows.nextInode
  · intro q hq
    have hlt := hbound q i hq
    omega

theorem Backed.congr (h : Backed d start s plans) (hos : s'.os = s.os)
    (hcache : s'.cache = s.cache)
    (hlog : s'.current_transaction_state = s.current_transaction_state)
    (hupdated : s'.updated_content = s.updated_content) : Backed d start s' plans where
  sound := h.sound.congr hos hcache
  bound p i hp := by
    rw [hos]
    exact h.bound p i hp
  log := by
    rw [hlog]
    exact undone_carries h.log (.congr hos hcache)
  undoes := by
    rw [hos]
    exact h.undoes
  recorded k c hk := by
    rw [hupdated] at hk
    obtain ⟨i, hi, hcase⟩ := h.recorded k c hk
    exact ⟨i, hi.congr hos hcache, hcase⟩

theorem Backed.insert (h : Backed t.structured_directory start s plans) {values row : Row}
    (htarget : ∀ k, t.target (.insert values) = .ok (some k) → s.os.exists? k = false)
    (hrun : t.insert values s = .ok row s') :
    ∃ plans', Backed t.structured_directory start s' plans' := by
  obtain ⟨item, k, fd, p, i, s₁, hitem, hk, hopens, rfl⟩ :=
    FilesystemFdw.insert_ok h.sound.coherent h.sound.faults hrun
  have hfree : s.os.exists? k = false := by
    apply htarget
    unfold FilesystemFdw.target
    simp only [hitem, hk, bind, Except.bind, pure, Except.pure]
  obtain ⟨hundoes, hbound, hnew⟩ := undoes_new h.undoes h.bound hopens
    (not_held_of_free h.sound hfree)
  refine ⟨[.remove p] :: plans, (hopens.sound h.sound).congr rfl rfl, hbound, ?_, hundoes, ?_⟩
  · have hlog : (FilesystemFdw.inserted s₁ k item).current_transaction_state.reverse =
        .insert item :: s.current_transaction_state.reverse := by
      simp [FilesystemFdw.inserted, hopens.log]
    rw [hlog]
    have hcarries : Carries s₁ (FilesystemFdw.inserted s₁ k item) := .congr rfl rfl
    apply List.Forall₂.cons
    · exact .insert hk (hcarries.resolve _ _ hopens.path)
    · exact undone_carries h.log (hopens.carries.trans hcarries)
  · intro k' c hc
    have hcarries : Carries s₁ (FilesystemFdw.inserted s₁ k item) := .congr rfl rfl
    change (s₁.updated_content.insert k item.content).lookup k' = some c at hc
    by_cases hk' : k' = k
    · subst hk'
      exact ⟨i, hcarries.held _ _ hopens.held_self, .inl hnew⟩
    · rw [AList.lookup_insert_ne hk', hopens.updated] at hc
      obtain ⟨j, hj, hcase⟩ := h.recorded k' c hc
      exact ⟨j, hcarries.held _ _ (hopens.held hj), hcase⟩

theorem Backed.delete (h : Backed t.structured_directory start s plans) {rowid : Str} {u : Unit}
    (hrun : t.delete rowid s = .ok u s') :
    ∃ plans', Backed t.structured_directory start s' plans' := by
  obtain ⟨item, k, fd, p, i, s₁, -, -, hopens, rfl⟩ :=
    FilesystemFdw.delete_ok h.sound.coherent h.sound.faults hrun
  have hopened := h.opens_there hopens
  have hcarries : Carries s₁ (FilesystemFdw.deleted s₁ k item) := .congr rfl rfl
  refine ⟨[] :: plans, hopened.sound.congr rfl rfl, hopened.bound, ?_, hopened.undoes, ?_⟩
  · have hlog : (FilesystemFdw.deleted s₁ k item).current_transaction_state.reverse =
        .delete item :: s₁.current_transaction_state.reverse := by
      simp [FilesystemFdw.deleted]
    rw [hlog]
    exact .cons .delete (undone_carries hopened.log hcarries)
  · intro k' c hc
    obtain ⟨j, hj, hcase⟩ := hopened.recorded k' c hc
    exact ⟨j, hcarries.held _ _ hj, hcase⟩

/-- The inode behind a path that is opened is the one that was read there. -/
theorem fileContent_of_opens {k : Str} {fd i : ℕ} {p : Path} {data : Bytes}
    (hopens : Opens s s' k (some .missing) fd p i) (hdata : s.os.fileContent k = some data) :
    data = s.os.content i := by
  obtain ⟨j, hstat, rfl⟩ := Os.fileContent_eq_some.mp hdata
  obtain ⟨q, hq, hnode⟩ := Os.stat_eq_some.mp hstat
  have hpath := hopens.carries.resolve k q hq
  rw [hopens.path] at hpath
  cases hpath
  have hfile := hopens.there.1
  rw [hnode] at hfile
  cases hfile
  rfl

/-- The old item of an update can be written back, and its content is the one in the file, or
one that the transaction has recorded. -/
theorem oldContent (hs : Sound s) {oldfilename : Str} {newvalues : Row} {olditem : Item} {k : Str}
    (hsource : ∀ k v, t.source (.update oldfilename newvalues) = .ok (some k) →
      s.updated_content.lookup k = some v → v.truthy = true → v.Writable s.os.process)
    (hrun : t.oldItem oldfilename s = .ok olditem s')
    (hk : t.structured_directory.fullFilename olditem = .ok k) :
    olditem.content.Writable s.os.process ∧ ((∃ c, s.updated_content.lookup k = some c) ∨
      s.os.fileContent k = some (olditem.content.toBytes s.os.process)) := by
  obtain ⟨-, item, k', hitem, hk', hproperties, hcontent⟩ :=
    FilesystemFdw.oldItem_ok hs.coherent hs.faults hrun
  rw [fullFilename_congr hproperties, hk'] at hk
  cases hk
  have hempty : item.content = .bytes [] := by
    unfold FilesystemFdw.rowItem Directory.fromFilename Directory.item at hitem
    split at hitem
    · split_ifs at hitem <;> cases hitem
      rfl
    · cases hitem
  cases hrecorded : s.updated_content.lookup k with
  | none =>
    rw [hrecorded, Option.getD_none, hempty] at hcontent
    obtain ⟨data, hdata, hbytes⟩ := hcontent
    rw [hbytes]
    exact ⟨⟨_, rfl⟩, .inr hdata⟩
  | some c =>
    rw [hrecorded, Option.getD_some] at hcontent
    refine ⟨?_, .inl ⟨c, rfl⟩⟩
    by_cases htruthy : c.truthy = true
    · simp only [htruthy, if_true] at hcontent
      rw [hcontent]
      apply hsource k c _ hrecorded htruthy
      unfold FilesystemFdw.source
      simp only [hitem, hk', bind, Except.bind, pure, Except.pure]
    · simp only [if_neg htruthy] at hcontent
      obtain ⟨data, -, hbytes⟩ := hcontent
      rw [hbytes]
      exact ⟨_, rfl⟩

/-- The path that a renaming update makes is its target. -/
theorem target_of_update (hs : Sound s) {oldfilename : Str} {newvalues : Row}
    {olditem newitem : Item} {k₀ k : Str} (hrun : t.oldItem oldfilename s = .ok olditem s')
    (hnew : t.newItem olditem oldfilename newvalues = .ok newitem)
    (hk₀ : t.structured_directory.fullFilename olditem = .ok k₀)
    (hk : t.structured_directory.fullFilename newitem = .ok k) (hne : k₀ ≠ k) :
    t.target (.update oldfilename newvalues) = .ok (some k) := by
  obtain ⟨-, item, k', hitem, hk', hproperties, -⟩ :=
    FilesystemFdw.oldItem_ok hs.coherent hs.faults hrun
  obtain ⟨newitem', hnew', hsame⟩ := newItem_congr hproperties hnew
  rw [fullFilename_congr hproperties, hk'] at hk₀
  cases hk₀
  rw [← fullFilename_congr hsame] at hk
  unfold FilesystemFdw.target
  simp only [hitem, hnew', hk', hk, bind, Except.bind, pure, Except.pure, if_neg hne]

theorem lastRestore_cons_ne {i : ℕ} {u : FileUndo} {undos : List FileUndo}
    (h : lastRestore i undos ≠ none) : lastRestore i (u :: undos) ≠ none := by
  cases u with
  | remove p => exact h
  | restore j data =>
    obtain ⟨data', hdata⟩ := Option.ne_none_iff_exists'.mp h
    simp [lastRestore, hdata]

theorem lastRestore_self {i : ℕ} {data : Bytes} {undos : List FileUndo} :
    lastRestore i (.restore i data :: undos) ≠ none := by
  cases h : lastRestore i undos <;> simp [lastRestore, h]

/-- Writing the old content back can be added to what undoes the tree. -/
theorem Backed.push_restore (h : Backed d start s plans) {k : Str} {i : ℕ} {data : Bytes}
    (hi : Held s k i) (hold : (∃ c, s.updated_content.lookup k = some c) ∨
      ∀ p, start.file p = some i → data = s.os.content i) :
    Undoes (.restore i data :: plans.flatten) start s.os.store := by
  apply h.undoes.push_restore
  intro p hp hnone
  rcases hold with ⟨c, hc⟩ | hdata
  · obtain ⟨j, hj, hcase⟩ := h.recorded k c hc
    obtain rfl := hi.unique hj
    rcases hcase with hnew | hrestore
    · exact absurd hp (hnew p)
    · exact absurd hnone hrestore
  · exact hdata p hp

/-- An open sees nothing of the recorded contents. -/
theorem Opens.unrecorded {k' : Str} {fail_if : Option FailIf} {fd i : ℕ} {p : Path}
    (h : Opens s s' k' fail_if fd p i) (updated : AList fun _ : Str => PyVal) :
    Opens { s with updated_content := updated } { s' with updated_content := updated } k' fail_if
      fd p i :=
  ⟨h.log, h.invisible, rfl, h.cache, h.opened, h.others, h.path, h.node, h.grows, h.parent, h.same,
    h.files⟩

theorem Backed.update (h : Backed t.structured_directory start s plans) {oldfilename : Str}
    {newvalues row : Row} (hundoable : t.Undoable s (.update oldfilename newvalues))
    (hrun : t.update oldfilename newvalues s = .ok row s') :
    ∃ plans', Backed t.structured_directory start s' plans' := by
  obtain ⟨olditem, newitem, k₀, k, s₁, hold, hnew, hk₀, hk, hswitch⟩ :=
    FilesystemFdw.update_ok h.sound.coherent h.sound.faults hrun
  obtain ⟨hwritable, hcontent⟩ := oldContent h.sound hundoable.source hold hk₀
  have hview := FilesystemFdw.oldItem_sameView h.sound hold
  rw [← hview.process] at hwritable hcontent
  have h₁ := h.still hview
  have hfree : k₀ ≠ k → s.os.exists? k = false := fun hne =>
    hundoable.target k (target_of_update h.sound hold hnew hk₀ hk hne)
  have hrestored : ∀ {s₂ : State} {fd i : ℕ} {p : Path},
      Opens s₁ s₂ k₀ (some .missing) fd p i →
      Backed t.structured_directory start s₂ plans ∧
        Undoes (.restore i (olditem.content.toBytes s₁.os.process) :: plans.flatten) start s₂.os.store := by
    intro s₂ fd i p hopens
    have h₂ := h₁.opens_there hopens
    refine ⟨h₂, h₂.push_restore hopens.held_self ?_⟩
    rcases hcontent with ⟨c, hc⟩ | hdata
    · left
      rw [hopens.updated, hview.updated]
      exact ⟨c, hc⟩
    · right
      intro q hq
      have hdata₁ : s₁.os.fileContent k₀ = some (olditem.content.toBytes s₁.os.process) := by
        unfold Os.fileContent at hdata ⊢
        rw [hview.stat, hview.content]
        exact hdata
      rw [fileContent_of_opens hopens hdata₁]
      exact (hopens.grows.content i (h₁.bound q i hq)).symm
  cases hswitch with
  | @stay s₂ fd i p heq hopens =>
    subst heq
    have hopens' : Opens s₁ { s₂ with updated_content := s₁.updated_content } k₀ (some .missing)
        fd p i := hopens.unrecorded s₁.updated_content
    obtain ⟨h₂, hundoes⟩ := hrestored hopens'
    have hcarries : Carries { s₂ with updated_content := s₁.updated_content }
        (FilesystemFdw.logged s₂ (.update olditem newitem)) := .congr rfl rfl
    have hself : Held (FilesystemFdw.logged s₂ (.update olditem newitem)) k₀ i :=
      hcarries.held _ _ hopens'.held_self
    refine ⟨[.restore i (olditem.content.toBytes s₁.os.process)] :: plans,
      h₂.sound.congr rfl rfl, h₂.bound, ?_,
      hundoes, ?_⟩
    · have hlog : (FilesystemFdw.logged s₂ (.update olditem newitem)).current_transaction_state.reverse =
          .update olditem newitem :: s₂.current_transaction_state.reverse := by
        simp [FilesystemFdw.logged]
      have hprocess : (FilesystemFdw.logged s₂ (.update olditem newitem)).os.process =
          s₁.os.process := hopens.grows.process
      rw [hlog, ← hprocess]
      rw [← hprocess] at hwritable
      exact .cons (.content hk₀ hk hself hwritable) (undone_carries h₂.log hcarries)
    · intro k' c hc
      change s₂.updated_content.lookup k' = some c at hc
      rw [hopens.updated] at hc
      change (s₁.updated_content.insert k₀ newitem.content).lookup k' = some c at hc
      by_cases hk' : k' = k₀
      · subst hk'
        exact ⟨i, hself, .inr lastRestore_self⟩
      · rw [AList.lookup_insert_ne hk'] at hc
        obtain ⟨j, hj, hcase⟩ := h₂.recorded k' c hc
        exact ⟨j, hcarries.held _ _ hj, hcase.imp_right lastRestore_cons_ne⟩
  | @move s₂ s₃ fd fd' i i' p p' hne hopens hmade =>
    have hopens' : Opens s₁ { s₂ with updated_content := s₁.updated_content } k₀ (some .missing)
        fd p i := hopens.unrecorded s₁.updated_content
    have hmade' : Opens { s₂ with updated_content := s₁.updated_content }
        { s₃ with updated_content := s₁.updated_content } k (some .exists) fd' p' i' :=
      hmade.unrecorded s₁.updated_content
    obtain ⟨h₂, hrestore⟩ := hrestored hopens'
    have hfresh : ∀ j, ¬ Held { s₂ with updated_content := s₁.updated_content } k j := by
      intro j hj
      have hj₁ : Held s₁ k j := hopens'.held_of_ne (fun h => hne h.symm) hj
      exact not_held_of_free h.sound (hfree hne) j ((hview.held k j).mp hj₁)
    obtain ⟨hundoes, hbound, hnewInode⟩ := undoes_new hrestore h₂.bound hmade' hfresh
    have hcarries : Carries { s₃ with updated_content := s₁.updated_content }
        (FilesystemFdw.renamed s₃ k₀ k olditem newitem) := .congr rfl rfl
    have hall := hmade'.carries.trans hcarries
    refine ⟨[.remove p', .restore i (olditem.content.toBytes s₁.os.process)] :: plans,
      (hmade'.sound h₂.sound).congr rfl rfl, hbound, ?_, hundoes, ?_⟩
    · have hlog : (FilesystemFdw.renamed s₃ k₀ k olditem newitem).current_transaction_state.reverse =
          .update olditem newitem :: s₂.current_transaction_state.reverse := by
        simp [FilesystemFdw.renamed, hmade.log]
      have hprocess : (FilesystemFdw.renamed s₃ k₀ k olditem newitem).os.process =
          s₁.os.process := hmade.grows.process.trans hopens.grows.process
      rw [hlog, ← hprocess]
      rw [← hprocess] at hwritable
      apply List.Forall₂.cons
      · exact .rename hk₀ hk (fun h => hne h.symm) (hcarries.resolve _ _ hmade'.path)
          (hall.held _ _ hopens'.held_self) hwritable
      · exact undone_carries h₂.log hall
    · intro k' c hc
      change s₃.updated_content.lookup k' = some c at hc
      rw [hmade.updated, hopens.updated] at hc
      change (s₁.updated_content.insert k newitem.content).lookup k' = some c at hc
      by_cases hk' : k' = k
      · subst hk'
        exact ⟨i', hcarries.held _ _ hmade'.held_self, .inl hnewInode⟩
      · rw [AList.lookup_insert_ne hk'] at hc
        obtain ⟨j, hj, hcase⟩ := h₂.recorded k' c hc
        exact ⟨j, hall.held _ _ hj,
          hcase.imp_right fun h => lastRestore_cons_ne (lastRestore_cons_ne h)⟩

end Steps

/-! Undoing. -/

/-- The cached descriptors are open, and no call is made to fail. -/
structure Usable (s : State) : Prop where
  opened : Opened s
  faults : s.os.faults = []

theorem Os.store_unlink {os : Os} {path : Str} {p : Path} {i : ℕ} (hfile : os.file p = some i) :
    ({ os.touch path with nodes := os.nodes.erase p } : Os).store =
      { os.store with file := Function.update os.file p none } := by
  have hp : p ≠ [] := by
    rintro rfl
    simp [Os.file, Os.node] at hfile
  have hnode : ∀ q, ({ os.touch path with nodes := os.nodes.erase p } : Os).node q =
      if q = p then none else os.node q := @Os.node_erase (os.touch path) _ hp
  unfold Os.store
  congr 1
  funext q
  unfold Os.file
  rw [hnode]
  by_cases hq : q = p
  · subst hq
    simp
  · simp [hq]

/-- A file that is there can be unlinked, and nothing else is lost. -/
theorem unlink_ok (hs : Usable s) {k : Str} {p : Path} {i : ℕ} (hk : s.os.resolve k = .ok p)
    (hfile : s.os.file p = some i) : ∃ s', call (unlink k) s = .ok () s' ∧ Usable s' ∧
      Carries s s' ∧ s'.os.store = { s.os.store with file := Function.update s.os.file p none } := by
  have hp : p ≠ [] := by
    rintro rfl
    simp [Os.file, Os.node] at hfile
  have hnode : ∀ q, ({ s.os.touch k with nodes := s.os.nodes.erase p } : Os).node q =
      if q = p then none else s.os.node q := @Os.node_erase (s.os.touch k) _ hp
  have hdirs : s.os.DirsKept { s.os.touch k with nodes := s.os.nodes.erase p } := by
    refine ⟨rfl, fun q hq => ?_⟩
    have hne : q ≠ p := by
      rintro rfl
      rw [Os.file_eq_some, hq] at hfile
      cases hfile
    rw [hnode, if_neg hne, hq]
  refine ⟨{ s with os := { s.os.touch k with nodes := s.os.nodes.erase p } }, ?_,
    ⟨⟨hs.opened.fds, hs.opened.distinct⟩, hs.faults⟩, ⟨rfl, fun k' q hq => hdirs.resolve hq,
      fun k' j hj => hj⟩, Os.store_unlink hfile⟩
  exact call_eq_ok.mpr ⟨_, (unlink_eq_ok hs.faults).mpr ⟨p, i, hk, hfile, rfl⟩, rfl⟩

theorem update_twice {c : ℕ → Bytes} {i : ℕ} {data : Bytes} :
    Function.update (Function.update c i []) i
        (data ++ ((Function.update c i [] i).drop data.length)) = Function.update c i data := by
  rw [Function.update_self, Function.update_idem, List.drop_nil, List.append_nil]

/-- With a descriptor that can write, an item is written into its file. -/
theorem write_held (hs : Usable s) {item : Item} {k : Str} {i : ℕ}
    (hk : d.fullFilename item = .ok k) (hi : Held s k i)
    (hw : item.content.Writable s.os.process) : ∃ s', item.write d none s = .ok () s' ∧ Usable s' ∧
      Carries s s' ∧ s'.os.store = { s.os.store with
        content := Function.update s.os.content i (item.content.toBytes s.os.process) } := by
  obtain ⟨fd, hentry, hfd, hopen⟩ := openExclusive_held hs.faults hi none
  let s₁ : State := { s with cache := s.cache.insert k (fd, false) }
  have hlookup : ∀ k', s₁.cache.lookup k' = s.cache.lookup k' := by
    intro k'
    by_cases hk' : k' = k
    · subst hk'
      rw [hentry]
      exact AList.lookup_insert ..
    · exact AList.lookup_insert_ne hk'
  have hopenFd : item.openFd d false none s = .ok fd s₁ := openFd_exclusive.mpr ⟨k, hk, hopen⟩
  have hafter : ∀ content : ℕ → Bytes,
      let s' : State := { s₁ with os := { s.os with content } }
      Usable s' ∧ Carries s s' := by
    intro content s'
    refine ⟨⟨⟨fun k' e he => ?_, fun k₁ k₂ e₁ e₂ h₁ h₂ => ?_⟩, hs.faults⟩,
      ⟨rfl, fun k' q hq => ?_, fun k' j hj => ?_⟩⟩
    · exact hs.opened.fds k' e ((hlookup k').symm.trans he)
    · exact hs.opened.distinct k₁ k₂ e₁ e₂ ((hlookup k₁).symm.trans h₁) ((hlookup k₂).symm.trans h₂)
    · have hresolve : s'.os.resolve k' = s.os.resolve k' := by
        apply Os.resolve_congr
        · intro q
          rfl
        · rfl
      exact hresolve.trans hq
    · obtain ⟨n, hn, hfile⟩ := hj
      exact ⟨n, (hlookup k').trans hn, hfile⟩
  have htruncate : call (ftruncate fd) s₁ = .ok () { s₁ with os := s.os.withContent i [] } :=
    call_eq_ok.mpr ⟨_, (ftruncate_eq_ok hs.faults).mpr ⟨i, hfd, rfl⟩, rfl⟩
  have hwrite : ∀ data, call (writeStart fd data) { s₁ with os := s.os.withContent i [] } =
      .ok () { s₁ with os := { s.os with content := Function.update s.os.content i data } } := by
    intro data
    refine call_eq_ok.mpr ⟨_, (writeStart_eq_ok (by exact hs.faults)).mpr ⟨i, hfd, rfl⟩, ?_⟩
    unfold Os.withContent
    simp only [update_twice]
  obtain ⟨written, hwritten⟩ := hw
  have hbytes : item.content.toBytes s.os.process = written.getD [] := by
    unfold PyVal.toBytes
    rw [hwritten]
  rw [hbytes]
  refine ⟨_, ?_, (hafter (Function.update s.os.content i (written.getD []))).1, (hafter _).2, rfl⟩
  unfold Item.write
  simp only [bind_eq_ok]
  refine ⟨fd, s₁, hopenFd, (), _, htruncate, _, _, (get_eq_ok ..).mpr ⟨rfl, rfl⟩, written, _,
    liftExcept_eq_ok.mpr ⟨hwritten, rfl⟩, ?_⟩
  cases written with
  | none => rfl
  | some data =>
    simp only [Option.getD_some]
    rw [hwrite]

section Undoing

variable {start : FileStore}

/-- Undoing one operation of the log. -/
theorem undoOperation_ok (hs : Usable s) {op : Operation} {undos rest : List FileUndo}
    (hop : Undone t.structured_directory s op undos)
    (hundoes : Undoes (undos ++ rest) start s.os.store) :
    ∃ s', t.undoOperation op s = .ok () s' ∧ Usable s' ∧ Carries s s' ∧
      Undoes rest start s'.os.store := by
  have hremoved : ∀ {s : State} {p : Path} {rest : List FileUndo} {k : Str}, Usable s →
      s.os.resolve k = .ok p → Undoes (.remove p :: rest) start s.os.store →
      ∃ s', call (unlink k) s = .ok () s' ∧ Usable s' ∧ Carries s s' ∧
        Undoes rest start s'.os.store := by
    intro s p rest k hs hp hundoes
    obtain ⟨i, hi⟩ := Option.ne_none_iff_exists'.mp (hundoes.fresh p List.mem_cons_self).1
    obtain ⟨now, happly, hrest⟩ := hundoes.apply
    have hnow : now = { s.os.store with file := Function.update s.os.file p none } := by
      have hi' : s.os.file p = some i := hi
      simp only [Undo.apply, Os.store, hi', Option.some.injEq] at happly
      exact happly.symm
    obtain ⟨s', hrun, hs', hcarries, hstore⟩ := unlink_ok hs hp hi
    refine ⟨s', hrun, hs', hcarries, ?_⟩
    rw [hstore, ← hnow]
    exact hrest
  have hwritten : ∀ {s : State} {i : ℕ} {rest : List FileUndo} {k : Str} {item : Item},
      Usable s → t.structured_directory.fullFilename item = .ok k → Held s k i →
      item.content.Writable s.os.process →
      Undoes (.restore i (item.content.toBytes s.os.process) :: rest) start s.os.store →
      ∃ s', item.write t.structured_directory none s = .ok () s' ∧ Usable s' ∧ Carries s s' ∧
        Undoes rest start s'.os.store := by
    intro s i rest k item hs hk hi hw hundoes
    obtain ⟨now, happly, hrest⟩ := hundoes.apply
    obtain ⟨s', hrun, hs', hcarries, hstore⟩ := write_held hs hk hi hw
    refine ⟨s', hrun, hs', hcarries, ?_⟩
    cases happly
    rw [hstore]
    exact hrest
  cases hop with
  | @insert item k p hk hp =>
    obtain ⟨s', hrun, hrest⟩ := hremoved hs hp hundoes
    refine ⟨s', ?_, hrest⟩
    unfold FilesystemFdw.undoOperation Item.remove
    simp only [bind_eq_ok, liftExcept_eq_ok]
    exact ⟨k, s, ⟨hk, rfl⟩, hrun⟩
  | @content olditem newitem k i hk₀ hk hi hcontent =>
    obtain ⟨s', hrun, hrest⟩ := hwritten hs hk₀ hi hcontent hundoes
    refine ⟨s', ?_, hrest⟩
    unfold FilesystemFdw.undoOperation
    simp only [bind_eq_ok, liftExcept_eq_ok]
    refine ⟨k, s, ⟨hk₀, rfl⟩, k, s, ⟨hk, rfl⟩, ?_⟩
    rw [if_neg (fun h => h rfl)]
    exact hrun
  | @rename olditem newitem k₀ k i p hk₀ hk hne hp hi hcontent =>
    obtain ⟨s₁, hunlink, hs₁, hcarries, hundoes₁⟩ := hremoved hs hp hundoes
    rw [← hcarries.process] at hcontent hundoes₁
    obtain ⟨s', hrun, hs', hcarries', hrest⟩ := hwritten hs₁ hk₀ (hcarries.held _ _ hi) hcontent
      hundoes₁
    refine ⟨s', ?_, hs', hcarries.trans hcarries', hrest⟩
    unfold FilesystemFdw.undoOperation
    simp only [bind_eq_ok, liftExcept_eq_ok]
    refine ⟨k₀, s, ⟨hk₀, rfl⟩, k, s, ⟨hk, rfl⟩, ?_⟩
    rw [if_pos hne]
    simp only [bind_eq_ok]
    exact ⟨(), s₁, hunlink, hrun⟩
  | delete => exact ⟨s, rfl, hs, ⟨rfl, fun _ _ h => h, fun _ _ h => h⟩, hundoes⟩

/-- Undoing the whole log, the last operation first. -/
theorem undoLog_ok {ops : List Operation} {plans : List (List FileUndo)} (hs : Usable s)
    (hops : List.Forall₂ (Undone t.structured_directory s) ops plans)
    (hundoes : Undoes plans.flatten start s.os.store) :
    ∃ s', ops.forM t.undoOperation s = .ok () s' ∧ Usable s' ∧ Undoes [] start s'.os.store := by
  induction ops generalizing s plans with
  | nil =>
    cases hops
    exact ⟨s, rfl, hs, hundoes⟩
  | cons op ops ih =>
    cases hops with
    | @cons _ undos _ plans hop hops =>
      rw [List.flatten_cons] at hundoes
      obtain ⟨s₁, hrun, hs₁, hcarries, hundoes₁⟩ := undoOperation_ok hs hop hundoes
      obtain ⟨s', hrest, hs', hdone⟩ := ih hs₁ (undone_carries hops hcarries) hundoes₁
      refine ⟨s', ?_, hs', hdone⟩
      have hcons : (op :: ops).forM t.undoOperation =
          (t.undoOperation op >>= fun _ => ops.forM t.undoOperation) := rfl
      rw [hcons, bind_eq_ok]
      exact ⟨(), s₁, hrun, hrest⟩

/-- Clearing up after a transaction closes every descriptor and leaves the tree alone. -/
theorem postXactCleanup_ok (hs : Usable s) :
    ∃ s', FilesystemFdw.postXactCleanup s = .ok () s' ∧ s'.os.store = s.os.store ∧
      s'.cache = ∅ ∧ s'.current_transaction_state = [] ∧ s'.invisible_files = [] ∧
      s'.updated_content = ∅ := by
  let s₁ : State := { s with current_transaction_state := [], invisible_files := [] }
  have hopened : Opened s₁ := ⟨hs.opened.fds, hs.opened.distinct⟩
  obtain ⟨s₂, keys, hclear, hdrops, hcache⟩ := clearCache_all hopened hs.faults
  refine ⟨{ s₂ with updated_content := ∅ }, ?_, ?_, hcache, hdrops.log, hdrops.invisible, rfl⟩
  · unfold FilesystemFdw.postXactCleanup
    simp only [bind_eq_ok, modify_eq_ok]
    exact ⟨(), s₁, rfl, (), s₂, hclear, rfl⟩
  · have hfile : s₂.os.file = s.os.file := by
      funext p
      exact hdrops.file p
    unfold Os.store
    rw [hdrops.content]
    simp only [hfile, s₁]

/-- A rollback undoes what the log says. -/
theorem rollback_of_log (hs : Usable s) {plans : List (List FileUndo)}
    (hlog : List.Forall₂ (Undone t.structured_directory s) s.current_transaction_state.reverse plans)
    (hundoes : Undoes plans.flatten start s.os.store) :
    ∃ s', t.rollback s = .ok () s' ∧ Undoes [] start s'.os.store := by
  obtain ⟨s₁, hundo, hs₁, hdone⟩ := undoLog_ok hs hlog hundoes
  obtain ⟨s', hcleanup, hstore, -⟩ := postXactCleanup_ok hs₁
  refine ⟨s', ?_, ?_⟩
  · unfold FilesystemFdw.rollback
    simp only [bind_eq_ok, get_eq_ok]
    exact ⟨s, s, ⟨rfl, rfl⟩, (), s₁, hundo, hcleanup⟩
  · rw [hstore]
    exact hdone

theorem rollback_ok {plans : List (List FileUndo)}
    (h : Backed t.structured_directory start s plans) :
    ∃ s', t.rollback s = .ok () s' ∧ Undoes [] start s'.os.store :=
  rollback_of_log ⟨h.sound.coherent.toOpened, h.sound.faults⟩ h.log h.undoes

/-- Nothing is left to undo, so every regular file is what it was. -/
theorem data_of_undoes {os : Os} (h : Undoes [] os.store s.os.store) (p : Path) :
    s.os.data p = os.data p := by
  have hfile : s.os.file p = os.file p := congrFun h.file_eq p
  unfold Os.data
  rw [hfile]
  cases hp : os.file p with
  | none => rfl
  | some i => exact congrArg some (h.content_eq hp)

end Undoing

/-- A transaction that is about to begin: nothing is logged, hidden, recorded or cached, and a
new file gets an inode that no file has. -/
structure Fresh (s : State) : Prop where
  log : s.current_transaction_state = []
  invisible : s.invisible_files = []
  updated : s.updated_content = ∅
  cache : s.cache = ∅
  faults : s.os.faults = []
  inodes : ∀ p i, s.os.file p = some i → i < s.os.nextInode

theorem Fresh.sound (h : Fresh s) : Sound s := ⟨coherent_of_empty h.cache, h.faults⟩

theorem Fresh.backed (h : Fresh s) : Backed d s.os.store s [] where
  sound := h.sound
  bound := h.inodes
  log := by
    rw [h.log]
    exact .nil
  undoes := .refl _
  recorded k c hk := by
    rw [h.updated] at hk
    cases hk

namespace FilesystemFdw

/-- A call in the course of a transaction: reads may fail, but what writes succeeds and can be
undone. -/
structure Careful (t : FilesystemFdw) (s : State) (a : Action) : Prop where
  inside : a.Inside
  succeeds : a.Reads ∨ t.Succeeds s a
  undoable : t.Undoable s a

theorem backed_after {start : FileStore} (h : ∃ plans, Backed t.structured_directory start s plans)
    {a : Action} (ha : t.Careful s a) :
    ∃ plans, Backed t.structured_directory start (t.after s a) plans := by
  obtain ⟨plans, h⟩ := h
  by_cases hreads : a.Reads
  · exact ⟨plans, h.still (sameView_reads hreads h.sound)⟩
  · have hsucceeds := ha.succeeds.resolve_left hreads
    obtain ⟨u, hu⟩ := Option.isSome_iff_exists.mp hsucceeds
    obtain ⟨s', hrun⟩ := of_value? hu
    unfold after
    rw [hrun]
    change ∃ plans, Backed _ start s' plans
    cases a with
    | insert values =>
      obtain ⟨row, hrun⟩ := discard_eq_ok.mp hrun
      exact h.insert ha.undoable.target hrun
    | update oldfilename newvalues =>
      obtain ⟨row, hrun⟩ := discard_eq_ok.mp hrun
      exact h.update ha.undoable hrun
    | delete rowid => exact h.delete hrun
    | scan quals columns => exact absurd trivial hreads
    | endScan => exact absurd trivial hreads
    | preCommit => exact absurd ha.inside id
    | rollback => exact absurd ha.inside id

theorem backed_run (hs : Fresh s) {actions : List Action} (h : t.Along t.Careful s actions) :
    ∃ plans, Backed t.structured_directory s.os.store (t.run s actions) plans :=
  run_invariant (I := fun s' => ∃ plans, Backed t.structured_directory s.os.store s' plans)
    (fun _ _ hs' ha => backed_after hs' ha) ⟨[], hs.backed⟩ h

/-- After a transaction that makes no file where there is one, and never updates a file whose
recorded content cannot be written, a rollback succeeds and leaves every regular file with the
content that it had at the start. -/
theorem rollback_restores (hs : Fresh s) {actions : List Action}
    (h : t.Along t.Careful s actions) :
    ∃ s', t.rollback (t.run s actions) = .ok () s' ∧ ∀ p, s'.os.data p = s.os.data p := by
  obtain ⟨plans, hplans⟩ := backed_run hs h
  obtain ⟨s', hrun, hundoes⟩ := rollback_ok hplans
  exact ⟨s', hrun, data_of_undoes hundoes⟩

end FilesystemFdw

section Sample

/-- The root directory with one file `x`. -/
def oneFile : State := sampleState [([['r'], ['x']], .file 0)] fun _ => [65]

theorem oneFile_fresh : Fresh oneFile := by
  refine ⟨rfl, rfl, rfl, rfl, rfl, fun p i hp => ?_⟩
  have hkeys := Os.mem_keys_of_file hp
  have hcases : p ∈ [[['r'], ['x']], [['r']]] := hkeys
  rcases List.mem_cons.mp hcases with rfl | hcases
  · cases hp
    decide
  · obtain rfl := List.mem_singleton.mp hcases
    cases hp

/-- An update that is rolled back. -/
theorem update_restored : ∃ s',
    flatTable.rollback (flatTable.run oneFile [.update ['x'] (flatRow ['x'] (.str ['1']))]) =
      .ok () s' ∧ ∀ p, s'.os.data p = oneFile.os.data p := by
  apply FilesystemFdw.rollback_restores oneFile_fresh
  refine ⟨⟨trivial, .inr (by decide), fun k hk => ?_, fun k v _ hv => ?_⟩, trivial⟩
  · have htarget : flatTable.target (.update ['x'] (flatRow ['x'] (.str ['1']))) = .ok none := rfl
    rw [htarget] at hk
    cases hk
  · cases hv

/-- A file that is deleted and inserted again is lost in the rollback, though all calls succeed. -/
theorem reinserted_lost :
    let actions := [Action.delete ['x'], .insert (flatRow ['x'] (.str ['1']))]
    flatTable.Along (fun s a => flatTable.Succeeds s a) oneFile actions ∧
      oneFile.os.data [['r'], ['x']] = some [65] ∧
      (flatTable.after (flatTable.run oneFile actions) .rollback).os.data [['r'], ['x']] = none := by
  intro actions
  refine ⟨⟨by decide, by decide, trivial⟩, rfl, by decide⟩

end Sample

end Multicorn.Fs
