import Multicorn.Fs.Preserved
import Multicorn.Fs.Reopening

/-! Invariants of the tree: what making and removing nodes keeps, every call of the wrapper
keeps. -/
namespace Multicorn.Fs
open Multicorn.StateMonad

variable {s s' : State} {os : Os} {k : Str} {J : Os → Prop}

/-- The nodes and the contents are the same. -/
structure Os.SameStore (os os' : Os) : Prop where
  nodes : os'.nodes = os.nodes
  process : os'.process = os.process
  nextInode : os'.nextInode = os.nextInode
  content : os'.content = os.content
  faults : os.faults = [] → os'.faults = []

theorem Os.SameStore.refl (os : Os) : os.SameStore os := ⟨rfl, rfl, rfl, rfl, id⟩

theorem Os.SameStore.trans (a b c : Os) (h : a.SameStore b) (h' : b.SameStore c) :
    a.SameStore c :=
  ⟨h'.nodes.trans h.nodes, h'.process.trans h.process, h'.nextInode.trans h.nextInode,
    h'.content.trans h.content, fun hf => h'.faults (h.faults hf)⟩

theorem Os.SameStore.node {os' : Os} (h : os.SameStore os') (p : Path) : os'.node p = os.node p := by
  unfold Os.node
  rw [h.nodes]

theorem Os.SameStore.file {os' : Os} (h : os.SameStore os') (p : Path) : os'.file p = os.file p := by
  unfold Os.file
  rw [h.node]

theorem Os.Steady.sameStore {os' : Os} (h : os.Steady os') : os.SameStore os' :=
  ⟨h.nodes, h.process, h.nextInode, h.content, h.faults⟩

/-- The invariant is about the tree, and new directories and files keep it. -/
structure Os.Growing (J : Os → Prop) : Prop where
  same : ∀ os os', os.SameStore os' → J os → J os'
  directory : ∀ {os path p}, os.resolve path = .ok p → os.node p = none → J os →
    J (os.withNode p .dir)
  file : ∀ {os path p}, os.resolve path = .ok p → os.node p = none → J os → J (os.created p)

/-- So do other contents, and the removal of a file. -/
structure Os.Sustained (J : Os → Prop) : Prop extends Os.Growing J where
  rewritten : ∀ {os} (content : ℕ → Bytes), J os → J { os with content }
  erased : ∀ {os p i}, os.file p = some i → J os → J { os with nodes := os.nodes.erase p }

/-! Calls that leave the nodes alone. -/

theorem sameStore_of_steady {α : Type} {x : Call α} (h : Moves Os.Steady x) :
    Moves Os.SameStore x := fun os => (h os).sameStore

theorem sameStore_discard {α : Type} {x : Call α} (h : Moves Os.SameStore x) :
    Moves Os.SameStore (discard x) := by
  intro os
  have hos := h os
  simp only [Functor.discard, Functor.mapConst, EStateM.map, Function.comp_apply, Function.const]
  cases hrun : x os with
  | ok a os₁ =>
    rw [hrun] at hos
    exact hos
  | error e os₁ =>
    rw [hrun] at hos
    exact hos

theorem sameStore_isRdwr (fd : ℕ) : Moves Os.SameStore (isRdwr fd) :=
  Moves.bind Os.SameStore.trans (sameStore_of_steady steady_enter) fun _ =>
    Moves.bind Os.SameStore.trans (sameStore_of_steady (steady_getFd fd)) fun _ =>
      Moves.pure Os.SameStore.refl _

theorem sameStore_flock (fd : ℕ) : Moves Os.SameStore (flock fd) :=
  Moves.bind Os.SameStore.trans (sameStore_of_steady steady_enter) fun _ =>
    sameStore_discard (sameStore_of_steady (steady_getFd fd))

theorem sameStore_osClose (fd : ℕ) : Moves Os.SameStore (osClose fd) :=
  Moves.bind Os.SameStore.trans (sameStore_of_steady steady_enter) fun _ =>
    Moves.bind Os.SameStore.trans (sameStore_discard (sameStore_of_steady (steady_getFd fd)))
      fun _ => Moves.modify fun _ => ⟨rfl, rfl, rfl, rfl, id⟩

theorem sameStore_umask (mask : ℕ) : Moves Os.SameStore (umask mask) :=
  fun _ => ⟨rfl, rfl, rfl, rfl, id⟩

section Growing

variable (hJ : Os.Growing J)

include hJ

theorem Os.Growing.of_moves {α : Type} {x : Call α} (h : Moves Os.SameStore x) :
    Keeps J x fun _ => True :=
  fun os hos => ⟨hJ.same os _ (h os) hos, fun _ _ => trivial⟩

theorem Os.Growing.bind_resolve {α : Type} {Q : α → Prop} {f : Path → Call α} {path : Str}
    (hf : ∀ p os, J os → os.resolve path = .ok p → Ends J Q (f p os)) :
    Keeps J (resolveCall path >>= f) Q := by
  intro os hos
  have htouch : J (os.touch path) := hJ.same os _ ⟨rfl, rfl, rfl, rfl, id⟩ hos
  have hresolve : (os.touch path).resolve path = os.resolve path := Os.resolve_touch path path
  cases hp : os.resolve path with
  | ok p =>
    have hrun : resolveCall path os = .ok p (os.touch path) := resolveCall_eq_ok.mpr ⟨hp, rfl⟩
    simp only [bind, EStateM.bind, hrun]
    exact hf p _ htouch (hresolve.trans hp)
  | error e =>
    have hrun : resolveCall path os = .error e (os.touch path) := by
      simp [resolveCall, bind, EStateM.bind, modify, modifyGet, MonadStateOf.modifyGet,
        run_modifyGet, get, getThe, MonadStateOf.get, run_get, hresolve, hp, throw, throwThe,
        MonadExceptOf.throw, run_throw]
    simp only [bind, EStateM.bind, hrun]
    exact ends_error htouch

/-! Calls that make nodes. -/

theorem Os.Growing.osOpen (path : Str) (flags : OpenFlags) :
    Keeps J (osOpen path flags) fun _ => True := by
  refine Keeps.bind (hJ.of_moves (sameStore_of_steady steady_enter)) fun _ _ =>
    hJ.bind_resolve fun p os hos hp => ?_
  have halloc : ∀ (os : Os) (file : OpenFile), J os → Ends J (fun _ => True) (allocFd file os) :=
    fun os file hos => ends_ok (hJ.same os _ ⟨rfl, rfl, rfl, rfl, id⟩ hos) trivial
  simp only [bind, EStateM.bind, get, getThe, MonadStateOf.get, run_get]
  cases hnode : os.node p with
  | some node =>
    simp only
    split_ifs
    · exact ends_error hos
    · exact ends_error hos
    · exact halloc os _ hos
  | none =>
    simp only
    split_ifs
    · exact halloc _ _ (hJ.file hp hnode hos)
    · exact ends_error hos

theorem Os.Growing.mkdir (path : Str) : Keeps J (mkdir path) fun _ => True := by
  refine Keeps.bind (hJ.of_moves (sameStore_of_steady steady_enter)) fun _ _ =>
    hJ.bind_resolve fun p os hos hp => ?_
  simp only [bind, EStateM.bind, get, getThe, MonadStateOf.get, run_get]
  cases hnode : os.node p with
  | some node => exact ends_error hos
  | none => exact ends_ok (hJ.directory hp hnode hos) trivial

theorem Os.Growing.makedirs (name : Str) : Keeps J (makedirs name) fun _ => True := by
  induction name using makedirs.induct with
  | case1 name h ih =>
    rw [Fs.makedirs, dif_pos h]
    refine Keeps.bind (hJ.of_moves (sameStore_of_steady (steady_pathExists _))) fun there _ => ?_
    cases there with
    | true => exact hJ.mkdir name
    | false =>
      refine Keeps.bind (Keeps.tryCatch ih fun e => ?_) fun _ _ => ?_
      · split_ifs
        · exact Keeps.pure trivial
        · exact Keeps.throw e
      · split_ifs
        · exact Keeps.pure trivial
        · exact hJ.mkdir name
  | case2 name h =>
    rw [Fs.makedirs, dif_neg h]
    exact hJ.mkdir name

end Growing

/-! Opening and closing. -/

theorem call_keepsOs {α : Type} {x : Call α} {Q : α → Prop} (h : Keeps J x Q) :
    Keeps (fun s : State => J s.os) (call x) Q := by
  intro s hs
  obtain ⟨hos, hQ⟩ := h s.os hs
  unfold call
  cases hrun : x s.os with
  | ok a os =>
    rw [hrun] at hos hQ
    exact ends_ok hos (hQ a rfl)
  | error e os =>
    rw [hrun] at hos
    exact ends_error hos

section Opening

variable (hJ : Os.Growing J)

include hJ

theorem Os.Growing.call {α : Type} {x : Call α} (h : Moves Os.SameStore x) :
    Keeps (fun s : State => J s.os) (call x) fun _ => True := call_keepsOs (hJ.of_moves h)

theorem Os.Growing.makeParent (dir : Str) :
    Keeps (fun s : State => J s.os) (makeParent dir) fun _ => True := by
  refine Keeps.bind (hJ.call (sameStore_of_steady (steady_pathExists dir))) fun there _ => ?_
  cases there with
  | true => exact Keeps.pure trivial
  | false =>
    refine Keeps.bind (hJ.call (sameStore_umask 0)) fun mask _ => ?_
    refine Keeps.bind (call_keepsOs (hJ.makedirs dir)) fun _ _ => ?_
    exact (hJ.call (sameStore_umask mask)).discard

theorem Os.Growing.reopen (old : Option ℕ) (fail_if : Option FailIf) :
    Keeps (fun s : State => J s.os) (reopen k old fail_if) fun _ => True := by
  refine Keeps.bind (hJ.makeParent _) fun _ _ => Keeps.bind (P := fun _ => True) ?_ fun _ _ => ?_
  · cases old with
    | some fd => exact hJ.call (sameStore_osClose fd)
    | none => exact Keeps.pure trivial
  · refine Keeps.bind (hJ.call (sameStore_umask 0)) fun mask _ => ?_
    refine Keeps.bind (call_keepsOs (hJ.osOpen _ _)) fun fd _ => ?_
    exact Keeps.bind (hJ.call (sameStore_umask mask)).discard fun _ _ => Keeps.pure trivial

theorem Os.Growing.writableFd (fail_if : Option FailIf) :
    Keeps (fun s : State => J s.os) (writableFd k fail_if) fun _ => True := by
  intro s hs
  cases hentry : s.cache.lookup k with
  | none =>
    rw [writableFd_uncached hentry]
    exact hJ.reopen none fail_if s hs
  | some entry =>
    rw [writableFd_cached hentry]
    refine Keeps.bind (hJ.call (sameStore_isRdwr entry.1)) (fun rdwr _ => ?_) s hs
    split_ifs
    · exact Keeps.pure trivial
    · exact hJ.reopen _ fail_if

theorem Os.Growing.openExclusive (fail_if : Option FailIf) :
    Keeps (fun s : State => J s.os) (openExclusive k fail_if) fun _ => True := by
  refine Keeps.bind (hJ.writableFd fail_if) fun fd _ => ?_
  refine Keeps.bind (hJ.call (sameStore_flock fd)) fun _ _ => ?_
  exact Keeps.bind (Keeps.modify fun _ hs => hs) fun _ _ => Keeps.pure trivial

theorem Os.Growing.openShared : Keeps (fun s : State => J s.os) (openShared k) fun _ => True := by
  intro s hs
  cases hentry : s.cache.lookup k with
  | some entry =>
    rw [openShared_cached hentry]
    exact ends_ok hs trivial
  | none =>
    rw [openShared_uncached hentry]
    refine Keeps.bind (call_keepsOs (hJ.osOpen k _)) (fun fd _ => ?_) s hs
    refine Keeps.bind (hJ.call (sameStore_flock fd)) fun _ _ => ?_
    exact Keeps.bind (Keeps.modify fun _ hs => hs) fun _ _ => Keeps.pure trivial

theorem Os.Growing.clearCacheEntry :
    Keeps (fun s : State => J s.os) (clearCacheEntry k) fun _ => True := by
  refine Keeps.bind Keeps.get fun s _ => ?_
  cases s.cache.lookup k with
  | none => exact Keeps.throw _
  | some entry =>
    exact Keeps.bind (Keeps.modify fun _ hs => hs) fun _ _ => hJ.call (sameStore_osClose entry.1)

theorem Os.Growing.keptInside : KeptInside fun s => J s.os where
  steady _ _ hsteady _ hs := hJ.same _ _ hsteady.sameStore hs
  openShared _ := hJ.openShared
  openExclusive _ := hJ.openExclusive
  clearCacheEntry _ := hJ.clearCacheEntry

end Opening

theorem Os.Sustained.unlink (hJ : Os.Sustained J) (path : Str) :
    Keeps J (unlink path) fun _ => True := by
  refine Keeps.bind (hJ.of_moves (sameStore_of_steady steady_enter)) fun _ _ =>
    hJ.bind_resolve fun p os hos _ => ?_
  simp only [bind, EStateM.bind, get, getThe, MonadStateOf.get, run_get]
  cases hnode : os.node p with
  | none => exact ends_error hos
  | some node =>
    cases node with
    | file i => exact ends_ok (hJ.erased (Os.file_eq_some.mpr hnode) hos) trivial
    | dir => exact ends_error hos

theorem Os.Sustained.preserved (hJ : Os.Sustained J) : Preserved fun s => J s.os where
  toKeptInside := hJ.keptInside
  rewrites s s' h _ hs :=
    hJ.same { s.os with content := s'.os.content } _ ⟨h.nodes, h.process, h.nextInode, rfl, h.faults⟩
      (hJ.rewritten s'.os.content hs)
  unlink k := call_keepsOs (hJ.unlink k)

/-! The tree stays a tree, its directories stay, and every file keeps an inode of its own. -/

theorem sustained_tree : Os.Sustained Os.Tree where
  same _ _ h ht := ht.of_node_eq h.node h.process
  directory hp hnone ht := ht.withPath hp hnone .dir
  file {os _ _} hp hnone ht :=
    (ht.withPath hp hnone (.file os.nextInode)).of_node_eq (fun _ => rfl) rfl
  rewritten _ ht := ht.of_node_eq (fun _ => rfl) rfl
  erased hfile ht := ht.erase (Os.file_eq_some.mp hfile)

/-- Something new at a free path does not take the place of a directory. -/
theorem Os.DirsKept.withNode {start : Os} (h : start.DirsKept os) {p : Path}
    (hnone : os.node p = none) (n : Node) : start.DirsKept (os.withNode p n) := by
  refine ⟨h.process, fun q hq => ?_⟩
  have hdir := h.dirs q hq
  have hne : q ≠ p := by
    rintro rfl
    rw [hnone] at hdir
    cases hdir
  rw [Os.node_withNode (Os.node_ne_nil hnone), if_neg hne]
  exact hdir

theorem sustained_dirs (start : Os) : Os.Sustained start.DirsKept where
  same _ _ h hdirs := ⟨h.process.trans hdirs.process, fun p hp => (h.node p).trans (hdirs.dirs p hp)⟩
  directory _ hnone hdirs := hdirs.withNode hnone .dir
  file {os _ _} _ hnone hdirs :=
    ⟨hdirs.process, (hdirs.withNode hnone (.file os.nextInode)).dirs⟩
  rewritten _ hdirs := ⟨hdirs.process, hdirs.dirs⟩
  erased {os p i} hfile hdirs := by
    refine ⟨hdirs.process, fun q hq => ?_⟩
    have hdir := hdirs.dirs q hq
    have hne : q ≠ p := by
      rintro rfl
      rw [Os.file_eq_some, hdir] at hfile
      cases hfile
    rw [Os.node_erase (Os.ne_nil_of_file (by rw [hfile]; simp)), if_neg hne]
    exact hdir

theorem sustained_faultless : Os.Sustained fun os => os.faults = [] where
  same _ _ h hos := h.faults hos
  directory _ _ hos := hos
  file _ _ hos := hos
  rewritten _ hos := hos
  erased _ hos := hos

theorem Os.file_withNode_dir {p : Path} (hnone : os.node p = none) (q : Path) :
    (os.withNode p .dir).file q = os.file q := by
  unfold Os.file
  rw [Os.node_withNode (Os.node_ne_nil hnone)]
  by_cases hq : q = p
  · rw [if_pos hq, hq, hnone]
  · rw [if_neg hq]

/-- A new file gets an inode that no file has, and no path shares one with a path of its own. -/
structure Os.Numbered (own : Path → Prop) (os : Os) : Prop where
  bound : ∀ p i, os.file p = some i → i < os.nextInode
  alone : ∀ p q i, own p → os.file p = some i → os.file q = some i → p = q

theorem Os.Numbered.mono {own own' : Path → Prop} (h : os.Numbered own) (hown : ∀ p, own' p → own p) :
    os.Numbered own' := ⟨h.bound, fun p q i hp => h.alone p q i (hown p hp)⟩

theorem Os.Numbered.congr {own : Path → Prop} {os' : Os} (h : os.Numbered own)
    (hfile : ∀ p, os'.file p = os.file p) (hnext : os'.nextInode = os.nextInode) :
    os'.Numbered own where
  bound p i hp := by
    rw [hfile] at hp
    rw [hnext]
    exact h.bound p i hp
  alone p q i hown hp hq := by
    rw [hfile] at hp hq
    exact h.alone p q i hown hp hq

theorem Os.Numbered.created {own : Path → Prop} (h : os.Numbered own) {p : Path}
    (hnone : os.node p = none) : (os.created p).Numbered own := by
  have hcases : ∀ {q i}, (os.created p).file q = some i →
      q = p ∧ i = os.nextInode ∨ os.file q = some i ∧ i < os.nextInode := by
    intro q i hq
    rw [Os.created_file hnone] at hq
    by_cases hqp : q = p
    · subst hqp
      rw [Function.update_self] at hq
      exact .inl ⟨rfl, (Option.some.inj hq).symm⟩
    · rw [Function.update_of_ne hqp] at hq
      exact .inr ⟨hq, h.bound q i hq⟩
  constructor
  · intro q i hq
    change i < os.nextInode + 1
    rcases hcases hq with ⟨-, rfl⟩ | ⟨-, hlt⟩ <;> omega
  · intro q q' i hown hq hq'
    rcases hcases hq with ⟨rfl, hi⟩ | ⟨hold, hlt⟩ <;> rcases hcases hq' with ⟨rfl, hi'⟩ | ⟨hold', hlt'⟩
    · rfl
    · omega
    · omega
    · exact h.alone q q' i hown hold hold'

theorem sustained_numbered (own : Path → Prop) : Os.Sustained (Os.Numbered own) where
  same _ _ h hos := hos.congr h.file h.nextInode
  directory _ hnone hos := hos.congr (Os.file_withNode_dir hnone) rfl
  file _ hnone hos := hos.created hnone
  rewritten _ hos := hos.congr (fun _ => rfl) rfl
  erased {os p i} hfile hos := by
    have hsome : ∀ {q j}, ({ os with nodes := os.nodes.erase p } : Os).file q = some j →
        os.file q = some j := by
      intro q j hq
      rw [Os.file_erase (Os.ne_nil_of_file (by rw [hfile]; simp))] at hq
      by_cases hqp : q = p
      · subst hqp
        simp at hq
      · rwa [Function.update_of_ne hqp] at hq
    exact ⟨fun q j hq => hos.bound q j (hsome hq),
      fun q q' j hown hq hq' => hos.alone q q' j hown (hsome hq) (hsome hq')⟩

/-! Before its end a transaction writes to no file that was there. -/

/-- The files of the start are there, with their contents. -/
structure Os.KeepsFiles (start os : Os) : Prop where
  file : ∀ p i, start.file p = some i → os.file p = some i ∧ os.content i = start.content i
  bound : ∀ p i, start.file p = some i → i < os.nextInode

theorem growing_keepsFiles (start : Os) : Os.Growing start.KeepsFiles where
  same os os' h hos := by
    refine ⟨fun p i hp => ?_, fun p i hp => ?_⟩
    · rw [h.file, h.content]
      exact hos.file p i hp
    · rw [h.nextInode]
      exact hos.bound p i hp
  directory _ hnone hos :=
    ⟨fun p i hp => (Os.file_withNode_dir hnone p).symm ▸ hos.file p i hp, hos.bound⟩
  file {os _ p} _ hnone hos := by
    refine ⟨fun q i hq => ?_, fun q i hq => Nat.lt_succ_of_lt (hos.bound q i hq)⟩
    obtain ⟨hfile, hcontent⟩ := hos.file q i hq
    have hne : q ≠ p := by
      rintro rfl
      rw [Os.file_eq_some, hnone] at hfile
      cases hfile
    have hother : i ≠ os.nextInode := Nat.ne_of_lt (hos.bound q i hq)
    refine ⟨?_, ?_⟩
    · rw [Os.created_file hnone, Function.update_of_ne hne]
      exact hfile
    · change Function.update os.content os.nextInode [] i = _
      rw [Function.update_of_ne hother]
      exact hcontent

/-- Whatever is called in the course of a transaction, and whichever calls of the system fail, no
file that was there at the start is removed or written to before the commit. -/
theorem FilesystemFdw.files_untouched (t : FilesystemFdw)
    (hbound : ∀ p i, s.os.file p = some i → i < s.os.nextInode) {actions : List Action}
    (h : ∀ a ∈ actions, a.Inside) {p : Path} {data : Bytes} (hp : s.os.data p = some data) :
    (t.run s actions).os.data p = some data := by
  have hkept : s.os.KeepsFiles (t.run s actions).os :=
    FilesystemFdw.keptInside_run (growing_keepsFiles s.os).keptInside
      ⟨fun p i hp => ⟨hp, rfl⟩, hbound⟩ h
  obtain ⟨i, hi, rfl⟩ := Option.map_eq_some_iff.mp hp
  obtain ⟨hfile, hcontent⟩ := hkept.file p i hi
  exact Option.map_eq_some_iff.mpr ⟨i, hfile, hcontent⟩

section Sample

/-- A file that is deleted and inserted again is on the disk as it was. -/
theorem reinserted_untouched :
    (flatTable.run oneFile [.delete ['x'], .insert (flatRow ['x'] (.str ['1'])),
      .scan [] [['c']]]).os.data [['r'], ['x']] = some [65] :=
  flatTable.files_untouched oneFile_fresh.inodes (by simp [Action.Inside]) rfl

end Sample

end Multicorn.Fs
