import Multicorn.Fs.Fdw
import Multicorn.General.StateMonad

/-! What the calls of the operating system do when none of them is made to fail. -/
namespace Multicorn.Fs
open Multicorn.StateMonad

variable {os os' : Os}

namespace Os

/-- The inode of the regular file at a path. -/
def file (os : Os) (p : Path) : Option ℕ :=
  match os.node p with
  | some (.file inode) => some inode
  | _ => none

theorem file_eq_some {p : Path} {i : ℕ} : os.file p = some i ↔ os.node p = some (.file i) := by
  unfold file
  split <;> simp_all

theorem node_ne_nil {p : Path} (h : os.node p = none) : p ≠ [] := by
  rintro rfl
  simp [node] at h

theorem node_withNode {p : Path} (hp : p ≠ []) (n : Node) (q : Path) :
    (os.withNode p n).node q = if q = p then some n else os.node q := by
  unfold withNode node
  by_cases hq : q = p
  · subst hq
    simp [hp]
  · simp [AList.lookup_insert_ne hq, hq]

theorem node_erase {p : Path} (hp : p ≠ []) (q : Path) :
    ({ os with nodes := os.nodes.erase p } : Os).node q = if q = p then none else os.node q := by
  unfold node
  by_cases hq : q = p
  · subst hq
    simp [hp]
  · simp [AList.lookup_erase_ne hq, hq]

@[simp] theorem node_withFd (fd : ℕ) (f : Option OpenFile) (p : Path) :
    (os.withFd fd f).node p = os.node p := rfl

@[simp] theorem node_withContent (i : ℕ) (data : Bytes) (p : Path) :
    (os.withContent i data).node p = os.node p := rfl

@[simp] theorem node_touch (path : Str) (p : Path) : (os.touch path).node p = os.node p := rfl

/-- Path resolution looks at the nodes only. -/
theorem walk_congr (h : ∀ p, os'.node p = os.node p) (hprocess : os'.process = os.process)
    (cur : Path) (names : List Str) : os'.walk cur names = os.walk cur names := by
  induction names generalizing cur with
  | nil => rfl
  | cons c rest ih => simp only [walk, h, hprocess, ih]

theorem resolve_congr (h : ∀ p, os'.node p = os.node p) (hprocess : os'.process = os.process) (q : Str) :
    os'.resolve q = os.resolve q := by
  simp only [resolve, walk_congr h hprocess, hprocess]

theorem stat_eq_some {path : Str} {node : Node} :
    os.stat path = some node ↔ ∃ p, os.resolve path = .ok p ∧ os.node p = some node := by
  unfold stat
  cases os.resolve path with
  | ok p => simp
  | error e => simp

theorem node_of_isfile {path : Str} (h : os.isfile path = true) :
    ∃ p i, os.resolve path = .ok p ∧ os.node p = some (.file i) := by
  unfold isfile at h
  cases hstat : os.stat path with
  | none =>
    rw [hstat] at h
    cases h
  | some node =>
    cases node with
    | dir =>
      rw [hstat] at h
      cases h
    | file i =>
      obtain ⟨p, hp, hnode⟩ := stat_eq_some.mp hstat
      exact ⟨p, i, hp, hnode⟩

theorem stat_congr (h : ∀ p, os'.node p = os.node p) (hprocess : os'.process = os.process) (q : Str) :
    os'.stat q = os.stat q := by
  simp only [stat, resolve_congr h hprocess, h]

@[simp] theorem resolve_touch (path q : Str) : (os.touch path).resolve q = os.resolve q :=
  @resolve_congr os (os.touch path) (fun _ => rfl) rfl q

@[simp] theorem stat_touch (path q : Str) : (os.touch path).stat q = os.stat q :=
  @stat_congr os (os.touch path) (fun _ => rfl) rfl q

@[simp] theorem exists_touch (path q : Str) : (os.touch path).exists? q = os.exists? q := by
  simp only [exists?, stat_touch]

@[simp] theorem isfile_touch (path q : Str) : (os.touch path).isfile q = os.isfile q := by
  simp only [isfile, stat_touch]

theorem freeFd_le : os.freeFd ≤ os.fds.length := List.findIdx_le_length

theorem fd_freeFd : os.fd os.freeFd = none := by
  unfold fd freeFd
  by_cases h : os.fds.findIdx Option.isNone < os.fds.length
  · have hnone := List.findIdx_getElem (w := h)
    rw [List.getElem?_eq_getElem h]
    simpa using hnone
  · rw [List.getElem?_eq_none (by omega)]
    rfl

theorem fd_withFd {n : ℕ} (hn : n ≤ os.fds.length) (f : Option OpenFile) (m : ℕ) :
    (os.withFd n f).fd m = if m = n then f else os.fd m := by
  unfold withFd fd
  by_cases hlt : n < os.fds.length
  · by_cases hm : m = n
    · subst hm
      simp [hlt]
    · have hm' : n ≠ m := fun h => hm h.symm
      simp [hlt, hm, List.getElem?_set_ne hm']
  · have hlen : n = os.fds.length := by omega
    subst hlen
    by_cases hm : m = os.fds.length
    · subst hm
      simp
    · by_cases hml : m < os.fds.length
      · simp [hm, List.getElem?_append_left hml]
      · have hge : os.fds.length + 1 ≤ m := by omega
        simp [hm, List.getElem?_eq_none (show (os.fds ++ [f]).length ≤ m by simpa using hge),
          List.getElem?_eq_none (show os.fds.length ≤ m by omega)]

theorem fd_lt {n : ℕ} {f : OpenFile} (h : os.fd n = some f) : n < os.fds.length := by
  by_contra hn
  unfold fd at h
  rw [List.getElem?_eq_none (by omega)] at h
  cases h

/-- No directory is lost, so a path that was resolved once is resolved in the same way. -/
structure DirsKept (os os' : Os) : Prop where
  process : os'.process = os.process
  dirs : ∀ p, os.node p = some .dir → os'.node p = some .dir

theorem DirsKept.refl (os : Os) : DirsKept os os := ⟨rfl, fun _ h => h⟩

theorem DirsKept.trans {a b c : Os} (h : DirsKept a b) (h' : DirsKept b c) : DirsKept a c :=
  ⟨h'.process.trans h.process, fun p hp => h'.dirs p (h.dirs p hp)⟩

private theorem DirsKept.walk (h : DirsKept os os') {names : List Str} {cur p : Path}
    (hp : os.walk cur names = .ok p) : os'.walk cur names = .ok p := by
  induction names generalizing cur with
  | nil => exact hp
  | cons c rest ih =>
    simp only [Os.walk] at hp ⊢
    cases hnode : os.node cur with
    | none =>
      rw [hnode] at hp
      cases hp
    | some node =>
      cases node with
      | file i =>
        rw [hnode] at hp
        cases hp
      | dir =>
        rw [hnode] at hp
        rw [h.dirs cur hnode]
        simp only [h.process] at hp ⊢
        split_ifs at hp ⊢
        · exact ih hp
        · exact ih hp
        · exact ih hp

theorem DirsKept.resolve (h : DirsKept os os') {path : Str} {p : Path}
    (hp : os.resolve path = .ok p) : os'.resolve path = .ok p := by
  unfold Os.resolve at hp ⊢
  rw [h.process]
  split_ifs at hp ⊢
  · exact h.walk hp
  · exact h.walk hp

end Os

theorem resolveCall_eq_ok {path : Str} {p : Path} :
    resolveCall path os = .ok p os' ↔ os.resolve path = .ok p ∧ os.touch path = os' := by
  simp only [resolveCall, bind_eq_ok, modify_eq_ok, get_eq_ok]
  cases hp : os.resolve path with
  | ok q => simp [hp, pure_eq_ok]
  | error e => simp [hp, throw_ne_ok]

theorem pathExists_eq_ok {path : Str} {b : Bool} :
    pathExists path os = .ok b os' ↔ os.exists? path = b ∧ os.touch path = os' := by
  simp only [pathExists, bind_eq_ok, modify_eq_ok, get_eq_ok, pure_eq_ok]
  constructor
  · rintro ⟨_, _, rfl, _, _, ⟨rfl, rfl⟩, rfl, rfl⟩
    exact ⟨(Os.exists_touch path path).symm, rfl⟩
  · rintro ⟨rfl, rfl⟩
    exact ⟨(), _, rfl, _, _, ⟨rfl, rfl⟩, Os.exists_touch path path, rfl⟩

theorem getFd_eq_ok {fd : ℕ} {f : OpenFile} :
    getFd fd os = .ok f os' ↔ os.fd fd = some f ∧ os = os' := by
  simp only [getFd, bind_eq_ok, get_eq_ok]
  cases hfd : os.fd fd with
  | some g => simp [hfd, pure_eq_ok]
  | none => simp [hfd, throw_ne_ok]

theorem getInode_eq_ok {fd i : ℕ} :
    getInode fd os = .ok i os' ↔ (∃ rdwr, os.fd fd = some ⟨.file i, rdwr⟩) ∧ os = os' := by
  simp only [getInode, bind_eq_ok, getFd_eq_ok]
  constructor
  · rintro ⟨⟨node, rdwr⟩, _, ⟨hfd, rfl⟩, h⟩
    cases node with
    | dir => exact absurd h throw_ne_ok
    | file j =>
      obtain ⟨rfl, rfl⟩ := pure_eq_ok.mp h
      exact ⟨⟨rdwr, hfd⟩, rfl⟩
  · rintro ⟨⟨rdwr, hfd⟩, rfl⟩
    exact ⟨_, _, ⟨hfd, rfl⟩, rfl⟩

theorem umask_eq_ok {mask old : ℕ} :
    umask mask os = .ok old os' ↔ old = os.umask ∧ os' = { os with umask := mask } := by
  simp only [umask, bind_eq_ok, get_eq_ok, modify_eq_ok, pure_eq_ok]
  constructor
  · rintro ⟨_, _, ⟨rfl, rfl⟩, _, _, rfl, rfl, rfl⟩
    exact ⟨rfl, rfl⟩
  · rintro ⟨rfl, rfl⟩
    exact ⟨_, _, ⟨rfl, rfl⟩, (), _, rfl, rfl, rfl⟩

section Calls

variable (hf : os.faults = [])

include hf

private theorem enter_bind {α : Type} {x : Call α} {a : α} :
    (enter >>= fun _ => x) os = .ok a os' ↔ x os = .ok a os' := by
  simp [bind, EStateM.bind, enter, hf]

/-- The system with a new empty file at a path. -/
def Os.created (os : Os) (p : Path) : Os :=
  { (os.withNode p (.file os.nextInode)).withContent os.nextInode [] with
    nextInode := os.nextInode + 1 }

theorem osOpen_eq_ok {path : Str} {flags : OpenFlags} {fd : ℕ} :
    osOpen path flags os = .ok fd os' ↔ fd = os.freeFd ∧ ∃ p, os.resolve path = .ok p ∧
      ((∃ node, os.node p = some node ∧ ¬ (flags.creat && flags.excl) = true ∧
          ¬ (node = .dir ∧ (flags.rdwr || flags.creat) = true) ∧
          os' = (os.touch path).withFd os.freeFd (some ⟨node, flags.rdwr⟩)) ∨
        os.node p = none ∧ flags.creat = true ∧
          os' = ((os.touch path).created p).withFd os.freeFd
            (some ⟨.file os.nextInode, flags.rdwr⟩)) := by
  unfold osOpen
  rw [enter_bind hf]
  simp only [bind_eq_ok, resolveCall_eq_ok, get_eq_ok]
  constructor
  · rintro ⟨p, _, ⟨hp, rfl⟩, _, _, ⟨rfl, rfl⟩, h⟩
    cases hnode : os.node p with
    | some node =>
      simp only [Os.node_touch, hnode] at h
      split_ifs at h with hexcl hdir
      · exact absurd h throw_ne_ok
      · exact absurd h throw_ne_ok
      · cases h
        exact ⟨rfl, p, hp, .inl ⟨node, hnode, hexcl, hdir, rfl⟩⟩
    | none =>
      simp only [Os.node_touch, hnode] at h
      split_ifs at h with hcreat
      · simp only [bind_eq_ok, get_eq_ok, modify_eq_ok] at h
        obtain ⟨_, _, ⟨rfl, rfl⟩, _, _, rfl, h⟩ := h
        cases h
        exact ⟨rfl, p, hp, .inr ⟨hnode, hcreat, rfl⟩⟩
      · exact absurd h throw_ne_ok
  · rintro ⟨rfl, p, hp, ⟨node, hnode, hexcl, hdir, rfl⟩ | ⟨hnode, hcreat, rfl⟩⟩
    · refine ⟨p, _, ⟨hp, rfl⟩, _, _, ⟨rfl, rfl⟩, ?_⟩
      simp only [Os.node_touch, hnode, if_neg hexcl, if_neg hdir]
      rfl
    · refine ⟨p, _, ⟨hp, rfl⟩, _, _, ⟨rfl, rfl⟩, ?_⟩
      simp only [Os.node_touch, hnode, if_pos hcreat]
      rfl

theorem isRdwr_eq_ok {fd : ℕ} {b : Bool} :
    isRdwr fd os = .ok b os' ↔ (∃ f, os.fd fd = some f ∧ f.rdwr = b) ∧ os = os' := by
  unfold isRdwr
  rw [enter_bind hf]
  simp only [bind_eq_ok, getFd_eq_ok, pure_eq_ok]
  constructor
  · rintro ⟨f, _, ⟨hfd, rfl⟩, rfl, rfl⟩
    exact ⟨⟨f, hfd, rfl⟩, rfl⟩
  · rintro ⟨⟨f, hfd, rfl⟩, rfl⟩
    exact ⟨f, _, ⟨hfd, rfl⟩, rfl, rfl⟩

theorem flock_eq_ok {fd : ℕ} {u : Unit} :
    flock fd os = .ok u os' ↔ (∃ f, os.fd fd = some f) ∧ os = os' := by
  unfold flock
  rw [enter_bind hf]
  simp only [discard_eq_ok, getFd_eq_ok]
  constructor
  · rintro ⟨f, hfd, rfl⟩
    exact ⟨⟨f, hfd⟩, rfl⟩
  · rintro ⟨⟨f, hfd⟩, rfl⟩
    exact ⟨f, hfd, rfl⟩

theorem osClose_eq_ok {fd : ℕ} {u : Unit} :
    osClose fd os = .ok u os' ↔ (∃ f, os.fd fd = some f) ∧ os' = os.withFd fd none := by
  unfold osClose
  rw [enter_bind hf]
  simp only [bind_eq_ok, discard_eq_ok, getFd_eq_ok, modify_eq_ok]
  constructor
  · rintro ⟨_, _, ⟨f, hfd, rfl⟩, rfl⟩
    exact ⟨⟨f, hfd⟩, rfl⟩
  · rintro ⟨⟨f, hfd⟩, rfl⟩
    exact ⟨(), _, ⟨f, hfd, rfl⟩, rfl⟩

theorem ftruncate_eq_ok {fd : ℕ} {u : Unit} :
    ftruncate fd os = .ok u os' ↔
      ∃ i, os.fd fd = some ⟨.file i, true⟩ ∧ os' = os.withContent i [] := by
  unfold ftruncate
  rw [enter_bind hf]
  simp only [bind_eq_ok, getInode_eq_ok, getFd_eq_ok]
  constructor
  · rintro ⟨i, _, ⟨⟨rdwr, hfd⟩, rfl⟩, f, _, ⟨hfd', rfl⟩, h⟩
    obtain rfl := Option.some.inj (hfd.symm.trans hfd')
    cases rdwr with
    | false => exact absurd h throw_ne_ok
    | true => exact ⟨i, hfd, (modify_eq_ok.mp h).symm⟩
  · rintro ⟨i, hfd, rfl⟩
    exact ⟨i, os, ⟨⟨true, hfd⟩, rfl⟩, _, os, ⟨hfd, rfl⟩, rfl⟩

theorem writeStart_eq_ok {fd : ℕ} {data : Bytes} {u : Unit} :
    writeStart fd data os = .ok u os' ↔ ∃ i, os.fd fd = some ⟨.file i, true⟩ ∧
      os' = os.withContent i (data ++ (os.content i).drop data.length) := by
  unfold writeStart
  rw [enter_bind hf]
  simp only [bind_eq_ok, getInode_eq_ok, getFd_eq_ok]
  constructor
  · rintro ⟨i, _, ⟨⟨rdwr, hfd⟩, rfl⟩, f, _, ⟨hfd', rfl⟩, h⟩
    obtain rfl := Option.some.inj (hfd.symm.trans hfd')
    cases rdwr with
    | false => exact absurd h throw_ne_ok
    | true => exact ⟨i, hfd, (modify_eq_ok.mp h).symm⟩
  · rintro ⟨i, hfd, rfl⟩
    exact ⟨i, os, ⟨⟨true, hfd⟩, rfl⟩, _, os, ⟨hfd, rfl⟩, rfl⟩

theorem readStart_eq_ok {fd : ℕ} {data : Bytes} :
    readStart fd os = .ok data os' ↔
      ∃ i rdwr, os.fd fd = some ⟨.file i, rdwr⟩ ∧ data = os.content i ∧ os = os' := by
  unfold readStart
  rw [enter_bind hf]
  simp only [bind_eq_ok, getInode_eq_ok, get_eq_ok, pure_eq_ok]
  constructor
  · rintro ⟨i, _, ⟨⟨rdwr, hfd⟩, rfl⟩, _, _, ⟨rfl, rfl⟩, rfl, rfl⟩
    exact ⟨i, rdwr, hfd, rfl, rfl⟩
  · rintro ⟨i, rdwr, hfd, rfl, rfl⟩
    exact ⟨i, os, ⟨⟨rdwr, hfd⟩, rfl⟩, os, os, ⟨rfl, rfl⟩, rfl, rfl⟩

theorem unlink_eq_ok {path : Str} {u : Unit} :
    unlink path os = .ok u os' ↔ ∃ p i, os.resolve path = .ok p ∧ os.file p = some i ∧
      os' = { os.touch path with nodes := os.nodes.erase p } := by
  unfold unlink
  rw [enter_bind hf]
  simp only [bind_eq_ok, resolveCall_eq_ok, get_eq_ok]
  constructor
  · rintro ⟨p, _, ⟨hp, rfl⟩, _, _, ⟨rfl, rfl⟩, h⟩
    cases hnode : os.node p with
    | none =>
      rw [Os.node_touch, hnode] at h
      exact absurd h throw_ne_ok
    | some node =>
      cases node with
      | dir =>
        rw [Os.node_touch, hnode] at h
        exact absurd h throw_ne_ok
      | file i =>
        rw [Os.node_touch, hnode] at h
        exact ⟨p, i, hp, Os.file_eq_some.mpr hnode, (modify_eq_ok.mp h).symm⟩
  · rintro ⟨p, i, hp, hfile, rfl⟩
    refine ⟨p, _, ⟨hp, rfl⟩, _, _, ⟨rfl, rfl⟩, ?_⟩
    rw [Os.node_touch, Os.file_eq_some.mp hfile]
    rfl

end Calls

section Makedirs

/-- Nothing happens but that directories are made where there was nothing. -/
structure Os.OnlyDirs (os os' : Os) : Prop where
  process : os'.process = os.process
  content : os'.content = os.content
  nextInode : os'.nextInode = os.nextInode
  fds : os'.fds = os.fds
  faults : os'.faults = os.faults
  kept : ∀ p n, os.node p = some n → os'.node p = some n
  files : ∀ p, os'.file p = os.file p

theorem Os.OnlyDirs.refl (os : Os) : os.OnlyDirs os :=
  ⟨rfl, rfl, rfl, rfl, rfl, fun _ _ h => h, fun _ => rfl⟩

theorem Os.OnlyDirs.trans {a b c : Os} (h : a.OnlyDirs b) (h' : b.OnlyDirs c) : a.OnlyDirs c where
  process := h'.process.trans h.process
  content := h'.content.trans h.content
  nextInode := h'.nextInode.trans h.nextInode
  fds := h'.fds.trans h.fds
  faults := h'.faults.trans h.faults
  kept p n hn := h'.kept p n (h.kept p n hn)
  files p := (h'.files p).trans (h.files p)

theorem Os.onlyDirs_withNode {p : Path} (hp : os.node p = none) : os.OnlyDirs (os.withNode p .dir) := by
  refine ⟨rfl, rfl, rfl, rfl, rfl, fun q n hn => ?_, fun q => ?_⟩
  · rw [Os.node_withNode (Os.node_ne_nil hp)]
    split_ifs with hq
    · rw [hq, hp] at hn
      cases hn
    · exact hn
  · unfold Os.file
    rw [Os.node_withNode (Os.node_ne_nil hp)]
    split_ifs with hq
    · rw [hq, hp]
    · rfl

/-- The relation of `makedirs`, for a system without faults. -/
def DirMove (os os' : Os) : Prop := os.faults = [] → os.OnlyDirs os'

theorem DirMove.refl (os : Os) : DirMove os os := fun _ => .refl os

theorem DirMove.trans (a b c : Os) (h : DirMove a b) (h' : DirMove b c) : DirMove a c := by
  intro hf
  have hab := h hf
  exact hab.trans (h' (hab.faults.trans hf))

theorem Os.onlyDirs_touch (os : Os) (path : Str) : os.OnlyDirs (os.touch path) :=
  ⟨rfl, rfl, rfl, rfl, rfl, fun _ _ h => h, fun _ => rfl⟩

private theorem pathExists_moves (name : Str) : Moves DirMove (pathExists name) :=
  fun os _ => Os.onlyDirs_touch os name

private theorem mkdir_moves (name : Str) : Moves DirMove (mkdir name) := by
  intro os hf
  have htouch := Os.onlyDirs_touch os name
  simp only [mkdir, resolveCall, bind, EStateM.bind, enter, hf, get, getThe, MonadStateOf.get,
    run_get, modify, modifyGet, MonadStateOf.modifyGet, run_modifyGet]
  cases (os.touch name).resolve name with
  | error e => exact htouch
  | ok p =>
    simp only [pure, EStateM.pure]
    cases hp : (os.touch name).node p with
    | some node => exact htouch
    | none => exact htouch.trans (Os.onlyDirs_withNode hp)

private theorem makedirs_step {name : Str}
    (ih : (splitLast name).1 ≠ [] ∧ (splitLast name).2 ≠ [] →
      Moves DirMove (makedirs (splitLast name).1)) : Moves DirMove (makedirs name) := by
  rw [makedirs]
  by_cases h : (splitLast name).1 ≠ [] ∧ (splitLast name).2 ≠ []
  · rw [dif_pos h]
    refine Moves.bind DirMove.trans (pathExists_moves _) fun there => ?_
    have hhead : Moves DirMove (tryCatch (makedirs (splitLast name).1) fun e =>
        if e = .EEXIST then pure () else throw e) := by
      refine Moves.tryCatch DirMove.trans (ih h) fun e => ?_
      split_ifs
      · exact Moves.pure DirMove.refl ()
      · exact Moves.throw DirMove.refl e
    cases there with
    | true => exact mkdir_moves name
    | false =>
      refine Moves.bind DirMove.trans hhead fun _ => ?_
      split_ifs
      · exact Moves.pure DirMove.refl ()
      · exact mkdir_moves name
  · rw [dif_neg h]
    exact mkdir_moves name

theorem makedirs_moves (name : Str) : Moves DirMove (makedirs name) := by
  induction name using makedirs.induct with
  | case1 name _ ih => exact makedirs_step fun _ => ih
  | case2 name h => exact makedirs_step fun h' => absurd h' h

theorem onlyDirs_of_makedirs (hf : os.faults = []) {name : Str} {u : Unit}
    (h : makedirs name os = .ok u os') : os.OnlyDirs os' :=
  (makedirs_moves name).of_ok h hf

end Makedirs

end Multicorn.Fs
