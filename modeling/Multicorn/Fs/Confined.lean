import Multicorn.Fs.Paths
import Multicorn.Fs.Items

/-! Calls that touch paths under a root directory only. -/
namespace Multicorn.Fs
open Multicorn.StateMonad Multicorn.Descent

variable {os os' : Os} {root : Str}

/-! What the calls do to the tree. -/

namespace Os

theorem DirsKept.stat_dir (h : os.DirsKept os') {path : Str} (hpath : os.stat path = some .dir) :
    os'.stat path = some .dir := by
  unfold stat at hpath ⊢
  cases hp : os.resolve path with
  | error e =>
    rw [hp] at hpath
    cases hpath
  | ok p =>
    rw [hp] at hpath
    rw [h.resolve hp]
    exact h.dirs p hpath

theorem Tree.dropLast (ht : os.Tree) {p : Path} (hp : os.node p = some .dir) :
    os.node p.dropLast = some .dir := by
  rcases List.eq_nil_or_concat p with rfl | ⟨q, c, rfl⟩
  · rfl
  · rw [List.concat_eq_append] at hp ⊢
    rw [List.dropLast_concat]
    apply ht.parent q c
    rw [hp]
    rfl

/-- Where a path leads to nothing, its last component is missing in a directory. -/
theorem Tree.missing (ht : os.Tree) {cur p : Path} {comps : List Str} (hcomps : comps ≠ [])
    (h : os.walk cur comps = .ok p) (hp : os.node p = none) :
    ∃ q, ∃ c ∈ comps, p = q ++ [c] ∧ os.node q = some .dir ∧ component c = .down ∧
      os.process.fits c = true := by
  induction comps generalizing cur with
  | nil => exact absurd rfl hcomps
  | cons c rest ih =>
    have hrest : ∀ next, os.node next = some .dir → os.walk next rest = .ok p →
        ∃ q, ∃ d ∈ c :: rest, p = q ++ [d] ∧ os.node q = some .dir ∧ component d = .down ∧
          os.process.fits d = true := by
      intro next hnext hwalk
      by_cases hnil : rest = []
      · subst hnil
        cases hwalk
        rw [hp] at hnext
        cases hnext
      · obtain ⟨q, d, hd, hq⟩ := ih hnil hwalk
        exact ⟨q, d, List.mem_cons_of_mem _ hd, hq⟩
    simp only [walk] at h
    cases hcur : os.node cur with
    | none =>
      rw [hcur] at h
      cases h
    | some node =>
      cases node with
      | file i =>
        rw [hcur] at h
        cases h
      | dir =>
        simp only [hcur] at h
        split_ifs at h with hhere hup hfits
        · exact hrest cur hcur h
        · exact hrest cur.dropLast (ht.dropLast hcur) h
        · by_cases hnil : rest = []
          · subst hnil
            cases h
            refine ⟨cur, c, List.mem_cons_self, rfl, hcur, ?_, hfits⟩
            unfold component
            rw [if_neg hhere, if_neg hup]
          · obtain ⟨q, d, hd, hq⟩ := ih hnil h
            exact ⟨q, d, List.mem_cons_of_mem _ hd, hq⟩

theorem properName_of_down {c : Str} (hdown : component c = .down) (hslash : '/' ∉ c) :
    ProperName c := by
  unfold component at hdown
  split_ifs at hdown with hhere hup
  rw [not_or] at hhere
  exact ⟨hhere.1, hhere.2, hup, hslash⟩

theorem Tree.withNode (ht : os.Tree) {q : Path} {c : Str} (hq : os.node q = some .dir)
    (hc : ProperName c) (htaken : os.process.Takes c) (hnone : os.node (q ++ [c]) = none)
    (n : Node) : (os.withNode (q ++ [c]) n).Tree := by
  have hat : ∀ r, (os.withNode (q ++ [c]) n).node r = if r = q ++ [c] then some n else os.node r :=
    @node_withNode os _ (by simp) n
  have hold : ∀ r, os.node r = some .dir → (os.withNode (q ++ [c]) n).node r = some .dir := by
    intro r hr
    rw [hat, if_neg]
    · exact hr
    · rintro rfl
      rw [hnone] at hr
      cases hr
  constructor
  · intro r d hd
    rw [hat] at hd
    split_ifs at hd with heq
    · obtain ⟨rfl, -⟩ := List.append_inj' heq rfl
      exact hold r hq
    · exact hold r (ht.parent r d hd)
  · intro r d hd
    rw [hat] at hd
    split_ifs at hd with heq
    · obtain ⟨-, hsame⟩ := List.append_inj' heq rfl
      rw [List.singleton_inj.mp hsame]
      exact hc
    · exact ht.names r d hd
  · intro r d hd
    rw [hat] at hd
    split_ifs at hd with heq
    · obtain ⟨-, hsame⟩ := List.append_inj' heq rfl
      rw [List.singleton_inj.mp hsame]
      exact htaken
    · exact ht.taken r d hd

/-- A new node at a path that leads to nothing. -/
theorem Tree.withPath (ht : os.Tree) {path : Str} {p : Path} (hp : os.resolve path = .ok p)
    (hnone : os.node p = none) (n : Node) : (os.withNode p n).Tree := by
  obtain ⟨-, hpass, hwalk⟩ := resolve_eq_ok.mp hp
  obtain ⟨q, c, hc, rfl, hq, hdown, hfits⟩ := ht.missing (List.splitOn_ne_nil _ _) hwalk hnone
  rw [passes_eq_splitOn, List.all_eq_true] at hpass
  exact ht.withNode hq (properName_of_down hdown (slash_not_mem_splitOn path c hc))
    ⟨hpass c hc, hfits⟩ hnone n

theorem Tree.erase (ht : os.Tree) {p : Path} {i : ℕ} (hp : os.node p = some (.file i)) :
    ({ os with nodes := os.nodes.erase p } : Os).Tree := by
  have hne : p ≠ [] := by
    rintro rfl
    cases hp
  have hat := @node_erase os p hne
  constructor
  · intro r d hd
    rw [hat] at hd ⊢
    by_cases heq : r ++ [d] = p
    · rw [if_pos heq] at hd
      cases hd
    · rw [if_neg heq] at hd
      have hdir := ht.parent r d hd
      rw [if_neg]
      · exact hdir
      · rintro rfl
        rw [hp] at hdir
        cases hdir
  · intro r d hd
    rw [hat] at hd
    by_cases heq : r ++ [d] = p
    · rw [if_pos heq] at hd
      cases hd
    · rw [if_neg heq] at hd
      exact ht.names r d hd
  · intro r d hd
    rw [hat] at hd
    by_cases heq : r ++ [d] = p
    · rw [if_pos heq] at hd
      cases hd
    · rw [if_neg heq] at hd
      exact ht.taken r d hd

theorem dirsKept_withNode {p : Path} (hp : os.node p = none) (n : Node) :
    os.DirsKept (os.withNode p n) := by
  refine ⟨rfl, fun r hr => ?_⟩
  rw [node_withNode (node_ne_nil hp), if_neg]
  · exact hr
  · rintro rfl
    rw [hp] at hr
    cases hr

theorem dirsKept_erase {p : Path} {i : ℕ} (hp : os.node p = some (.file i)) :
    os.DirsKept { os with nodes := os.nodes.erase p } := by
  have hne : p ≠ [] := by
    rintro rfl
    cases hp
  refine ⟨rfl, fun r hr => ?_⟩
  rw [node_erase hne, if_neg]
  · exact hr
  · rintro rfl
    rw [hp] at hr
    cases hr

end Os

/-- The root is a directory of the tree, and all calls so far were about paths under it. -/
structure Os.Confined (root : Str) (os : Os) : Prop where
  tree : os.Tree
  isDir : os.stat root = some .dir
  touched : ∀ path ∈ os.touched, Under root path

namespace Os

theorem Confined.congr (h : os.Confined root) (hnode : ∀ p, os'.node p = os.node p)
    (hprocess : os'.process = os.process) (htouched : os'.touched = os.touched) : os'.Confined root := by
  refine ⟨h.tree.of_node_eq hnode hprocess, ?_, ?_⟩
  · rw [stat_congr hnode hprocess]
    exact h.isDir
  · rw [htouched]
    exact h.touched

theorem Confined.touch (h : os.Confined root) {path : Str} (hpath : Under root path) :
    (os.touch path).Confined root := by
  refine ⟨h.tree.of_node_eq (fun _ => rfl) rfl, ?_, ?_⟩
  · rw [stat_touch]
    exact h.isDir
  · intro q hq
    rcases List.mem_cons.mp hq with rfl | hq
    · exact hpath
    · exact h.touched q hq

theorem Confined.withNode (h : os.Confined root) {path : Str} {p : Path}
    (hp : os.resolve path = .ok p) (hnone : os.node p = none) (n : Node) :
    (os.withNode p n).Confined root :=
  ⟨h.tree.withPath hp hnone n, (dirsKept_withNode hnone n).stat_dir h.isDir, h.touched⟩

theorem Confined.erase (h : os.Confined root) {p : Path} {i : ℕ}
    (hp : os.node p = some (.file i)) :
    ({ os with nodes := os.nodes.erase p } : Os).Confined root :=
  ⟨h.tree.erase hp, (dirsKept_erase hp).stat_dir h.isDir, h.touched⟩

end Os

/-! The calls. -/

theorem enter_keeps : Keeps (Os.Confined root) enter fun _ => True := by
  intro os hos
  unfold enter
  cases os.faults with
  | nil => exact ends_ok hos trivial
  | cons fault faults =>
    have hrest : ({ os with faults } : Os).Confined root := hos.congr (fun _ => rfl) rfl rfl
    cases fault with
    | none => exact ends_ok hrest trivial
    | some e => exact ends_error hrest

/-- After a path under the root has been resolved. -/
theorem resolveCall_keeps {α : Type} {Q : α → Prop} {f : Path → Call α} {path : Str}
    (hpath : Under root path) (hf : ∀ p os, os.Confined root → os.resolve path = .ok p →
      Ends (Os.Confined root) Q (f p os)) : Keeps (Os.Confined root) (resolveCall path >>= f) Q := by
  intro os hos
  have htouch := hos.touch hpath
  have hresolve : (os.touch path).resolve path = os.resolve path := Os.resolve_touch path path
  cases hp : os.resolve path with
  | ok p =>
    have hrun : resolveCall path os = .ok p (os.touch path) := resolveCall_eq_ok.mpr ⟨hp, rfl⟩
    simp only [bind, EStateM.bind, hrun]
    exact hf p _ htouch (hresolve.trans hp)
  | error e =>
    have hrun : resolveCall path os = .error e (os.touch path) := by
      simp [resolveCall, bind, EStateM.bind, modify, modifyGet, MonadStateOf.modifyGet,
        run_modifyGet, get, getThe, MonadStateOf.get, run_get, hresolve, hp, throw, throwThe,
        MonadExceptOf.throw, run_throw]
    simp only [bind, EStateM.bind, hrun]
    exact ends_error htouch

theorem osOpen_keeps {path : Str} (hpath : Under root path) (flags : OpenFlags) :
    Keeps (Os.Confined root) (osOpen path flags) fun _ => True := by
  refine Keeps.bind enter_keeps fun _ _ => resolveCall_keeps hpath fun p os hos hp => ?_
  have halloc : ∀ (os : Os) (file : OpenFile), os.Confined root →
      Ends (Os.Confined root) (fun _ => True) (allocFd file os) := by
    intro os file hos
    exact ends_ok (hos.congr (fun _ => rfl) rfl rfl) trivial
  simp only [bind, EStateM.bind, get, getThe, MonadStateOf.get, run_get]
  cases hnode : os.node p with
  | some node =>
    simp only
    split_ifs
    · exact ends_error hos
    · exact ends_error hos
    · exact halloc os _ hos
  | none =>
    simp only
    split_ifs
    · exact halloc _ _ ((hos.withNode hp hnode _).congr (fun _ => rfl) rfl rfl)
    · exact ends_error hos

theorem unlink_keeps {path : Str} (hpath : Under root path) :
    Keeps (Os.Confined root) (unlink path) fun _ => True := by
  refine Keeps.bind enter_keeps fun _ _ => resolveCall_keeps hpath fun p os hos _ => ?_
  simp only [bind, EStateM.bind, get, getThe, MonadStateOf.get, run_get]
  cases hnode : os.node p with
  | none => exact ends_error hos
  | some node =>
    cases node with
    | file i => exact ends_ok (hos.erase hnode) trivial
    | dir => exact ends_error hos

theorem mkdir_keeps {path : Str} (hpath : Under root path) :
    Keeps (Os.Confined root) (mkdir path) fun _ => True := by
  refine Keeps.bind enter_keeps fun _ _ => resolveCall_keeps hpath fun p os hos hp => ?_
  simp only [bind, EStateM.bind, get, getThe, MonadStateOf.get, run_get]
  cases hnode : os.node p with
  | some node => exact ends_error hos
  | none => exact ends_ok (hos.withNode hp hnode _) trivial

/-- A path that does not exist is not the root. -/
theorem pathExists_keeps {path : Str} (hpath : Under root path) (hne : path ≠ []) :
    Keeps (Os.Confined root) (pathExists path) fun there =>
      there = false → names path ≠ names root := by
  intro os hos
  refine ends_ok (hos.touch hpath) fun hthere hnames => ?_
  have hdir := stat_of_names hos.isDir hne hpath.absolute hnames
  rw [Os.exists_touch, Os.exists?, hdir] at hthere
  cases hthere

theorem listdir_keeps {path : Str} (hpath : Under root path) :
    Keeps (Os.Confined root) (listdir path) fun _ => True := by
  refine Keeps.bind enter_keeps fun _ _ => resolveCall_keeps hpath fun p os hos _ => ?_
  simp only [bind, EStateM.bind, get, getThe, MonadStateOf.get, run_get]
  cases os.node p with
  | none => exact ends_error hos
  | some node =>
    cases node with
    | file i => exact ends_error hos
    | dir => exact ends_ok hos trivial

theorem umask_keeps (mask : ℕ) : Keeps (Os.Confined root) (umask mask) fun _ => True :=
  fun _ hos => ends_ok (hos.congr (fun _ => rfl) rfl rfl) trivial

theorem getFd_keeps (fd : ℕ) : Keeps (Os.Confined root) (getFd fd) fun _ => True := by
  refine Keeps.bind Keeps.get fun os _ => ?_
  cases os.fd fd with
  | some file => exact Keeps.pure trivial
  | none => exact Keeps.throw _

theorem getInode_keeps (fd : ℕ) : Keeps (Os.Confined root) (getInode fd) fun _ => True := by
  refine Keeps.bind (getFd_keeps fd) fun file _ => ?_
  cases file.node with
  | file i => exact Keeps.pure trivial
  | dir => exact Keeps.throw _

theorem isRdwr_keeps (fd : ℕ) : Keeps (Os.Confined root) (isRdwr fd) fun _ => True :=
  Keeps.bind enter_keeps fun _ _ => Keeps.bind (getFd_keeps fd) fun _ _ => Keeps.pure trivial

theorem flock_keeps (fd : ℕ) : Keeps (Os.Confined root) (flock fd) fun _ => True :=
  Keeps.bind enter_keeps fun _ _ => (getFd_keeps fd).discard

theorem osClose_keeps (fd : ℕ) : Keeps (Os.Confined root) (osClose fd) fun _ => True :=
  Keeps.bind enter_keeps fun _ _ => Keeps.bind (getFd_keeps fd).discard fun _ _ =>
    Keeps.modify fun _ hos => hos.congr (fun _ => rfl) rfl rfl

theorem readStart_keeps (fd : ℕ) : Keeps (Os.Confined root) (readStart fd) fun _ => True :=
  Keeps.bind enter_keeps fun _ _ => Keeps.bind (getInode_keeps fd) fun _ _ =>
    Keeps.bind Keeps.get fun _ _ => Keeps.pure trivial

theorem ftruncate_keeps (fd : ℕ) : Keeps (Os.Confined root) (ftruncate fd) fun _ => True := by
  refine Keeps.bind enter_keeps fun _ _ => Keeps.bind (getInode_keeps fd) fun _ _ =>
    Keeps.bind (getFd_keeps fd) fun file _ => ?_
  split_ifs
  · exact Keeps.modify fun _ hos => hos.congr (fun _ => rfl) rfl rfl
  · exact Keeps.throw _

theorem writeStart_keeps (fd : ℕ) (data : Bytes) :
    Keeps (Os.Confined root) (writeStart fd data) fun _ => True := by
  refine Keeps.bind enter_keeps fun _ _ => Keeps.bind (getInode_keeps fd) fun _ _ =>
    Keeps.bind (getFd_keeps fd) fun file _ => ?_
  split_ifs
  · exact Keeps.modify fun _ hos => hos.congr (fun _ => rfl) rfl rfl
  · exact Keeps.throw _

/-- Above a missing directory under the root there is one that exists, at the latest the root. -/
theorem makedirs_keeps {name : Str} (hname : Under root name) (hroot : names name ≠ names root) :
    Keeps (Os.Confined root) (makedirs name) fun _ => True := by
  induction name using makedirs.induct with
  | case1 name h ih =>
    have hhead := hname.splitLast h.1 hroot
    rw [makedirs, dif_pos h]
    refine Keeps.bind (pathExists_keeps hhead h.1) fun there hthere => ?_
    cases there with
    | true => exact mkdir_keeps hname
    | false =>
      refine Keeps.bind (Keeps.tryCatch (ih hhead (hthere rfl)) fun e => ?_) fun _ _ => ?_
      · split_ifs
        · exact Keeps.pure trivial
        · exact Keeps.throw e
      · split_ifs
        · exact Keeps.pure trivial
        · exact mkdir_keeps hname
  | case2 name h =>
    rw [makedirs, dif_neg h]
    exact mkdir_keeps hname

/-! Calls that leave the tree as it is. -/

def SameTree (os os' : Os) : Prop := os'.nodes = os.nodes ∧ os'.process = os.process

theorem SameTree.refl (os : Os) : SameTree os os := ⟨rfl, rfl⟩

theorem SameTree.trans (a b c : Os) (h : SameTree a b) (h' : SameTree b c) : SameTree a c :=
  ⟨h'.1.trans h.1, h'.2.trans h.2⟩

theorem enter_sameTree : Moves SameTree enter := by
  intro os
  unfold enter
  cases os.faults with
  | nil => exact .refl os
  | cons fault faults => cases fault <;> exact ⟨rfl, rfl⟩

theorem listdir_sameTree (path : Str) : Moves SameTree (listdir path) := by
  have hresolve : Moves SameTree (resolveCall path) := by
    refine Moves.bind SameTree.trans (Moves.modify fun _ => ⟨rfl, rfl⟩) fun _ => ?_
    refine Moves.bind SameTree.trans (Moves.get SameTree.refl) fun os => ?_
    cases os.resolve path with
    | ok p => exact Moves.pure SameTree.refl p
    | error e => exact Moves.throw SameTree.refl e
  refine Moves.bind SameTree.trans enter_sameTree fun _ => ?_
  refine Moves.bind SameTree.trans hresolve fun p => ?_
  refine Moves.bind SameTree.trans (Moves.get SameTree.refl) fun os => ?_
  cases os.node p with
  | none => exact Moves.throw SameTree.refl _
  | some node =>
    cases node with
    | file i => exact Moves.throw SameTree.refl _
    | dir =>
      refine Moves.bind SameTree.trans (Moves.get SameTree.refl) fun os => ?_
      exact Moves.pure SameTree.refl _

theorem SameTree.node {os os' : Os} (h : SameTree os os') (p : Path) :
    os'.node p = os.node p := by
  unfold Os.node
  rw [h.1]

theorem SameTree.listing {os os' : Os} (h : SameTree os os') (path : Str) :
    os'.listing path = os.listing path := by
  unfold Os.listing
  rw [Os.resolve_congr h.node h.2]
  cases os.resolve path with
  | error e => rfl
  | ok p => simp only [h.node, Os.children, h.1]

/-- What is listed is what there is. -/
theorem listdir_value {path : Str} {names : List Str} (h : listdir path os = .ok names os') :
    names = os.listing path := by
  unfold listdir at h
  simp only [bind_eq_ok, resolveCall_eq_ok, get_eq_ok] at h
  obtain ⟨_, os₁, henter, p, _, ⟨hp, rfl⟩, _, _, ⟨rfl, rfl⟩, h⟩ := h
  have hsame := enter_sameTree.of_ok henter
  rw [← hsame.listing]
  unfold Os.listing
  rw [hp]
  cases hnode : os₁.node p with
  | none =>
    rw [Os.node_touch, hnode] at h
    exact absurd h throw_ne_ok
  | some node =>
    cases node with
    | file i =>
      rw [Os.node_touch, hnode] at h
      exact absurd h throw_ne_ok
    | dir =>
      simp only [Os.node_touch, hnode, bind_eq_ok, get_eq_ok, pure_eq_ok] at h
      obtain ⟨_, _, ⟨rfl, rfl⟩, rfl, -⟩ := h
      simp only [hnode, if_true]
      rfl

end Multicorn.Fs
