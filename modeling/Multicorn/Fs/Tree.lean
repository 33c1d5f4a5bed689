import Mathlib.Data.List.Induction
import Multicorn.Fs.OsCalls

/-! Joined paths, and the tree of files below a directory. -/
namespace Multicorn.Fs

variable {os os' : Os}

namespace Os

theorem walk_append (cur : Path) (xs ys : List Str) :
    os.walk cur (xs ++ ys) = (os.walk cur xs).bind fun p => os.walk p ys := by
  induction xs generalizing cur with
  | nil => rfl
  | cons c rest ih =>
    simp only [List.cons_append, walk]
    cases os.node cur with
    | none => rfl
    | some node =>
      cases node with
      | file i => rfl
      | dir =>
        simp only
        split_ifs
        · exact ih cur
        · exact ih cur.dropLast
        · exact ih (cur ++ [c])
        · rfl

/-- An empty component only asks for a directory, as the next component does. -/
theorem walk_empty_bind {names : List Str} (h : names ≠ []) (cur : Path) :
    ((os.walk cur [[]]).bind fun p => os.walk p names) = os.walk cur names := by
  obtain ⟨c, rest, rfl⟩ := List.exists_cons_of_ne_nil h
  simp only [walk]
  cases hnode : os.node cur with
  | none => rfl
  | some node =>
    cases node with
    | file i => rfl
    | dir => simp [Except.bind, hnode]

theorem passes_slash (process : Process) : process.passes ['/'] = true := by
  simp [Process.passes, process.encodeChar_ascii '/' (by decide)]

theorem passes_append (process : Process) (p q : Str) :
    process.passes (p ++ q) = (process.passes p && process.passes q) := List.all_append

theorem passes_joinOne (process : Process) {path b : Str} (hb : b.head? ≠ some '/') :
    process.passes (joinOne path b) = (process.passes path && process.passes b) := by
  unfold joinOne
  rw [if_neg hb]
  split_ifs
  · exact passes_append process path b
  · rw [List.append_cons, passes_append, passes_append, passes_slash, Bool.and_true]

/-- What resolution looks up, once the path is passed on to the system. -/
def locate (os : Os) (path : Str) : Except Errno Path :=
  os.walk (if path.head? = some '/' then [] else os.process.cwd) (path.splitOn '/')

theorem resolve_eq_ok {path : Str} {p : Path} : os.resolve path = .ok p ↔
    path ≠ [] ∧ os.process.passes path = true ∧ os.locate path = .ok p := by
  unfold resolve locate
  by_cases hpath : path = []
  · simp [hpath]
  · by_cases hpass : os.process.passes path = true <;> simp [hpath, hpass]

theorem locate_joinOne {path b : Str} (hpath : path ≠ []) (hb : b.head? ≠ some '/') :
    os.locate (joinOne path b) = (os.locate path).bind fun p => os.walk p (b.splitOn '/') := by
  have hstart : ∀ rest : Str, (path ++ rest).head? = path.head? := by
    intro rest
    obtain ⟨c, path, rfl⟩ := List.exists_cons_of_ne_nil hpath
    rfl
  by_cases hlast : path.getLast? = some '/'
  · have hjoin : joinOne path b = path ++ b := by simp [joinOne, hb, hlast]
    obtain ⟨q, rfl⟩ : ∃ q, path = q ++ ['/'] := by
      rcases List.eq_nil_or_concat path with rfl | ⟨q, c, rfl⟩
      · cases hlast
      · simp at hlast
        exact ⟨q, by rw [hlast, List.concat_eq_append]⟩
    have hsplit : (q ++ ['/'] ++ b).splitOn '/' = q.splitOn '/' ++ b.splitOn '/' := by
      rw [List.append_assoc, List.singleton_append, List.splitOn_append_cons_self]
    have hsplit' : (q ++ ['/']).splitOn '/' = q.splitOn '/' ++ [[]] := by
      rw [List.splitOn_append_cons_self]
      rfl
    rw [hjoin]
    unfold locate
    rw [hstart, hsplit, hsplit', walk_append, walk_append]
    cases os.walk (if (q ++ ['/']).head? = some '/' then [] else os.process.cwd) (q.splitOn '/') with
    | error e => rfl
    | ok p => exact (walk_empty_bind (List.splitOn_ne_nil _ _) p).symm
  · have hjoin : joinOne path b = path ++ '/' :: b := by simp [joinOne, hb, hlast, hpath]
    rw [hjoin]
    unfold locate
    rw [hstart, List.splitOn_append_cons_self, walk_append]

theorem joinOne_ne_nil {path : Str} (hpath : path ≠ []) {b : Str} (hb : b.head? ≠ some '/') :
    joinOne path b ≠ [] := by
  unfold joinOne
  rw [if_neg hb]
  split_ifs
  · simp [hpath]
  · simp

theorem passes_pathJoin (process : Process) {root : Str} {parts : List Str}
    (hparts : ∀ part ∈ parts, part.head? ≠ some '/') :
    process.passes (pathJoin root parts) =
      (process.passes root && parts.all process.passes) := by
  induction parts generalizing root with
  | nil => exact (Bool.and_true _).symm
  | cons part parts ih =>
    rw [List.forall_mem_cons] at hparts
    have hfold : pathJoin root (part :: parts) = pathJoin (joinOne root part) parts := rfl
    rw [hfold, ih hparts.2, passes_joinOne process hparts.1, List.all_cons, Bool.and_assoc]

theorem pathJoin_ne_nil {root : Str} (hroot : root ≠ []) {parts : List Str}
    (hparts : ∀ part ∈ parts, part.head? ≠ some '/') : pathJoin root parts ≠ [] := by
  induction parts generalizing root with
  | nil => exact hroot
  | cons part parts ih =>
    rw [List.forall_mem_cons] at hparts
    exact ih (joinOne_ne_nil hroot hparts.1) hparts.2

theorem locate_pathJoin {root : Str} (hroot : root ≠ []) {parts : List Str}
    (hparts : ∀ part ∈ parts, part.head? ≠ some '/') :
    os.locate (pathJoin root parts) =
      (os.locate root).bind fun p => os.walk p (parts.flatMap (·.splitOn '/')) := by
  induction parts generalizing root with
  | nil =>
    simp only [pathJoin, List.foldl_nil, List.flatMap_nil]
    cases os.locate root <;> rfl
  | cons part parts ih =>
    rw [List.forall_mem_cons] at hparts
    have hrest := ih (joinOne_ne_nil hroot hparts.1) hparts.2
    have hfold : pathJoin root (part :: parts) = pathJoin (joinOne root part) parts := rfl
    rw [hfold, hrest, locate_joinOne hroot hparts.1, List.flatMap_cons]
    cases os.locate root with
    | error e => rfl
    | ok p => exact (walk_append p _ _).symm

/-- A joined path is resolved from where its root leads, if each part is passed on. -/
theorem resolve_pathJoin {root : Str} {r p : Path} (hroot : os.resolve root = .ok r)
    {parts : List Str} (hparts : ∀ part ∈ parts, part.head? ≠ some '/') :
    os.resolve (pathJoin root parts) = .ok p ↔ parts.all os.process.passes = true ∧
      os.walk r (parts.flatMap (·.splitOn '/')) = .ok p := by
  obtain ⟨hne, hpass, hlocate⟩ := resolve_eq_ok.mp hroot
  rw [resolve_eq_ok, passes_pathJoin _ hparts, hpass, locate_pathJoin hne hparts, hlocate,
    Bool.true_and]
  exact and_iff_right (pathJoin_ne_nil hne hparts)

end Os

/-- A name that a file can have in a directory. -/
def ProperName (c : Str) : Prop := c ≠ [] ∧ c ≠ ['.'] ∧ c ≠ ['.', '.'] ∧ '/' ∉ c

instance (c : Str) : Decidable (ProperName c) := inferInstanceAs (Decidable (_ ∧ _ ∧ _ ∧ _))

theorem ProperName.splitOn {c : Str} (h : ProperName c) : c.splitOn '/' = [c] :=
  List.splitOn_eq_singleton h.2.2.2

theorem ProperName.head_ne {c : Str} (h : ProperName c) : c.head? ≠ some '/' := by
  intro hc
  exact h.2.2.2 (List.mem_of_mem_head? hc)

/-- A name that a path can have for a component. -/
def Process.Takes (process : Process) (c : Str) : Prop :=
  process.passes c = true ∧ process.fits c = true

instance (process : Process) (c : Str) : Decidable (process.Takes c) :=
  inferInstanceAs (Decidable (_ ∧ _))

/-- A component that no path is refused for. -/
def Process.Accepts (process : Process) (c : Str) : Prop :=
  '/' ∉ c ∧ process.passes c = true ∧
    (c = [] ∨ c = ['.'] ∨ c = ['.', '.'] ∨ process.fits c = true)

theorem Process.Takes.accepts {process : Process} {c : Str} (h : process.Takes c)
    (hslash : '/' ∉ c) : process.Accepts c := ⟨hslash, h.1, .inr (.inr (.inr h.2))⟩

/-- The nodes form a tree with proper names that paths can have. -/
structure Os.Tree (os : Os) : Prop where
  parent : ∀ p c, (os.node (p ++ [c])).isSome → os.node p = some .dir
  names : ∀ p c, (os.node (p ++ [c])).isSome → ProperName c
  taken : ∀ p c, (os.node (p ++ [c])).isSome → os.process.Takes c

namespace Os

/-- What has to be looked at of a concrete system. -/
theorem Tree.of_keys (h : ∀ q ∈ os.nodes.keys, ∀ c, q.getLast? = some c →
    os.node q.dropLast = some .dir ∧ ProperName c ∧ os.process.Takes c) : os.Tree := by
  have hkey : ∀ p c, (os.node (p ++ [c])).isSome →
      os.node p = some .dir ∧ ProperName c ∧ os.process.Takes c := by
    intro p c hc
    rw [node, if_neg (by simp), AList.lookup_isSome, AList.mem_keys] at hc
    have hlast := h _ hc c (by simp)
    simpa using hlast
  exact ⟨fun p c hc => (hkey p c hc).1, fun p c hc => (hkey p c hc).2.1,
    fun p c hc => (hkey p c hc).2.2⟩

theorem mem_keys_of_file {p : Path} {i : ℕ} (h : os.file p = some i) : p ∈ os.nodes.keys := by
  have hnode := file_eq_some.mp h
  have hp : p ≠ [] := by
    rintro rfl
    cases hnode
  rw [node, if_neg hp] at hnode
  rw [← AList.mem_keys, ← AList.lookup_isSome, hnode]
  rfl

theorem Tree.of_node_eq (h : os.Tree) (hnode : ∀ p, os'.node p = os.node p)
    (hprocess : os'.process = os.process) : os'.Tree := by
  constructor
  · intro p c hc
    rw [hnode] at hc ⊢
    exact h.parent p c hc
  · intro p c hc
    rw [hnode] at hc
    exact h.names p c hc
  · intro p c hc
    rw [hnode] at hc
    rw [hprocess]
    exact h.taken p c hc

theorem Tree.node_prefix (h : os.Tree) {p q : Path} (hq : (os.node (p ++ q)).isSome) :
    (os.node p).isSome := by
  induction q using List.reverseRecOn with
  | nil => simpa using hq
  | append_singleton q c ih =>
    rw [← List.append_assoc] at hq
    apply ih
    rw [h.parent _ _ hq]
    rfl

/-- Proper names lead one level down each. -/
theorem walk_proper {names : List Str} (hnames : ∀ c ∈ names, ProperName c) {cur p : Path}
    (h : os.walk cur names = .ok p) : p = cur ++ names := by
  induction names generalizing cur with
  | nil =>
    cases h
    simp
  | cons c rest ih =>
    rw [List.forall_mem_cons] at hnames
    obtain ⟨hempty, hdot, hdots, -⟩ := hnames.1
    simp only [walk] at h
    cases hnode : os.node cur with
    | none => simp [hnode] at h
    | some node =>
      cases node with
      | file i => simp [hnode] at h
      | dir =>
        simp only [hnode, hempty, hdot, hdots, or_self, if_false] at h
        split_ifs at h
        rw [ih hnames.2 h]
        simp

theorem walk_of_node (ht : os.Tree) {names : List Str} (hnames : ∀ c ∈ names, ProperName c)
    {cur : Path} (h : (os.node (cur ++ names)).isSome) : os.walk cur names = .ok (cur ++ names) := by
  induction names generalizing cur with
  | nil => simp [walk]
  | cons c rest ih =>
    rw [List.forall_mem_cons] at hnames
    obtain ⟨hempty, hdot, hdots, -⟩ := hnames.1
    have hsplit : cur ++ c :: rest = cur ++ [c] ++ rest := by simp
    rw [hsplit] at h ⊢
    have hrest := ih hnames.2 h
    have hc : (os.node (cur ++ [c])).isSome := by
      cases rest with
      | nil => simpa using h
      | cons d rest =>
        simp only [walk] at hrest
        cases hnode : os.node (cur ++ [c]) with
        | none => simp [hnode] at hrest
        | some node => rfl
    have hdir := ht.parent cur c hc
    simp only [walk, hdir, hempty, hdot, hdots, or_self, if_false, (ht.taken cur c hc).2, if_true]
    exact hrest

theorem flatMap_splitOn_proper {names : List Str} (hnames : ∀ c ∈ names, ProperName c) :
    names.flatMap (·.splitOn '/') = names := by
  induction names with
  | nil => rfl
  | cons c rest ih =>
    rw [List.forall_mem_cons] at hnames
    rw [List.flatMap_cons, hnames.1.splitOn, ih hnames.2]
    rfl

/-- Proper names below a directory lead where the tree has something. -/
theorem resolve_of_node (ht : os.Tree) {root : Str} {r : Path} (hroot : os.resolve root = .ok r)
    {names : List Str} (hnames : ∀ c ∈ names, ProperName c)
    (h : (os.node (r ++ names)).isSome) : os.resolve (pathJoin root names) = .ok (r ++ names) := by
  apply (resolve_pathJoin hroot fun c hc => (hnames c hc).head_ne).mpr
  rw [flatMap_splitOn_proper hnames]
  refine ⟨List.all_eq_true.mpr fun c hc => ?_, walk_of_node ht hnames h⟩
  obtain ⟨before, after, rfl⟩ := List.append_of_mem hc
  have hnode : (os.node (r ++ before ++ [c])).isSome := by
    apply ht.node_prefix (q := after)
    simpa using h
  exact (ht.taken _ _ hnode).1

/-- The node found at proper names below a directory is the one the tree has there. -/
theorem stat_pathJoin (ht : os.Tree) {root : Str} {r : Path} (hroot : os.resolve root = .ok r)
    {names : List Str} (hnames : ∀ c ∈ names, ProperName c) :
    os.stat (pathJoin root names) = os.node (r ++ names) := by
  unfold stat
  cases hresolve : os.resolve (pathJoin root names) with
  | ok p =>
    obtain ⟨-, hwalk⟩ := (resolve_pathJoin hroot fun c hc => (hnames c hc).head_ne).mp hresolve
    rw [flatMap_splitOn_proper hnames] at hwalk
    rw [walk_proper hnames hwalk]
  | error e =>
    cases hnode : os.node (r ++ names) with
    | none => rfl
    | some node =>
      rw [resolve_of_node ht hroot hnames (by rw [hnode]; rfl)] at hresolve
      cases hresolve

theorem mem_children {p : Path} {c : Str} : c ∈ os.children p ↔ (os.node (p ++ [c])).isSome := by
  have hnode : os.node (p ++ [c]) = os.nodes.lookup (p ++ [c]) := by simp [node]
  rw [hnode, AList.lookup_isSome, AList.mem_keys]
  unfold children
  simp only [List.mem_filterMap]
  constructor
  · rintro ⟨q, hq, hc⟩
    split_ifs at hc with hp
    rw [← hp, List.dropLast_append_getLast?  c hc]
    exact hq
  · intro hmem
    exact ⟨p ++ [c], hmem, by simp⟩

theorem children_nodup (p : Path) : (os.children p).Nodup := by
  unfold children
  refine List.Nodup.filterMap ?_ os.nodes.keys_nodup
  intro q q' c hq hq'
  simp only [Option.mem_def] at hq hq'
  split_ifs at hq hq' with hp hp'
  rw [← List.dropLast_append_getLast? c hq, ← List.dropLast_append_getLast? c hq', hp, hp']

end Os

end Multicorn.Fs
