import Mathlib.Data.List.TakeWhile
import Multicorn.Fs.Tree
import Multicorn.General.Descent

/-! Paths read by their components alone, and the paths that stay inside a root directory. -/
namespace Multicorn.Fs
open Multicorn.Descent

variable {os : Os}

/-- What a component of a path does in a tree without links. -/
def component (c : Str) : Kind :=
  if c = [] ∨ c = ['.'] then .here else if c = ['.', '.'] then .up else .down

/-- The components of a path that lead somewhere. -/
def names (path : Str) : List Str := moving component (path.splitOn '/')

/-- The path with `.`, `..` and a leading slash resolved, whether there is a file or not. -/
def normalize (cwd : Path) (path : Str) : Path :=
  descend component (if path.head? = some '/' then [] else cwd) (path.splitOn '/')

/-- The path lies inside the root directory or is the root directory. -/
def Inside (cwd : Path) (root path : Str) : Prop := normalize cwd root <+: normalize cwd path

instance (cwd : Path) (root path : Str) : Decidable (Inside cwd root path) :=
  inferInstanceAs (Decidable (_ <+: _))

/-- The components never lead above where they start. -/
def Stays (comps : List Str) : Prop := (depth component 0 comps).isSome

instance (comps : List Str) : Decidable (Stays comps) := inferInstanceAs (Decidable (_ = true))

theorem Stays.of_append {a b : List Str} (h : Stays (a ++ b)) : Stays a := depth_isSome_of_append h

/-- The path is the root directory followed by components that stay below it. -/
structure Under (root path : Str) : Prop where
  absolute : path.head? = some '/' ↔ root.head? = some '/'
  below : ∃ comps, names path = names root ++ comps ∧ Stays comps

theorem Under.refl (root : Str) : Under root root := ⟨Iff.rfl, [], (List.append_nil _).symm, rfl⟩

theorem normalize_eq (cwd : Path) (path : Str) : normalize cwd path =
    descend component (if path.head? = some '/' then [] else cwd) (names path) := by
  unfold normalize names
  rw [descend_moving]

theorem Under.inside {root path : Str} (h : Under root path) (cwd : Path) :
    Inside cwd root path := by
  obtain ⟨comps, hnames, hstays⟩ := h.below
  have hstart : (if path.head? = some '/' then ([] : Path) else cwd) =
      if root.head? = some '/' then [] else cwd := by
    by_cases hroot : root.head? = some '/'
    · rw [if_pos hroot, if_pos (h.absolute.mpr hroot)]
    · rw [if_neg hroot, if_neg fun hpath => hroot (h.absolute.mp hpath)]
  unfold Inside
  rw [normalize_eq, normalize_eq, hnames, hstart, descend_append]
  exact isPrefix_descend hstays

/-! Joining. -/

theorem names_joinOne {path b : Str} (hpath : path ≠ []) (hb : b.head? ≠ some '/') :
    names (joinOne path b) = names path ++ names b := by
  unfold names joinOne
  rw [if_neg hb]
  by_cases hlast : path.getLast? = some '/'
  · obtain ⟨q, rfl⟩ : ∃ q, path = q ++ ['/'] := by
      rcases List.eq_nil_or_concat path with rfl | ⟨q, c, rfl⟩
      · cases hlast
      · simp at hlast
        exact ⟨q, by rw [hlast, List.concat_eq_append]⟩
    have hempty : moving component (([] : Str).splitOn '/') = [] := rfl
    rw [if_pos (.inr hlast), List.append_assoc, List.singleton_append,
      List.splitOn_append_cons_self, List.splitOn_append_cons_self, moving_append, moving_append,
      hempty, List.append_nil]
  · rw [if_neg (by simp [hpath, hlast]), List.splitOn_append_cons_self, moving_append]

theorem head_joinOne {path b : Str} (hpath : path ≠ []) (hb : b.head? ≠ some '/') :
    (joinOne path b).head? = path.head? := by
  obtain ⟨c, rest, rfl⟩ := List.exists_cons_of_ne_nil hpath
  unfold joinOne
  rw [if_neg hb]
  split_ifs <;> rfl

theorem names_pathJoin {root : Str} (hroot : root ≠ []) {parts : List Str}
    (hparts : ∀ part ∈ parts, part.head? ≠ some '/') :
    names (pathJoin root parts) = names root ++ parts.flatMap names ∧
      (pathJoin root parts).head? = root.head? ∧ pathJoin root parts ≠ [] := by
  induction parts generalizing root with
  | nil => exact ⟨by simp [pathJoin], rfl, hroot⟩
  | cons part parts ih =>
    rw [List.forall_mem_cons] at hparts
    obtain ⟨hnames, hhead, hne⟩ := ih (Os.joinOne_ne_nil hroot hparts.1) hparts.2
    have hfold : pathJoin root (part :: parts) = pathJoin (joinOne root part) parts := rfl
    rw [hfold, hnames, hhead, names_joinOne hroot hparts.1, head_joinOne hroot hparts.1,
      List.flatMap_cons, List.append_assoc]
    exact ⟨rfl, rfl, hne⟩

theorem stays_flatMap_names {parts : List Str} :
    Stays (parts.flatMap names) ↔ Stays (parts.flatMap (·.splitOn '/')) := by
  have hmoving : parts.flatMap names = moving component (parts.flatMap (·.splitOn '/')) := by
    induction parts with
    | nil => rfl
    | cons part parts ih =>
      rw [List.flatMap_cons, List.flatMap_cons, moving_append, ih]
      rfl
  unfold Stays
  rw [hmoving, depth_moving]

/-- Joining components that stay below the root gives a path under it. -/
theorem under_pathJoin {root : Str} (hroot : root ≠ []) {parts : List Str}
    (hparts : ∀ part ∈ parts, part.head? ≠ some '/')
    (hstays : Stays (parts.flatMap (·.splitOn '/'))) : Under root (pathJoin root parts) := by
  obtain ⟨hnames, hhead, -⟩ := names_pathJoin hroot hparts
  exact ⟨by rw [hhead], _, hnames, stays_flatMap_names.mpr hstays⟩

/-! Splitting. -/

theorem names_append (a b : Str) : names (a ++ '/' :: b) = names a ++ names b := by
  unfold names
  rw [List.splitOn_append_cons_self, moving_append]

theorem names_concat (p : Str) : names (p ++ ['/']) = names p := by
  have hempty : names [] = [] := rfl
  rw [names_append, hempty, List.append_nil]

/-- Slashes at the end of a path lead nowhere. -/
theorem names_rstrip (p : Str) : names (p.reverse.dropWhile (· = '/')).reverse = names p := by
  induction p using List.reverseRecOn with
  | nil => rfl
  | append_singleton p c ih =>
    rw [List.reverse_append, List.reverse_singleton, List.singleton_append, List.dropWhile_cons]
    by_cases hc : c = '/'
    · subst hc
      rw [if_pos (by simp), names_concat, ih]
    · rw [if_neg (by simpa using hc)]
      simp

theorem head_of_prefix {a p : Str} (h : a <+: p) (ha : a ≠ []) : a.head? = p.head? := by
  obtain ⟨rest, rfl⟩ := h
  obtain ⟨c, a, rfl⟩ := List.exists_cons_of_ne_nil ha
  rfl

theorem pathSplit_plain {p : Str} (h : '/' ∉ p) : pathSplit p = ([], p) := by
  have htail : p.reverse.takeWhile (· ≠ '/') = p.reverse := by
    rw [List.takeWhile_eq_self_iff]
    intro c hc
    have hne : c ≠ '/' := by
      rintro rfl
      exact h (List.mem_reverse.mp hc)
    simpa using hne
  unfold pathSplit
  simp only [htail, List.reverse_reverse, Nat.sub_self, List.take_zero]
  rfl

theorem pathSplit_slash (q : Str) {b : Str} (h : '/' ∉ b) :
    (pathSplit (q ++ '/' :: b)).2 = b ∧ names (pathSplit (q ++ '/' :: b)).1 = names q ∧
      (pathSplit (q ++ '/' :: b)).1 ≠ [] ∧
      (pathSplit (q ++ '/' :: b)).1.head? = (q ++ '/' :: b).head? := by
  have htail : (q ++ '/' :: b).reverse.takeWhile (· ≠ '/') = b.reverse := by
    have hall : ∀ c ∈ b.reverse, (decide (c ≠ '/')) = true := by
      intro c hc
      have hne : c ≠ '/' := by
        rintro rfl
        exact h (List.mem_reverse.mp hc)
      simpa using hne
    have hrev : (q ++ '/' :: b).reverse = b.reverse ++ '/' :: q.reverse := by simp
    rw [hrev, List.takeWhile_append_of_pos hall, List.takeWhile_cons_of_neg (by simp),
      List.append_nil]
  have htake : (q ++ '/' :: b).take ((q ++ '/' :: b).length - b.length) = q ++ ['/'] := by
    have hlen : (q ++ '/' :: b).length - b.length = (q ++ ['/']).length := by
      simp only [List.length_append, List.length_cons, List.length_nil]
      omega
    have happ : q ++ '/' :: b = (q ++ ['/']) ++ b := by simp
    rw [hlen, happ, List.take_left]
  have hsplit : pathSplit (q ++ '/' :: b) = (if (q ++ ['/']).all (· = '/') then q ++ ['/']
      else ((q ++ ['/']).reverse.dropWhile (· = '/')).reverse, b) := by
    unfold pathSplit
    simp only [htail, List.reverse_reverse, htake]
  have hstrip : ((q ++ ['/']).reverse.dropWhile (· = '/')).reverse <+: q ++ '/' :: b := by
    have hsuffix := List.dropWhile_suffix (l := (q ++ ['/']).reverse) (· = '/')
    have hprefix := List.reverse_prefix.mpr hsuffix
    rw [List.reverse_reverse] at hprefix
    exact hprefix.trans ⟨b, by simp⟩
  rw [hsplit]
  refine ⟨rfl, ?_⟩
  split_ifs with hall
  · refine ⟨names_concat q, by simp, ?_⟩
    exact head_of_prefix ⟨b, by simp⟩ (by simp)
  · have hne : ((q ++ ['/']).reverse.dropWhile (· = '/')).reverse ≠ [] := by
      intro hnil
      rw [List.reverse_eq_nil_iff, List.dropWhile_eq_nil_iff] at hnil
      apply hall
      rw [List.all_eq_true]
      intro c hc
      exact hnil c (List.mem_reverse.mpr hc)
    refine ⟨?_, hne, head_of_prefix hstrip hne⟩
    rw [names_rstrip, names_concat]

theorem exists_last_slash {p : Str} (h : '/' ∈ p) : ∃ q b, p = q ++ '/' :: b ∧ '/' ∉ b := by
  obtain ⟨xs, ys, hp, hxs⟩ := List.eq_append_cons_of_mem (List.mem_reverse.mpr h)
  refine ⟨ys.reverse, xs.reverse, ?_, fun hmem => hxs (List.mem_reverse.mp hmem)⟩
  rw [← List.reverse_reverse p, hp]
  simp

/-- What is left of a path when its last component is taken off. -/
theorem names_pathSplit {p : Str} (h : (pathSplit p).1 ≠ []) :
    names p = names (pathSplit p).1 ++ names (pathSplit p).2 ∧ '/' ∉ (pathSplit p).2 ∧
      (pathSplit p).1.head? = p.head? := by
  by_cases hslash : '/' ∈ p
  · obtain ⟨q, b, rfl, hb⟩ := exists_last_slash hslash
    obtain ⟨htail, hnames, -, hhead⟩ := pathSplit_slash q hb
    rw [htail, hnames, names_append]
    exact ⟨rfl, hb, hhead⟩
  · rw [pathSplit_plain hslash] at h
    exact absurd rfl h

theorem dirname_joinOne {path b : Str} (hpath : path ≠ []) (hb : '/' ∉ b) :
    names (dirname (joinOne path b)) = names path ∧ dirname (joinOne path b) ≠ [] ∧
      (dirname (joinOne path b)).head? = path.head? := by
  have hb' : b.head? ≠ some '/' := fun hhead => hb (List.mem_of_mem_head? hhead)
  have hhead := head_joinOne hpath hb'
  have hform : ∃ q, joinOne path b = q ++ '/' :: b ∧ names q = names path := by
    unfold joinOne
    rw [if_neg hb']
    by_cases hlast : path.getLast? = some '/'
    · obtain ⟨q, hq⟩ : ∃ q, path = q ++ ['/'] := ⟨path.dropLast, by
        rw [List.dropLast_append_getLast? _ hlast]⟩
      refine ⟨q, ?_, ?_⟩
      · rw [if_pos (.inr hlast), hq]
        simp
      · rw [hq, names_concat]
    · exact ⟨path, by rw [if_neg (by simp [hpath, hlast])], rfl⟩
  obtain ⟨q, hq, hnames⟩ := hform
  obtain ⟨-, hsplit, hne, hstart⟩ := pathSplit_slash q hb
  unfold dirname
  rw [hhead.symm, hq]
  exact ⟨hsplit.trans hnames, hne, hstart⟩

theorem Under.congr {root path path' : Str} (h : Under root path)
    (hnames : names path' = names path) (hhead : path'.head? = path.head?) : Under root path' := by
  refine ⟨?_, ?_⟩
  · rw [hhead]
    exact h.absolute
  · rw [hnames]
    exact h.below

/-- The directory that holds what is below the root is still under the root. -/
theorem Under.pathSplit {root path : Str} (h : Under root path) (hne : (pathSplit path).1 ≠ [])
    (hroot : names path ≠ names root) : Under root (Fs.pathSplit path).1 := by
  obtain ⟨hnames, hslash, hhead⟩ := names_pathSplit hne
  obtain ⟨comps, hcomps, hstays⟩ := h.below
  refine ⟨by rw [hhead]; exact h.absolute, ?_⟩
  have hlast : names (Fs.pathSplit path).2 = [] ∨ ∃ c, names (Fs.pathSplit path).2 = [c] := by
    unfold names
    rw [List.splitOn_eq_singleton hslash]
    unfold moving
    rw [List.filter_cons]
    split_ifs
    · exact .inr ⟨_, rfl⟩
    · exact .inl rfl
  rcases hlast with hnil | ⟨c, hc⟩
  · rw [hnil, List.append_nil] at hnames
    exact ⟨comps, by rw [← hnames, hcomps], hstays⟩
  · rw [hcomps, hc] at hnames
    rcases List.eq_nil_or_concat comps with rfl | ⟨front, last, rfl⟩
    · rw [List.append_nil] at hcomps
      exact absurd hcomps hroot
    · rw [List.concat_eq_append, ← List.append_assoc] at hnames
      obtain ⟨hfront, -⟩ := List.append_inj' hnames rfl
      rw [List.concat_eq_append] at hstays
      exact ⟨front, hfront.symm, hstays.of_append⟩

theorem Under.splitLast {root path : Str} (h : Under root path) (hne : (splitLast path).1 ≠ [])
    (hroot : names path ≠ names root) : Under root (Fs.splitLast path).1 := by
  unfold Fs.splitLast at hne ⊢
  split_ifs at hne ⊢ with hempty
  · have hfirst : (Fs.pathSplit path).1 ≠ [] := by
      intro hnil
      rw [hnil] at hne
      exact hne rfl
    obtain ⟨hnames, -, hhead⟩ := names_pathSplit hfirst
    have hsame : names (Fs.pathSplit path).1 = names path := by
      rw [hnames, hempty]
      exact (List.append_nil _).symm
    apply (h.congr hsame hhead).pathSplit hne
    rw [hsame]
    exact hroot
  · exact h.pathSplit hne hroot

/-! Paths that lead to the same directory. -/

private theorem dir_of_walk {cur p : Path} {comps : List Str} (h : os.walk cur comps = .ok p)
    (hp : os.node p = some .dir) : os.node cur = some .dir := by
  cases comps with
  | nil =>
    cases h
    exact hp
  | cons c rest =>
    simp only [Os.walk] at h
    cases hnode : os.node cur with
    | none =>
      rw [hnode] at h
      cases h
    | some node =>
      cases node with
      | file i =>
        rw [hnode] at h
        cases h
      | dir => rfl

private theorem walk_moving {cur p : Path} {comps : List Str} (hp : os.node p = some .dir) :
    os.walk cur (moving component comps) = .ok p ↔ os.walk cur comps = .ok p := by
  induction comps generalizing cur with
  | nil => rfl
  | cons c rest ih =>
    unfold moving at ih ⊢
    rw [List.filter_cons]
    by_cases hc : c = [] ∨ c = ['.']
    · have hhere : component c = .here := by rw [component, if_pos hc]
      rw [if_neg (by simp [hhere]), ih]
      constructor
      · intro h
        rw [Os.walk, dir_of_walk h hp]
        simpa only [if_pos hc] using h
      · intro h
        have hcur := dir_of_walk h hp
        rw [Os.walk, hcur] at h
        simpa only [if_pos hc] using h
    · have hmoves : component c ≠ .here := by
        unfold component
        rw [if_neg hc]
        split_ifs <;> simp
      rw [if_pos (by simpa using hmoves), Os.walk, Os.walk]
      cases os.node cur with
      | none => rfl
      | some node =>
        cases node with
        | file i => rfl
        | dir =>
          simp only [if_neg hc]
          split_ifs
          · exact ih
          · exact ih
          · rfl

theorem passes_intercalate (process : Process) (l : List Str) :
    process.passes (['/'].intercalate l) = l.all process.passes := by
  induction l with
  | nil => rfl
  | cons c rest ih =>
    cases rest with
    | nil => simp [List.intercalate]
    | cons d rest =>
      rw [List.intercalate_cons_cons, Os.passes_append, Os.passes_append, Os.passes_slash,
        Bool.and_true, ih]
      rfl

theorem passes_eq_splitOn (process : Process) (q : Str) :
    process.passes q = (q.splitOn '/').all process.passes := by
  rw [← passes_intercalate, List.intercalate_splitOn]

/-- A path passes if its components do. -/
theorem passes_eq_names (process : Process) (q : Str) :
    process.passes q = (names q).all process.passes := by
  rw [passes_eq_splitOn]
  unfold names moving
  rw [List.all_filter]
  refine List.all_congr rfl fun c => ?_
  by_cases hc : c = [] ∨ c = ['.']
  · have hpasses : process.passes c = true := by
      rcases hc with rfl | rfl
      · rfl
      · simp [Process.passes, process.encodeChar_ascii '.' (by decide)]
    simp [component, hc, hpasses]
  · have hmoves : component c ≠ .here := by
      unfold component
      rw [if_neg hc]
      split_ifs <;> simp
    simp [hmoves]

/-- A path names a directory if its components lead to one. -/
theorem stat_eq_dir {q : Str} (hq : q ≠ []) : os.stat q = some .dir ↔
    (names q).all os.process.passes = true ∧ ∃ p, os.node p = some .dir ∧
      os.walk (if q.head? = some '/' then [] else os.process.cwd) (names q) = .ok p := by
  rw [Os.stat_eq_some, ← passes_eq_names]
  simp only [Os.resolve_eq_ok, Os.locate]
  constructor
  · rintro ⟨p, ⟨-, hpass, hwalk⟩, hp⟩
    exact ⟨hpass, p, hp, (walk_moving hp).mpr hwalk⟩
  · rintro ⟨hpass, p, hp, hwalk⟩
    exact ⟨p, ⟨hq, hpass, (walk_moving hp).mp hwalk⟩, hp⟩

/-- A path with the components of a directory's path is that directory. -/
theorem stat_of_names {root path : Str} (hroot : os.stat root = some .dir) (hpath : path ≠ [])
    (hhead : path.head? = some '/' ↔ root.head? = some '/') (hnames : names path = names root) :
    os.stat path = some .dir := by
  have hne : root ≠ [] := by
    rintro rfl
    cases hroot
  obtain ⟨hpass, p, hp, hwalk⟩ := (stat_eq_dir hne).mp hroot
  have hstart : (if path.head? = some '/' then ([] : Path) else os.process.cwd) =
      if root.head? = some '/' then [] else os.process.cwd := by simp only [hhead]
  apply (stat_eq_dir hpath).mpr
  rw [hstart, hnames]
  exact ⟨hpass, p, hp, hwalk⟩

/-- The last component of a path that is resolved was looked up in a directory. -/
theorem stat_dirname {path : Str} {p : Path} (h : os.resolve path = .ok p)
    (hne : dirname path ≠ []) : os.stat (dirname path) = some .dir := by
  by_cases hslash : '/' ∈ path
  · obtain ⟨q, b, rfl, hb⟩ := exists_last_slash hslash
    obtain ⟨-, hnames, -, hhead⟩ := pathSplit_slash q hb
    obtain ⟨-, hpass, h⟩ := Os.resolve_eq_ok.mp h
    unfold Os.locate at h
    rw [List.splitOn_append_cons_self, List.splitOn_eq_singleton hb, Os.walk_append] at h
    cases hwalk : os.walk (if (q ++ '/' :: b).head? = some '/' then [] else os.process.cwd)
        (q.splitOn '/') with
    | error e =>
      rw [hwalk] at h
      cases h
    | ok cur =>
      rw [hwalk] at h
      change os.walk cur [b] = .ok p at h
      have hcur : os.node cur = some .dir := by
        simp only [Os.walk] at h
        cases hnode : os.node cur with
        | none =>
          rw [hnode] at h
          cases h
        | some node =>
          cases node with
          | dir => rfl
          | file i =>
            rw [hnode] at h
            cases h
      apply (stat_eq_dir hne).mpr
      unfold dirname
      rw [hhead, hnames, ← passes_eq_names]
      rw [Os.passes_append, Bool.and_eq_true] at hpass
      exact ⟨hpass.1, cur, hcur, (walk_moving hcur).mpr hwalk⟩
  · unfold dirname at hne
    rw [pathSplit_plain hslash] at hne
    exact absurd rfl hne

end Multicorn.Fs
