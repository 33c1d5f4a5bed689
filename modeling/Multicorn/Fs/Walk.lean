import Multicorn.Fs.Opens
import Multicorn.Fs.Pieces
import Multicorn.Fs.Tree

/-! The walk through the directories: what it finds, and the items it makes of it. -/
namespace Multicorn.Fs
open Multicorn.StateMonad

variable {s s' s'' : State} {d : Directory}

/-- Nothing has happened but looking at paths. -/
def Looked (s s' : State) : Prop := ∃ paths, s' = { s with os := { s.os with touched := paths } }

theorem Looked.refl (s : State) : Looked s s := ⟨s.os.touched, rfl⟩

theorem Looked.trans (h : Looked s s') (h' : Looked s' s'') : Looked s s'' := by
  obtain ⟨paths, rfl⟩ := h
  obtain ⟨paths', rfl⟩ := h'
  exact ⟨paths', rfl⟩

theorem Looked.touch (s : State) (path : Str) : Looked s { s with os := s.os.touch path } :=
  ⟨path :: s.os.touched, rfl⟩

theorem Looked.node (h : Looked s s') (p : Path) : s'.os.node p = s.os.node p := by
  obtain ⟨paths, rfl⟩ := h
  rfl

theorem Looked.process (h : Looked s s') : s'.os.process = s.os.process := by
  obtain ⟨paths, rfl⟩ := h
  rfl

theorem Looked.resolve (h : Looked s s') (path : Str) : s'.os.resolve path = s.os.resolve path :=
  Os.resolve_congr h.node h.process path

theorem Looked.stat (h : Looked s s') (path : Str) : s'.os.stat path = s.os.stat path :=
  Os.stat_congr h.node h.process path

theorem Looked.isfile (h : Looked s s') (path : Str) : s'.os.isfile path = s.os.isfile path := by
  simp only [Os.isfile, h.stat]

theorem Looked.exists (h : Looked s s') (path : Str) : s'.os.exists? path = s.os.exists? path := by
  simp only [Os.exists?, h.stat]

theorem Looked.children (h : Looked s s') (p : Path) : s'.os.children p = s.os.children p := by
  obtain ⟨paths, rfl⟩ := h
  rfl

theorem Looked.faults (h : Looked s s') : s'.os.faults = s.os.faults := by
  obtain ⟨paths, rfl⟩ := h
  rfl

theorem call_pathIsfile (path : Str) (s : State) :
    call (pathIsfile path) s = .ok (s.os.isfile path) { s with os := s.os.touch path } := by
  have hrun : pathIsfile path s.os = .ok (s.os.isfile path) (s.os.touch path) := by
    rw [← Os.isfile_touch path path]
    rfl
  unfold call
  rw [hrun]

theorem call_pathExists (path : Str) (s : State) :
    call (pathExists path) s = .ok (s.os.exists? path) { s with os := s.os.touch path } := by
  have hrun : pathExists path s.os = .ok (s.os.exists? path) (s.os.touch path) := by
    rw [← Os.exists_touch path path]
    rfl
  unfold call
  rw [hrun]

/-! Listing a directory. -/

namespace Os

/-- The entries of what is a directory, and none otherwise. -/
def listing (os : Os) (path : Str) : List Str :=
  match os.resolve path with
  | .ok p => if os.node p = some .dir then os.children p else []
  | .error _ => []

/-- A name of the path is too long for the system, or Python does not pass the path on. -/
def Refused (os : Os) (path : Str) : Prop :=
  os.resolve path = .error .ENAMETOOLONG ∨ os.resolve path = .error .valueError

theorem refused_congr {os os' : Os} (h : ∀ p, os'.node p = os.node p)
    (hprocess : os'.process = os.process) (path : Str) : os'.Refused path ↔ os.Refused path := by
  unfold Refused
  rw [resolve_congr h hprocess]

theorem walk_error {os : Os} {cur : Path} {names : List Str} {e : Errno}
    (h : os.walk cur names = .error e) : e = .ENOENT ∨ e = .ENOTDIR ∨ e = .ENAMETOOLONG := by
  induction names generalizing cur with
  | nil => cases h
  | cons c rest ih =>
    simp only [walk] at h
    cases hnode : os.node cur with
    | none =>
      simp only [hnode] at h
      cases h
      exact .inl rfl
    | some node =>
      cases node with
      | file i =>
        simp only [hnode] at h
        cases h
        exact .inr (.inl rfl)
      | dir =>
        simp only [hnode] at h
        split_ifs at h
        · exact ih h
        · exact ih h
        · exact ih h
        · cases h
          exact .inr (.inr rfl)

theorem resolve_error {os : Os} {path : Str} {e : Errno} (h : os.resolve path = .error e) :
    (e = .ENOENT ∨ e = .ENOTDIR) ↔ ¬ os.Refused path := by
  unfold Refused
  rw [h]
  unfold resolve at h
  split_ifs at h
  · cases h
    simp
  · rcases walk_error h with rfl | rfl | rfl <;> simp
  · rcases walk_error h with rfl | rfl | rfl <;> simp
  · cases h
    simp

theorem not_refused_of_ok {os : Os} {path : Str} {p : Path} (h : os.resolve path = .ok p) :
    ¬ os.Refused path := by
  unfold Refused
  rw [h]
  simp

end Os

theorem resolveCall_eq (path : Str) (os : Os) : resolveCall path os =
    match os.resolve path with
    | .ok p => .ok p (os.touch path)
    | .error e => .error e (os.touch path) := by
  have hresolve : (os.touch path).resolve path = os.resolve path := Os.resolve_touch path path
  have hrun : resolveCall path os = (match (os.touch path).resolve path with
      | .ok p => (pure p : Call Path)
      | .error e => throw e) (os.touch path) := rfl
  rw [hrun, hresolve]
  cases os.resolve path <;> rfl

theorem listdir_eq (hf : os.faults = []) (path : Str) : listdir path os =
    match os.resolve path with
    | .error e => .error e (os.touch path)
    | .ok p =>
      match os.node p with
      | some .dir => .ok (os.children p) (os.touch path)
      | some (.file _) => .error .ENOTDIR (os.touch path)
      | none => .error .ENOENT (os.touch path) := by
  have henter : enter os = .ok () os := by simp [enter, hf]
  unfold listdir
  simp only [bind, EStateM.bind, henter, resolveCall_eq]
  cases os.resolve path with
  | error e => rfl
  | ok p =>
    have hnode : (os.touch path).node p = os.node p := rfl
    simp only [get, getThe, MonadStateOf.get, run_get, hnode]
    rcases os.node p with _ | _ | i <;> rfl

theorem listdir_cases (hf : s.os.faults = []) (path : Str) :
    call (listdir path) s = .ok (s.os.listing path) { s with os := s.os.touch path } ∧
        s.os.stat path = some .dir ∨
      ∃ e, call (listdir path) s = .error (.os e) { s with os := s.os.touch path } ∧
        ((e = .ENOENT ∨ e = .ENOTDIR) ↔ ¬ s.os.Refused path) ∧ s.os.listing path = [] ∧
          s.os.stat path ≠ some .dir := by
  have hrun := listdir_eq hf path
  cases hp : s.os.resolve path with
  | error e =>
    right
    rw [hp] at hrun
    refine ⟨e, ?_, Os.resolve_error hp, by simp [Os.listing, hp], by simp [Os.stat, hp]⟩
    simp only [call, hrun]
  | ok p =>
    have hnot := Os.not_refused_of_ok hp
    simp only [hp] at hrun
    rcases hnode : s.os.node p with _ | _ | i
    · right
      simp only [hnode] at hrun
      refine ⟨.ENOENT, ?_, iff_of_true (.inl rfl) hnot, by simp [Os.listing, hp, hnode],
        by simp [Os.stat, hp, hnode]⟩
      simp only [call, hrun]
    · left
      simp only [hnode] at hrun
      refine ⟨?_, by simp [Os.stat, hp, hnode]⟩
      simp only [call, hrun, Os.listing, hp, hnode, if_true]
    · right
      simp only [hnode] at hrun
      refine ⟨.ENOTDIR, ?_, iff_of_true (.inr rfl) hnot, by simp [Os.listing, hp, hnode],
        by simp [Os.stat, hp, hnode]⟩
      simp only [call, hrun]

/-! Following the parts of the pattern. -/

section Found

variable (os : Os) (d : Directory)

/-- The names that are tried in a directory, with the values they give. -/
def matching (previous : List Str) (part : Part) (fixed : Fixed) :
    List (Str × List (Str × Str)) :=
  match fixed.1 with
  | some name => [(name, fixed.2)]
  | none => (os.listing (d.join previous)).filterMap fun name =>
      match matchPart part name with
      | some values =>
        if fixed.2.all (fun p => values.lookup p.1 = some p.2) then some (name, values) else none
      | none => none

/-- The names below `previous` that lead to a regular file, with the values of all parts. -/
def found (previous : List Str) : List (Part × Fixed) → List (List Str × List (Str × Str))
  | [] => []
  | (part, fixed) :: rest => (matching os d previous part fixed).flatMap fun p =>
      if rest = [] then
        if os.isfile (d.join (previous ++ [p.1])) then [([p.1], p.2)] else []
      else (found (previous ++ [p.1]) rest).map fun q => (p.1 :: q.1, p.2 ++ q.2)

/-- The walk lists no directory whose path is refused. -/
def Listable (previous : List Str) : List (Part × Fixed) → Prop
  | [] => True
  | (part, fixed) :: rest => (fixed.1 = none → ¬ os.Refused (d.join previous)) ∧
      ∀ p ∈ matching os d previous part fixed, Listable (previous ++ [p.1]) rest

end Found

theorem Os.listing_congr {os os' : Os} (hnode : ∀ p, os'.node p = os.node p)
    (hprocess : os'.process = os.process) (hchildren : ∀ p, os'.children p = os.children p)
    (path : Str) : os'.listing path = os.listing path := by
  simp only [Os.listing, Os.resolve_congr hnode hprocess, hnode, hchildren]

theorem Looked.matching (h : Looked s s') (previous : List Str) (part : Part) (fixed : Fixed) :
    Fs.matching s'.os d previous part fixed = Fs.matching s.os d previous part fixed := by
  simp only [Fs.matching, Os.listing_congr h.node h.process h.children]

theorem Looked.found (h : Looked s s') (previous : List Str) (parts : List (Part × Fixed)) :
    Fs.found s'.os d previous parts = Fs.found s.os d previous parts := by
  induction parts generalizing previous with
  | nil => rfl
  | cons e rest ih => simp only [Fs.found, h.matching, h.isfile, ih]

theorem Looked.listable (h : Looked s s') {previous : List Str} {parts : List (Part × Fixed)} :
    Listable s'.os d previous parts ↔ Listable s.os d previous parts := by
  induction parts generalizing previous with
  | nil => exact Iff.rfl
  | cons e rest ih => simp only [Listable, h.matching, Os.refused_congr h.node h.process, ih]

/-- Only the root directory has to be there, and no path may be refused. -/
theorem findMatchingNames_eq (hf : s.os.faults = []) {previous : List Str} {part : Part}
    {fixed : Fixed} (hroot : previous = [] → s.os.stat (d.join []) = some .dir)
    (hopen : fixed.1 = none → ¬ s.os.Refused (d.join previous)) :
    ∃ s', findMatchingNames d previous part fixed s =
      .ok (matching s.os d previous part fixed) s' ∧ Looked s s' := by
  obtain ⟨text, values⟩ := fixed
  cases text with
  | some name => exact ⟨s, rfl, .refl s⟩
  | none =>
    have hbind : ∀ names : List Str, ∀ s₁ : State,
        (tryCatch (call (listdir (d.join previous))) fun e =>
          if previous ≠ [] ∧ (e = .os .ENOENT ∨ e = .os .ENOTDIR) then pure [] else throw e : M _) s
          = .ok names s₁ → names = s.os.listing (d.join previous) →
        findMatchingNames d previous part (none, values) s =
          .ok (matching s.os d previous part (none, values)) s₁ := by
      intro names s₁ hlist hnames
      unfold findMatchingNames
      simp only
      rw [bind_eq_ok]
      refine ⟨names, s₁, hlist, ?_⟩
      rw [hnames]
      rfl
    refine ⟨{ s with os := s.os.touch (d.join previous) }, ?_, .touch s _⟩
    obtain ⟨hlist, -⟩ | ⟨e, hlist, he, hempty, hdir⟩ := listdir_cases hf (d.join previous)
    · apply hbind _ _ _ rfl
      rw [tryCatch_eq_ok]
      exact .inl hlist
    · have hprevious : previous ≠ [] := by
        intro h
        rw [h] at hdir
        exact hdir (hroot h)
      apply hbind [] _ _ hempty.symm
      rw [tryCatch_eq_ok]
      refine .inr ⟨_, _, hlist, ?_⟩
      have herror : Failure.os e = .os .ENOENT ∨ Failure.os e = .os .ENOTDIR := by
        rcases he.mpr (hopen rfl) with rfl | rfl
        · exact .inl rfl
        · exact .inr rfl
      rw [if_pos ⟨hprevious, herror⟩]
      rfl

/-- A path that is refused raises. -/
theorem not_refused_of_findMatchingNames (hf : s.os.faults = []) {previous : List Str}
    {part : Part} {fixed : Fixed} {names : List (Str × List (Str × Str))}
    (h : findMatchingNames d previous part fixed s = .ok names s') (hopen : fixed.1 = none) :
    ¬ s.os.Refused (d.join previous) := by
  obtain ⟨text, values⟩ := fixed
  obtain rfl : text = none := hopen
  intro hrefused
  unfold findMatchingNames at h
  simp only [bind_eq_ok] at h
  obtain ⟨entries, s₁, hlist, -⟩ := h
  rcases listdir_cases hf (d.join previous) with ⟨hcall, hdir⟩ | ⟨e, hcall, he, -⟩
  · obtain ⟨p, hp, -⟩ := Os.stat_eq_some.mp hdir
    exact Os.not_refused_of_ok hp hrefused
  · rcases tryCatch_eq_ok.mp hlist with hok | ⟨e', s₂, herror, hcaught⟩
    · rw [hcall] at hok
      cases hok
    · rw [hcall] at herror
      cases herror
      have hnot : ¬ (previous ≠ [] ∧ (Failure.os e = .os .ENOENT ∨ Failure.os e = .os .ENOTDIR)) := by
        rintro ⟨-, hcases⟩
        exact he.mp (by simpa using hcases) hrefused
      rw [if_neg hnot] at hcaught
      cases hcaught

/-- The item that is made of what the walk has found. -/
def Makes (d : Directory) (values : List (Str × Str)) (f : List Str × List (Str × Str))
    (item : Item) : Prop := d.item (values ++ f.2) (.bytes []) = .ok item

private theorem forall₂_flatten {α β γ : Type} {R : α → β → Prop} {g : γ → List α} {l : List γ}
    {bss : List (List β)} (h : List.Forall₂ (fun c bs => List.Forall₂ R (g c) bs) l bss) :
    List.Forall₂ R (l.flatMap g) bss.flatten := by
  induction h with
  | nil => exact .nil
  | cons hab _ ih =>
    rw [List.flatMap_cons, List.flatten_cons]
    exact List.rel_append hab ih

section Step

variable (d) (previous : List Str) (values : List (Str × Str)) (rest : List (Part × Fixed))

/-- What the walk does with one name. -/
private def visit (p : Str × List (Str × Str)) : M (List Item) := do
  let path_parts := previous ++ [p.1]
  let values := values ++ p.2
  if rest = [] then
    if ← call (pathIsfile (d.join path_parts)) then
      return [← liftExcept (d.item values (.bytes []))]
    else return []
  else walk d path_parts values rest

private def below (os : Os) (p : Str × List (Str × Str)) : List (List Str × List (Str × Str)) :=
  if rest = [] then
    if os.isfile (d.join (previous ++ [p.1])) then [([p.1], p.2)] else []
  else (found os d (previous ++ [p.1]) rest).map fun q => (p.1 :: q.1, p.2 ++ q.2)

end Step

private theorem walk_cons (previous : List Str) (values : List (Str × Str)) (part : Part)
    (fixed : Fixed) (rest : List (Part × Fixed)) :
    walk d previous values ((part, fixed) :: rest) = (do
      let names ← findMatchingNames d previous part fixed
      let items ← names.mapM (visit d previous values rest)
      return items.flatten) := by
  rw [walk]
  rfl

private theorem found_cons (os : Os) (previous : List Str) (part : Part) (fixed : Fixed)
    (rest : List (Part × Fixed)) :
    found os d previous ((part, fixed) :: rest) =
      (matching os d previous part fixed).flatMap (below d previous rest os) := rfl

private theorem Makes.append {values more : List (Str × Str)} {name : Str} {items : List Item}
    {fs : List (List Str × List (Str × Str))}
    (h : List.Forall₂ (Makes d (values ++ more)) fs items) :
    List.Forall₂ (Makes d values) (fs.map fun q => (name :: q.1, more ++ q.2)) items := by
  rw [List.forall₂_map_left_iff]
  refine h.imp fun f item hf => ?_
  unfold Makes at hf ⊢
  rwa [List.append_assoc] at hf

/-- The walk succeeds when it can list its directories and each thing it finds makes an item. -/
theorem walk_ok (hf : s.os.faults = []) {previous : List Str} {values : List (Str × Str)}
    {parts : List (Part × Fixed)} (hroot : previous = [] → s.os.stat (d.join []) = some .dir)
    (hlist : Listable s.os d previous parts)
    (hitems : ∀ f ∈ found s.os d previous parts, ∃ item, Makes d values f item) :
    ∃ items s', walk d previous values parts s = .ok items s' ∧ Looked s s' ∧
      List.Forall₂ (Makes d values) (found s.os d previous parts) items := by
  induction parts generalizing s previous values with
  | nil => exact ⟨[], s, rfl, .refl s, .nil⟩
  | cons e rest ih =>
    obtain ⟨part, fixed⟩ := e
    rw [found_cons] at hitems ⊢
    obtain ⟨s₁, hnames, hlooked⟩ := @findMatchingNames_eq s d hf previous part fixed hroot hlist.1
    have hvisit : ∀ p ∈ matching s.os d previous part fixed, ∀ s₂, Looked s₁ s₂ →
        ∃ items s₃, visit d previous values rest p s₂ = .ok items s₃ ∧ Looked s₂ s₃ ∧
          List.Forall₂ (Makes d values) (below d previous rest s.os p) items := by
      intro p hp s₂ hs₂
      have hlooked₂ := hlooked.trans hs₂
      have hbelow : ∀ f ∈ below d previous rest s.os p, ∃ item, Makes d values f item := fun f hf =>
        hitems f (List.mem_flatMap.mpr ⟨p, hp, hf⟩)
      unfold visit
      unfold below at hbelow ⊢
      by_cases hrest : rest = []
      · rw [if_pos hrest] at hbelow ⊢
        simp only [if_pos hrest]
        have hcall := call_pathIsfile (d.join (previous ++ [p.1])) s₂
        rw [hlooked₂.isfile] at hcall
        by_cases hfile : s.os.isfile (d.join (previous ++ [p.1])) = true
        · rw [if_pos hfile] at hbelow ⊢
          obtain ⟨item, hitem⟩ := hbelow _ (List.mem_singleton_self _)
          refine ⟨[item], _, ?_, .touch s₂ (d.join (previous ++ [p.1])), .cons hitem .nil⟩
          rw [bind_eq_ok]
          refine ⟨true, _, by rw [hcall, hfile], ?_⟩
          unfold Makes at hitem
          simp only [if_true, hitem]
          rfl
        · rw [if_neg hfile]
          refine ⟨[], _, ?_, .touch s₂ (d.join (previous ++ [p.1])), .nil⟩
          rw [bind_eq_ok]
          refine ⟨false, _, ?_, rfl⟩
          rw [hcall, Bool.eq_false_iff.mpr hfile]
      · rw [if_neg hrest] at hbelow ⊢
        simp only [if_neg hrest]
        have hfound : found s₂.os d (previous ++ [p.1]) rest = found s.os d (previous ++ [p.1]) rest :=
          hlooked₂.found _ _
        obtain ⟨items, s₃, hwalk, hs₃, hall⟩ := @ih s₂ (hlooked₂.faults.trans hf) (previous ++ [p.1])
          (values ++ p.2) (by simp) (hlooked₂.listable.mpr (hlist.2 p hp)) (by
            intro f hmem
            rw [hfound] at hmem
            obtain ⟨item, hitem⟩ := hbelow _ (List.mem_map.mpr ⟨f, hmem, rfl⟩)
            refine ⟨item, ?_⟩
            unfold Makes at hitem ⊢
            rwa [List.append_assoc])
        rw [hfound] at hall
        exact ⟨items, s₃, hwalk, hs₃, Makes.append hall⟩
    obtain ⟨itemss, s', hmap, hs', hall⟩ := mapM_ok Looked.refl (fun _ _ _ => Looked.trans) hvisit
    refine ⟨itemss.flatten, s', ?_, hlooked.trans hs', forall₂_flatten hall⟩
    rw [walk_cons, bind_eq_ok]
    refine ⟨_, s₁, hnames, ?_⟩
    rw [bind_eq_ok]
    exact ⟨itemss, s', hmap, rfl⟩

/-- A walk that succeeds could list its directories, and has made an item of each thing it found. -/
theorem of_walk_ok (hf : s.os.faults = []) {previous : List Str} {values : List (Str × Str)}
    {parts : List (Part × Fixed)} (hroot : previous = [] → s.os.stat (d.join []) = some .dir)
    {items : List Item} (h : walk d previous values parts s = .ok items s') :
    Looked s s' ∧ Listable s.os d previous parts ∧
      List.Forall₂ (Makes d values) (found s.os d previous parts) items := by
  induction parts generalizing s s' previous values items with
  | nil =>
    obtain ⟨rfl, rfl⟩ := pure_eq_ok.mp h
    exact ⟨.refl s, trivial, .nil⟩
  | cons e rest ih =>
    obtain ⟨part, fixed⟩ := e
    rw [walk_cons, bind_eq_ok] at h
    obtain ⟨_, s₁, hnames', h⟩ := h
    have hopen : fixed.1 = none → ¬ s.os.Refused (d.join previous) :=
      not_refused_of_findMatchingNames hf hnames'
    obtain ⟨s₁', hnames, hlooked⟩ := @findMatchingNames_eq s d hf previous part fixed hroot hopen
    rw [hnames] at hnames'
    cases hnames'
    rw [bind_eq_ok] at h
    obtain ⟨itemss, _, hmap, h⟩ := h
    obtain ⟨rfl, rfl⟩ := pure_eq_ok.mp h
    have hvisit : ∀ p ∈ matching s.os d previous part fixed, ∀ s₂ items s₃, Looked s₁ s₂ →
        visit d previous values rest p s₂ = .ok items s₃ → Looked s₂ s₃ ∧
          Listable s.os d (previous ++ [p.1]) rest ∧
            List.Forall₂ (Makes d values) (below d previous rest s.os p) items := by
      intro p hp s₂ items s₃ hs₂ hrun
      have hlooked₂ := hlooked.trans hs₂
      unfold visit at hrun
      unfold below
      by_cases hrest : rest = []
      · have hlist : Listable s.os d (previous ++ [p.1]) rest := by
          rw [hrest]
          exact trivial
        rw [if_pos hrest]
        simp only [if_pos hrest] at hrun
        rw [bind_eq_ok, call_pathIsfile, hlooked₂.isfile] at hrun
        obtain ⟨_, _, hcall, hrun⟩ := hrun
        cases hcall
        by_cases hfile : s.os.isfile (d.join (previous ++ [p.1])) = true
        · rw [if_pos hfile]
          simp only [hfile, if_true, bind_eq_ok, liftExcept_eq_ok] at hrun
          obtain ⟨item, _, ⟨hitem, rfl⟩, hrun⟩ := hrun
          obtain ⟨rfl, rfl⟩ := pure_eq_ok.mp hrun
          exact ⟨.touch s₂ _, hlist, .cons hitem .nil⟩
        · rw [if_neg hfile]
          rw [if_neg hfile] at hrun
          obtain ⟨rfl, rfl⟩ := pure_eq_ok.mp hrun
          exact ⟨.touch s₂ _, hlist, .nil⟩
      · rw [if_neg hrest]
        simp only [if_neg hrest] at hrun
        obtain ⟨hs₃, hlist, hall⟩ := ih (hlooked₂.faults.trans hf) (by simp) hrun
        rw [hlooked₂.found] at hall
        exact ⟨hs₃, hlooked₂.listable.mp hlist, Makes.append hall⟩
    obtain ⟨hs', hall⟩ := of_mapM_ok Looked.refl (fun _ _ _ => Looked.trans) hmap hvisit
    obtain ⟨hlist, hall⟩ := (List.forall₂_and_left _ _).mp hall
    rw [found_cons]
    exact ⟨hlooked.trans hs', ⟨hopen, hlist⟩, forall₂_flatten hall⟩

end Multicorn.Fs
