import Multicorn.Fs.Filters
import Multicorn.General.Trace

/-! The directories that a walk lists. -/
namespace Multicorn.Fs
open Multicorn.StateMonad

variable {d : Directory} {values : List (Str × Str)} {os : Os}

/-! The walk with `_listdir` replaced, as the tests do. -/

section Replaced

variable {μ : Type → Type} [Monad μ] [MonadExceptOf Failure μ]

def raiseIn {α : Type} : Except Failure α → μ α
  | .ok a => pure a
  | .error e => throw e

def findMatchingNamesVia (listdir : List Str → μ (List Str)) (previous : List Str) (part : Part)
    (fixed : Fixed) : μ (List (Str × List (Str × Str))) := do
  match fixed.1 with
  | some name => return [(name, fixed.2)]
  | none =>
    let names ← tryCatch (listdir previous) fun e =>
      if previous ≠ [] ∧ (e = .os .ENOENT ∨ e = .os .ENOTDIR) then pure [] else throw e
    return names.filterMap fun name =>
      match matchPart part name with
      | some values =>
        if fixed.2.all (fun p => values.lookup p.1 = some p.2) then some (name, values) else none
      | none => none

def walkVia (listdir : List Str → μ (List Str)) (isfile : Str → μ Bool) (d : Directory)
    (previous : List Str) (values : List (Str × Str)) : List (Part × Fixed) → μ (List Item)
  | [] => return []
  | (part, fixed) :: rest => do
    let names ← findMatchingNamesVia listdir previous part fixed
    let items ← names.mapM fun (name, part_values) => do
      let path_parts := previous ++ [name]
      let values := values ++ part_values
      if rest = [] then
        if ← isfile (d.join path_parts) then
          return [← raiseIn (d.item values (.bytes []))]
        else return []
      else walkVia listdir isfile d path_parts values rest
    return items.flatten

def getItemsVia (listdir : List Str → μ (List Str)) (isfile : Str → μ Bool) (d : Directory)
    (values : List (Str × Str)) : μ (List Item) :=
  if values.any (fun p => p.1 = Directory.self) then throw .typeError
  else if ¬ values.all (fun p => p.1 ∈ d.properties) then
    throw (.valueError "Unknown properties: %s")
  else do
    let fixed ← raiseIn (((d.pattern.splitOn '/').zip d.parts).mapM fun (text, part) =>
      fixedPart values text part)
    walkVia listdir isfile d [] [] (d.parts.zip fixed)

end Replaced

/-- The walk is the one with its own calls. -/
theorem walk_via (d : Directory) (previous : List Str) (values : List (Str × Str))
    (parts : List (Part × Fixed)) : walk d previous values parts =
      walkVia (fun parts => call (listdir (d.join parts))) (fun path => call (pathIsfile path)) d
        previous values parts := by
  induction parts generalizing previous values with
  | nil => rfl
  | cons e rest ih =>
    obtain ⟨part, fixed⟩ := e
    rw [walk, walkVia]
    simp only [ih]
    rfl

theorem getItems_via (d : Directory) (values : List (Str × Str)) : getItems d values =
    getItemsVia (fun parts => call (listdir (d.join parts))) (fun path => call (pathIsfile path)) d
      values := by
  unfold getItems getItemsVia
  simp only [walk_via]
  rfl

/-- The wrapper, and the arguments of the calls of `_listdir` so far. -/
structure Recorder where
  state : State
  listed : List (List Str)

abbrev Recording := EStateM Failure Recorder

/-- A call that is not recorded. -/
def unrecorded {α : Type} (x : M α) : Recording α := fun r =>
  match x r.state with
  | .ok a s => .ok a { r with state := s }
  | .error e s => .error e { r with state := s }

def listdirMock (d : Directory) (parts : List Str) : Recording (List Str) := do
  modify fun r => { r with listed := r.listed ++ [parts] }
  unrecorded (call (listdir (d.join parts)))

/-- `get_items` with its calls of `_listdir` recorded. -/
def getItemsRecorded (d : Directory) (values : List (Str × Str)) : Recording (List Item) :=
  getItemsVia (listdirMock d) (fun path => unrecorded (call (pathIsfile path))) d values

/-- The directories that `get_items` lists, in order. -/
def listedBy (d : Directory) (values : List (Str × Str)) (s : State) : List (List Str) :=
  (finalState (getItemsRecorded d values ⟨s, []⟩)).listed

/-! Recording changes nothing. -/

theorem unrecorded_projects {α : Type} (x : M α) : Projects Recorder.state (unrecorded x) x := by
  intro r
  unfold unrecorded
  cases x r.state with
  | ok a s => rfl
  | error e s => rfl

theorem listdirMock_projects (parts : List Str) :
    Projects Recorder.state (listdirMock d parts) (call (listdir (d.join parts))) := fun r =>
  unrecorded_projects _ { r with listed := r.listed ++ [parts] }

theorem raiseIn_projects {α : Type} (x : Except Failure α) :
    Projects Recorder.state (raiseIn x : Recording α) (raiseIn x) := by
  cases x with
  | ok a => exact .pure a
  | error e => exact .throw e

theorem findMatchingNames_projects (previous : List Str) (part : Part) (fixed : Fixed) :
    Projects Recorder.state (findMatchingNamesVia (listdirMock d) previous part fixed)
      (findMatchingNamesVia (fun parts => call (listdir (d.join parts))) previous part fixed) := by
  unfold findMatchingNamesVia
  cases fixed.1 with
  | some name => exact .pure _
  | none =>
    refine .bind (.tryCatch (listdirMock_projects previous) fun e => ?_) fun names => .pure _
    split_ifs
    · exact .pure _
    · exact .throw e

theorem walk_projects (previous : List Str) (values : List (Str × Str))
    (parts : List (Part × Fixed)) : Projects Recorder.state
      (walkVia (listdirMock d) (fun path => unrecorded (call (pathIsfile path))) d previous values
        parts) (walk d previous values parts) := by
  rw [walk_via]
  induction parts generalizing previous values with
  | nil => exact .pure _
  | cons e rest ih =>
    obtain ⟨part, fixed⟩ := e
    rw [walkVia, walkVia]
    refine .bind (findMatchingNames_projects previous part fixed) fun names =>
      .bind (.mapM fun p _ => ?_) fun items => .pure _
    split_ifs
    · refine .bind (unrecorded_projects _) fun isfile => ?_
      cases isfile with
      | false => exact .pure _
      | true => exact .bind (raiseIn_projects _) fun item => .pure _
    · exact ih _ _

theorem getItems_projects (d : Directory) (values : List (Str × Str)) :
    Projects Recorder.state (getItemsRecorded d values) (getItems d values) := by
  rw [getItems_via]
  unfold getItemsRecorded getItemsVia
  simp only [← walk_via]
  split_ifs
  · exact .throw _
  · exact .bind (raiseIn_projects _) fun fixed => walk_projects _ _ _
  · exact .throw _

/-! What the recorded calls list. -/

/-- No name has a newline. -/
def Os.NewlineFree (os : Os) : Prop := ∀ p ∈ os.nodes.keys, ∀ name ∈ p, '\n' ∉ name

theorem Os.NewlineFree.children (h : os.NewlineFree) (p : Path) :
    ∀ name ∈ os.children p, '\n' ∉ name := by
  intro name hname
  obtain ⟨q, hq, hlast⟩ := List.mem_filterMap.mp hname
  split_ifs at hlast
  exact h q hq name (List.mem_of_getLast? hlast)

/-- What `_listdir` gives where no name has a newline. -/
def Names (names : List Str) : Prop := names.Nodup ∧ ∀ name ∈ names, '\n' ∉ name

theorem enter_newlineFree : Keeps Os.NewlineFree enter fun _ => True := by
  intro os hos
  unfold enter
  rcases hf : os.faults with _ | ⟨_ | e, faults⟩
  · exact ends_ok hos trivial
  · exact ends_ok hos trivial
  · exact ends_error hos

theorem resolveCall_newlineFree (path : Str) :
    Keeps Os.NewlineFree (resolveCall path) fun _ => True := by
  refine Keeps.bind (Keeps.modify fun _ hos => hos) fun _ _ => Keeps.bind Keeps.get fun os _ => ?_
  cases os.resolve path with
  | ok p => exact Keeps.pure trivial
  | error e => exact Keeps.throw e

theorem listdir_newlineFree (path : Str) : Keeps Os.NewlineFree (listdir path) Names := by
  refine Keeps.bind enter_newlineFree fun _ _ => Keeps.bind (resolveCall_newlineFree path)
    fun p _ => Keeps.bind Keeps.get fun os _ => ?_
  rcases os.node p with _ | _ | i
  · exact Keeps.throw _
  · exact Keeps.bind Keeps.get fun os' hos' =>
      Keeps.pure ⟨Os.children_nodup p, hos'.children p⟩
  · exact Keeps.throw _

theorem pathIsfile_newlineFree (path : Str) :
    Keeps Os.NewlineFree (pathIsfile path) fun _ => True :=
  Keeps.bind (Keeps.modify fun _ hos => hos) fun _ _ =>
    Keeps.bind Keeps.get fun _ _ => Keeps.pure trivial

section Recorded

variable {α : Type} {Q : α → Prop}

/-- No name of the recorded system has a newline. -/
def Recorder.NewlineFree (r : Recorder) : Prop := r.state.os.NewlineFree

theorem unrecorded_newlineFree {x : Call α} (hx : Keeps Os.NewlineFree x Q) {P : List Str → Prop} :
    Logs Recorder.listed Recorder.NewlineFree P (unrecorded (call x)) Q := by
  refine .silent (fun r hr => ?_) fun r => ?_
  · obtain ⟨hos, hQ⟩ := hx r.state.os hr
    unfold unrecorded call
    cases hrun : x r.state.os with
    | ok a os =>
      rw [hrun] at hos hQ
      exact ends_ok hos (hQ a rfl)
    | error e os =>
      rw [hrun] at hos
      exact ends_error hos
  · unfold unrecorded
    cases call x r.state with
    | ok a s => rfl
    | error e s => rfl

theorem raiseIn_logs {x : Except Failure α} {P : List Str → Prop} :
    Logs Recorder.listed Recorder.NewlineFree P (raiseIn x : Recording α) fun _ => True := by
  cases x with
  | ok a => exact .pure trivial
  | error e => exact .throw e

theorem listdirMock_logs (parts : List Str) :
    Logs Recorder.listed Recorder.NewlineFree (· = parts) (listdirMock d parts) Names := by
  intro r hr
  obtain ⟨hends, new, hlisted, hnodup, hnew⟩ :=
    unrecorded_newlineFree (listdir_newlineFree (d.join parts)) (P := fun _ => False)
      { r with listed := r.listed ++ [parts] } hr
  obtain rfl : new = [] := List.eq_nil_iff_forall_not_mem.mpr hnew
  refine ⟨hends, [parts], ?_, List.nodup_singleton parts, fun c hc => List.mem_singleton.mp hc⟩
  rw [List.append_nil] at hlisted
  exact hlisted

end Recorded

/-! The directories on the way. -/

/-- The names are the parts formatted with `get`, which agrees with the fixed values. -/
structure Spelled (values : List (Str × Str)) (get : Str → Option Str) (parts : List Part)
    (names : List Str) : Prop where
  agrees : ∀ k v, values.lookup k = some v → get k = some v
  known : ∀ part ∈ parts, ∀ k ∈ part.properties, (get k).isSome
  names_eq : names = parts.map (Part.text get)

/-- A name of one part, and the values it is formatted with. -/
structure Fits (values : List (Str × Str)) (part : Part) (name : Str) (vals : List (Str × Str)) :
    Prop where
  keys : vals.map Prod.fst = part.properties
  agrees : ∀ k ∈ part.properties, ∀ v, values.lookup k = some v → vals.lookup k = some v
  name_eq : name = Part.text (fun k => vals.lookup k) part

theorem Spelled.push {get : Str → Option Str} {parts : List Part} {names : List Str} {part : Part}
    {name : Str} {vals : List (Str × Str)} (h : Spelled values get parts names)
    (hfits : Fits values part name vals) (hnodup : part.properties.Nodup)
    (hdisjoint : ∀ part' ∈ parts, ∀ k ∈ part'.properties, k ∉ part.properties) :
    ∃ get', Spelled values get' (parts ++ [part]) (names ++ [name]) := by
  let get' : Str → Option Str := fun k => if k ∈ part.properties then vals.lookup k else get k
  have hpart : ∀ k ∈ part.properties, get' k = vals.lookup k := fun k hk => if_pos hk
  have hparts : ∀ part' ∈ parts, ∀ k ∈ part'.properties, get' k = get k :=
    fun part' hpart' k hk => if_neg (hdisjoint part' hpart' k hk)
  refine ⟨get', ?_, ?_, ?_⟩
  · intro k v hv
    by_cases hk : k ∈ part.properties
    · rw [hpart k hk]
      exact hfits.agrees k hk v hv
    · show (if k ∈ part.properties then vals.lookup k else get k) = some v
      rw [if_neg hk]
      exact h.agrees k v hv
  · intro part' hpart' k hk
    rcases List.mem_append.mp hpart' with hpart' | hpart'
    · rw [hparts part' hpart' k hk]
      exact h.known part' hpart' k hk
    · obtain rfl := List.mem_singleton.mp hpart'
      rw [hpart k hk, lookup_isSome (hfits.keys ▸ hnodup), hfits.keys]
      exact hk
  · rw [List.map_append, h.names_eq, hfits.name_eq, List.map_singleton]
    congr 1
    · exact List.map_congr_left fun part' hpart' =>
        Part.text_congr fun k hk => (hparts part' hpart' k hk).symm
    · rw [Part.text_congr fun k hk => (hpart k hk).symm]

theorem fits_of_fixed {part : Part} (hnodup : part.properties.Nodup) {text : Str}
    (h : (fixedOf values part).1 = some text) : Fits values part text (fixedValues values part) := by
  have hlen : (fixedValues values part).length = part.properties.length := by
    by_contra hlen
    rw [fixedOf_open hlen] at h
    cases h
  have hkeys := keys_fixedValues hlen
  rw [fixedOf_full hlen] at h
  refine ⟨hkeys, fun k hk v hv => ?_, (Option.some.inj h).symm⟩
  exact (lookup_iff_mem (hkeys ▸ hnodup)).mpr (mem_fixedValues.mpr ⟨hk, hv⟩)

theorem fits_of_match {part : Part} (hnodup : part.properties.Nodup) {name : Str}
    {vals : List (Str × Str)} (hmatch : matchPart part name = some vals) (hname : '\n' ∉ name)
    (hall : ∀ p ∈ fixedValues values part, vals.lookup p.1 = some p.2) :
    Fits values part name vals := by
  refine ⟨keys_of_matchPart hmatch, fun k hk v hv => ?_, ?_⟩
  · exact hall (k, v) (mem_fixedValues.mpr ⟨hk, hv⟩)
  · refine eq_text_of_matchPart hmatch hnodup fun hlast => ?_
    exact hname (List.mem_of_getLast? hlast)

/-- A part without a whole name has a property without a value. -/
theorem exists_unfixed {part : Part} (h : (fixedOf values part).1 = none) :
    ∃ k ∈ part.properties, values.lookup k = none := by
  by_contra hall
  push Not at hall
  have hkeys : ∀ names : List Str, (∀ k ∈ names, values.lookup k ≠ none) →
      (names.filterMap fun name => (values.lookup name).map (name, ·)).length = names.length := by
    intro names hnames
    induction names with
    | nil => rfl
    | cons k rest ih =>
      rw [List.forall_mem_cons] at hnames
      obtain ⟨v, hv⟩ := Option.ne_none_iff_exists'.mp hnames.1
      rw [List.filterMap_cons, hv]
      exact congrArg (· + 1) (ih hnames.2)
  rw [fixedOf_full (hkeys _ hall)] at h
  cases h

theorem findMatchingNames_logs {part : Part} (hnodup : part.properties.Nodup)
    (previous : List Str) :
    Logs Recorder.listed Recorder.NewlineFree
      (fun parts => parts = previous ∧ (fixedOf values part).1 = none)
      (findMatchingNamesVia (listdirMock d) previous part (fixedOf values part))
      fun names => (names.map Prod.fst).Nodup ∧ ∀ p ∈ names, Fits values part p.1 p.2 := by
  unfold findMatchingNamesVia
  rw [fixedOf_snd]
  cases htext : (fixedOf values part).1 with
  | some text =>
    refine .pure ⟨List.nodup_singleton text, fun p hp => ?_⟩
    obtain rfl := List.mem_singleton.mp hp
    exact fits_of_fixed hnodup htext
  | none =>
    have hlist : Logs Recorder.listed Recorder.NewlineFree
        (fun parts => parts = previous ∧ (none : Option Str) = none)
        (tryCatch (listdirMock d previous) fun e =>
          if previous ≠ [] ∧ (e = .os .ENOENT ∨ e = .os .ENOTDIR) then pure [] else throw e)
        Names := by
      refine ((listdirMock_logs previous).tryCatch (fun e => ?_) fun _ _ h => h).mono
        (fun parts h => ⟨h.resolve_right id, rfl⟩) fun _ h => h
      split_ifs
      · exact .pure ⟨List.nodup_nil, by simp⟩
      · exact .throw e
    refine hlist.bind_silent fun names hnames => .pure ⟨?_, fun p hp => ?_⟩
    · refine hnames.1.sublist (map_fst_filterMap_sublist fun name p hp => ?_)
      split at hp
      · split_ifs at hp
        cases hp
        rfl
      · cases hp
    · obtain ⟨name, hname, hp⟩ := List.mem_filterMap.mp hp
      split at hp
      · rename_i vals hmatch
        split_ifs at hp with hall
        cases hp
        refine fits_of_match hnodup hmatch (hnames.2 name hname) fun q hq => ?_
        simpa using List.all_eq_true.mp hall q hq
      · cases hp

/-! The whole walk. -/

/-- A directory that has to be listed: its names are the first parts of the pattern formatted with
values that agree with the fixed ones, and the next part has a property that is not fixed. -/
def Needed (d : Directory) (values : List (Str × Str)) (names : List Str) : Prop :=
  ∃ done part rest get, d.parts = done ++ part :: rest ∧ Spelled values get done names ∧
    ∃ k ∈ part.properties, values.lookup k = none

/-- What the recorded walk does with one name. -/
private def visitRecorded (d : Directory) (previous : List Str) (values : List (Str × Str))
    (rest : List (Part × Fixed)) (p : Str × List (Str × Str)) : Recording (List Item) := do
  let path_parts := previous ++ [p.1]
  let values := values ++ p.2
  if rest = [] then
    if ← unrecorded (call (pathIsfile (d.join path_parts))) then
      return [← raiseIn (d.item values (.bytes []))]
    else return []
  else
    walkVia (listdirMock d) (fun path => unrecorded (call (pathIsfile path))) d path_parts values
      rest

private theorem walkVia_cons (previous : List Str) (values : List (Str × Str)) (part : Part)
    (fixed : Fixed) (rest : List (Part × Fixed)) :
    walkVia (listdirMock d) (fun path => unrecorded (call (pathIsfile path))) d previous values
      ((part, fixed) :: rest) = (do
        let names ← findMatchingNamesVia (listdirMock d) previous part fixed
        let items ← names.mapM (visitRecorded d previous values rest)
        return items.flatten) := by
  rw [walkVia]
  rfl

theorem walk_logs (d : Directory) (values vals : List (Str × Str)) {done rest : List Part}
    (hparts : d.parts = done ++ rest) {get : Str → Option Str} {previous : List Str}
    (h : Spelled values get done previous) :
    Logs Recorder.listed Recorder.NewlineFree (fun parts => previous <+: parts ∧ Needed d values parts)
      (walkVia (listdirMock d) (fun path => unrecorded (call (pathIsfile path))) d previous vals
        (rest.map fun part => (part, fixedOf values part))) fun _ => True := by
  induction rest generalizing done get previous vals with
  | nil => exact .pure trivial
  | cons part rest ih =>
    have hnodup : part.properties.Nodup := properties_sublist (by
      rw [hparts]
      exact List.mem_append_right _ List.mem_cons_self)
    have hdisjoint : ∀ part' ∈ done, ∀ k ∈ part'.properties, k ∉ part.properties := by
      intro part' hpart' k hk hk'
      have hall := properties_nodup d
      unfold Directory.properties at hall
      rw [hparts, List.flatMap_append, List.flatMap_cons] at hall
      exact List.disjoint_of_nodup_append hall (List.mem_flatMap.mpr ⟨part', hpart', hk⟩)
        (List.mem_append_left _ hk')
    rw [List.map_cons, walkVia_cons]
    have hvisit : ∀ names : List (Str × List (Str × Str)), ((names.map Prod.fst).Nodup ∧
        ∀ p ∈ names, Fits values part p.1 p.2) → Logs Recorder.listed Recorder.NewlineFree
          (fun parts => ∃ name, previous ++ [name] <+: parts ∧ Needed d values parts)
          (names.mapM (visitRecorded d previous vals
            (rest.map fun part => (part, fixedOf values part))))
          fun _ => True := by
      rintro names ⟨hnames, hfits⟩
      refine (Logs.mapM (P := fun p parts => previous ++ [p.1] <+: parts ∧ Needed d values parts)
        (fun p hp => ?_) ?_).mono (fun parts ⟨p, _, h⟩ => ⟨p.1, h⟩) fun _ h => h
      · obtain ⟨get', h'⟩ := h.push (hfits p hp) hnodup hdisjoint
        unfold visitRecorded
        split_ifs
        · refine Logs.bind_silent (unrecorded_newlineFree (pathIsfile_newlineFree _))
            fun isfile _ => ?_
          cases isfile with
          | false => exact .pure trivial
          | true => exact raiseIn_logs.bind_silent fun _ _ => .pure trivial
        · refine ih _ ?_ h'
          rw [hparts, List.append_assoc]
          rfl
      · refine (List.pairwise_map.mp hnames).imp fun hne parts hp hp' => hne ?_
        have hlen := List.prefix_of_prefix_length_le hp.1 hp'.1 (by simp)
        simpa using hlen.eq_of_length (by simp)
    refine ((findMatchingNames_logs hnodup previous).bind (fun names hnames =>
      (hvisit names hnames).bind_silent fun _ _ => .pure trivial) fun parts hparts' hp => ?_).mono
        (fun parts hparts' => ?_) fun _ h => h
    · obtain ⟨rfl, -⟩ := hparts'
      obtain ⟨name, hle, -⟩ := hp
      have hlen := hle.length_le
      rw [List.length_append, List.length_singleton] at hlen
      omega
    · rcases hparts' with ⟨rfl, hopen⟩ | ⟨name, hle, hneeded⟩
      · exact ⟨List.prefix_refl _, done, part, rest, get, hparts, h, exists_unfixed hopen⟩
      · exact ⟨(List.prefix_append _ _).trans hle, hneeded⟩

theorem formatted_of_formats {get : Str → Option Str} {pieces : List Str} {parts : List Part}
    (h : List.Forall₂ Formats pieces parts)
    (hknown : ∀ part ∈ parts, ∀ k ∈ part.properties, (get k).isSome) :
    List.Forall₂ (fun piece name => vformat piece get = .ok name) pieces
      (parts.map (Part.text get)) := by
  induction h with
  | nil => exact .nil
  | cons hpiece _ ih =>
    rw [List.forall_mem_cons] at hknown
    exact .cons (hpiece get hknown.1) (ih hknown.2)

/-- What the walk lists. Along a walk that is not read to its end, the last of these calls are
not made. -/
theorem getItems_listings (hid : ∀ name, d.isidentifier name = true → PlainName name)
    (hdoubled : NoDoubledBraces d.pattern) (values : List (Str × Str)) {s : State}
    (hnames : ∀ p ∈ s.os.nodes.keys, ∀ name ∈ p, '\n' ∉ name) :
    project Recorder.state (getItemsRecorded d values ⟨s, []⟩) = getItems d values s ∧
      (listedBy d values s).Nodup ∧ ∀ names ∈ listedBy d values s,
        names.length < d.parts.length ∧
        (∃ get : Str → Option Str, (∀ k v, values.lookup k = some v → get k = some v) ∧
          List.Forall₂ (fun piece name => vformat piece get = .ok name)
            ((d.pattern.splitOn '/').take names.length) names) ∧
        ∃ part, d.parts[names.length]? = some part ∧
          ∃ k ∈ part.properties, values.lookup k = none := by
  have hpieces := formatsParts_of_plain hid hdoubled
  have hlogs : Logs Recorder.listed Recorder.NewlineFree (Needed d values)
      (getItemsRecorded d values) fun _ => True := by
    have hwalk := @walk_logs d values [] [] d.parts rfl (values.lookup ·) []
      ⟨fun _ _ h => h, by simp, rfl⟩
    unfold getItemsRecorded getItemsVia
    rw [fixedParts_eq hpieces]
    have hwalk' := hwalk.mono (fun _ h => h.2) fun _ h => h
    change Logs _ _ _ (walkVia _ _ d [] [] (plan values d)) _ at hwalk'
    rw [← zip_fixedOf] at hwalk'
    split_ifs
    · exact .throw _
    · exact hwalk'
    · exact .throw _
  obtain ⟨-, listed, hlisted, hnodup, hneeded⟩ := hlogs ⟨s, []⟩ hnames
  obtain rfl : listedBy d values s = listed := hlisted
  refine ⟨getItems_projects d values ⟨s, []⟩, hnodup, fun names hmem => ?_⟩
  obtain ⟨done, part, rest, get, hparts, hspelled, hopen⟩ := hneeded names hmem
  have hlen : names.length = done.length := by rw [hspelled.names_eq, List.length_map]
  refine ⟨?_, ⟨get, hspelled.agrees, ?_⟩, part, ?_, hopen⟩
  · rw [hparts, hlen, List.length_append, List.length_cons]
    omega
  · have htake := List.forall₂_take names.length hpieces
    rw [hparts, hlen, List.take_left] at htake
    have hformatted := formatted_of_formats htake hspelled.known
    rwa [← hspelled.names_eq, ← hlen] at hformatted
  · rw [hparts, hlen]
    simp

/-- With the name of the file fixed, only the root directory is listed. -/
theorem nestedListings :
    listedBy nested [(['b'], ['y'])]
      (sampleState [([['r'], ['x']], .dir), ([['r'], ['x'], ['y']], .file 0)] fun _ => []) = [[]] ∧
    ∀ names ∈ listedBy nested [(['b'], ['y'])]
      (sampleState [([['r'], ['x']], .dir), ([['r'], ['x'], ['y']], .file 0)] fun _ => []),
      names.length < 2 := by
  refine ⟨rfl, fun names hmem => ?_⟩
  exact ((getItems_listings (d := nested) (fun _ => plainName_of_letters)
    (by simp [nested, NoDoubledBraces]) [(['b'], ['y'])] (by decide)).2.2 names hmem).1

end Multicorn.Fs
