import Multicorn.Fs.Items

/-! The items of a scan against the files of the tree. -/
namespace Multicorn.Fs
open Multicorn.StateMonad

variable {s s' : State} {d : Directory} {os : Os}

/-- A name that the walk follows for a part, and the values it takes from it. -/
def Named (part : Part) (fixed : Fixed) (name : Str) (values : List (Str × Str)) : Prop :=
  match fixed.1 with
  | some text => name = text ∧ values = fixed.2
  | none => matchPart part name = some values ∧ ∀ p ∈ fixed.2, values.lookup p.1 = some p.2

/-- The names of a file name, part by part, with the values of all parts. -/
inductive Reads : List (Part × Fixed) → List Str → List (Str × Str) → Prop
  | nil : Reads [] [] []
  | cons {part : Part} {fixed : Fixed} {rest : List (Part × Fixed)} {name : Str}
      {names : List Str} {values more : List (Str × Str)} (h : Named part fixed name values)
      (hrest : Reads rest names more) : Reads ((part, fixed) :: rest) (name :: names) (values ++ more)

theorem mem_matching {previous : List Str} {part : Part} {fixed : Fixed}
    {p : Str × List (Str × Str)} :
    p ∈ matching os d previous part fixed ↔ Named part fixed p.1 p.2 ∧
      (fixed.1 = none → p.1 ∈ os.listing (d.join previous)) := by
  obtain ⟨text, values⟩ := fixed
  obtain ⟨name, vals⟩ := p
  cases text with
  | some text => simp [matching, Named]
  | none =>
    simp only [matching, Named, List.mem_filterMap, forall_const]
    constructor
    · rintro ⟨name', hname', hsome⟩
      cases hmatch : matchPart part name' with
      | none => simp [hmatch] at hsome
      | some values' =>
        simp only [hmatch] at hsome
        split_ifs at hsome with hall
        cases hsome
        exact ⟨⟨hmatch, by simpa using hall⟩, hname'⟩
    · rintro ⟨⟨hmatch, hall⟩, hname⟩
      refine ⟨name, hname, ?_⟩
      have hall' : (values.all fun p => vals.lookup p.1 = some p.2) = true := by
        simpa using hall
      simp only [hmatch, hall', if_true]

/-- What the walk finds is read along the plan. -/
theorem reads_of_found {previous : List Str} {parts : List (Part × Fixed)}
    {f : List Str × List (Str × Str)} (h : f ∈ found os d previous parts) : Reads parts f.1 f.2 := by
  induction parts generalizing previous f with
  | nil => cases h
  | cons e rest ih =>
    obtain ⟨part, fixed⟩ := e
    simp only [found, List.mem_flatMap] at h
    obtain ⟨p, hp, hf⟩ := h
    have hnamed := (mem_matching.mp hp).1
    by_cases hrest : rest = []
    · subst hrest
      rw [if_pos rfl] at hf
      split_ifs at hf
      · obtain rfl := List.mem_singleton.mp hf
        simpa using Reads.cons hnamed .nil
      · cases hf
    · rw [if_neg hrest] at hf
      obtain ⟨q, hq, rfl⟩ := List.mem_map.mp hf
      exact .cons hnamed (ih hq)

section Tree

variable (ht : os.Tree) {r : Path} (hroot : os.resolve d.root_dir = .ok r)

include hroot in
theorem resolve_join {previous : List Str} (hprevious : ∀ c ∈ previous, ProperName c) {p : Path} :
    os.resolve (d.join previous) = .ok p ↔
      previous.all os.process.passes = true ∧ os.walk r previous = .ok p := by
  have hjoin := @Os.resolve_pathJoin os _ _ p hroot _ fun c hc => (hprevious c hc).head_ne
  rwa [Os.flatMap_splitOn_proper hprevious] at hjoin

include ht hroot

theorem mem_listing {previous : List Str} (hprevious : ∀ c ∈ previous, ProperName c) {c : Str} :
    c ∈ os.listing (d.join previous) ↔ (os.node (r ++ previous ++ [c])).isSome := by
  unfold Os.listing
  constructor
  · intro hc
    cases hresolve : os.resolve (d.join previous) with
    | error e => simp [hresolve] at hc
    | ok p =>
      obtain rfl := Os.walk_proper hprevious ((resolve_join hroot hprevious).mp hresolve).2
      simp only [hresolve] at hc
      split_ifs at hc
      · exact Os.mem_children.mp hc
      · cases hc
  · intro hc
    have hdir := ht.parent _ _ hc
    have hresolve : os.resolve (d.join previous) = .ok (r ++ previous) :=
      Os.resolve_of_node ht hroot hprevious (by rw [hdir]; rfl)
    simp only [hresolve, hdir, if_true]
    exact Os.mem_children.mpr hc

theorem isfile_join {names : List Str} (hnames : ∀ c ∈ names, ProperName c) :
    os.isfile (d.join names) = (os.file (r ++ names)).isSome := by
  have hstat : os.stat (d.join names) = os.node (r ++ names) := Os.stat_pathJoin ht hroot hnames
  unfold Os.isfile Os.file
  rw [hstat]
  cases os.node (r ++ names) with
  | none => rfl
  | some node => cases node <;> rfl

omit ht hroot in
/-- Resolution finds every name on its way short enough. -/
theorem short_of_walk {cur p : Path} {names : List Str} (h : os.walk cur names = .ok p) :
    ∀ c ∈ names, c = [] ∨ c = ['.'] ∨ c = ['.', '.'] ∨ os.process.fits c = true := by
  induction names generalizing cur with
  | nil => simp
  | cons c rest ih =>
    rw [List.forall_mem_cons]
    simp only [Os.walk] at h
    cases hnode : os.node cur with
    | none =>
      rw [hnode] at h
      cases h
    | some node =>
      cases node with
      | file i =>
        rw [hnode] at h
        cases h
      | dir =>
        simp only [hnode] at h
        split_ifs at h with hhere hup hfits
        · exact ⟨hhere.imp_right .inl, ih h⟩
        · exact ⟨.inr (.inr (.inl hup)), ih h⟩
        · exact ⟨.inr (.inr (.inr hfits)), ih h⟩

omit ht hroot in
theorem walk_ne_tooLong {cur : Path} {names : List Str}
    (h : ∀ c ∈ names, c = [] ∨ c = ['.'] ∨ c = ['.', '.'] ∨ os.process.fits c = true) :
    os.walk cur names ≠ .error .ENAMETOOLONG := by
  induction names generalizing cur with
  | nil => simp [Os.walk]
  | cons c rest ih =>
    rw [List.forall_mem_cons] at h
    simp only [Os.walk]
    cases os.node cur with
    | none => simp
    | some node =>
      cases node with
      | file i => simp
      | dir =>
        simp only
        split_ifs with hhere hup hfits
        · exact ih h.2
        · exact ih h.2
        · exact ih h.2
        · rcases h.1 with h | h | h | h
          · exact absurd (.inl h) hhere
          · exact absurd (.inr h) hhere
          · exact absurd h hup
          · exact absurd h hfits

omit ht in
/-- No path of accepted components is refused. -/
theorem not_refused_join {previous : List Str} (h : ∀ c ∈ previous, os.process.Accepts c) :
    ¬ os.Refused (d.join previous) := by
  obtain ⟨hne, hpass, hlocate⟩ := Os.resolve_eq_ok.mp hroot
  have hheads : ∀ c ∈ previous, c.head? ≠ some '/' := fun c hc hhead =>
    (h c hc).1 (List.mem_of_mem_head? hhead)
  have hflat : previous.flatMap (·.splitOn '/') = previous := by
    induction previous with
    | nil => rfl
    | cons c rest ih =>
      rw [List.forall_mem_cons] at h hheads
      rw [List.flatMap_cons, List.splitOn_eq_singleton h.1.1, ih h.2 hheads.2]
      rfl
  have hjoin : d.join previous ≠ [] := Os.pathJoin_ne_nil hne hheads
  have hpasses : os.process.passes (d.join previous) = true := by
    unfold Directory.join
    rw [Os.passes_pathJoin _ hheads, hpass, Bool.true_and, List.all_eq_true]
    exact fun c hc => (h c hc).2.1
  have hresolve : os.resolve (d.join previous) = os.walk r previous := by
    have hlocated := @Os.locate_pathJoin os _ hne _ hheads
    rw [hlocate, hflat] at hlocated
    unfold Os.resolve
    rw [if_neg hjoin, if_neg (by simpa using hpasses)]
    exact hlocated
  unfold Os.Refused
  rw [hresolve]
  rintro (hlong | hvalue)
  · exact walk_ne_tooLong (fun c hc => (h c hc).2.2) hlong
  · rcases Os.walk_error hvalue with h | h | h <;> cases h

/-- A walk along accepted names can list its directories. -/
theorem listable_of_accepts {previous : List Str} {parts : List (Part × Fixed)}
    (hprevious : ∀ c ∈ previous, os.process.Accepts c)
    (hparts : ∀ e ∈ parts, ∀ text, e.2.1 = some text → os.process.Accepts text) :
    Listable os d previous parts := by
  induction parts generalizing previous with
  | nil => exact trivial
  | cons e rest ih =>
    obtain ⟨part, fixed⟩ := e
    rw [List.forall_mem_cons] at hparts
    refine ⟨fun _ => not_refused_join hroot hprevious, fun p hp => ih ?_ hparts.2⟩
    intro c hc
    rcases List.mem_append.mp hc with hc | hc
    · exact hprevious c hc
    obtain rfl := List.mem_singleton.mp hc
    obtain ⟨hnamed, hlisted⟩ := mem_matching.mp hp
    cases htext : fixed.1 with
    | some text =>
      simp only [Named, htext] at hnamed
      rw [hnamed.1]
      exact hparts.1 text htext
    | none =>
      have hlisted := hlisted htext
      unfold Os.listing at hlisted
      cases hresolve : os.resolve (d.join previous) with
      | error e =>
        rw [hresolve] at hlisted
        cases hlisted
      | ok q =>
        simp only [hresolve] at hlisted
        split_ifs at hlisted
        · have hnode := Os.mem_children.mp hlisted
          exact (ht.taken _ _ hnode).accepts (ht.names _ _ hnode).2.2.2
        · cases hlisted

/-- When the whole names are proper, the walk finds the regular files whose names it reads. -/
theorem mem_found {previous : List Str} (hprevious : ∀ c ∈ previous, ProperName c)
    {parts : List (Part × Fixed)} (hparts : parts ≠ [])
    (hproper : ∀ e ∈ parts, ∀ text, e.2.1 = some text → ProperName text)
    {f : List Str × List (Str × Str)} :
    f ∈ found os d previous parts ↔
      Reads parts f.1 f.2 ∧ (os.file (r ++ previous ++ f.1)).isSome := by
  induction parts generalizing previous f with
  | nil => exact absurd rfl hparts
  | cons e rest ih =>
    obtain ⟨part, fixed⟩ := e
    rw [List.forall_mem_cons] at hproper
    have hname : ∀ {name : Str} {values : List (Str × Str)}, Named part fixed name values →
        (fixed.1 = none → (os.node (r ++ previous ++ [name])).isSome) → ProperName name := by
      intro name values hnamed hnode
      cases htext : fixed.1 with
      | none => exact ht.names _ _ (hnode htext)
      | some text =>
        simp only [Named, htext] at hnamed
        rw [hnamed.1]
        exact hproper.1 text htext
    have hconcat : ∀ {name : Str}, ProperName name → ∀ c ∈ previous ++ [name], ProperName c := by
      intro name hproper c hc
      rcases List.mem_append.mp hc with hc | hc
      · exact hprevious c hc
      · rwa [List.mem_singleton.mp hc]
    simp only [found, List.mem_flatMap, mem_matching, mem_listing ht hroot hprevious]
    constructor
    · rintro ⟨p, ⟨hnamed, hnode⟩, hf⟩
      have hp := hname hnamed hnode
      by_cases hrest : rest = []
      · subst hrest
        rw [if_pos rfl, isfile_join ht hroot (hconcat hp), ← List.append_assoc] at hf
        split_ifs at hf with hfile
        · obtain rfl := List.mem_singleton.mp hf
          refine ⟨?_, hfile⟩
          simpa using Reads.cons hnamed .nil
        · cases hf
      · rw [if_neg hrest] at hf
        obtain ⟨q, hq, rfl⟩ := List.mem_map.mp hf
        obtain ⟨hreads, hfile⟩ := (ih (hconcat hp) hrest hproper.2).mp hq
        refine ⟨.cons hnamed hreads, ?_⟩
        simpa using hfile
    · rintro ⟨hreads, hfile⟩
      obtain ⟨names, values⟩ := f
      cases hreads with
      | @cons _ _ _ name names values more hnamed hmore =>
        have hnode : (os.node (r ++ previous ++ [name])).isSome := by
          apply ht.node_prefix (q := names)
          obtain ⟨i, hi⟩ := Option.isSome_iff_exists.mp hfile
          rw [List.append_assoc, List.singleton_append, Os.file_eq_some.mp hi]
          rfl
        have hp := hname hnamed fun _ => hnode
        refine ⟨(name, values), ⟨hnamed, fun _ => hnode⟩, ?_⟩
        by_cases hrest : rest = []
        · subst hrest
          cases hmore
          rw [if_pos rfl, isfile_join ht hroot (hconcat hp), ← List.append_assoc, if_pos hfile]
          simp
        · rw [if_neg hrest]
          refine List.mem_map.mpr ⟨(names, more), ?_, rfl⟩
          refine (ih (hconcat hp) hrest hproper.2).mpr ⟨hmore, ?_⟩
          simpa using hfile

end Tree

/-! File names that agree with given values. -/

section Agree

variable {values : List (Str × Str)}

theorem mem_fixedValues {part : Part} {p : Str × Str} :
    p ∈ fixedValues values part ↔ p.1 ∈ part.properties ∧ values.lookup p.1 = some p.2 := by
  simp only [fixedValues, List.mem_filterMap, Option.map_eq_some_iff]
  constructor
  · rintro ⟨name, hname, v, hv, rfl⟩
    exact ⟨hname, hv⟩
  · rintro ⟨hname, hp⟩
    exact ⟨p.1, hname, p.2, hp, rfl⟩

theorem eq_of_keys {l m : List (Str × Str)} (hkeys : l.map Prod.fst = m.map Prod.fst)
    (hnodup : (m.map Prod.fst).Nodup) (h : ∀ p ∈ l, p ∈ m) : l = m := by
  have hl := @map_lookup_keys l (hkeys ▸ hnodup)
  rw [← hl, ← map_lookup_keys hnodup, hkeys]
  refine List.map_congr_left fun k hk => ?_
  rw [← hkeys] at hk
  obtain ⟨p, hp, rfl⟩ := List.mem_map.mp hk
  rw [(lookup_iff_mem (hkeys ▸ hnodup)).mpr hp, (lookup_iff_mem hnodup).mpr (h p hp)]

private theorem mem_left {first more : List (Str × Str)} {part : Part} {parts : List Part}
    (hnodup : ((part :: parts).flatMap Part.properties).Nodup)
    (hmore : more.map Prod.fst = parts.flatMap Part.properties) {p : Str × Str}
    (hp : p ∈ first ++ more) (hkey : p.1 ∈ part.properties) : p ∈ first := by
  rcases List.mem_append.mp hp with hp | hp
  · exact hp
  · have hin : p.1 ∈ parts.flatMap Part.properties := hmore ▸ List.mem_map.mpr ⟨p, hp, rfl⟩
    rw [List.flatMap_cons] at hnodup
    exact absurd hin (List.disjoint_of_nodup_append hnodup hkey)

private theorem mem_right {first more : List (Str × Str)} {part : Part} {parts : List Part}
    (hnodup : ((part :: parts).flatMap Part.properties).Nodup)
    (hfirst : first.map Prod.fst = part.properties) {p : Str × Str}
    (hp : p ∈ first ++ more) (hkey : p.1 ∈ parts.flatMap Part.properties) : p ∈ more := by
  rcases List.mem_append.mp hp with hp | hp
  · have hin : p.1 ∈ part.properties := hfirst ▸ List.mem_map.mpr ⟨p, hp, rfl⟩
    rw [List.flatMap_cons] at hnodup
    exact absurd hkey (List.disjoint_of_nodup_append hnodup hin)
  · exact hp

/-- A part without a newline at its end is the text of its values. -/
theorem eq_text_of_matchPart {part : Part} {name : Str} {vals : List (Str × Str)}
    (hmatch : matchPart part name = some vals) (hpart : part.properties.Nodup)
    (hname : name.getLast? ≠ some '\n') :
    name = Part.text (fun k => vals.lookup k) part := by
  have hkeys : (vals.map Prod.fst).Nodup := (keys_of_matchPart hmatch) ▸ hpart
  rcases @text_of_matchPart (fun k => vals.lookup k) _ _ _ hmatch
    fun p hp => (lookup_iff_mem hkeys).mpr hp with h | h
  · exact h
  · rw [h] at hname
    simp at hname

private theorem named_of_matchPart {part : Part} {name : Str} {vals : List (Str × Str)}
    (hmatch : matchPart part name = some vals) (hpart : part.properties.Nodup)
    (hname : name.getLast? ≠ some '\n')
    (hagree : ∀ k v, values.lookup k = some v → k ∈ part.properties → (k, v) ∈ vals) :
    Named part (fixedOf values part) name vals := by
  have hkeys := keys_of_matchPart hmatch
  have hnodup : (vals.map Prod.fst).Nodup := hkeys ▸ hpart
  have hfixed : ∀ p ∈ fixedValues values part, p ∈ vals := by
    intro p hp
    obtain ⟨hkey, hp⟩ := mem_fixedValues.mp hp
    exact hagree p.1 p.2 hp hkey
  by_cases hlen : (fixedValues values part).length = part.properties.length
  · have heq : fixedValues values part = vals := by
      refine eq_of_keys ?_ hnodup hfixed
      rw [keys_fixedValues hlen, hkeys]
    rw [fixedOf_full hlen, heq]
    exact ⟨eq_text_of_matchPart hmatch hpart hname, rfl⟩
  · rw [fixedOf_open hlen]
    exact ⟨hmatch, fun p hp => (lookup_iff_mem hnodup).mpr (hfixed p hp)⟩

private theorem matchPart_of_named {part : Part} {name : Str} {vals : List (Str × Str)}
    (hnamed : Named part (fixedOf values part) name vals) (hpart : part.properties.Nodup)
    (hspelled : ∀ text, (fixedOf values part).1 = some text →
      matchPart part text = some (fixedOf values part).2) :
    matchPart part name = some vals ∧ ∀ p ∈ fixedValues values part, p ∈ vals := by
  unfold Named at hnamed
  cases htext : (fixedOf values part).1 with
  | some text =>
    simp only [htext] at hnamed
    obtain ⟨rfl, rfl⟩ := hnamed
    exact ⟨hspelled _ htext, fun p hp => by rwa [fixedOf_snd]⟩
  | none =>
    simp only [htext] at hnamed
    have hnodup : (vals.map Prod.fst).Nodup := (keys_of_matchPart hnamed.1) ▸ hpart
    refine ⟨hnamed.1, fun p hp => (lookup_iff_mem hnodup).mp (hnamed.2 p ?_)⟩
    rwa [fixedOf_snd]

/-- A file name whose values agree is read along the plan. -/
theorem reads_of_matchParts {parts : List Part} (hparts : (parts.flatMap Part.properties).Nodup)
    {names : List Str} {vals : List (Str × Str)}
    (hmatch : Directory.matchParts parts names = some vals)
    (hnames : ∀ name ∈ names, name.getLast? ≠ some '\n')
    (hagree : ∀ k v, values.lookup k = some v → k ∈ parts.flatMap Part.properties →
      (k, v) ∈ vals) :
    Reads (parts.map fun part => (part, fixedOf values part)) names vals := by
  induction parts generalizing names vals with
  | nil =>
    cases names with
    | nil =>
      cases hmatch
      exact .nil
    | cons name names => cases hmatch
  | cons part parts ih =>
    cases names with
    | nil => cases hmatch
    | cons name names =>
      obtain ⟨first, more, hfirst, hmore, rfl⟩ := matchParts_cons.mp hmatch
      rw [List.forall_mem_cons] at hnames
      have hnodup := List.flatMap_cons ▸ hparts
      obtain ⟨hpart, hrest, -⟩ := List.nodup_append.mp hnodup
      refine .cons (named_of_matchPart hfirst hpart hnames.1 fun k v hv hkey => ?_)
        (ih hrest hmore hnames.2 fun k v hv hkey => ?_)
      · refine mem_left hparts (keys_of_matchParts hmore) (hagree k v hv ?_) hkey
        exact List.mem_flatMap.mpr ⟨part, List.mem_cons_self, hkey⟩
      · refine mem_right hparts (keys_of_matchPart hfirst) (hagree k v hv ?_) hkey
        rw [List.flatMap_cons]
        exact List.mem_append_right _ hkey

/-- What is read along the plan is a file name whose values agree, if each whole name is read
back as the values it was made of. -/
theorem matchParts_of_reads {parts : List Part} (hparts : (parts.flatMap Part.properties).Nodup)
    {names : List Str} {vals : List (Str × Str)}
    (hreads : Reads (parts.map fun part => (part, fixedOf values part)) names vals)
    (hspelled : ∀ part ∈ parts, ∀ text, (fixedOf values part).1 = some text →
      matchPart part text = some (fixedOf values part).2) :
    Directory.matchParts parts names = some vals ∧
      ∀ k v, values.lookup k = some v → k ∈ parts.flatMap Part.properties → (k, v) ∈ vals := by
  induction parts generalizing names vals with
  | nil =>
    cases hreads
    exact ⟨rfl, by simp⟩
  | cons part parts ih =>
    rw [List.map_cons] at hreads
    cases hreads with
    | cons hnamed hrest =>
      rw [List.forall_mem_cons] at hspelled
      have hnodup := List.flatMap_cons ▸ hparts
      obtain ⟨hpart, htail, -⟩ := List.nodup_append.mp hnodup
      obtain ⟨hfirst, hfixed⟩ := matchPart_of_named hnamed hpart hspelled.1
      obtain ⟨hmore, hagree⟩ := ih htail hrest hspelled.2
      refine ⟨matchParts_cons.mpr ⟨_, _, hfirst, hmore, rfl⟩, fun k v hv hkey => ?_⟩
      rw [List.flatMap_cons] at hkey
      rcases List.mem_append.mp hkey with hkey | hkey
      · exact List.mem_append_left _ (hfixed (k, v) (mem_fixedValues.mpr ⟨hkey, hv⟩))
      · exact List.mem_append_right _ (hagree k v hv hkey)

end Agree

end Multicorn.Fs
