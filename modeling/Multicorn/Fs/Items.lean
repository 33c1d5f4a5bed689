import Multicorn.Fs.Walk

/-! The items of a directory: what a file name is read as, and what the walk has to follow for
given values. -/
namespace Multicorn.Fs

variable {d : Directory}

section Keys

variable {values : List (Str × Str)}

theorem lookup_iff_mem (h : (values.map Prod.fst).Nodup) {k v : Str} :
    values.lookup k = some v ↔ (k, v) ∈ values := by
  induction values with
  | nil => simp
  | cons p values ih =>
    obtain ⟨k', v'⟩ := p
    rw [List.map_cons, List.nodup_cons] at h
    by_cases hk : k = k'
    · subst hk
      have hnot : (k, v) ∉ values := fun hmem => h.1 (List.mem_map.mpr ⟨_, hmem, rfl⟩)
      rw [List.lookup_cons_self, Option.some.injEq, List.mem_cons, Prod.mk.injEq]
      constructor
      · rintro rfl
        exact .inl ⟨rfl, rfl⟩
      · rintro (⟨-, rfl⟩ | hmem)
        · rfl
        · exact absurd hmem hnot
    · have hbeq : (k == k') = false := by simpa using hk
      rw [List.lookup_cons, hbeq]
      simp only [ih h.2, List.mem_cons, Prod.mk.injEq, hk, false_and, false_or]

theorem lookup_isSome (h : (values.map Prod.fst).Nodup) {k : Str} :
    (values.lookup k).isSome ↔ k ∈ values.map Prod.fst := by
  constructor
  · intro hk
    obtain ⟨v, hv⟩ := Option.isSome_iff_exists.mp hk
    exact List.mem_map.mpr ⟨_, (lookup_iff_mem h).mp hv, rfl⟩
  · intro hk
    obtain ⟨p, hp, rfl⟩ := List.mem_map.mp hk
    rw [(lookup_iff_mem h).mpr hp]
    rfl

/-- Looking up the keys in order gives the pairs back. -/
theorem map_lookup_keys (h : (values.map Prod.fst).Nodup) :
    ((values.map Prod.fst).map fun k => (k, (values.lookup k).getD [])) = values := by
  rw [List.map_map]
  refine (List.map_congr_left fun p hp => ?_).trans (List.map_id _)
  have hlookup : values.lookup p.1 = some p.2 := (lookup_iff_mem h).mpr hp
  simp [hlookup]

end Keys

theorem properties_nodup (d : Directory) : d.properties.Nodup := (parsePattern_parts d.parsed).1

theorem slash_not_mem_part (d : Directory) {part : Part} (h : part ∈ d.parts) : .lit '/' ∉ part :=
  (parsePattern_parts d.parsed).2 part h

/-- Values for all properties in the order of the pattern make an item, unless there is a
slash in one of them. -/
theorem item_of_keys {values : List (Str × Str)} (h : values.map Prod.fst = d.properties)
    (content : PyVal) :
    d.item values content =
      if values.any fun p => '/' ∈ p.2 then
        .error (.valueError "Property values can not contain a slash.")
      else .ok ⟨values, content⟩ := by
  have hnodup : (values.map Prod.fst).Nodup := h ▸ properties_nodup d
  have hall : d.properties.all (fun name => (values.lookup name).isSome) = true := by
    rw [List.all_eq_true]
    intro name hname
    rw [lookup_isSome hnodup, h]
    exact hname
  have hknown : values.all (fun p => p.1 ∈ d.properties) = true := by
    rw [List.all_eq_true]
    intro p hp
    rw [decide_eq_true_eq, ← h]
    exact List.mem_map.mpr ⟨p, hp, rfl⟩
  have hitems := map_lookup_keys hnodup
  rw [h] at hitems
  unfold Directory.item
  simp only [hall, hknown, not_true, if_false, hitems]

theorem mem_of_matchPart {part : Part} {s : Str} {props : List (Str × Str)}
    (h : matchPart part s = some props) : ∀ p ∈ props, ∀ c ∈ p.2, c ∈ s := by
  induction part generalizing s props with
  | nil =>
    unfold matchPart at h
    split_ifs at h
    cases h
    simp
  | cons atom part ih =>
    cases atom with
    | lit c =>
      cases s with
      | nil => cases h
      | cons e rest =>
        unfold matchPart at h
        simp only at h
        split_ifs at h
        intro p hp a ha
        exact List.mem_cons_of_mem _ (ih h p hp a ha)
    | any name =>
      unfold matchPart at h
      obtain ⟨k, -, hk⟩ := List.exists_of_findSome?_eq_some h
      obtain ⟨props', hmatch, rfl⟩ := Option.map_eq_some_iff.mp hk
      intro p hp a ha
      rcases List.mem_cons.mp hp with rfl | hp
      · exact List.mem_of_mem_take ha
      · exact List.mem_of_mem_drop (ih hmatch p hp a ha)

theorem matchParts_cons {part : Part} {parts : List Part} {name : Str} {names : List Str}
    {values : List (Str × Str)} :
    Directory.matchParts (part :: parts) (name :: names) = some values ↔
      ∃ first more, matchPart part name = some first ∧
        Directory.matchParts parts names = some more ∧ values = first ++ more := by
  simp only [Directory.matchParts, bind, Option.bind_eq_some_iff, pure, Option.some.injEq]
  constructor
  · rintro ⟨first, hfirst, more, hmore, rfl⟩
    exact ⟨first, more, hfirst, hmore, rfl⟩
  · rintro ⟨first, more, hfirst, hmore, rfl⟩
    exact ⟨first, hfirst, more, hmore, rfl⟩

theorem keys_of_matchParts {parts : List Part} {names : List Str} {values : List (Str × Str)}
    (h : Directory.matchParts parts names = some values) :
    values.map Prod.fst = parts.flatMap Part.properties := by
  induction parts generalizing names values with
  | nil =>
    cases names with
    | nil =>
      cases h
      rfl
    | cons name names => cases h
  | cons part parts ih =>
    cases names with
    | nil => cases h
    | cons name names =>
      obtain ⟨first, more, hfirst, hmore, rfl⟩ := matchParts_cons.mp h
      rw [List.map_append, ih hmore, List.flatMap_cons]
      exact congrArg (· ++ _) (keys_of_matchPart hfirst)

theorem mem_of_matchParts {parts : List Part} {names : List Str} {values : List (Str × Str)}
    (h : Directory.matchParts parts names = some values) :
    ∀ p ∈ values, ∀ c ∈ p.2, ∃ name ∈ names, c ∈ name := by
  induction parts generalizing names values with
  | nil =>
    cases names with
    | nil =>
      cases h
      simp
    | cons name names => cases h
  | cons part parts ih =>
    cases names with
    | nil => cases h
    | cons name names =>
      obtain ⟨first, more, hfirst, hmore, rfl⟩ := matchParts_cons.mp h
      intro p hp c hc
      rcases List.mem_append.mp hp with hp | hp
      · exact ⟨name, List.mem_cons_self, mem_of_matchPart hfirst p hp c hc⟩
      · obtain ⟨name', hname', hmem⟩ := ih hmore p hp c hc
        exact ⟨name', List.mem_cons_of_mem _ hname', hmem⟩

theorem slash_not_mem_splitOn (f : Str) : ∀ name ∈ f.splitOn '/', '/' ∉ name := by
  induction f with
  | nil => simp
  | cons c f ih =>
    rw [List.splitOn_cons_eq_if_modifyHead]
    split_ifs with hc
    · intro name hname
      rcases List.mem_cons.mp hname with rfl | hname
      · simp
      · exact ih name hname
    · cases hsplit : f.splitOn '/' with
      | nil => simp
      | cons a rest =>
        rw [hsplit] at ih
        rw [List.forall_mem_cons] at ih
        intro name hname
        rcases List.mem_cons.mp hname with rfl | hname
        · rw [List.mem_cons, not_or]
          exact ⟨fun h => hc (beq_iff_eq.mpr h.symm), ih.1⟩
        · exact ih.2 name hname

/-- A file name is read as the values of its parts. -/
theorem fromFilename_eq (d : Directory) (f : Str) :
    d.fromFilename f = .ok ((Directory.matchParts d.parts (f.splitOn '/')).map
      fun values => ⟨values, .bytes []⟩) := by
  unfold Directory.fromFilename
  cases hmatch : Directory.matchParts d.parts (f.splitOn '/') with
  | none => rfl
  | some values =>
    have hslash : (values.any fun p => '/' ∈ p.2) = false := by
      rw [List.any_eq_false]
      intro p hp hmem
      obtain ⟨name, hname, hin⟩ := mem_of_matchParts hmatch p hp '/' (by simpa using hmem)
      exact slash_not_mem_splitOn f name hname hin
    simp only [item_of_keys (keys_of_matchParts hmatch), hslash]
    rfl

/-! What `getItems` works out before it looks at the files. -/

section Plan

variable (values : List (Str × Str))

/-- The fixed values of a part. -/
def fixedValues (part : Part) : List (Str × Str) :=
  part.properties.filterMap fun name => (values.lookup name).map (name, ·)

/-- A part whose properties all have a value has its whole name. -/
def fixedOf (part : Part) : Fixed :=
  let fixed := fixedValues values part
  if fixed.length = part.properties.length then
    (some (Part.text (fun name => fixed.lookup name) part), fixed)
  else (none, fixed)

def plan (d : Directory) : List (Part × Fixed) := d.parts.map fun part => (part, fixedOf values part)

end Plan

theorem fixedOf_full {values : List (Str × Str)} {part : Part}
    (h : (fixedValues values part).length = part.properties.length) :
    fixedOf values part = (some (Part.text (fun name => (fixedValues values part).lookup name) part),
      fixedValues values part) := if_pos h

theorem fixedOf_open {values : List (Str × Str)} {part : Part}
    (h : (fixedValues values part).length ≠ part.properties.length) :
    fixedOf values part = (none, fixedValues values part) := if_neg h

@[simp] theorem fixedOf_snd (values : List (Str × Str)) (part : Part) :
    (fixedOf values part).2 = fixedValues values part := by
  by_cases h : (fixedValues values part).length = part.properties.length
  · rw [fixedOf_full h]
  · rw [fixedOf_open h]

theorem fixedValues_sublist (values : List (Str × Str)) (names : List Str) :
    ((names.filterMap fun name => (values.lookup name).map (name, ·)).map Prod.fst).Sublist names := by
  induction names with
  | nil => exact .slnil
  | cons name names ih =>
    rw [List.filterMap_cons]
    cases values.lookup name with
    | none => exact ih.cons _
    | some v => exact ih.cons_cons name

/-- When no value is missing, the fixed values are those of all properties. -/
theorem keys_fixedValues {values : List (Str × Str)} {part : Part}
    (h : (fixedValues values part).length = part.properties.length) :
    (fixedValues values part).map Prod.fst = part.properties :=
  (fixedValues_sublist values part.properties).eq_of_length (by rw [List.length_map]; exact h)

theorem properties_sublist {part : Part} (h : part ∈ d.parts) : part.properties.Nodup := by
  obtain ⟨before, after, hparts⟩ := List.append_of_mem h
  have hnodup := properties_nodup d
  unfold Directory.properties at hnodup
  rw [hparts, List.flatMap_append, List.flatMap_cons] at hnodup
  exact (List.nodup_append.mp (List.nodup_append.mp hnodup).2.1).1

theorem fixedPart_eq {values : List (Str × Str)} {text : Str} {part : Part}
    (hformats : Formats text part) (hnodup : part.properties.Nodup) :
    fixedPart values text part = .ok (fixedOf values part) := by
  unfold fixedPart fixedOf
  by_cases hlen : (fixedValues values part).length = part.properties.length
  · have hkeys := keys_fixedValues hlen
    have hformat := hformats (fun name => (fixedValues values part).lookup name) (by
      intro name hname
      rw [lookup_isSome (hkeys ▸ hnodup), hkeys]
      exact hname)
    unfold fixedValues at hlen hformat
    simp only [fixedValues, hlen, if_true, hformat]
    rfl
  · unfold fixedValues at hlen
    simp only [fixedValues, hlen, if_false]
    rfl

private theorem mapM_forall₂ {ε α β γ : Type} {f : α → Except ε γ} {g : β → γ} {l : List α}
    {m : List β} (p : β → α) (hl : l = m.map p) (h : ∀ b ∈ m, f (p b) = .ok (g b)) :
    l.mapM f = .ok (m.map g) := by
  subst hl
  induction m with
  | nil => rfl
  | cons b m ih =>
    rw [List.forall_mem_cons] at h
    rw [List.map_cons, List.mapM_cons, h.1, ih h.2]
    rfl

/-- Formatting the pattern spells what its expressions read, piece by piece. Braces that stand in
a row three times can be read differently by the tokenizer and by `vformat`. -/
def Directory.FormatsParts (d : Directory) : Prop :=
  List.Forall₂ Formats (d.pattern.splitOn '/') d.parts

theorem formatsParts_of_plain (hid : ∀ name, d.isidentifier name = true → PlainName name)
    (hdoubled : NoDoubledBraces d.pattern) : d.FormatsParts :=
  parsePattern_pieces d.parsed hdoubled hid

theorem fixedParts_eq (hpieces : d.FormatsParts) (values : List (Str × Str)) :
    (((d.pattern.splitOn '/').zip d.parts).mapM fun (text, part) => fixedPart values text part) =
      .ok (d.parts.map (fixedOf values)) := by
  have hzip : ∀ e ∈ (d.pattern.splitOn '/').zip d.parts, Formats e.1 e.2 ∧ e.2 ∈ d.parts := by
    intro e he
    exact ⟨List.forall₂_iff_zip.mp hpieces |>.2 he, (List.of_mem_zip he).2⟩
  have hsnd : d.parts = ((d.pattern.splitOn '/').zip d.parts).map Prod.snd := by
    rw [List.map_snd_zip]
    exact Nat.le_of_eq hpieces.length_eq.symm
  have hmap := mapM_forall₂ (f := fun e : Str × Part => fixedPart values e.1 e.2)
    (g := fun e : Str × Part => fixedOf values e.2) id (List.map_id _).symm fun e he =>
      fixedPart_eq (hzip e he).1 (properties_sublist (hzip e he).2)
  rw [hmap]
  conv_rhs => rw [hsnd]
  rw [List.map_map]
  rfl

theorem zip_fixedOf (values : List (Str × Str)) :
    d.parts.zip (d.parts.map (fixedOf values)) = plan values d := by
  have hzip := List.zip_map' (l := d.parts) (f := id) (g := fixedOf values)
  rw [List.map_id] at hzip
  exact hzip

/-- `getItems` is the walk along the plan, unless a value is one of `self`. -/
theorem getItems_eq (hpieces : d.FormatsParts) {values : List (Str × Str)}
    (hself : ∀ p ∈ values, p.1 ≠ Directory.self) (hvalues : ∀ p ∈ values, p.1 ∈ d.properties) :
    getItems d values = walk d [] [] (plan values d) := by
  have hclash : values.any (fun p => p.1 = Directory.self) = false := by
    rw [List.any_eq_false]
    intro p hp
    simpa using hself p hp
  have hknown : values.all (fun p => p.1 ∈ d.properties) = true := by
    rw [List.all_eq_true]
    intro p hp
    simpa using hvalues p hp
  unfold getItems
  rw [hclash, hknown, fixedParts_eq hpieces]
  show walk d [] [] (d.parts.zip (d.parts.map (fixedOf values))) = _
  rw [zip_fixedOf]

theorem getItems_ne_self {values : List (Str × Str)} {items : List Item}
    (h : getItems d values s = .ok items s') : ∀ p ∈ values, p.1 ≠ Directory.self := by
  intro p hp hself
  have hclash : values.any (fun p => p.1 = Directory.self) = true :=
    List.any_eq_true.mpr ⟨p, hp, by simpa using hself⟩
  unfold getItems at h
  rw [if_pos hclash] at h
  cases h

end Multicorn.Fs
