import Mathlib.Algebra.GroupWithZero.Nat
import Multicorn.Fs.Filters

/-! File names read back as the items they were formatted from. -/
namespace Multicorn.Fs

variable {d : Directory} {part : Part} {parts : List Part} {get : Str → Option Str}

def NewlineFree (values : List (Str × Str)) : Prop := ∀ p ∈ values, '\n' ∉ p.2

/-- A value for each property of the pattern, without slashes, formats to `f`. -/
structure FormatsTo (d : Directory) (values : List (Str × Str)) (f : Str) : Prop where
  keys : values.map Prod.fst = d.properties
  slash_free : ∀ p ∈ values, '/' ∉ p.2
  filename : d.filename ⟨values, .bytes []⟩ = .ok f

/-- Reading `f` inverts formatting. -/
def Inverts (d : Directory) (f : Str) : Prop :=
  ((∃ item, d.fromFilename f = .ok (some item)) ↔ ∃ values, FormatsTo d values f) ∧
    ∀ item, d.fromFilename f = .ok (some item) → d.filename item = .ok f

/-- What `$` lets pass. -/
def EndsAlike (s t : Str) : Prop := t = s ∨ t = s ++ ['\n']

/-- `f` is `g` with a newline at the end of some components. -/
def NewlinesAdded (g f : Str) : Prop := List.Forall₂ EndsAlike (g.splitOn '/') (f.splitOn '/')

/-! One part. A match takes values without newlines, and there is a match whenever such values
spell the name. -/

theorem newline_not_mem_take {s : Str} {k : ℕ} (h : k ≤ (s.takeWhile (· ≠ '\n')).length) :
    '\n' ∉ s.take k := by
  have htaken : s.takeWhile (· ≠ '\n') = s.take (s.takeWhile (· ≠ '\n')).length :=
    List.prefix_iff_eq_take.mp (List.takeWhile_prefix _)
  intro hmem
  have hsub : '\n' ∈ s.takeWhile (· ≠ '\n') := by
    rw [htaken]
    exact (List.take_subset_take_left s h) hmem
  have hne := List.all_eq_true.mp List.all_takeWhile _ hsub
  simp at hne

theorem newlineFree_of_matchPart {s : Str} {vals : List (Str × Str)}
    (h : matchPart part s = some vals) : NewlineFree vals := by
  induction part generalizing s vals with
  | nil =>
    unfold matchPart at h
    split_ifs at h
    cases h
    exact fun p hp => absurd hp List.not_mem_nil
  | cons atom part ih =>
    cases atom with
    | lit c =>
      cases s with
      | nil => cases h
      | cons e rest =>
        unfold matchPart at h
        simp only at h
        split_ifs at h
        exact ih h
    | any name =>
      unfold matchPart at h
      obtain ⟨k, hk, hmatch⟩ := List.exists_of_findSome?_eq_some h
      obtain ⟨more, hmore, rfl⟩ := Option.map_eq_some_iff.mp hmatch
      have hle : k ≤ (s.takeWhile (· ≠ '\n')).length := by
        have := List.mem_range.mp (List.mem_reverse.mp hk)
        omega
      intro p hp
      rcases List.mem_cons.mp hp with rfl | hp
      · exact newline_not_mem_take hle
      · exact ih hmore p hp

theorem matchPart_isSome {s : Str} (hfree : ∀ name v, get name = some v → '\n' ∉ v)
    (h : EndsAlike (Part.text get part) s) : (matchPart part s).isSome := by
  induction part generalizing s with
  | nil =>
    have hend : s = [] ∨ s = ['\n'] := h
    simp [matchPart, hend]
  | cons atom part ih =>
    cases atom with
    | lit c =>
      obtain ⟨rest, rfl, hrest⟩ : ∃ rest, s = c :: rest ∧ EndsAlike (Part.text get part) rest := by
        rcases h with rfl | rfl
        · exact ⟨_, rfl, .inl rfl⟩
        · exact ⟨_, rfl, .inr rfl⟩
      simpa [matchPart] using ih hrest
    | any name =>
      generalize hv : (get name).getD [] = v
      have hvfree : '\n' ∉ v := by
        cases hget : get name with
        | none => simp [← hv, hget]
        | some w =>
          obtain rfl : w = v := by simpa [hget] using hv
          exact hfree name w hget
      obtain ⟨rest, rfl, hrest⟩ : ∃ rest, s = v ++ rest ∧ EndsAlike (Part.text get part) rest := by
        rw [EndsAlike, Part.text_any, hv] at h
        rcases h with rfl | rfl
        · exact ⟨_, rfl, .inl rfl⟩
        · exact ⟨_, List.append_assoc .., .inr rfl⟩
      unfold matchPart
      rw [List.findSome?_isSome_iff]
      refine ⟨v.length, ?_, ?_⟩
      · rw [List.mem_reverse, List.mem_range, List.takeWhile_append_of_pos]
        · rw [List.length_append]
          omega
        · intro c hc
          have hne : c ≠ '\n' := fun he => hvfree (he ▸ hc)
          simpa using hne
      · rw [List.drop_left, Option.isSome_map]
        exact ih hrest

theorem count_text (c : Char) : (Part.text get part).count c =
    part.count (.lit c) + (part.properties.map fun name => ((get name).getD []).count c).sum := by
  induction part with
  | nil => rfl
  | cons atom part ih =>
    cases atom with
    | lit e =>
      have hprops : Part.properties (.lit e :: part) = Part.properties part := rfl
      rw [Part.text_lit, List.count_cons, List.count_cons, ih, hprops]
      by_cases he : e = c
      · simp [he]
        omega
      · have hne : ¬ (Atom.lit e = Atom.lit c) := by simpa using he
        simp [he, hne]
    | any name =>
      have hprops : Part.properties (.any name :: part) = name :: Part.properties part := rfl
      have hne : ¬ (Atom.any name = Atom.lit c) := by simp
      rw [Part.text_any, List.count_append, ih, hprops, List.map_cons, List.sum_cons,
        List.count_cons_of_ne hne]
      omega

theorem count_text_of_free (hfree : ∀ name v, get name = some v → '\n' ∉ v) :
    (Part.text get part).count '\n' = part.count (.lit '\n') := by
  have hzero : ((Part.properties part).map fun name => ((get name).getD []).count '\n').sum = 0 := by
    rw [List.sum_eq_zero_iff_forall_eq_nat]
    intro n hn
    obtain ⟨name, -, rfl⟩ := List.mem_map.mp hn
    rw [List.count_eq_zero]
    cases hget : get name with
    | none => simp
    | some v => exact hfree name v hget
  rw [count_text, hzero, Nat.add_zero]

/-! All parts. -/

theorem newlineFree_of_matchParts {names : List Str} {vals : List (Str × Str)}
    (h : Directory.matchParts parts names = some vals) : NewlineFree vals := by
  induction parts generalizing names vals with
  | nil =>
    cases names with
    | nil =>
      cases h
      exact fun p hp => absurd hp List.not_mem_nil
    | cons name names => cases h
  | cons part parts ih =>
    cases names with
    | nil => cases h
    | cons name names =>
      obtain ⟨first, more, hfirst, hmore, rfl⟩ := matchParts_cons.mp h
      intro p hp
      rcases List.mem_append.mp hp with hp | hp
      · exact newlineFree_of_matchPart hfirst p hp
      · exact ih hmore p hp

theorem endsAlike_of_matchParts {names : List Str} {vals : List (Str × Str)}
    (h : Directory.matchParts parts names = some vals) (hget : ∀ p ∈ vals, get p.1 = some p.2) :
    List.Forall₂ EndsAlike (parts.map (Part.text get)) names := by
  induction parts generalizing names vals with
  | nil =>
    cases names with
    | nil => exact .nil
    | cons name names => cases h
  | cons part parts ih =>
    cases names with
    | nil => cases h
    | cons name names =>
      obtain ⟨first, more, hfirst, hmore, rfl⟩ := matchParts_cons.mp h
      refine .cons ?_ (ih hmore fun p hp => hget p (List.mem_append_right _ hp))
      exact text_of_matchPart hfirst fun p hp => hget p (List.mem_append_left _ hp)

theorem matchParts_isSome {names : List Str} (hfree : ∀ name v, get name = some v → '\n' ∉ v)
    (h : List.Forall₂ EndsAlike (parts.map (Part.text get)) names) :
    (Directory.matchParts parts names).isSome := by
  induction parts generalizing names with
  | nil =>
    cases h
    rfl
  | cons part parts ih =>
    rw [List.map_cons] at h
    cases h with
    | @cons _ name _ names hname hnames =>
      obtain ⟨first, hfirst⟩ := Option.isSome_iff_exists.mp (matchPart_isSome hfree hname)
      obtain ⟨more, hmore⟩ := Option.isSome_iff_exists.mp (ih hnames)
      rw [matchParts_cons.mpr ⟨first, more, hfirst, hmore, rfl⟩]
      rfl

/-! The directory. -/

theorem NewlineFree.lookup {values : List (Str × Str)} (h : NewlineFree values)
    (hnodup : (values.map Prod.fst).Nodup) :
    ∀ name v, values.lookup name = some v → '\n' ∉ v := fun name v hv =>
  h (name, v) ((lookup_iff_mem hnodup).mp hv)

section Main

variable (hpieces : d.FormatsParts) {values : List (Str × Str)} {f g : Str}

include hpieces in
theorem FormatsTo.splitOn (h : FormatsTo d values f) :
    f.splitOn '/' = d.parts.map (Part.text fun k => values.lookup k) := by
  obtain ⟨text, htext, hsplit⟩ := @filename_of_keys d ⟨values, .bytes []⟩ hpieces h.keys
    h.slash_free
  rw [h.filename] at htext
  cases htext
  exact hsplit

theorem FormatsTo.nodup (h : FormatsTo d values f) : (values.map Prod.fst).Nodup :=
  h.keys ▸ properties_nodup d

include hpieces in
/-- What a match reads formats to a name that `f` is like, but for newlines at the ends. -/
theorem formatsTo_of_matchParts (h : Directory.matchParts d.parts (f.splitOn '/') = some values) :
    ∃ g, FormatsTo d values g ∧ NewlineFree values ∧ NewlinesAdded g f := by
  have hkeys := keys_of_matchParts h
  have hnodup : (values.map Prod.fst).Nodup := hkeys ▸ properties_nodup d
  have hslash : ∀ p ∈ values, '/' ∉ p.2 := by
    intro p hp hmem
    obtain ⟨name, hname, hin⟩ := mem_of_matchParts h p hp '/' hmem
    exact slash_not_mem_splitOn f name hname hin
  obtain ⟨g, hg, hsplit⟩ := @filename_of_keys d ⟨values, .bytes []⟩ hpieces hkeys hslash
  refine ⟨g, ⟨hkeys, hslash, hg⟩, newlineFree_of_matchParts h, ?_⟩
  rw [NewlinesAdded, hsplit]
  exact endsAlike_of_matchParts h fun p hp => (lookup_iff_mem hnodup).mpr hp

theorem eq_of_splitOn (h : g.splitOn '/' = f.splitOn '/') : g = f := by
  have hback : ∀ s : Str, ['/'].intercalate (s.splitOn '/') = s := fun s =>
    List.intercalate_splitOn '/'
  rw [← hback g, h, hback]

/-- With no newlines but those of the literals, the values have none. -/
theorem FormatsTo.newlineFree_of_count (h : FormatsTo d values f)
    (hcount : ∀ part ∈ d.parts, (Part.text (fun k => values.lookup k) part).count '\n' ≤
      part.count (.lit '\n')) : NewlineFree values := by
  intro p hp
  have hkey : p.1 ∈ d.parts.flatMap Part.properties := by
    rw [← Directory.properties, ← h.keys]
    exact List.mem_map.mpr ⟨p, hp, rfl⟩
  obtain ⟨part, hpart, hname⟩ := List.mem_flatMap.mp hkey
  have hle := hcount part hpart
  rw [count_text] at hle
  have hsum : ((Part.properties part).map fun name =>
      ((values.lookup name).getD []).count '\n').sum = 0 := by omega
  have hzero := List.sum_eq_zero_iff_forall_eq_nat.mp hsum _
    (List.mem_map.mpr ⟨p.1, hname, rfl⟩)
  rw [(lookup_iff_mem h.nodup).mpr hp] at hzero
  exact List.count_eq_zero.mp hzero

include hpieces in
/-- Of two assignments that format to the same name, both or none have newlines. -/
theorem FormatsTo.newlineFree {values' : List (Str × Str)} (h : FormatsTo d values f)
    (h' : FormatsTo d values' f) (hfree : NewlineFree values') : NewlineFree values := by
  apply h.newlineFree_of_count
  intro part hpart
  have htext : Part.text (fun k => values.lookup k) part =
      Part.text (fun k => values'.lookup k) part :=
    List.map_inj_left.mp ((h.splitOn hpieces).symm.trans (h'.splitOn hpieces)) part hpart
  rw [htext, count_text_of_free (hfree.lookup h'.nodup)]

theorem mem_of_mem_splitOn {c : Char} {name : Str} (hname : name ∈ f.splitOn '/')
    (hc : c ∈ name) : c ∈ f := by
  induction f generalizing name with
  | nil =>
    obtain rfl : name = [] := by simpa using hname
    cases hc
  | cons e f ih =>
    rw [List.splitOn_cons_eq_if_modifyHead] at hname
    split_ifs at hname
    · rcases List.mem_cons.mp hname with rfl | hname
      · cases hc
      · exact List.mem_cons_of_mem _ (ih hname hc)
    · cases hsplit : f.splitOn '/' with
      | nil => simp [hsplit] at hname
      | cons a rest =>
        rw [hsplit] at hname ih
        rcases List.mem_cons.mp hname with rfl | hname
        · rcases List.mem_cons.mp hc with rfl | hc
          · exact List.mem_cons_self
          · exact List.mem_cons_of_mem _ (ih List.mem_cons_self hc)
        · exact List.mem_cons_of_mem _ (ih (List.mem_cons_of_mem _ hname) hc)

theorem eq_of_endsAlike {names names' : List Str} (h : List.Forall₂ EndsAlike names names')
    (hfree : ∀ name ∈ names', '\n' ∉ name) : names = names' := by
  induction h with
  | nil => rfl
  | @cons name name' names names' hname _ ih =>
    rw [List.forall_mem_cons] at hfree
    rcases hname with rfl | rfl
    · rw [ih hfree.2]
    · exact absurd (by simp) hfree.1

include hpieces in
/-- The names without newlines, whatever the pattern. -/
theorem inverted_of_newline_not_mem (hf : '\n' ∉ f) :
    (∀ values, FormatsTo d values f → NewlineFree values) ∧
      ∀ values g, FormatsTo d values g → NewlineFree values → NewlinesAdded g f → g = f := by
  have hnames : ∀ name ∈ f.splitOn '/', '\n' ∉ name := fun name hname hmem =>
    hf (mem_of_mem_splitOn hname hmem)
  constructor
  · intro values h
    apply h.newlineFree_of_count
    intro part hpart
    have hmem : Part.text (fun k => values.lookup k) part ∈ f.splitOn '/' := by
      rw [h.splitOn hpieces]
      exact List.mem_map.mpr ⟨part, hpart, rfl⟩
    rw [List.count_eq_zero.mpr (hnames _ hmem)]
    exact Nat.zero_le _
  · intro values g _ _ hadded
    exact eq_of_splitOn (eq_of_endsAlike hadded hnames)

include hpieces in
/-- A newline at the end of a component does not come from values without newlines. -/
theorem FormatsTo.eq_of_newlinesAdded {values' : List (Str × Str)} (h : FormatsTo d values g)
    (hfree : NewlineFree values) (h' : FormatsTo d values' f) (hfree' : NewlineFree values')
    (hadded : NewlinesAdded g f) : g = f := by
  apply eq_of_splitOn
  rw [NewlinesAdded, h.splitOn hpieces, h'.splitOn hpieces, List.forall₂_map_left_iff,
    List.forall₂_map_right_iff, List.forall₂_same] at hadded
  rw [h.splitOn hpieces, h'.splitOn hpieces, List.map_inj_left]
  intro part hpart
  rcases hadded part hpart with heq | hlonger
  · exact heq.symm
  · have hcount := congrArg (List.count '\n') hlonger
    rw [List.count_append, count_text_of_free (hfree.lookup h.nodup),
      count_text_of_free (hfree'.lookup h'.nodup), List.count_singleton_self] at hcount
    omega

/-- Reading a file name inverts formatting exactly when the assignments that format to it have
no newlines, and it is not the name of such an assignment with newlines added at the ends of
components. -/
theorem inverts_iff (hid : ∀ name, d.isidentifier name = true → PlainName name)
    (hdoubled : NoDoubledBraces d.pattern) (f : Str) :
    Inverts d f ↔ (∀ values, FormatsTo d values f → NewlineFree values) ∧
      ∀ values g, FormatsTo d values g → NewlineFree values → NewlinesAdded g f → g = f := by
  have hpieces := formatsParts_of_plain hid hdoubled
  have hitem : ∀ {item}, d.fromFilename f = .ok (some item) → ∃ vals,
      Directory.matchParts d.parts (f.splitOn '/') = some vals ∧ item = ⟨vals, .bytes []⟩ := by
    intro item h
    rw [fromFilename_eq, Except.ok.injEq, Option.map_eq_some_iff] at h
    obtain ⟨vals, hvals, rfl⟩ := h
    exact ⟨vals, hvals, rfl⟩
  have hread : ∀ {values g}, FormatsTo d values g → NewlineFree values → NewlinesAdded g f →
      ∃ item, d.fromFilename f = .ok (some item) := by
    intro values g h hfree hadded
    rw [NewlinesAdded, h.splitOn hpieces] at hadded
    obtain ⟨vals, hvals⟩ := Option.isSome_iff_exists.mp
      (matchParts_isSome (hfree.lookup h.nodup) hadded)
    exact ⟨⟨vals, .bytes []⟩, by rw [fromFilename_eq, hvals, Option.map_some]⟩
  constructor
  · rintro ⟨hiff, hback⟩
    have hmatched : ∀ {item}, d.fromFilename f = .ok (some item) →
        ∃ vals, FormatsTo d vals f ∧ NewlineFree vals := by
      intro item h
      obtain ⟨vals, hvals, rfl⟩ := hitem h
      obtain ⟨g, hg, hfree, -⟩ := formatsTo_of_matchParts hpieces hvals
      exact ⟨vals, ⟨hg.keys, hg.slash_free, hback _ h⟩, hfree⟩
    constructor
    · intro values h
      obtain ⟨item, hfrom⟩ := hiff.mpr ⟨values, h⟩
      obtain ⟨vals, hvals, hfree⟩ := hmatched hfrom
      exact h.newlineFree hpieces hvals hfree
    · intro values g h hfree hadded
      obtain ⟨item, hfrom⟩ := hread h hfree hadded
      obtain ⟨vals, hvals, hfree'⟩ := hmatched hfrom
      exact h.eq_of_newlinesAdded hpieces hfree hvals hfree' hadded
  · rintro ⟨hnone, hends⟩
    have hback : ∀ item, d.fromFilename f = .ok (some item) →
        FormatsTo d item.properties f ∧ d.filename item = .ok f := by
      intro item h
      obtain ⟨vals, hvals, rfl⟩ := hitem h
      obtain ⟨g, hg, hfree, hadded⟩ := formatsTo_of_matchParts hpieces hvals
      obtain rfl := hends vals g hg hfree hadded
      exact ⟨hg, hg.filename⟩
    have hsame : NewlinesAdded f f := List.forall₂_same.mpr fun s _ => .inl rfl
    refine ⟨⟨?_, ?_⟩, fun item h => (hback item h).2⟩
    · rintro ⟨item, h⟩
      exact ⟨item.properties, (hback item h).1⟩
    · rintro ⟨values, h⟩
      exact hread h (hnone values h) hsame

end Main

/-- The pattern of a directory of texts. -/
def textFiles : Directory where
  isidentifier := letters
  root_dir := "/r".toList
  pattern := "\x7ba\x7d.txt".toList
  parts := [[.any ['a'], .lit '.', .lit 't', .lit 'x', .lit 't']]
  parsed := by decide

theorem textFiles_inverts : Inverts textFiles "x.txt".toList :=
  (inverts_iff (d := textFiles) (fun _ => plainName_of_letters)
      (by simp [textFiles, NoDoubledBraces]) _).mpr
    (inverted_of_newline_not_mem (formatsParts_of_plain (fun _ => plainName_of_letters)
      (by simp [textFiles, NoDoubledBraces])) (by decide))

/-- A newline at the end is lost, and one in the value is not read. -/
theorem textFiles_newlines :
    ¬ Inverts textFiles "x.txt\n".toList ∧ ¬ Inverts textFiles "x\ny.txt".toList := by
  constructor
  · rintro ⟨-, hback⟩
    have hread : textFiles.fromFilename "x.txt\n".toList =
        .ok (some ⟨[(['a'], ['x'])], .bytes []⟩) := by decide +kernel
    have hname : textFiles.filename ⟨[(['a'], ['x'])], .bytes []⟩ = .ok "x.txt".toList := by
      decide +kernel
    have hback := hback _ hread
    rw [hname] at hback
    exact absurd (Except.ok.inj hback) (by decide)
  · rintro ⟨hiff, -⟩
    have hformats : FormatsTo textFiles [(['a'], "x\ny".toList)] "x\ny.txt".toList :=
      ⟨by decide, by decide, by decide +kernel⟩
    obtain ⟨item, hitem⟩ := hiff.mpr ⟨_, hformats⟩
    have hread : textFiles.fromFilename "x\ny.txt".toList = .ok none := by
      decide +kernel
    rw [hread] at hitem
    simp at hitem

end Multicorn.Fs
