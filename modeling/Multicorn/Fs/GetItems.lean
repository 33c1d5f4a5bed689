import Multicorn.Fs.Scan

/-! `get_items` against reading every file name: when fixing values gives the same items as
looking through all files. -/
namespace Multicorn.Fs
open Multicorn.StateMonad

/-- The regular file at a path relative to the root directory. -/
def RegularFile (d : Directory) (os : Os) (f : Str) : Prop :=
  ∃ r i, os.resolve d.root_dir = .ok r ∧ os.file (r ++ f.splitOn '/') = some i

/-- An item of a file that agrees with the fixed values. -/
def Matches (d : Directory) (os : Os) (values : List (Str × Str)) (f : Str) (item : Item) : Prop :=
  RegularFile d os f ∧ d.fromFilename f = .ok (some item) ∧
    ∀ p ∈ values, item.properties.lookup p.1 = some p.2

/-- `get_items` raises nothing and gives the matching items, each once. -/
def GivesMatches (d : Directory) (values : List (Str × Str)) (s : State) : Prop :=
  ∃ items s', getItems d values s = .ok items s' ∧ items.Nodup ∧
    ∀ item, item ∈ items ↔ ∃ f, Matches d s.os values f item

/-- Each part whose properties all have a value spells a proper name, from which the same
values are read. -/
def SpelledBack (d : Directory) (values : List (Str × Str)) : Prop :=
  ∀ part ∈ d.parts, ∀ text, (fixedOf values part).1 = some text →
    ProperName text ∧ matchPart part text = some (fixedValues values part)

variable {s s' : State} {d : Directory} {os : Os} {values : List (Str × Str)}

/-- Names that a filter pairs with something are among the names, in their order. -/
theorem map_fst_filterMap_sublist {α β : Type} {f : α → Option (α × β)} {l : List α}
    (hf : ∀ a p, f a = some p → p.1 = a) : ((l.filterMap f).map Prod.fst).Sublist l := by
  induction l with
  | nil => exact .slnil
  | cons a l ih =>
    rw [List.filterMap_cons]
    cases hp : f a with
    | none => exact ih.cons _
    | some p =>
      rw [List.map_cons, hf a p hp]
      exact ih.cons_cons _

theorem matching_nodup (previous : List Str) (part : Part) (fixed : Fixed) :
    ((matching os d previous part fixed).map Prod.fst).Nodup := by
  unfold matching
  cases fixed.1 with
  | some text => simp
  | none =>
    have hlisting : (os.listing (d.join previous)).Nodup := by
      unfold Os.listing
      cases os.resolve (d.join previous) with
      | error e => exact List.nodup_nil
      | ok p =>
        simp only
        split_ifs
        · exact Os.children_nodup p
        · exact List.nodup_nil
    refine hlisting.sublist (map_fst_filterMap_sublist fun name p hp => ?_)
    split at hp
    · split_ifs at hp
      cases hp
      rfl
    · cases hp

/-- The walk finds no file twice. -/
theorem found_nodup (previous : List Str) (parts : List (Part × Fixed)) :
    (found os d previous parts).Nodup := by
  induction parts generalizing previous with
  | nil => exact List.nodup_nil
  | cons e rest ih =>
    obtain ⟨part, fixed⟩ := e
    rw [found, List.nodup_flatMap]
    constructor
    · intro p hp
      split_ifs
      · exact List.nodup_singleton _
      · exact List.nodup_nil
      · refine (ih (previous ++ [p.1])).map ?_
        intro q q' hq
        simpa [Prod.ext_iff] using hq
    · have hnames := List.pairwise_map.mp (@matching_nodup d os previous part fixed)
      refine hnames.imp ?_
      intro p p' hne
      have hfirst : ∀ {p : Str × List (Str × Str)} {f : List Str × List (Str × Str)},
          f ∈ (if rest = [] then
            if os.isfile (d.join (previous ++ [p.1])) then [([p.1], p.2)] else []
          else (found os d (previous ++ [p.1]) rest).map fun q => (p.1 :: q.1, p.2 ++ q.2)) →
          f.1.head? = some p.1 := by
        intro p f hf
        split_ifs at hf
        · obtain rfl := List.mem_singleton.mp hf
          rfl
        · cases hf
        · obtain ⟨q, -, rfl⟩ := List.mem_map.mp hf
          rfl
      intro f hf hf'
      have hsame := (hfirst hf).symm.trans (hfirst hf')
      exact hne (Option.some.inj hsame)

theorem matches_iff {f : Str} {item : Item} :
    Matches d os values f item ↔ RegularFile d os f ∧
      ∃ vals, Directory.matchParts d.parts (f.splitOn '/') = some vals ∧
        item = ⟨vals, .bytes []⟩ ∧ ∀ p ∈ values, p ∈ vals := by
  unfold Matches
  rw [fromFilename_eq, Except.ok.injEq, Option.map_eq_some_iff]
  constructor
  · rintro ⟨hfile, ⟨vals, hmatch, rfl⟩, hagree⟩
    have hnodup : (vals.map Prod.fst).Nodup := keys_of_matchParts hmatch ▸ properties_nodup d
    exact ⟨hfile, vals, hmatch, rfl, fun p hp => (lookup_iff_mem hnodup).mp (hagree p hp)⟩
  · rintro ⟨hfile, vals, hmatch, rfl, hagree⟩
    have hnodup : (vals.map Prod.fst).Nodup := keys_of_matchParts hmatch ▸ properties_nodup d
    exact ⟨hfile, ⟨vals, hmatch, rfl⟩, fun p hp => (lookup_iff_mem hnodup).mpr (hagree p hp)⟩

theorem Reads.text_mem {parts : List (Part × Fixed)} {names : List Str} {vals : List (Str × Str)}
    (h : Reads parts names vals) : ∀ e ∈ parts, ∀ text, e.2.1 = some text → text ∈ names := by
  induction h with
  | nil => simp
  | @cons part fixed rest name names vals more hnamed _ ih =>
    intro e he text htext
    rcases List.mem_cons.mp he with rfl | he
    · have htext : fixed.1 = some text := htext
      simp only [Named, htext] at hnamed
      rw [hnamed.1]
      exact List.mem_cons_self
    · exact List.mem_cons_of_mem _ (ih e he text htext)

theorem Reads.keys {parts : List Part} {names : List Str} {vals : List (Str × Str)}
    (h : Reads (parts.map fun part => (part, fixedOf values part)) names vals) :
    vals.map Prod.fst = parts.flatMap Part.properties := by
  induction parts generalizing names vals with
  | nil =>
    cases h
    rfl
  | cons part parts ih =>
    rw [List.map_cons] at h
    cases h with
    | @cons _ _ _ name names first more hnamed hrest =>
      have hfirst : first.map Prod.fst = part.properties := by
        unfold Named at hnamed
        by_cases hlen : (fixedValues values part).length = part.properties.length
        · rw [fixedOf_full hlen] at hnamed
          rw [hnamed.2, keys_fixedValues hlen]
        · rw [fixedOf_open hlen] at hnamed
          exact keys_of_matchPart hnamed.1
      rw [List.map_append, hfirst, ih hrest, List.flatMap_cons]

theorem Tree.proper_names (ht : os.Tree) {r : Path} {names : List Str} {i : ℕ}
    (h : os.file (r ++ names) = some i) : ∀ c ∈ names, ProperName c := by
  intro c hc
  obtain ⟨before, after, rfl⟩ := List.append_of_mem hc
  have hnode : (os.node (r ++ before ++ [c] ++ after)).isSome := by
    have hpath : r ++ before ++ [c] ++ after = r ++ (before ++ c :: after) := by simp
    rw [hpath, Os.file_eq_some.mp h]
    rfl
  exact ht.names _ _ (ht.node_prefix hnode)

/-- A whole name that is read along with a match is read back. -/
theorem Reads.spelled {parts : List Part} {names : List Str} {vals : List (Str × Str)}
    (h : Reads (parts.map fun part => (part, fixedOf values part)) names vals)
    (hmatch : Directory.matchParts parts names = some vals) :
    ∀ part ∈ parts, ∀ text, (fixedOf values part).1 = some text →
      matchPart part text = some (fixedValues values part) := by
  induction parts generalizing names vals with
  | nil => simp
  | cons part parts ih =>
    have hkeys := h.keys
    rw [List.map_cons] at h
    cases h with
    | @cons _ _ _ name names first more hnamed hrest =>
      obtain ⟨first', more', hfirst, hmore, happend⟩ := matchParts_cons.mp hmatch
      have hmoreKeys : more.map Prod.fst = more'.map Prod.fst := by
        rw [hrest.keys, keys_of_matchParts hmore]
      have hlen : more.length = more'.length := by simpa using congrArg List.length hmoreKeys
      obtain ⟨rfl, rfl⟩ := List.append_inj' happend hlen
      intro p hp text htext
      rcases List.mem_cons.mp hp with rfl | hp
      · simp only [Named, htext, fixedOf_snd] at hnamed
        rw [← hnamed.1, ← hnamed.2]
        exact hfirst
      · exact ih hrest hmore p hp text htext

/-- Names without newlines at their ends are known from their values. -/
theorem names_unique {parts : List Part} (hparts : (parts.flatMap Part.properties).Nodup)
    {names names' : List Str} {vals : List (Str × Str)}
    (hmatch : Directory.matchParts parts names = some vals)
    (hmatch' : Directory.matchParts parts names' = some vals)
    (hnames : ∀ name ∈ names, name.getLast? ≠ some '\n')
    (hnames' : ∀ name ∈ names', name.getLast? ≠ some '\n') : names = names' := by
  induction parts generalizing names names' vals with
  | nil =>
    cases names with
    | nil =>
      cases names' with
      | nil => rfl
      | cons name names => cases hmatch'
    | cons name names => cases hmatch
  | cons part parts ih =>
    cases names with
    | nil => cases hmatch
    | cons name names =>
      cases names' with
      | nil => cases hmatch'
      | cons name' names' =>
        obtain ⟨first, more, hfirst, hmore, rfl⟩ := matchParts_cons.mp hmatch
        obtain ⟨first', more', hfirst', hmore', happend⟩ := matchParts_cons.mp hmatch'
        have hkeys : more.map Prod.fst = more'.map Prod.fst := by
          rw [keys_of_matchParts hmore, keys_of_matchParts hmore']
        obtain ⟨rfl, rfl⟩ := List.append_inj' happend (by simpa using congrArg List.length hkeys)
        rw [List.forall_mem_cons] at hnames hnames'
        obtain ⟨hpart, hrest, -⟩ := List.nodup_append.mp (List.flatMap_cons ▸ hparts)
        rw [ih hrest hmore hmore' hnames.2 hnames'.2, eq_text_of_matchPart hfirst hpart hnames.1,
          ← eq_text_of_matchPart hfirst' hpart hnames'.1]

section Main

variable (hpieces : d.FormatsParts) (hvalues : (values.map Prod.fst).Nodup)
  (hkeys : ∀ p ∈ values, p.1 ∈ d.properties) (ht : s.os.Tree)

include hpieces in
theorem parts_ne_nil : d.parts ≠ [] := by
  intro h
  unfold Directory.FormatsParts at hpieces
  rw [h] at hpieces
  exact List.splitOn_ne_nil _ _ (List.forall₂_nil_right_iff.mp hpieces)

include hpieces in
theorem plan_ne_nil : plan values d ≠ [] := by
  simpa [plan] using parts_ne_nil hpieces

include hpieces hvalues hkeys ht

omit hkeys in
/-- A matching file without newlines at the ends of its names is found. -/
theorem found_of_matches {f : Str} {item : Item} (h : Matches d s.os values f item)
    (hf : ∀ name ∈ f.splitOn '/', name.getLast? ≠ some '\n') :
    (f.splitOn '/', item.properties) ∈ found s.os d [] (plan values d) ∧
      item.content = .bytes [] := by
  obtain ⟨⟨r, i, hroot, hfile⟩, vals, hmatch, rfl, hagree⟩ := matches_iff.mp h
  have hproper := Tree.proper_names ht hfile
  have hreads := reads_of_matchParts (properties_nodup d) hmatch hf fun k v hv _ =>
    hagree (k, v) ((lookup_iff_mem hvalues).mp hv)
  refine ⟨(mem_found ht hroot (by simp) (plan_ne_nil hpieces) ?_).mpr ⟨hreads, ?_⟩, rfl⟩
  · intro e he text htext
    exact hproper text (hreads.text_mem e he text htext)
  · rw [List.append_nil, hfile]
    rfl

omit hpieces hvalues hkeys ht in
theorem makes_iff {f : List Str × List (Str × Str)} (hf : f.2.map Prod.fst = d.properties)
    {item : Item} : Makes d [] f item ↔ (∀ p ∈ f.2, '/' ∉ p.2) ∧ item = ⟨f.2, .bytes []⟩ := by
  unfold Makes
  rw [List.nil_append, item_of_keys hf]
  by_cases hslash : (f.2.any fun p => '/' ∈ p.2) = true
  · rw [if_pos hslash]
    obtain ⟨p, hp, hmem⟩ := List.any_eq_true.mp hslash
    constructor
    · intro h
      cases h
    · rintro ⟨hall, -⟩
      exact absurd (by simpa using hmem) (hall p hp)
  · rw [if_neg hslash]
    have hall : ∀ p ∈ f.2, '/' ∉ p.2 := by
      intro p hp hmem
      exact hslash (List.any_eq_true.mpr ⟨p, hp, by simpa using hmem⟩)
    rw [Except.ok.injEq]
    constructor
    · rintro rfl
      exact ⟨hall, rfl⟩
    · rintro ⟨-, rfl⟩
      rfl

omit hpieces hvalues hkeys ht in
theorem items_of_makes {fs : List (List Str × List (Str × Str))} {items : List Item}
    (hfs : ∀ f ∈ fs, f.2.map Prod.fst = d.properties) (h : List.Forall₂ (Makes d []) fs items) :
    items = fs.map fun f => ⟨f.2, .bytes []⟩ := by
  induction h with
  | nil => rfl
  | cons hmake _ ih =>
    rw [List.forall_mem_cons] at hfs
    rw [List.map_cons, ih hfs.2, ((makes_iff hfs.1).mp hmake).2]

/-- When the whole names are read back, what is found are the matching files. -/
theorem matches_of_found (hspelled : SpelledBack d values) {r : Path}
    (hroot : s.os.resolve d.root_dir = .ok r) {f : List Str × List (Str × Str)}
    (hf : f ∈ found s.os d [] (plan values d)) :
    Matches d s.os values (['/'].intercalate f.1) ⟨f.2, .bytes []⟩ ∧
      (['/'].intercalate f.1).splitOn '/' = f.1 := by
  have hproper : ∀ e ∈ plan values d, ∀ text, e.2.1 = some text → ProperName text := by
    intro e he text htext
    obtain ⟨part, hpart, rfl⟩ := List.mem_map.mp he
    exact (hspelled part hpart text htext).1
  obtain ⟨hreads, hfile⟩ := (mem_found ht hroot (by simp) (plan_ne_nil hpieces) hproper).mp hf
  obtain ⟨i, hi⟩ := Option.isSome_iff_exists.mp hfile
  rw [List.append_nil] at hi
  have hnames := Tree.proper_names ht hi
  have hne : f.1 ≠ [] := by
    intro h
    rw [h] at hreads
    have hplan := @plan_ne_nil d values hpieces
    cases hp : plan values d with
    | nil => exact hplan hp
    | cons e rest =>
      rw [hp] at hreads
      cases hreads
  have hsplit : (['/'].intercalate f.1).splitOn '/' = f.1 :=
    List.splitOn_intercalate '/' (fun c hc => (hnames c hc).2.2.2) hne
  obtain ⟨hmatch, hagree⟩ := matchParts_of_reads (properties_nodup d) hreads
    fun part hpart text htext => by
      rw [fixedOf_snd]
      exact (hspelled part hpart text htext).2
  refine ⟨matches_iff.mpr ⟨⟨r, i, hroot, ?_⟩, f.2, ?_, rfl, fun p hp => ?_⟩, hsplit⟩
  · rw [hsplit, hi]
  · rw [hsplit, hmatch]
  · exact hagree p.1 p.2 ((lookup_iff_mem hvalues).mpr hp) (hkeys p hp)

omit hpieces hkeys in
/-- Where there is a matching file, each whole name is read back. -/
theorem spelledBack_of_matches {f : Str} {item : Item} (h : Matches d s.os values f item)
    (hf : ∀ name ∈ f.splitOn '/', name.getLast? ≠ some '\n') : SpelledBack d values := by
  obtain ⟨⟨r, i, hroot, hfile⟩, vals, hmatch, hvals, hagree⟩ := matches_iff.mp h
  have hproper := Tree.proper_names ht hfile
  have hreads := reads_of_matchParts (properties_nodup d) hmatch hf fun k v hv _ =>
    hagree (k, v) ((lookup_iff_mem hvalues).mp hv)
  intro part hpart text htext
  refine ⟨hproper text (hreads.text_mem (part, fixedOf values part) ?_ text htext), ?_⟩
  · exact List.mem_map.mpr ⟨part, hpart, rfl⟩
  · exact hreads.spelled hmatch part hpart text htext

variable (hself : ∀ p ∈ values, p.1 ≠ Directory.self) (hf : s.os.faults = [])
  (hroot : s.os.stat d.root_dir = some .dir) (hlist : Listable s.os d [] (plan values d))
  (hnewline : ∀ f item, Matches d s.os values f item →
    ∀ name ∈ f.splitOn '/', name.getLast? ≠ some '\n')

include hself hf hroot hlist hnewline

theorem givesMatches_of_none (hnone : found s.os d [] (plan values d) = []) :
    GivesMatches d values s := by
  unfold GivesMatches
  rw [getItems_eq hpieces hself hkeys]
  obtain ⟨items, s', hitems, -, hmakes⟩ := @walk_ok s d hf [] [] _ (fun _ => hroot) hlist (by
    rw [hnone]
    simp)
  rw [hnone] at hmakes
  cases hmakes
  refine ⟨[], s', hitems, List.nodup_nil, fun item => ?_⟩
  constructor
  · intro h
    cases h
  · rintro ⟨f, hmatches⟩
    have hmem := (found_of_matches hpieces hvalues ht hmatches (hnewline f item hmatches)).1
    rw [hnone] at hmem
    cases hmem

theorem givesMatches_of_spelledBack (hspelled : SpelledBack d values) :
    GivesMatches d values s := by
  obtain ⟨r, hr, -⟩ := Os.stat_eq_some.mp hroot
  have hkeysOf : ∀ f ∈ found s.os d [] (plan values d), f.2.map Prod.fst = d.properties :=
    fun f hf => Reads.keys (reads_of_found hf)
  have hmatched : ∀ f ∈ found s.os d [] (plan values d),
      Matches d s.os values (['/'].intercalate f.1) ⟨f.2, .bytes []⟩ ∧
        Directory.matchParts d.parts f.1 = some f.2 ∧
        ∀ name ∈ f.1, name.getLast? ≠ some '\n' := by
    intro f hfound
    obtain ⟨hmatches, hsplit⟩ := matches_of_found hpieces hvalues hkeys ht hspelled hr hfound
    obtain ⟨-, vals, hmatch, hvals, -⟩ := matches_iff.mp hmatches
    have heq : f.2 = vals := congrArg Item.properties hvals
    have hlast := hnewline _ _ hmatches
    rw [hsplit] at hmatch hlast
    exact ⟨hmatches, by rw [heq, hmatch], hlast⟩
  have hplain : ∀ f ∈ found s.os d [] (plan values d), ∀ p ∈ f.2, '/' ∉ p.2 := by
    intro f hfound p hp hslash
    obtain ⟨hmatches, hmatch, -⟩ := hmatched f hfound
    obtain ⟨-, hsplit⟩ := matches_of_found hpieces hvalues hkeys ht hspelled hr hfound
    obtain ⟨name, hname, hin⟩ := mem_of_matchParts hmatch p hp '/' hslash
    rw [← hsplit] at hname
    exact slash_not_mem_splitOn _ name hname hin
  obtain ⟨items, s', hitems, -, hmakes⟩ := @walk_ok s d hf [] [] _ (fun _ => hroot) hlist
    fun f hfound => ⟨_, (makes_iff (hkeysOf f hfound)).mpr ⟨hplain f hfound, rfl⟩⟩
  have hall := items_of_makes hkeysOf hmakes
  unfold GivesMatches
  rw [getItems_eq hpieces hself hkeys]
  refine ⟨items, s', hitems, ?_, fun item => ?_⟩
  · rw [hall]
    refine List.Nodup.map_on ?_ (found_nodup _ _)
    intro f hfound g hg hfg
    have hvals : f.2 = g.2 := congrArg Item.properties hfg
    obtain ⟨-, hmatch, hlast⟩ := hmatched f hfound
    obtain ⟨-, hmatch', hlast'⟩ := hmatched g hg
    rw [← hvals] at hmatch'
    exact Prod.ext (names_unique (properties_nodup d) hmatch hmatch' hlast hlast') hvals
  · rw [hall, List.mem_map]
    constructor
    · rintro ⟨f, hfound, rfl⟩
      exact ⟨_, (hmatched f hfound).1⟩
    · rintro ⟨f, hmatches⟩
      obtain ⟨hmem, hcontent⟩ := found_of_matches hpieces hvalues ht hmatches
        (hnewline f item hmatches)
      refine ⟨_, hmem, ?_⟩
      rw [← hcontent]

end Main

/-- Fixing values gives exactly the items of the matching files, as long as no matching file
has a name that ends in a newline, if and only if no value is one of `self`, no path that is
listed is refused, and either no file is found or each whole name is proper and read back as the
values it was made of. -/
theorem givesMatches_iff (hid : ∀ name, d.isidentifier name = true → PlainName name)
    (hdoubled : NoDoubledBraces d.pattern) (hvalues : (values.map Prod.fst).Nodup)
    (hkeys : ∀ p ∈ values, p.1 ∈ d.properties) (ht : s.os.Tree) (hf : s.os.faults = [])
    (hroot : s.os.stat d.root_dir = some .dir)
    (hnewline : ∀ f item, Matches d s.os values f item →
      ∀ name ∈ f.splitOn '/', name.getLast? ≠ some '\n') :
    GivesMatches d values s ↔ (∀ p ∈ values, p.1 ≠ Directory.self) ∧
      Listable s.os d [] (plan values d) ∧
        (found s.os d [] (plan values d) = [] ∨ SpelledBack d values) := by
  have hpieces := formatsParts_of_plain hid hdoubled
  constructor
  · rintro ⟨items, s', hitems, -, hall⟩
    have hself := getItems_ne_self hitems
    rw [getItems_eq hpieces hself hkeys] at hitems
    obtain ⟨-, hlist, hmakes⟩ := of_walk_ok hf (fun _ => hroot) hitems
    refine ⟨hself, hlist, ?_⟩
    cases hfound : found s.os d [] (plan values d) with
    | nil => exact .inl rfl
    | cons f rest =>
      right
      rw [hfound] at hmakes
      cases hmakes with
      | @cons _ item _ items hmake hrest =>
        obtain ⟨g, hg⟩ := (hall item).mp List.mem_cons_self
        exact spelledBack_of_matches hvalues ht hg (hnewline g item hg)
  · rintro ⟨hself, hlist, hnone | hspelled⟩
    · exact givesMatches_of_none hpieces hvalues hkeys ht hself hf hroot hlist hnewline hnone
    · exact givesMatches_of_spelledBack hpieces hvalues hkeys ht hself hf hroot hlist hnewline
        hspelled

section Sample

/-- Identifiers of letters only. -/
def letters (name : Str) : Bool := name ≠ [] && name.all Char.isAlpha

theorem plainName_of_letters {name : Str} (h : letters name = true) : PlainName name := by
  obtain ⟨hne, hall⟩ : name ≠ [] ∧ name.all Char.isAlpha = true := by
    simpa [letters] using h
  rw [List.all_eq_true] at hall
  constructor
  · obtain ⟨c, rest, rfl⟩ := List.exists_cons_of_ne_nil hne
    have hc := hall c List.mem_cons_self
    rw [List.all_cons, Bool.and_eq_false_iff]
    left
    change (decide ('A'.val ≤ c.val ∧ c.val ≤ 'Z'.val) ||
      (decide ('a'.val ≤ c.val) && decide (c.val ≤ 'z'.val))) = true at hc
    simp only [Bool.or_eq_true, Bool.and_eq_true, decide_eq_true_eq] at hc
    simp only [Char.isDigit, Bool.and_eq_false_iff, decide_eq_false_iff_not]
    right
    intro hle
    rcases hc with ⟨hlow, -⟩ | ⟨hlow, -⟩
    · exact absurd (UInt32.le_trans hlow hle) (by decide)
    · exact absurd (UInt32.le_trans hlow hle) (by decide)
  · intro c hc hspecial
    have hc := hall c hc
    simp only [List.mem_cons, List.not_mem_nil, or_false] at hspecial
    rcases hspecial with rfl | rfl | rfl | rfl | rfl | rfl | rfl <;> cases hc

/-- The pattern of a directory of directories. -/
def nested : Directory where
  isidentifier := letters
  root_dir := "/r".toList
  pattern := "\x7ba\x7d/\x7bb\x7d".toList
  parts := [[.any ['a']], [.any ['b']]]
  parsed := by decide

def utf8Process : Process := ⟨[], fun c => some (String.utf8EncodeChar c), fun _ _ => rfl⟩

/-- A system with a root directory `/r` and these files with their contents. -/
def sampleState (files : List (Path × Node)) (content : ℕ → Bytes) : State where
  os :=
    { process := utf8Process
      nodes := files.foldl (fun nodes f => nodes.insert f.1 f.2)
        ((∅ : AList fun _ : Path => Node).insert [['r']] Node.dir)
      content
      nextInode := files.length
      fds := []
      umask := 0
      faults := []
      touched := [] }
  cache := ∅
  current_transaction_state := []
  invisible_files := []
  updated_content := ∅

/-- With `..` for the directory, a file beside the root directory is found. -/
theorem parentDirectory_found :
    ¬ GivesMatches nested [(['a'], ['.', '.'])] (sampleState [([['x']], .file 0)] fun _ => []) := by
  rintro ⟨items, s', hitems, -, hall⟩
  have hrun : ∃ s', getItems nested [(['a'], ['.', '.'])]
      (sampleState [([['x']], .file 0)] fun _ => []) =
      .ok [⟨[(['a'], ['.', '.']), (['b'], ['x'])], .bytes []⟩] s' := ⟨_, rfl⟩
  obtain ⟨s'', hrun⟩ := hrun
  rw [hrun] at hitems
  cases hitems
  obtain ⟨f, ⟨r, i, hroot, hfile⟩, -⟩ := (hall _).mp List.mem_cons_self
  obtain rfl : [['r']] = r := Except.ok.inj hroot
  obtain ⟨name, names, hsplit⟩ := List.exists_cons_of_ne_nil (List.splitOn_ne_nil '/' f)
  have hnode := Os.file_eq_some.mp hfile
  rw [hsplit] at hnode
  have hnone : (sampleState [([['x']], .file 0)] fun _ => []).os.node ([['r']] ++ name :: names) =
      none := by
    have hne : [['r']] ++ name :: names ≠ [['x']] := by simp
    have hne' : [['r']] ++ name :: names ≠ [['r']] := by simp
    rw [Os.node, if_neg (by simp)]
    show AList.lookup _ (((∅ : AList fun _ : Path => Node).insert [['r']] Node.dir).insert [['x']]
      (Node.file 0)) = none
    rw [AList.lookup_insert_ne hne, AList.lookup_insert_ne hne']
    rfl
  rw [hnone] at hnode
  cases hnode

/-- A fixed directory gives the file in it. -/
theorem nestedFile_found : GivesMatches nested [(['a'], ['x'])]
    (sampleState [([['r'], ['x']], .dir), ([['r'], ['x'], ['y']], .file 0)] fun _ => []) := by
  have ht : (sampleState [([['r'], ['x']], .dir), ([['r'], ['x'], ['y']], .file 0)]
      fun _ => []).os.Tree := by
    apply Os.Tree.of_keys
    intro q hq c hc
    have hkeys : q = [['r'], ['x'], ['y']] ∨ q = [['r'], ['x']] ∨ q = [['r']] := by
      have hmem : q ∈ [[['r'], ['x'], ['y']], [['r'], ['x']], [['r']]] := hq
      simpa using hmem
    rcases hkeys with rfl | rfl | rfl
    · obtain rfl := Option.some.inj hc
      exact ⟨rfl, by decide, by decide⟩
    · obtain rfl := Option.some.inj hc
      exact ⟨rfl, by decide, by decide⟩
    · obtain rfl := Option.some.inj hc
      exact ⟨rfl, by decide, by decide⟩
  apply (givesMatches_iff (fun _ => plainName_of_letters) (by simp [nested, NoDoubledBraces])
    (by simp) (by simp [Directory.properties, nested, Part.properties]) ht rfl rfl ?_).mpr
  · refine ⟨by decide, ?_, .inr fun part hpart text htext => ?_⟩
    · have hroot : (sampleState [([['r'], ['x']], .dir), ([['r'], ['x'], ['y']], .file 0)]
          fun _ => []).os.resolve nested.root_dir = .ok [['r']] := rfl
      refine listable_of_accepts ht hroot (by simp) fun e he text htext => ?_
      have hcases : e = ([.any ['a']], fixedOf [(['a'], ['x'])] [.any ['a']]) ∨
          e = ([.any ['b']], fixedOf [(['a'], ['x'])] [.any ['b']]) := by
        simpa [plan, nested] using he
      rcases hcases with rfl | rfl
      · obtain rfl : ['x'] = text := Option.some.inj htext
        exact ⟨by decide, by decide, by decide⟩
      · cases htext
    have hcases : part = [.any ['a']] ∨ part = [.any ['b']] := by simpa [nested] using hpart
    rcases hcases with rfl | rfl
    · obtain rfl : ['x'] = text := Option.some.inj htext
      exact ⟨by decide, rfl⟩
    · cases htext
  · rintro f item ⟨⟨r, i, hroot, hfile⟩, -⟩ name hname
    obtain rfl : [['r']] = r := Except.ok.inj hroot
    have hmem : [['r']] ++ f.splitOn '/' ∈ [[['r'], ['x'], ['y']], [['r'], ['x']], [['r']]] :=
      Os.mem_keys_of_file hfile
    have hnames : f.splitOn '/' = [['x'], ['y']] ∨ f.splitOn '/' = [['x']] ∨ f.splitOn '/' = [] := by
      simpa using hmem
    rcases hnames with h | h | h
    · rw [h] at hname
      rcases List.mem_cons.mp hname with rfl | hname
      · decide
      · obtain rfl := List.mem_singleton.mp hname
        decide
    · rw [h] at hname
      obtain rfl := List.mem_singleton.mp hname
      decide
    · exact absurd h (List.splitOn_ne_nil _ _)

end Sample

end Multicorn.Fs
