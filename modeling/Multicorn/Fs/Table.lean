import Multicorn.Fs.Duplicates
import Multicorn.Fs.Root
import Multicorn.General.ChangeLog

/-! The table of a directory: which file names a full scan shows, and with what content. -/
namespace Multicorn.Fs
open Multicorn.StateMonad

variable {s s' : State} {t : FilesystemFdw} {d : Directory} {r : Path} {f g : Str} {name content : Str}

/-- A file name that a scan can list: proper names without newlines that match the pattern. -/
structure Directory.Lists (d : Directory) (f : Str) : Prop where
  proper : ∀ c ∈ f.splitOn '/', ProperName c
  newline : ∀ c ∈ f.splitOn '/', '\n' ∉ c
  reads : (Directory.matchParts d.parts (f.splitOn '/')).isSome = true

instance (d : Directory) (f : Str) : Decidable (d.Lists f) :=
  decidable_of_iff ((∀ c ∈ f.splitOn '/', ProperName c) ∧ (∀ c ∈ f.splitOn '/', '\n' ∉ c) ∧
    (Directory.matchParts d.parts (f.splitOn '/')).isSome = true)
    ⟨fun h => ⟨h.1, h.2.1, h.2.2⟩, fun h => ⟨h.proper, h.newline, h.reads⟩⟩

/-- The path of a file name. -/
def Directory.key (d : Directory) (f : Str) : Str := d.join (f.splitOn '/')

theorem fullFilename_of_filename {item : Item} (h : d.filename item = .ok f) :
    d.fullFilename item = .ok (d.key f) := by
  unfold Directory.fullFilename
  rw [h]
  rfl

theorem filename_of_fullFilename {item : Item} {k : Str} (h : d.fullFilename item = .ok k) :
    ∃ f, d.filename item = .ok f ∧ k = d.key f := by
  obtain ⟨f, hf, hk⟩ := FilesystemFdw.fullFilename_eq_ok.mp h
  exact ⟨f, hf, hk⟩

theorem root_ne_nil {os : Os} (hroot : os.resolve d.root_dir = .ok r) : d.root_dir ≠ [] := by
  intro h
  rw [h] at hroot
  cases hroot

theorem names_proper {c : Str} (h : ProperName c) : names c = [c] := by
  unfold names
  rw [h.splitOn]
  have hdown := component_properName h
  simp [Descent.moving, hdown]

/-- The components of a key are those of the root directory and then those of the file name. -/
theorem names_key (hroot : d.root_dir ≠ []) (hf : ∀ c ∈ f.splitOn '/', ProperName c) :
    names (d.key f) = names d.root_dir ++ f.splitOn '/' := by
  obtain ⟨hnames, -, -⟩ := names_pathJoin hroot fun c hc => (hf c hc).head_ne
  have hflat : ∀ l : List Str, (∀ c ∈ l, ProperName c) → l.flatMap names = l := by
    intro l hl
    induction l with
    | nil => rfl
    | cons c l ih =>
      rw [List.forall_mem_cons] at hl
      rw [List.flatMap_cons, names_proper hl.1, ih hl.2]
      rfl
  exact hnames.trans (by rw [hflat _ hf])

theorem splitOn_injective {f g : Str} (h : f.splitOn '/' = g.splitOn '/') : f = g := by
  have hsplit := congrArg (['/'].intercalate ·) h
  simpa [List.intercalate_splitOn] using hsplit

theorem length_of_matchParts {parts : List Part} {names : List Str} {vals : List (Str × Str)}
    (h : Directory.matchParts parts names = some vals) : names.length = parts.length := by
  induction parts generalizing names vals with
  | nil =>
    cases names with
    | nil => rfl
    | cons name names => cases h
  | cons part parts ih =>
    cases names with
    | nil => cases h
    | cons name names =>
      obtain ⟨first, more, -, hmore, -⟩ := matchParts_cons.mp h
      rw [List.length_cons, List.length_cons, ih hmore]

theorem Directory.Lists.length (hf : d.Lists f) : (f.splitOn '/').length = d.parts.length := by
  obtain ⟨vals, hvals⟩ := Option.isSome_iff_exists.mp hf.reads
  exact length_of_matchParts hvals

theorem names_of_component {c : Str} (hc : '/' ∉ c) : names c = [] ∨ names c = [c] := by
  unfold names Descent.moving
  rw [List.splitOn_eq_singleton hc, List.filter_singleton]
  cases decide (component c ≠ .here) with
  | true => exact .inr rfl
  | false => exact .inl rfl

theorem length_names_le {comps : List Str} (h : ∀ c ∈ comps, '/' ∉ c) :
    (comps.flatMap names).length ≤ comps.length := by
  induction comps with
  | nil => exact Nat.le_refl _
  | cons c comps ih =>
    rw [List.forall_mem_cons] at h
    have hrest := ih h.2
    rw [List.flatMap_cons, List.length_append, List.length_cons]
    rcases names_of_component h.1 with hc | hc
    · rw [hc, List.length_nil]
      omega
    · rw [hc, List.length_singleton]
      omega

/-- Components that all lead somewhere are the ones that do. -/
theorem flatMap_names_eq {comps : List Str} (h : ∀ c ∈ comps, '/' ∉ c)
    (hlength : (comps.flatMap names).length = comps.length) : comps.flatMap names = comps := by
  induction comps with
  | nil => rfl
  | cons c comps ih =>
    rw [List.forall_mem_cons] at h
    have hle := length_names_le h.2
    rw [List.flatMap_cons, List.length_append, List.length_cons] at hlength
    rcases names_of_component h.1 with hc | hc
    · rw [hc, List.length_nil] at hlength
      omega
    · rw [hc, List.length_singleton] at hlength
      rw [List.flatMap_cons, hc, ih h.2 (by omega)]
      rfl

/-- A name with as many components as the pattern has parts is one that a scan lists, if it has
the path of that one. -/
theorem eq_of_key_eq (hroot : d.root_dir ≠ []) (hg : d.Lists g)
    (hlength : (f.splitOn '/').length = d.parts.length) (h : d.key f = d.key g) : f = g := by
  have hslash : ∀ c ∈ f.splitOn '/', '/' ∉ c := slash_not_mem_splitOn f
  have hheads : ∀ c ∈ f.splitOn '/', c.head? ≠ some '/' := fun c hc hhead =>
    hslash c hc (List.mem_of_head? hhead)
  have hnames := congrArg names h
  rw [names_key hroot hg.proper, Directory.key, Directory.join,
    (names_pathJoin hroot hheads).1] at hnames
  have hflat := List.append_cancel_left hnames
  rw [flatMap_names_eq hslash (by rw [hflat, hlength, hg.length])] at hflat
  exact splitOn_injective hflat

theorem key_injective (hroot : d.root_dir ≠ []) (hf : d.Lists f) (hg : d.Lists g)
    (h : d.key f = d.key g) : f = g := eq_of_key_eq hroot hg hf.length h

theorem dirname_key (hroot : d.root_dir ≠ []) (hf : d.Lists f) : dirname (d.key f) ≠ [] := by
  obtain ⟨before, last, hsplit⟩ : ∃ before last, f.splitOn '/' = before ++ [last] :=
    ⟨_, _, (List.dropLast_append_getLast (List.splitOn_ne_nil '/' f)).symm⟩
  have hproper := hf.proper
  rw [hsplit] at hproper
  have hlast : ProperName last := hproper last (by simp)
  have hbase : pathJoin d.root_dir before ≠ [] :=
    (names_pathJoin hroot fun c hc => (hproper c (by simp [hc])).head_ne).2.2
  have hkey : d.key f = joinOne (pathJoin d.root_dir before) last := by
    unfold Directory.key Directory.join
    rw [hsplit]
    simp [pathJoin]
  rw [hkey]
  exact (dirname_joinOne hbase hlast.2.2.2).2.1

theorem resolve_key {os : Os} (hroot : os.resolve d.root_dir = .ok r) (hf : d.Lists f) {p : Path}
    (h : os.resolve (d.key f) = .ok p) : p = r ++ f.splitOn '/' := by
  exact Os.walk_proper hf.proper ((resolve_join hroot hf.proper).mp h).2

/-- The options of a table: the pattern is formatted as it is read, and the columns for the file
name and the content are no properties of it and not each other. -/
structure FilesystemFdw.Plain (t : FilesystemFdw) (name content : Str) : Prop where
  pieces : t.structured_directory.FormatsParts
  spelled : SpelledBack t.structured_directory []
  own : t.OwnColumns
  filename_column : t.filename_column = some name
  content_column : t.content_column = some content
  apart : name ≠ content

/-- The root directory of the table is `r`, a new file gets an inode that no file has, and no file
under the root has a newline in its name. -/
structure Rooted (d : Directory) (r : Path) (s : State) : Prop where
  sound : Sound s
  root : s.os.resolve d.root_dir = .ok r
  isDir : s.os.node r = some .dir
  inodes : ∀ p i, s.os.file p = some i → i < s.os.nextInode
  newline : ∀ names i, s.os.file (r ++ names) = some i → ∀ c ∈ names, '\n' ∉ c

/-- A state in which scans show the files under the root `r`: the paths of the directories that the
pattern names are not refused. -/
structure Scannable (d : Directory) (r : Path) (s : State) : Prop extends Rooted d r s where
  tree : s.os.Tree
  literals : ∀ part ∈ d.parts, ∀ text, (fixedOf [] part).1 = some text → s.os.process.Accepts text

namespace Scannable

theorem stat_root (h : Scannable d r s) : s.os.stat d.root_dir = some .dir :=
  Os.stat_eq_some.mpr ⟨r, h.root, h.isDir⟩

/-- What a walk without fixed values finds are the files that the pattern matches. -/
theorem mem_found (h : Scannable d r s) (hpieces : d.FormatsParts) (hspelled : SpelledBack d [])
    {e : List Str × List (Str × Str)} (he : e ∈ found s.os d [] (plan [] d)) :
    ∃ f i, d.Lists f ∧ f.splitOn '/' = e.1 ∧ Directory.matchParts d.parts e.1 = some e.2 ∧
      s.os.file (r ++ f.splitOn '/') = some i := by
  have hnodup : (([] : List (Str × Str)).map Prod.fst).Nodup := List.nodup_nil
  obtain ⟨hmatches, hsplit⟩ := matches_of_found hpieces hnodup (by simp) h.tree hspelled h.root he
  obtain ⟨⟨r', i, hr', hfile⟩, vals, hmatch, hvals, -⟩ := matches_iff.mp hmatches
  rw [h.root] at hr'
  cases hr'
  have heq : e.2 = vals := congrArg Item.properties hvals
  have hmatch' : Directory.matchParts d.parts e.1 = some e.2 := by
    rw [← hsplit, hmatch, heq]
  refine ⟨['/'].intercalate e.1, i, ⟨?_, ?_, ?_⟩, hsplit, hmatch', hfile⟩
  · exact Tree.proper_names h.tree hfile
  · exact h.newline _ i hfile
  · rw [hmatch]
    rfl

/-- A file whose name can be listed is found. -/
theorem found_of_file (h : Scannable d r s) (hpieces : d.FormatsParts) (hf : d.Lists f) {i : ℕ}
    (hfile : s.os.file (r ++ f.splitOn '/') = some i) :
    ∃ vals, (f.splitOn '/', vals) ∈ found s.os d [] (plan [] d) := by
  obtain ⟨vals, hvals⟩ := Option.isSome_iff_exists.mp hf.reads
  have hmatches : Matches d s.os [] f ⟨vals, .bytes []⟩ :=
    matches_iff.mpr ⟨⟨r, i, h.root, hfile⟩, vals, hvals, rfl, by simp⟩
  have hnodup : (([] : List (Str × Str)).map Prod.fst).Nodup := List.nodup_nil
  refine ⟨vals, (found_of_matches hpieces hnodup h.tree hmatches fun c hc hlast => ?_).1⟩
  exact hf.newline c hc (List.mem_of_getLast? hlast)

theorem fileContent_key (h : Scannable d r s) (hf : d.Lists f) :
    s.os.fileContent (d.key f) = s.os.data (r ++ f.splitOn '/') := by
  have hstat : s.os.stat (d.key f) = s.os.node (r ++ f.splitOn '/') :=
    Os.stat_pathJoin h.tree h.root hf.proper
  unfold Os.fileContent Os.data Os.file
  rw [hstat]
  cases s.os.node (r ++ f.splitOn '/') with
  | none => rfl
  | some node => cases node <;> rfl

end Scannable

/-- Where there is a content to show, it is the one in the row. -/
theorem shows_eq_contentOf {k : Str} (h : (s.os.fileContent k).isSome = true) :
    s.shows k = some (FilesystemFdw.contentOf s k) := by
  obtain ⟨data, hdata⟩ := Option.isSome_iff_exists.mp h
  unfold State.shows FilesystemFdw.contentOf Os.shownAs
  cases (s.updated_content.lookup k).getD .none with
  | none => simp [hdata]
  | str v => rfl
  | bytes v => rfl
  | other text truth => rfl

namespace FilesystemFdw

/-- The item that a scan makes of a file is named after the file. -/
theorem filename_of_match (hpieces : d.FormatsParts) {vals : List (Str × Str)}
    (hf : ∀ c ∈ f.splitOn '/', '\n' ∉ c)
    (hmatch : Directory.matchParts d.parts (f.splitOn '/') = some vals) :
    d.filename ⟨vals, .bytes []⟩ = .ok f := by
  have hslash : ∀ p ∈ vals, '/' ∉ p.2 := by
    intro p hp hmem
    obtain ⟨c, hc, hin⟩ := mem_of_matchParts hmatch p hp '/' hmem
    exact slash_not_mem_splitOn f c hc hin
  let item : Item := ⟨vals, .bytes []⟩
  have hkeys : item.properties.map Prod.fst = d.properties := keys_of_matchParts hmatch
  obtain ⟨text, htext, hsplit⟩ := filename_of_keys hpieces hkeys hslash
  have hnames := names_of_matchParts (properties_nodup d) hmatch fun c hc hlast =>
    hf c hc (List.mem_of_getLast? hlast)
  exact htext.trans (congrArg Except.ok (splitOn_injective (hsplit.trans hnames.symm)))

variable (hplain : t.Plain name content) (h : Scannable t.structured_directory r s)

include hplain h

/-- The plain scan goes through an item for each file that it finds. -/
theorem getItems_plain : ∃ s', t.getItems [] s = .ok
    ((found s.os t.structured_directory [] (plan [] t.structured_directory)).map fun e =>
      ⟨e.2, .bytes []⟩) s' := by
  have hkeys : ∀ e ∈ found s.os t.structured_directory [] (plan [] t.structured_directory),
      e.2.map Prod.fst = t.structured_directory.properties :=
    fun e he => Reads.keys (reads_of_found he)
  have hmakes : ∀ e ∈ found s.os t.structured_directory [] (plan [] t.structured_directory),
      ∃ item, Makes t.structured_directory [] e item := by
    intro e he
    obtain ⟨f, i, hf, hsplit, hmatch, -⟩ := h.mem_found hplain.pieces hplain.spelled he
    refine ⟨⟨e.2, .bytes []⟩, (makes_iff (hkeys e he)).mpr ⟨fun p hp hmem => ?_, rfl⟩⟩
    obtain ⟨c, hc, hin⟩ := mem_of_matchParts hmatch p hp '/' hmem
    rw [← hsplit] at hc
    exact slash_not_mem_splitOn f c hc hin
  have hlist : Listable s.os t.structured_directory [] (plan [] t.structured_directory) := by
    apply listable_of_accepts h.tree h.root (by simp)
    intro e he text htext
    obtain ⟨part, hpart, rfl⟩ := List.mem_map.mp he
    exact h.literals part hpart text htext
  obtain ⟨items, s', hwalk, -, hitems⟩ := walk_ok h.sound.faults (fun _ => h.stat_root) hlist hmakes
  have hget : Fs.getItems t.structured_directory [] =
      walk t.structured_directory [] [] (plan [] t.structured_directory) :=
    getItems_eq hplain.pieces (by simp) (by simp)
  have hrun : t.getItems [] = walk t.structured_directory [] [] (plan [] t.structured_directory) :=
    hget
  refine ⟨s', ?_⟩
  rw [← items_of_makes hkeys hitems, hrun, hwalk]

omit h in
/-- The row of a file that is not hidden. -/
theorem rowOf_file (hf : t.structured_directory.Lists f) {vals : List (Str × Str)}
    (hmatch : Directory.matchParts t.structured_directory.parts (f.splitOn '/') = some vals)
    {row : Row} (hrow : t.rowOf s (t.filename_column.toList ++ t.content_column.toList)
      ⟨vals, .bytes []⟩ = some row) :
    t.structured_directory.key f ∉ s.invisible_files ∧ row.lookup name = some (.str f) ∧
      row.lookup content = some (contentOf s (t.structured_directory.key f)) := by
  unfold rowOf at hrow
  rw [filename_of_match hplain.pieces hf.newline hmatch] at hrow
  simp only [hplain.filename_column, hplain.content_column, Option.toList_some,
    List.singleton_append, Option.any_some, List.mem_cons, List.not_mem_nil, or_false, true_or,
    or_true, decide_true, if_true] at hrow
  split_ifs at hrow with hhidden
  cases hrow
  refine ⟨hhidden, ?_, ?_⟩
  · rw [lookup_withColumn, if_pos rfl]
  · have hne : ¬ (some name = some content) := fun heq => hplain.apart (Option.some.inj heq)
    rw [lookup_withColumn, if_neg hne, lookup_withColumn, if_pos rfl]
    rfl

/-- A full scan shows the files whose names match, unless they are hidden, with the content that
the transaction has recorded or else the one in the file. -/
theorem shows_iff {shown : Option PyVal} : t.Shows s f shown ↔
    t.structured_directory.Lists f ∧ (∃ i, s.os.file (r ++ f.splitOn '/') = some i) ∧
      t.structured_directory.key f ∉ s.invisible_files ∧
      s.shows (t.structured_directory.key f) = shown := by
  obtain ⟨s₁, hitems⟩ := getItems_plain hplain h
  have hreadable : ∀ {f : Str} {i : ℕ} {vals : List (Str × Str)},
      t.structured_directory.Lists f → s.os.file (r ++ f.splitOn '/') = some i →
      Directory.matchParts t.structured_directory.parts (f.splitOn '/') = some vals →
      (s.os.fileContent (t.structured_directory.key f)).isSome = true ∧
        t.Readable s (t.filename_column.toList ++ t.content_column.toList) ⟨vals, .bytes []⟩ := by
    intro f i vals hf hfile hmatch
    have hcontent : (s.os.fileContent (t.structured_directory.key f)).isSome = true := by
      rw [h.fileContent_key hf, Os.data, hfile]
      rfl
    have hname := filename_of_match hplain.pieces hf.newline hmatch
    exact ⟨hcontent, _, fullFilename_of_filename hname, .inr (.inr (.inr hcontent))⟩
  obtain ⟨s', hrun⟩ := execute_of_items h.sound.coherent h.sound.faults hitems fun item hitem => by
    obtain ⟨e, he, rfl⟩ := List.mem_map.mp hitem
    obtain ⟨f, i, hf, hsplit, hmatch, hfile⟩ := h.mem_found hplain.pieces hplain.spelled he
    rw [← hsplit] at hmatch
    exact (hreadable hf hfile hmatch).2
  have hout := congrArg outcome hrun
  unfold Shows
  rw [hout]
  constructor
  · rintro ⟨rows, hrows, row, hrow, hname, hcontent⟩
    cases hrows
    obtain ⟨item, hitem, hof⟩ := List.mem_filterMap.mp hrow
    obtain ⟨e, he, rfl⟩ := List.mem_map.mp hitem
    obtain ⟨g, i, hg, hsplit, hmatch, hfile⟩ := h.mem_found hplain.pieces hplain.spelled he
    rw [← hsplit] at hmatch
    obtain ⟨hvisible, hfilename, hshown⟩ := rowOf_file hplain hg hmatch hof
    unfold column at hname hcontent
    rw [hplain.filename_column, Option.bind_some, hfilename] at hname
    cases hname
    rw [hplain.content_column, Option.bind_some, hshown] at hcontent
    refine ⟨hg, ⟨i, hfile⟩, hvisible, ?_⟩
    rw [shows_eq_contentOf (hreadable hg hfile hmatch).1, hcontent]
  · rintro ⟨hf, ⟨i, hfile⟩, hvisible, hshown⟩
    obtain ⟨vals, hfound⟩ := h.found_of_file hplain.pieces hf hfile
    have hmatch := matchParts_of_plain (properties_nodup _) (reads_of_found hfound)
    obtain ⟨row, hof⟩ : ∃ row, t.rowOf s (t.filename_column.toList ++ t.content_column.toList)
        ⟨vals, .bytes []⟩ = some row := by
      unfold rowOf
      rw [filename_of_match hplain.pieces hf.newline hmatch]
      exact ⟨_, if_neg hvisible⟩
    obtain ⟨-, hfilename, hcontent⟩ := rowOf_file hplain hf hmatch hof
    refine ⟨_, rfl, row, List.mem_filterMap.mpr ⟨_, List.mem_map.mpr ⟨_, hfound, rfl⟩, hof⟩, ?_, ?_⟩
    · rw [hplain.filename_column]
      exact hfilename
    · rw [hplain.content_column, ← hshown, shows_eq_contentOf (hreadable hf hfile hmatch).1]
      exact hcontent

end FilesystemFdw

end Multicorn.Fs
