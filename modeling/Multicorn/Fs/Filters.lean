import Multicorn.Fs.Rows

/-! Equality filters of the file wrapper: when the rows that satisfy them survive the walk
along their values. -/
namespace Multicorn.Fs
open Multicorn.StateMonad

variable {s s' : State} {t : FilesystemFdw} {d : Directory} {os : Os} {values : List (Str × Str)}

/-! The walk along fixed values against the walk that looks at every name. -/

/-- The names that no text fixes are entries of their directories. -/
def Listed (os : Os) (d : Directory) (previous : List Str) : List (Part × Fixed) → List Str → Prop
  | (_, fixed) :: rest, name :: names =>
    (fixed.1 = none → name ∈ os.listing (d.join previous)) ∧
      Listed os d (previous ++ [name]) rest names
  | _, _ => True

theorem mem_found_iff {previous : List Str} {parts : List (Part × Fixed)} (hparts : parts ≠ [])
    {f : List Str × List (Str × Str)} : f ∈ found os d previous parts ↔
      Reads parts f.1 f.2 ∧ Listed os d previous parts f.1 ∧
        os.isfile (d.join (previous ++ f.1)) = true := by
  induction parts generalizing previous f with
  | nil => exact absurd rfl hparts
  | cons e rest ih =>
    obtain ⟨part, fixed⟩ := e
    simp only [found, List.mem_flatMap, mem_matching]
    constructor
    · rintro ⟨p, ⟨hnamed, hlisted⟩, hf⟩
      by_cases hrest : rest = []
      · subst hrest
        rw [if_pos rfl] at hf
        split_ifs at hf with hfile
        · obtain rfl := List.mem_singleton.mp hf
          refine ⟨?_, ⟨hlisted, trivial⟩, hfile⟩
          simpa using Reads.cons hnamed .nil
        · cases hf
      · rw [if_neg hrest] at hf
        obtain ⟨q, hq, rfl⟩ := List.mem_map.mp hf
        obtain ⟨hreads, hbelow, hfile⟩ := (ih hrest).mp hq
        refine ⟨.cons hnamed hreads, ⟨hlisted, hbelow⟩, ?_⟩
        rwa [List.append_assoc] at hfile
    · rintro ⟨hreads, hlisted, hfile⟩
      obtain ⟨names, vals⟩ := f
      cases hreads with
      | @cons _ _ _ name names first more hnamed hmore =>
        refine ⟨(name, first), ⟨hnamed, hlisted.1⟩, ?_⟩
        by_cases hrest : rest = []
        · subst hrest
          cases hmore
          rw [if_pos rfl, if_pos hfile]
          simp
        · rw [if_neg hrest]
          refine List.mem_map.mpr ⟨(names, more), (ih hrest).mpr ⟨hmore, hlisted.2, ?_⟩, rfl⟩
          rwa [List.append_assoc]

theorem proper_of_listing (ht : os.Tree) {path c : Str} (h : c ∈ os.listing path) :
    ProperName c := by
  unfold Os.listing at h
  cases hp : os.resolve path with
  | error e =>
    rw [hp] at h
    cases h
  | ok p =>
    simp only [hp] at h
    split_ifs at h
    · exact ht.names p c (Os.mem_children.mp h)
    · cases h

/-- What a walk has come to exists. -/
theorem node_of_walk {cur p : Path} {names : List Str} {node : Node}
    (h : os.walk cur names = .ok p) (hp : os.node p = some node) : (os.node cur).isSome := by
  cases names with
  | nil =>
    cases h
    rw [hp]
    rfl
  | cons c rest =>
    simp only [Os.walk] at h
    cases hcur : os.node cur with
    | none =>
      rw [hcur] at h
      cases h
    | some n => rfl

/-- A name on the way to a file is an entry of its directory. -/
theorem mem_listing_of_isfile {r : Path} (hroot : os.resolve d.root_dir = .ok r)
    {previous names : List Str} {name : Str} (hname : ProperName name)
    (hheads : ∀ c ∈ previous ++ name :: names, c.head? ≠ some '/')
    (h : os.isfile (d.join (previous ++ name :: names)) = true) :
    name ∈ os.listing (d.join previous) := by
  have hprevious : ∀ c ∈ previous, c.head? ≠ some '/' :=
    fun c hc => hheads c (List.mem_append_left _ hc)
  obtain ⟨q, i, hq, hfile⟩ := Os.node_of_isfile h
  obtain ⟨hpass, hq⟩ := (Os.resolve_pathJoin hroot hheads).mp hq
  rw [List.all_append, Bool.and_eq_true] at hpass
  rw [List.flatMap_append, List.flatMap_cons, hname.splitOn, Os.walk_append] at hq
  cases hp : os.walk r (previous.flatMap (·.splitOn '/')) with
  | error e =>
    rw [hp] at hq
    cases hq
  | ok p =>
    rw [hp] at hq
    unfold Os.listing
    have hresolve : os.resolve (d.join previous) = .ok p :=
      (Os.resolve_pathJoin hroot hprevious).mpr ⟨hpass.1, hp⟩
    rw [hresolve]
    have hwalk : os.walk p (name :: names.flatMap (·.splitOn '/')) = .ok q := hq
    simp only [Os.walk] at hwalk
    obtain ⟨hempty, hdot, hdots, -⟩ := hname
    cases hdir : os.node p with
    | none =>
      rw [hdir] at hwalk
      cases hwalk
    | some node =>
      cases node with
      | file j =>
        rw [hdir] at hwalk
        cases hwalk
      | dir =>
        simp only [hdir, hempty, hdot, hdots, or_self, if_false] at hwalk
        split_ifs at hwalk
        simp only [hdir, if_true]
        exact Os.mem_children.mpr (node_of_walk hwalk hfile)

theorem matchPart_literal {part : Part} (h : part.properties = []) (get : Str → Option Str) :
    matchPart part (Part.text get part) = some [] := by
  induction part with
  | nil => rfl
  | cons atom part ih =>
    cases atom with
    | lit c =>
      have hrest : Part.properties part = [] := h
      rw [Part.text_lit, matchPart]
      simp [ih hrest]
    | any name => simp [Part.properties] at h

/-- A part without properties has its whole name, whatever is fixed. -/
theorem fixedOf_literal {part : Part} (h : part.properties = []) (values : List (Str × Str)) :
    fixedOf values part = fixedOf [] part := by
  have hnone : ∀ values, fixedValues values part = [] := by
    intro values
    simp [fixedValues, h]
  simp [fixedOf, hnone]

theorem fixedValues_nil (part : Part) : fixedValues [] part = [] := by
  unfold fixedValues
  simp

/-- Without fixed values only the parts without properties have a name. -/
theorem fixedOf_nil {part : Part} (h : part.properties ≠ []) : fixedOf [] part = (none, []) := by
  have hlen : (fixedValues [] part).length ≠ part.properties.length := by
    rw [fixedValues_nil]
    intro hlen
    exact h (List.length_eq_zero_iff.mp hlen.symm)
  rw [fixedOf_open hlen, fixedValues_nil]

/-- Each name that is read without fixed values matches its part. -/
theorem matchParts_of_plain {parts : List Part} (hparts : (parts.flatMap Part.properties).Nodup)
    {names : List Str} {vals : List (Str × Str)}
    (h : Reads (parts.map fun part => (part, fixedOf [] part)) names vals) :
    Directory.matchParts parts names = some vals := by
  refine (matchParts_of_reads hparts h fun part _ text htext => ?_).1
  by_cases hpart : part.properties = []
  · have hlen : (fixedValues [] part).length = part.properties.length := by
      rw [fixedValues_nil, hpart, List.length_nil, List.length_nil]
    rw [fixedOf_full hlen, fixedValues_nil] at htext
    rw [fixedOf_snd, fixedValues_nil, ← Option.some.inj htext]
    exact matchPart_literal hpart _
  · rw [fixedOf_nil hpart] at htext
    cases htext

theorem Reads.plain {parts : List Part} {names : List Str} {vals : List (Str × Str)}
    (h : Reads (parts.map fun part => (part, fixedOf values part)) names vals)
    (hmatch : Directory.matchParts parts names = some vals) :
    Reads (parts.map fun part => (part, fixedOf [] part)) names vals := by
  induction parts generalizing names vals with
  | nil => exact h
  | cons part parts ih =>
    rw [List.map_cons] at h ⊢
    cases h with
    | @cons _ _ _ name names first more hnamed hrest =>
      obtain ⟨first', more', hfirst, hmore, happend⟩ := matchParts_cons.mp hmatch
      have hkeys : more.map Prod.fst = more'.map Prod.fst := by
        rw [hrest.keys, keys_of_matchParts hmore]
      have hlen : more.length = more'.length := by simpa using congrArg List.length hkeys
      obtain ⟨rfl, rfl⟩ := List.append_inj' happend hlen
      refine .cons ?_ (ih hrest hmore)
      by_cases hpart : part.properties = []
      · rwa [fixedOf_literal hpart] at hnamed
      · rw [fixedOf_nil hpart]
        exact ⟨hfirst, by simp⟩

/-- The values that are read are the fixed ones, where there are such. -/
theorem Reads.agree {parts : List Part} {names : List Str} {vals : List (Str × Str)}
    (h : Reads (parts.map fun part => (part, fixedOf values part)) names vals) {k v : Str}
    (hk : k ∈ parts.flatMap Part.properties) (hv : values.lookup k = some v) : (k, v) ∈ vals := by
  induction parts generalizing names vals with
  | nil => cases hk
  | cons part parts ih =>
    rw [List.map_cons] at h
    cases h with
    | @cons _ _ _ name names first more hnamed hrest =>
      rw [List.flatMap_cons] at hk
      rcases List.mem_append.mp hk with hk | hk
      · apply List.mem_append_left
        have hfixed : (k, v) ∈ fixedValues values part := mem_fixedValues.mpr ⟨hk, hv⟩
        unfold Named at hnamed
        rw [fixedOf_snd] at hnamed
        cases htext : (fixedOf values part).1 with
        | some text =>
          rw [htext] at hnamed
          rw [hnamed.2]
          exact hfixed
        | none =>
          rw [htext] at hnamed
          obtain ⟨before, after, hvals, -⟩ := List.lookup_eq_some_iff.mp (hnamed.2 (k, v) hfixed)
          rw [hvals]
          exact List.mem_append_right _ List.mem_cons_self
      · exact List.mem_append_right _ (ih hrest hk)

/-- The texts that the fixed values spell are proper names, if a file is found under them. -/
theorem proper_of_listed (ht : os.Tree) {previous : List Str} {parts : List Part}
    {names : List Str} {vals : List (Str × Str)}
    (hlisted : Listed os d previous (parts.map fun part => (part, fixedOf [] part)) names)
    (hreads : Reads (parts.map fun part => (part, fixedOf values part)) names vals) :
    ∀ part ∈ parts, part.properties ≠ [] → ∀ text, (fixedOf values part).1 = some text →
      ProperName text := by
  induction parts generalizing previous names vals with
  | nil => simp
  | cons part parts ih =>
    rw [List.map_cons] at hlisted hreads
    cases hreads with
    | @cons _ _ _ name names first more hnamed hrest =>
      intro p hp hproperties text htext
      rcases List.mem_cons.mp hp with rfl | hp
      · have hname : name = text := by
          simp only [Named, htext] at hnamed
          exact hnamed.1
        rw [← hname]
        apply proper_of_listing ht (hlisted.1 _)
        rw [fixedOf_nil hproperties]
      · exact ih hlisted.2 hrest p hp hproperties text htext

theorem slash_not_mem_of_listed (ht : os.Tree) {previous : List Str} {parts : List Part}
    (hliteral : ∀ part ∈ parts, .lit '/' ∉ part)
    (hproper : ∀ part ∈ parts, part.properties ≠ [] → ∀ text, (fixedOf values part).1 = some text →
      ProperName text) {names : List Str} {vals : List (Str × Str)}
    (hlisted : Listed os d previous (parts.map fun part => (part, fixedOf values part)) names)
    (hreads : Reads (parts.map fun part => (part, fixedOf values part)) names vals) :
    ∀ name ∈ names, '/' ∉ name := by
  induction parts generalizing previous names vals with
  | nil =>
    cases hreads
    simp
  | cons part parts ih =>
    rw [List.map_cons] at hlisted hreads
    rw [List.forall_mem_cons] at hliteral hproper
    cases hreads with
    | @cons _ _ _ name names first more hnamed hrest =>
      rw [List.forall_mem_cons]
      refine ⟨?_, ih hliteral.2 hproper.2 hlisted.2 hrest⟩
      cases htext : (fixedOf values part).1 with
      | none => exact (proper_of_listing ht (hlisted.1 htext)).2.2.2
      | some text =>
        have hname : name = text := by
          simp only [Named, htext] at hnamed
          exact hnamed.1
        rw [hname]
        by_cases hpart : part.properties = []
        · have hlen : (fixedValues values part).length = part.properties.length := by
            simp [fixedValues, hpart]
          rw [fixedOf_full hlen] at htext
          rw [← Option.some.inj htext]
          apply Part.slash_not_mem hliteral.1
          intro k v hk
          simp [fixedValues, hpart] at hk
        · exact (hproper.1 hpart text htext).2.2.2

theorem Listed.plain {r : Path} (hroot : os.resolve d.root_dir = .ok r)
    {previous : List Str} {parts : List Part}
    (hproper : ∀ part ∈ parts, part.properties ≠ [] → ∀ text, (fixedOf values part).1 = some text →
      ProperName text) {names : List Str} {vals : List (Str × Str)}
    (hlisted : Listed os d previous (parts.map fun part => (part, fixedOf values part)) names)
    (hreads : Reads (parts.map fun part => (part, fixedOf values part)) names vals)
    (hheads : ∀ c ∈ previous ++ names, c.head? ≠ some '/')
    (hfile : os.isfile (d.join (previous ++ names)) = true) :
    Listed os d previous (parts.map fun part => (part, fixedOf [] part)) names := by
  induction parts generalizing previous names vals with
  | nil => exact hlisted
  | cons part parts ih =>
    rw [List.map_cons] at hlisted hreads ⊢
    rw [List.forall_mem_cons] at hproper
    cases hreads with
    | @cons _ _ _ name names first more hnamed hrest =>
      refine ⟨fun hnone => ?_, ih hproper.2 hlisted.2 hrest ?_ ?_⟩
      · cases htext : (fixedOf values part).1 with
        | none => exact hlisted.1 htext
        | some text =>
          have hname : name = text := by
            simp only [Named, htext] at hnamed
            exact hnamed.1
          have hpart : part.properties ≠ [] := by
            intro hpart
            rw [← fixedOf_literal hpart values, htext] at hnone
            cases hnone
          exact mem_listing_of_isfile hroot (hname ▸ hproper.1 hpart text htext) hheads hfile
      · rwa [List.append_assoc]
      · rwa [List.append_assoc]

section Walks

variable (hpieces : d.FormatsParts)

include hpieces

/-- A file whose values are the fixed ones is found along them. -/
theorem found_of_plain {f : List Str × List (Str × Str)} (hf : f ∈ found os d [] (plan [] d))
    (hnewline : ∀ name ∈ f.1, name.getLast? ≠ some '\n')
    (hagree : ∀ k v, values.lookup k = some v → k ∈ d.properties → (k, v) ∈ f.2) :
    f ∈ found os d [] (plan values d) := by
  obtain ⟨hreads, hlisted, hfile⟩ := (mem_found_iff (plan_ne_nil hpieces)).mp hf
  have hmatch := matchParts_of_plain (properties_nodup d) hreads
  have hlisted' : ∀ (parts : List Part) (previous names : List Str),
      Listed os d previous (parts.map fun part => (part, fixedOf [] part)) names →
      Listed os d previous (parts.map fun part => (part, fixedOf values part)) names := by
    intro parts
    induction parts with
    | nil => exact fun _ _ h => h
    | cons part parts ih =>
      intro previous names h
      cases names with
      | nil => trivial
      | cons name names =>
        refine ⟨fun hnone => h.1 ?_, ih _ _ h.2⟩
        by_cases hpart : part.properties = []
        · rwa [fixedOf_literal hpart] at hnone
        · rw [fixedOf_nil hpart]
  exact (mem_found_iff (plan_ne_nil hpieces)).mpr
    ⟨reads_of_matchParts (properties_nodup d) hmatch hnewline hagree, hlisted' _ _ _ hlisted, hfile⟩

/-- Where one file is found along fixed values as well as without, so is every other. -/
theorem plain_of_found (ht : os.Tree) {r : Path} (hroot : os.resolve d.root_dir = .ok r)
    {f g : List Str × List (Str × Str)} (hf : f ∈ found os d [] (plan [] d))
    (hf' : f ∈ found os d [] (plan values d)) (hg : g ∈ found os d [] (plan values d)) :
    g ∈ found os d [] (plan [] d) := by
  have hne : ∀ values, plan values d ≠ [] := fun _ => plan_ne_nil hpieces
  obtain ⟨hplain, hlisted, -⟩ := (mem_found_iff (hne _)).mp hf
  obtain ⟨hreads, -, -⟩ := (mem_found_iff (hne _)).mp hf'
  obtain ⟨hreads', hlisted', hfile'⟩ := (mem_found_iff (hne _)).mp hg
  have hproper := proper_of_listed ht hlisted hreads
  have hspelled := hreads.spelled (matchParts_of_plain (properties_nodup d) hplain)
  have hslash := slash_not_mem_of_listed ht (fun part => slash_not_mem_part d) hproper hlisted' hreads'
  have hheads : ∀ c ∈ [] ++ g.1, c.head? ≠ some '/' := by
    intro c hc hhead
    exact hslash c hc (List.mem_of_mem_head? hhead)
  have hmatch := (matchParts_of_reads (properties_nodup d) hreads' fun part hpart text htext => by
    rw [fixedOf_snd]
    exact hspelled part hpart text htext).1
  exact (mem_found_iff (hne _)).mpr ⟨hreads'.plain hmatch,
    hlisted'.plain hroot hproper hreads' hheads hfile', hfile'⟩

/-- Where a file is found along fixed values, their walk can list its directories. -/
theorem listable_of_found (ht : os.Tree) {r : Path} (hroot : os.resolve d.root_dir = .ok r)
    {f : List Str × List (Str × Str)} (hf : f ∈ found os d [] (plan [] d))
    (hf' : f ∈ found os d [] (plan values d)) : Listable os d [] (plan values d) := by
  have hne : ∀ values, plan values d ≠ [] := fun _ => plan_ne_nil hpieces
  obtain ⟨-, hlisted, -⟩ := (mem_found_iff (hne _)).mp hf
  obtain ⟨hreads, hlisted', hfile⟩ := (mem_found_iff (hne _)).mp hf'
  have hproper := proper_of_listed ht hlisted hreads
  have hslash := slash_not_mem_of_listed ht (fun part => slash_not_mem_part d) hproper hlisted' hreads
  have hheads : ∀ c ∈ f.1, c.head? ≠ some '/' := fun c hc hhead =>
    hslash c hc (List.mem_of_mem_head? hhead)
  rw [List.nil_append] at hfile
  obtain ⟨q, i, hq, -⟩ := Os.node_of_isfile hfile
  obtain ⟨hpass, hwalk⟩ := (Os.resolve_pathJoin hroot hheads).mp hq
  rw [List.all_eq_true] at hpass
  apply listable_of_accepts ht hroot (by simp)
  intro e he text htext
  have hmem := hreads.text_mem e he text htext
  refine ⟨hslash text hmem, hpass text hmem, short_of_walk hwalk text ?_⟩
  exact List.mem_flatMap.mpr ⟨text, hmem, by simp [List.splitOn_eq_singleton (hslash text hmem)]⟩

end Walks

/-! Typed equality filters. -/

/-- The types of the columns of a pattern. -/
inductive SqlType
  | text
  | integer
  deriving DecidableEq

/-- The value that a column of this type has for a raw text, as the wrapper gets it in a qual.
`int4in` is the input function of integers. -/
def SqlType.read (int4in : Str → Option ℤ) : SqlType → Str → Option PyVal
  | .text, raw => some (.str raw)
  | .integer, raw => (int4in raw).map fun n => .other (toString n).toList (n ≠ 0)

/-- An equality qual on a column of the pattern or on the file name. -/
def Qual.OnFile (t : FilesystemFdw) (q : Qual) : Prop :=
  q.operator = ['='] ∧
    (q.field_name ∈ t.structured_directory.properties ∨ t.filename_column = some q.field_name)

/-- The row has a value for the qual's column that, read as the type of the column, is the
value of the qual. The file name is a text. -/
def Qual.Holds (t : FilesystemFdw) (int4in : Str → Option ℤ) (types : Str → SqlType) (row : Row)
    (q : Qual) : Prop :=
  ∃ raw, row.lookup q.field_name = some (.str raw) ∧
    (if t.filename_column = some q.field_name then SqlType.text else types q.field_name).read
      int4in raw = some q.value

/-- Every row that satisfies the quals is among the rows of the filtered scan. -/
def KeepsRows (t : FilesystemFdw) (int4in : Str → Option ℤ) (types : Str → SqlType)
    (quals : List Qual) (columns : List Str) (s : State) (rows : List Row) : Prop :=
  ∀ row ∈ rows, (∀ q ∈ quals, q.Holds t int4in types row) →
    ∃ rows' s', t.execute quals columns s = .ok rows' s' ∧ row ∈ rows'

/-- The path of a file whose row satisfies the quals has their values as `str` writes them, and no
qual is on a column `self`. -/
def WrittenAlike (t : FilesystemFdw) (int4in : Str → Option ℤ) (types : Str → SqlType)
    (quals : List Qual) (columns : List Str) (s : State) : Prop :=
  ∀ f ∈ found s.os t.structured_directory [] (plan [] t.structured_directory),
    ∀ row, t.rowOf s columns ⟨f.2, .bytes []⟩ = some row →
      (∀ q ∈ quals, q.Holds t int4in types row) →
      ∀ q ∈ quals, q.field_name ≠ Directory.self ∧ f.2.lookup q.field_name = some q.value.pyStr

/-- The content and the file name have columns of their own. -/
structure FilesystemFdw.OwnColumns (t : FilesystemFdw) : Prop where
  content : ∀ name, t.content_column = some name → name ∉ t.structured_directory.properties
  filename : ∀ name, t.filename_column = some name → name ∉ t.structured_directory.properties

theorem Part.text_congr {part : Part} {get get' : Str → Option Str}
    (h : ∀ name ∈ part.properties, get name = get' name) : Part.text get part = Part.text get' part := by
  induction part with
  | nil => rfl
  | cons atom part ih =>
    cases atom with
    | lit c => rw [Part.text_lit, Part.text_lit, ih h]
    | any name =>
      have hmem : ∀ n, n ∈ Part.properties (.any name :: part) ↔ n = name ∨ n ∈ Part.properties part := by
        simp [Part.properties]
      rw [Part.text_any, Part.text_any, h name ((hmem name).mpr (.inl rfl)),
        ih fun n hn => h n ((hmem n).mpr (.inr hn))]

/-- Names without newlines at their ends are the texts of their values. -/
theorem names_of_matchParts {parts : List Part} (hparts : (parts.flatMap Part.properties).Nodup)
    {names : List Str} {vals : List (Str × Str)}
    (hmatch : Directory.matchParts parts names = some vals)
    (hnames : ∀ name ∈ names, name.getLast? ≠ some '\n') :
    names = parts.map (Part.text fun k => vals.lookup k) := by
  induction parts generalizing names vals with
  | nil =>
    cases names with
    | nil => rfl
    | cons name names => cases hmatch
  | cons part parts ih =>
    cases names with
    | nil => cases hmatch
    | cons name names =>
      obtain ⟨first, more, hfirst, hmore, rfl⟩ := matchParts_cons.mp hmatch
      rw [List.forall_mem_cons] at hnames
      rw [List.flatMap_cons] at hparts
      obtain ⟨hpart, hrest, hdisjoint⟩ := List.nodup_append.mp hparts
      have hfirstKeys := keys_of_matchPart hfirst
      have hnodup : (first.map Prod.fst).Nodup := hfirstKeys ▸ hpart
      rw [List.map_cons, List.cons.injEq]
      constructor
      · rw [eq_text_of_matchPart hfirst hpart hnames.1]
        refine Part.text_congr fun k hk => ?_
        obtain ⟨v, hv⟩ := Option.isSome_iff_exists.mp
          ((lookup_isSome hnodup).mpr (hfirstKeys ▸ hk))
        rw [List.lookup_append, hv]
        rfl
      · rw [ih hrest hmore hnames.2]
        refine List.map_congr_left fun part' hpart' => Part.text_congr fun k hk => ?_
        have hmem : k ∈ parts.flatMap Part.properties := List.mem_flatMap.mpr ⟨part', hpart', hk⟩
        have hnone : first.lookup k = none := by
          rw [← Option.not_isSome_iff_eq_none, lookup_isSome hnodup, hfirstKeys]
          exact fun hk' => hdisjoint k hk' k hmem rfl
        rw [List.lookup_append, hnone]
        rfl

section Rows

variable {columns : List Str} {item : Item} {row : Row}

theorem lookup_rowOf (hown : t.OwnColumns)
    (hkeys : item.properties.map Prod.fst = t.structured_directory.properties)
    (h : t.rowOf s columns item = some row) {k : Str}
    (hk : k ∈ t.structured_directory.properties) :
    row.lookup k = (item.properties.lookup k).map .str := by
  have hnodup : (item.properties.map Prod.fst).Nodup := hkeys ▸ properties_nodup _
  have hcontent : t.content_column ≠ some k := fun hc => hown.content k hc hk
  have hfilename : t.filename_column ≠ some k := fun hc => hown.filename k hc hk
  unfold FilesystemFdw.rowOf at h
  cases hname : t.structured_directory.filename item with
  | error e =>
    rw [hname] at h
    cases h
  | ok filename =>
    simp only [hname] at h
    split_ifs at h <;>
      · cases h
        simp only [lookup_withColumn, if_neg hcontent, if_neg hfilename, Item.lookup_row hnodup]

/-- What a row has in the file name column is the file name. -/
theorem filename_of_rowOf (hown : t.OwnColumns)
    (hkeys : item.properties.map Prod.fst = t.structured_directory.properties)
    (h : t.rowOf s columns item = some row) {name raw : Str} (hcolumn : t.filename_column = some name)
    (hraw : row.lookup name = some (.str raw)) : t.structured_directory.filename item = .ok raw := by
  have hnodup : (item.properties.map Prod.fst).Nodup := hkeys ▸ properties_nodup _
  have hnone : item.row.lookup name = none := by
    have hlookup : item.properties.lookup name = none := by
      rw [← Option.not_isSome_iff_eq_none, lookup_isSome hnodup, hkeys]
      exact hown.filename name hcolumn
    rw [Item.lookup_row hnodup, hlookup]
    rfl
  unfold FilesystemFdw.rowOf at h
  cases hname : t.structured_directory.filename item with
  | error e =>
    rw [hname] at h
    cases h
  | ok filename =>
    simp only [hname, hcolumn] at h
    split_ifs at h with hhidden hnamed hrequested hrequested
    · cases h
      rw [lookup_withColumn, if_pos rfl] at hraw
      cases hraw
      rfl
    · cases h
      rw [lookup_withColumn, if_pos rfl] at hraw
      cases hraw
      rfl
    · cases h
      rw [lookup_withColumn] at hraw
      split_ifs at hraw with hsame
      · rw [hsame] at hrequested
        exact absurd hrequested hnamed
      · rw [hnone] at hraw
        cases hraw
    · cases h
      rw [hnone] at hraw
      cases hraw

end Rows

theorem items_of_getItems (hpieces : d.FormatsParts) (hf : s.os.faults = [])
    (hroot : s.os.stat d.root_dir = some .dir) (hkeys : ∀ p ∈ values, p.1 ∈ d.properties)
    {items : List Item} (h : getItems d values s = .ok items s') :
    items = (found s.os d [] (plan values d)).map (fun f => ⟨f.2, .bytes []⟩) ∧
      ∀ f ∈ found s.os d [] (plan values d), f.2.map Prod.fst = d.properties ∧
        ∀ p ∈ f.2, '/' ∉ p.2 := by
  rw [getItems_eq hpieces (getItems_ne_self h) hkeys] at h
  obtain ⟨-, -, hmakes⟩ := of_walk_ok hf (fun _ => hroot) h
  have hkeysOf : ∀ f ∈ found s.os d [] (plan values d), f.2.map Prod.fst = d.properties :=
    fun f hfound => Reads.keys (reads_of_found hfound)
  refine ⟨items_of_makes hkeysOf hmakes, fun f hfound => ⟨hkeysOf f hfound, ?_⟩⟩
  obtain ⟨n, hn, rfl⟩ := List.mem_iff_getElem.mp hfound
  have hmake := (List.forall₂_iff_get.mp hmakes).2 n hn (hmakes.length_eq ▸ hn)
  exact ((makes_iff (hkeysOf _ hfound)).mp hmake).1

/-- The texts a scan without a file name walks along. -/
def qualTexts (t : FilesystemFdw) (quals : List Qual) : List (Str × Str) :=
  (quals.filterMap fun q =>
    if q.operator = ['='] ∧ q.field_name ∈ t.structured_directory.properties then
      some (q.field_name, q.value.pyStr)
    else none).reverse

theorem mem_qualTexts {quals : List Qual} {p : Str × Str} :
    p ∈ qualTexts t quals ↔ ∃ q ∈ quals, q.operator = ['='] ∧
      q.field_name ∈ t.structured_directory.properties ∧ p = (q.field_name, q.value.pyStr) := by
  unfold qualTexts
  simp only [List.mem_reverse, List.mem_filterMap, Option.ite_none_right_eq_some,
    Option.some.injEq, and_assoc]
  constructor
  · rintro ⟨q, hq, hop, hfield, rfl⟩
    exact ⟨q, hq, hop, hfield, rfl⟩
  · rintro ⟨q, hq, hop, hfield, rfl⟩
    exact ⟨q, hq, hop, hfield, rfl⟩

theorem getItems_of_quals {quals : List Qual}
    (h : ∀ q ∈ quals, t.filename_column ≠ some q.field_name) :
    t.getItems quals = getItems t.structured_directory (qualTexts t quals) := by
  have hnone : (quals.find? fun q => t.filename_column = some q.field_name ∧ q.operator = ['=']) =
      none := by
    rw [List.find?_eq_none]
    intro q hq hfound
    have hboth : t.filename_column = some q.field_name ∧ q.operator = ['='] := by simpa using hfound
    exact h q hq hboth.1
  unfold FilesystemFdw.getItems
  simp only [hnone]
  rfl

section Main

variable {int4in : Str → Option ℤ} {types : Str → SqlType} {quals : List Qual}
  {columns : List Str} {rows : List Row} {s₁ : State}
  (hpieces : t.structured_directory.FormatsParts) (hown : t.OwnColumns)
  (ht : s.os.Tree) (hroot : s.os.stat t.structured_directory.root_dir = some .dir)
  (hf : s.os.faults = []) (hs : Coherent s)
  (hnewline : ∀ f ∈ found s.os t.structured_directory [] (plan [] t.structured_directory),
    ∀ name ∈ f.1, name.getLast? ≠ some '\n')
  (hplain : t.execute [] columns s = .ok rows s₁)

include hpieces hroot hf hs hplain

/-- The unfiltered scan shows the files that the plain walk finds, and all can be read. -/
theorem plain_rows :
    (∀ row, row ∈ rows ↔ ∃ f ∈ found s.os t.structured_directory []
      (plan [] t.structured_directory), t.rowOf s columns ⟨f.2, .bytes []⟩ = some row) ∧
    ∀ f ∈ found s.os t.structured_directory [] (plan [] t.structured_directory),
      t.Readable s columns ⟨f.2, .bytes []⟩ ∧
      f.2.map Prod.fst = t.structured_directory.properties ∧ ∀ p ∈ f.2, '/' ∉ p.2 := by
  obtain ⟨-, items, s₂, hitems, rfl, hreadable⟩ := FilesystemFdw.execute_ok hs hf hplain
  have hitems : getItems t.structured_directory [] s = .ok items s₂ := hitems
  obtain ⟨rfl, hkeys⟩ := items_of_getItems hpieces hf hroot (by simp) hitems
  constructor
  · intro row
    simp only [List.mem_filterMap, List.mem_map]
    constructor
    · rintro ⟨_, ⟨f, hfound, rfl⟩, hrow⟩
      exact ⟨f, hfound, hrow⟩
    · rintro ⟨f, hfound, hrow⟩
      exact ⟨_, ⟨f, hfound, rfl⟩, hrow⟩
  · intro f hfound
    exact ⟨hreadable _ (List.mem_map.mpr ⟨f, hfound, rfl⟩), hkeys f hfound⟩

include hown ht hnewline

omit hown ht hroot hf hs hplain in
/-- A file is read back from its file name. -/
theorem fromFilename_of_found {f : List Str × List (Str × Str)}
    (hfound : f ∈ found s.os t.structured_directory [] (plan [] t.structured_directory))
    {filename : Str} (hname : t.structured_directory.filename ⟨f.2, .bytes []⟩ = .ok filename)
    (hslash : ∀ p ∈ f.2, '/' ∉ p.2) :
    filename.splitOn '/' = f.1 ∧
      t.structured_directory.fromFilename filename = .ok (some ⟨f.2, .bytes []⟩) := by
  have hreads := reads_of_found hfound
  have hmatch := matchParts_of_plain (properties_nodup _) hreads
  have hkeys : f.2.map Prod.fst = t.structured_directory.properties := Reads.keys hreads
  have hitem : ∃ text, t.structured_directory.filename ⟨f.2, .bytes []⟩ = .ok text ∧
      text.splitOn '/' = t.structured_directory.parts.map (Part.text fun k => f.2.lookup k) :=
    filename_of_keys hpieces hkeys hslash
  obtain ⟨text, htext, hsplit⟩ := hitem
  rw [hname] at htext
  cases htext
  have hnames := names_of_matchParts (properties_nodup _) hmatch (hnewline f hfound)
  have hsplit : filename.splitOn '/' = f.1 := hsplit.trans hnames.symm
  refine ⟨hsplit, ?_⟩
  rw [fromFilename_eq, hsplit, hmatch]
  rfl

omit ht in
/-- With a qual on the file name, the scan looks the file up. -/
theorem keepsRows_of_filename {q : Qual} (hq : q ∈ quals)
    (hcolumn : t.filename_column = some q.field_name) (hquals : ∀ q ∈ quals, q.OnFile t) :
    KeepsRows t int4in types quals columns s rows := by
  intro row hrow hholds
  obtain ⟨hrows, hfiles⟩ := plain_rows hpieces hroot hf hs hplain
  obtain ⟨f, hfound, hof⟩ := (hrows row).mp hrow
  obtain ⟨hreadable, hkeys, hslash⟩ := hfiles f hfound
  obtain ⟨q', hq'⟩ : ∃ q', (quals.find? fun q =>
      t.filename_column = some q.field_name ∧ q.operator = ['=']) = some q' := by
    rw [← Option.isSome_iff_exists, List.find?_isSome]
    exact ⟨q, hq, by simpa using ⟨hcolumn, (hquals q hq).1⟩⟩
  have hcolumn' : t.filename_column = some q'.field_name := by
    have hfound := List.find?_some hq'
    have hboth : t.filename_column = some q'.field_name ∧ q'.operator = ['='] := by simpa using hfound
    exact hboth.1
  obtain ⟨raw, hraw, hvalue⟩ := hholds q' (List.mem_of_find?_eq_some hq')
  rw [if_pos hcolumn', SqlType.read, Option.some.injEq] at hvalue
  have hname := filename_of_rowOf hown hkeys hof hcolumn' hraw
  obtain ⟨hsplit, hitem⟩ := fromFilename_of_found hpieces hnewline hfound hname hslash
  have hfull : t.structured_directory.fullFilename ⟨f.2, .bytes []⟩ =
      .ok (t.structured_directory.join f.1) :=
    FilesystemFdw.fullFilename_eq_ok.mpr ⟨raw, hname, by rw [hsplit]⟩
  have hexists : s.os.exists? (t.structured_directory.join f.1) = true := by
    obtain ⟨-, -, hfile⟩ := (mem_found_iff (plan_ne_nil hpieces)).mp hfound
    rw [List.nil_append] at hfile
    unfold Os.isfile at hfile
    unfold Os.exists?
    cases hstat : s.os.stat (t.structured_directory.join f.1) with
    | none => simp [hstat] at hfile
    | some node => rfl
  have hitems : t.getItems quals s = .ok [⟨f.2, .bytes []⟩]
      { s with os := s.os.touch (t.structured_directory.join f.1) } := by
    unfold FilesystemFdw.getItems
    simp only [hq', ← hvalue, PyVal.pyStr, hitem]
    simp only [bind_eq_ok, liftExcept_eq_ok]
    refine ⟨_, s, ⟨rfl, rfl⟩, ?_⟩
    simp only [bind_eq_ok, liftExcept_eq_ok, hfull]
    refine ⟨_, s, ⟨rfl, rfl⟩, true, _, ?_, rfl⟩
    rw [call_pathExists, hexists]
  obtain ⟨s', hrun⟩ := FilesystemFdw.execute_of_items hs hf hitems (by
    intro item hitem
    rw [List.mem_singleton.mp hitem]
    exact hreadable)
  refine ⟨_, s', hrun, ?_⟩
  rw [List.filterMap_cons, hof]
  exact List.mem_cons_self

omit hown in
/-- Without a qual on the file name, the scan keeps its rows if the paths are written alike. -/
theorem keepsRows_of_writtenAlike
    (hcolumn : ∀ q ∈ quals, t.filename_column ≠ some q.field_name)
    (hwritten : WrittenAlike t int4in types quals columns s) :
    KeepsRows t int4in types quals columns s rows := by
  intro row hrow hholds
  obtain ⟨hrows, hfiles⟩ := plain_rows hpieces hroot hf hs hplain
  obtain ⟨f, hfound, hof⟩ := (hrows row).mp hrow
  obtain ⟨-, hkeys, -⟩ := hfiles f hfound
  have hnodup : (f.2.map Prod.fst).Nodup := hkeys ▸ properties_nodup _
  obtain ⟨r, hr, -⟩ := Os.stat_eq_some.mp hroot
  have hknown : ∀ p ∈ qualTexts t quals, p.1 ∈ t.structured_directory.properties := by
    intro p hp
    obtain ⟨q, -, -, hfield, rfl⟩ := mem_qualTexts.mp hp
    exact hfield
  have hagree : ∀ k v, (qualTexts t quals).lookup k = some v →
      k ∈ t.structured_directory.properties → (k, v) ∈ f.2 := by
    intro k v hv _
    obtain ⟨before, after, htexts, -⟩ := List.lookup_eq_some_iff.mp hv
    have hmem : (k, v) ∈ qualTexts t quals := by
      rw [htexts]
      exact List.mem_append_right _ List.mem_cons_self
    obtain ⟨q, hq, -, -, heq⟩ := mem_qualTexts.mp hmem
    cases heq
    exact (lookup_iff_mem hnodup).mp (hwritten f hfound row hof hholds q hq).2
  have hfound' := found_of_plain hpieces hfound (hnewline f hfound) hagree
  have hplainOf : ∀ g ∈ found s.os t.structured_directory []
      (plan (qualTexts t quals) t.structured_directory),
      g ∈ found s.os t.structured_directory [] (plan [] t.structured_directory) :=
    fun g hg => plain_of_found hpieces ht hr hfound hfound' hg
  have hmake : ∀ g ∈ found s.os t.structured_directory []
      (plan (qualTexts t quals) t.structured_directory),
      ∃ item, Makes t.structured_directory [] g item := by
    intro g hg
    obtain ⟨-, hgkeys, hslash⟩ := hfiles g (hplainOf g hg)
    exact ⟨_, (makes_iff hgkeys).mpr ⟨hslash, rfl⟩⟩
  have hself : ∀ p ∈ qualTexts t quals, p.1 ≠ Directory.self := by
    intro p hp
    obtain ⟨q, hq, -, -, rfl⟩ := mem_qualTexts.mp hp
    exact (hwritten f hfound row hof hholds q hq).1
  obtain ⟨items, s₂, hwalk, -, -⟩ := walk_ok hf (fun _ => hroot)
    (listable_of_found hpieces ht hr hfound hfound') hmake
  have hitems : t.getItems quals s = .ok items s₂ := by
    rw [getItems_of_quals hcolumn, getItems_eq hpieces hself hknown]
    exact hwalk
  rw [getItems_of_quals hcolumn] at hitems
  obtain ⟨hlist, -⟩ := items_of_getItems hpieces hf hroot hknown hitems
  rw [← getItems_of_quals hcolumn] at hitems
  obtain ⟨s', hrun⟩ := FilesystemFdw.execute_of_items hs hf hitems (by
    intro item hitem
    rw [hlist] at hitem
    obtain ⟨g, hg, rfl⟩ := List.mem_map.mp hitem
    exact (hfiles g (hplainOf g hg)).1)
  refine ⟨_, s', hrun, List.mem_filterMap.mpr ⟨⟨f.2, .bytes []⟩, ?_, hof⟩⟩
  rw [hlist]
  exact List.mem_map.mpr ⟨f, hfound', rfl⟩

omit ht hnewline in
/-- A row that is kept comes from a file along the texts of the quals. -/
theorem writtenAlike_of_keepsRows (hquals : ∀ q ∈ quals, q.OnFile t)
    (hcolumn : ∀ q ∈ quals, t.filename_column ≠ some q.field_name)
    (hkeeps : KeepsRows t int4in types quals columns s rows) :
    WrittenAlike t int4in types quals columns s := by
  intro f hfound row hof hholds q hq
  obtain ⟨hrows, hfiles⟩ := plain_rows hpieces hroot hf hs hplain
  obtain ⟨-, hkeys, -⟩ := hfiles f hfound
  have hnodup : (f.2.map Prod.fst).Nodup := hkeys ▸ properties_nodup _
  have hknown : ∀ p ∈ qualTexts t quals, p.1 ∈ t.structured_directory.properties := by
    intro p hp
    obtain ⟨q, -, -, hfield, rfl⟩ := mem_qualTexts.mp hp
    exact hfield
  have hproperty : q.field_name ∈ t.structured_directory.properties := by
    rcases (hquals q hq).2 with h | h
    · exact h
    · exact absurd h (hcolumn q hq)
  obtain ⟨rows', s', hrun, hrow⟩ := hkeeps row ((hrows row).mpr ⟨f, hfound, hof⟩) hholds
  obtain ⟨-, items, s₂, hitems, rfl, -⟩ := FilesystemFdw.execute_ok hs hf hrun
  rw [getItems_of_quals hcolumn] at hitems
  have hself : q.field_name ≠ Directory.self := getItems_ne_self hitems _
    (mem_qualTexts.mpr ⟨q, hq, (hquals q hq).1, hproperty, rfl⟩)
  obtain ⟨rfl, hkeysOf⟩ := items_of_getItems hpieces hf hroot hknown hitems
  obtain ⟨item, hitem, hof'⟩ := List.mem_filterMap.mp hrow
  obtain ⟨g, hg, rfl⟩ := List.mem_map.mp hitem
  obtain ⟨hgkeys, -⟩ := hkeysOf g hg
  -- The row shows the values of both files.
  have hsame : ∀ k ∈ t.structured_directory.properties, g.2.lookup k = f.2.lookup k := by
    intro k hk
    have hg := lookup_rowOf hown hgkeys hof' hk
    have hf := lookup_rowOf hown hkeys hof hk
    rw [hg] at hf
    exact Option.map_injective (fun _ _ h => PyVal.str.inj h) hf
  have htext : ∃ v, (qualTexts t quals).lookup q.field_name = some v := by
    have hmem : (q.field_name, q.value.pyStr) ∈ qualTexts t quals :=
      mem_qualTexts.mpr ⟨q, hq, (hquals q hq).1, hproperty, rfl⟩
    cases hlookup : (qualTexts t quals).lookup q.field_name with
    | some v => exact ⟨v, rfl⟩
    | none =>
      have hne := List.lookup_eq_none_iff.mp hlookup _ hmem
      simp at hne
  obtain ⟨v, hv⟩ := htext
  have hvalue : v = q.value.pyStr := by
    obtain ⟨before, after, htexts, -⟩ := List.lookup_eq_some_iff.mp hv
    have hmem : (q.field_name, v) ∈ qualTexts t quals := by
      rw [htexts]
      exact List.mem_append_right _ List.mem_cons_self
    obtain ⟨q', hq', -, -, heq⟩ := mem_qualTexts.mp hmem
    obtain ⟨raw, hraw, hread⟩ := hholds q hq
    obtain ⟨raw', hraw', hread'⟩ := hholds q' hq'
    have hfield : q.field_name = q'.field_name := congrArg Prod.fst heq
    rw [hfield, hraw'] at hraw
    cases hraw
    rw [hfield, hread', Option.some.injEq] at hread
    rw [← hread]
    exact congrArg Prod.snd heq
  refine ⟨hself, ?_⟩
  rw [← hsame q.field_name hproperty, ← hvalue]
  have hgnodup : (g.2.map Prod.fst).Nodup := hgkeys ▸ properties_nodup _
  exact (lookup_iff_mem hgnodup).mpr (Reads.agree (reads_of_found hg) hproperty hv)

/-- Over files without newlines at the ends of their names, a list of equality quals loses no row
if and only if one is on the file name, or the paths of the files that satisfy them have the
values of the quals as `str` writes them and no column is `self`. -/
theorem keepsRows_iff (hquals : ∀ q ∈ quals, q.OnFile t) :
    KeepsRows t int4in types quals columns s rows ↔
      (∃ q ∈ quals, t.filename_column = some q.field_name) ∨
        WrittenAlike t int4in types quals columns s := by
  by_cases hcolumn : ∃ q ∈ quals, t.filename_column = some q.field_name
  · obtain ⟨q, hq, hname⟩ := hcolumn
    constructor
    · intro _
      exact .inl ⟨q, hq, hname⟩
    · intro _
      exact keepsRows_of_filename hpieces hown hroot hf hs hnewline hplain hq hname hquals
  · have hnone : ∀ q ∈ quals, t.filename_column ≠ some q.field_name :=
      fun q hq hname => hcolumn ⟨q, hq, hname⟩
    constructor
    · intro hkeeps
      exact .inr (writtenAlike_of_keepsRows hpieces hown hroot hf hs hplain hquals hnone hkeeps)
    · rintro (hname | hwritten)
      · exact absurd hname hcolumn
      · exact keepsRows_of_writtenAlike hpieces ht hroot hf hs hnewline hplain hnone
          hwritten

end Main

section Sample

/-- PostgreSQL's input function of four-byte integers: blanks around the number, a sign, zeros
in front of it. -/
def int4in (raw : Str) : Option ℤ :=
  let text := ((raw.dropWhile Char.isWhitespace).reverse.dropWhile Char.isWhitespace).reverse
  let (negative, digits) := match text with
    | '-' :: digits => (true, digits)
    | '+' :: digits => (false, digits)
    | digits => (false, digits)
  if digits = [] ∨ ¬ digits.all Char.isDigit then none
  else
    let n : ℕ := digits.foldl (fun n c => 10 * n + (c.toNat - 48)) 0
    let value : ℤ := if negative then -n else n
    if -2147483648 ≤ value ∧ value ≤ 2147483647 then some value else none

example : int4in " 007 ".toList = some 7 := by decide

/-- A table over two path components, the second of which is a number. -/
def numbered : FilesystemFdw := ⟨nested, none, none⟩

def numberedTypes (name : Str) : SqlType := if name = ['b'] then .integer else .text

def numberedTree (file : Str) : State :=
  sampleState [([['r'], ['x']], .dir), ([['r'], ['x'], file], .file 0)] fun _ => []

def numberedRow (file : Str) : Row :=
  ((∅ : Row).insert ['a'] (.str ['x'])).insert ['b'] (.str file)

/-- The rows of a scan, from the entries of each. -/
theorem rows_of_entries {r : EStateM.Result Failure State (List Row)} {rows : List Row}
    (h : (value? r).map (List.map AList.entries) = some (rows.map AList.entries)) :
    ∃ s, r = .ok rows s := by
  obtain ⟨rows', hvalue, hentries⟩ := Option.map_eq_some_iff.mp h
  have hinjective : Function.Injective (AList.entries : Row → _) := fun _ _ => AList.ext
  obtain rfl := List.map_injective_iff.mpr hinjective hentries
  exact of_value? hvalue

/-- The file `x/01` has the number 1, but the scan for this number only looks at `x/1`. -/
theorem leadingZero_loses_row : ∃ s₁,
    numbered.execute [] [['a'], ['b']] (numberedTree ['0', '1']) =
      .ok [numberedRow ['0', '1']] s₁ ∧
    ¬ KeepsRows numbered int4in numberedTypes [⟨['b'], ['='], .other ['1'] true⟩] [['a'], ['b']]
      (numberedTree ['0', '1']) [numberedRow ['0', '1']] := by
  have hplain : ∃ s₁, numbered.execute [] [['a'], ['b']] (numberedTree ['0', '1']) =
      .ok [numberedRow ['0', '1']] s₁ := rows_of_entries (by decide +kernel)
  obtain ⟨s₁, hplain⟩ := hplain
  refine ⟨s₁, hplain, fun hkeeps => ?_⟩
  obtain ⟨rows', s', hrun, hrow⟩ := hkeeps _ List.mem_cons_self (by
    intro q hq
    obtain rfl := List.mem_singleton.mp hq
    exact ⟨['0', '1'], rfl, by decide⟩)
  have hempty : ∃ s'', numbered.execute [⟨['b'], ['='], .other ['1'] true⟩] [['a'], ['b']]
      (numberedTree ['0', '1']) = .ok [] s'' := rows_of_entries (by decide +kernel)
  obtain ⟨s'', hempty⟩ := hempty
  rw [hempty] at hrun
  cases hrun
  cases hrow

/-- The file `x/1` is written as the number is. -/
theorem plainNumber_keeps_row : ∃ rows s₁,
    numbered.execute [] [['a'], ['b']] (numberedTree ['1']) = .ok rows s₁ ∧
    KeepsRows numbered int4in numberedTypes [⟨['b'], ['='], .other ['1'] true⟩] [['a'], ['b']]
      (numberedTree ['1']) rows := by
  have hplain : ∃ s₁, numbered.execute [] [['a'], ['b']] (numberedTree ['1']) =
      .ok [numberedRow ['1']] s₁ := rows_of_entries (by decide +kernel)
  obtain ⟨s₁, hplain⟩ := hplain
  have hfound : found (numberedTree ['1']).os nested [] (plan [] nested) =
      [([['x'], ['1']], [(['a'], ['x']), (['b'], ['1'])])] := rfl
  have ht : (numberedTree ['1']).os.Tree := by
    apply Os.Tree.of_keys
    intro q hq c hc
    have hkeys : q = [['r'], ['x'], ['1']] ∨ q = [['r'], ['x']] ∨ q = [['r']] := by
      have hmem : q ∈ [[['r'], ['x'], ['1']], [['r'], ['x']], [['r']]] := hq
      simpa using hmem
    rcases hkeys with rfl | rfl | rfl
    · obtain rfl := Option.some.inj hc
      exact ⟨rfl, by decide, by decide⟩
    · obtain rfl := Option.some.inj hc
      exact ⟨rfl, by decide, by decide⟩
    · obtain rfl := Option.some.inj hc
      exact ⟨rfl, by decide, by decide⟩
  have hs : Coherent (numberedTree ['1']) := by
    refine ⟨⟨?_, ?_⟩, ?_⟩
    · intro k e he
      cases he
    · intro k k' e e' he
      cases he
    · intro k e f he
      cases he
  have hnewline : ∀ f ∈ found (numberedTree ['1']).os nested [] (plan [] nested),
      ∀ name ∈ f.1, name.getLast? ≠ some '\n' := by
    rw [hfound]
    decide
  have hquals : ∀ q ∈ [(⟨['b'], ['='], .other ['1'] true⟩ : Qual)], q.OnFile numbered := by
    intro q hq
    obtain rfl := List.mem_singleton.mp hq
    exact ⟨rfl, .inl (by decide)⟩
  refine ⟨_, s₁, hplain, (keepsRows_iff (formatsParts_of_plain (fun _ => plainName_of_letters)
    (by simp [numbered, nested, NoDoubledBraces])) ⟨by simp [numbered], by simp [numbered]⟩ ht rfl rfl
    hs hnewline hplain hquals).mpr (.inr ?_)⟩
  intro f hf row hrow hholds q hq
  obtain rfl := List.mem_singleton.mp hq
  have hmem : f ∈ [([['x'], ['1']], [(['a'], ['x']), (['b'], ['1'])])] := hf
  obtain rfl := List.mem_singleton.mp hmem
  exact ⟨by decide, rfl⟩

end Sample

end Multicorn.Fs
