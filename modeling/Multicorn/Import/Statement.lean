import Mathlib.Data.Char
import Mathlib.Data.List.AList
import Mathlib.Data.List.Lex
import Mathlib.Data.List.Sort
import Multicorn.General.SqlForeignTable

/-! The statements that are generated for imported tables, and what they mean to a server. -/
namespace Multicorn.Import
open Multicorn.Sql

abbrev PyDict := AList fun _ : Str => Str

/-- `str.replace` of a single character. -/
def replace (c : Char) (new : Str) (value : Str) : Str :=
  value.flatMap fun d => if d = c then new else [d]

def quoteIdentifier (value : Str) : Str := '"' :: replace '"' ['"', '"'] value ++ ['"']

def quoteOption (value : Str) : Str := '\'' :: replace '\'' ['\'', '\''] value ++ ['\'']

/-- `sorted(options.items())`. The keys of a dictionary are distinct. -/
def sortedItems (options : PyDict) : List (Str × Str) :=
  (options.entries.map fun e => (e.1, e.2)).insertionSort fun a b => a.1 ≤ b.1

def optionText (p : Str × Str) : Str := p.1 ++ ' ' :: quoteOption p.2

def dictToOptionstring (options : PyDict) : Str :=
  [',', '\n'].intercalate ((sortedItems options).map optionText)

structure ColumnDefinition where
  column_name : Str
  type_name : Str
  options : PyDict

def ColumnDefinition.toStatement (c : ColumnDefinition) : Str :=
  let stmt := quoteIdentifier c.column_name ++ ' ' :: c.type_name
  if c.options.entries.isEmpty then stmt
  else stmt ++ " OPTIONS ( ".toList ++ dictToOptionstring c.options ++ " )".toList

structure TableDefinition where
  table_name : Str
  columns : List ColumnDefinition
  options : PyDict

def TableDefinition.toStatement (d : TableDefinition) (schema_name server_name : Str) : Str :=
  let parts :=
    ["CREATE FOREIGN TABLE ".toList ++ quoteIdentifier schema_name ++ '.' ::
        quoteIdentifier d.table_name ++ " (".toList,
      [',', '\n'].intercalate (d.columns.map ColumnDefinition.toStatement),
      " \n ) SERVER ".toList ++ quoteIdentifier server_name ++ " ".toList]
  let parts :=
    if d.options.entries.isEmpty then parts
    else parts ++ [" OPTIONS (".toList, dictToOptionstring d.options, ")".toList]
  ['\n'].intercalate parts

/-- The column a definition stands for, with its options in the order of their names. -/
def ColumnDefinition.column (c : ColumnDefinition) : Column where
  name := c.column_name
  type := (lex c.type_name).getD []
  options := sortedItems c.options

def TableDefinition.meaning (d : TableDefinition) (schema_name server_name : Str) :
    CreateForeignTable where
  schema := schema_name
  table := d.table_name
  columns := d.columns.map ColumnDefinition.column
  server := server_name
  options := sortedItems d.options

/-- A column that has a name and a type. -/
structure ColumnDefinition.Proper (g : TypeGrammar) (c : ColumnDefinition) : Prop where
  name : c.column_name ≠ []
  type : ∃ ty, lex c.type_name = some ty ∧ g.valid ty = true
  comments : CommentFree c.type_name

structure TableDefinition.Proper (g : TypeGrammar) (d : TableDefinition)
    (schema_name server_name : Str) : Prop where
  schema : schema_name ≠ []
  server : server_name ≠ []
  table : d.table_name ≠ []
  columns : ∀ c ∈ d.columns, c.Proper g

/-- All names of options are read as themselves. -/
def TableDefinition.PlainOptions (d : TableDefinition) : Prop :=
  (∀ c ∈ d.columns, ∀ k ∈ c.options.keys, plain k = true) ∧ ∀ k ∈ d.options.keys, plain k = true

section Written

variable {s gap : Str} {slots : List Slot}

theorem quoteIdentifier_eq (value : Str) : quoteIdentifier value = quoteName value := rfl

/-- A keyword and the blank after it. -/
theorem written_keyword {c : Char} {w : Str} (hgap : Blank gap) (hstart : wordStart c = true)
    (hrest : w.all wordCont = true) (hw : Written (' ' :: s) slots) :
    Written (gap ++ (c :: w) ++ ' ' :: s) (.exact (.word ((c :: w).map fold)) :: slots) := by
  have hword := wordCont_of_start hstart
  apply Written.exact hgap _ _ hw
  · apply skip_start (space_of_wordCont hword)
    · rintro rfl
      exact absurd hstart (by decide)
    · rintro rfl
      exact absurd hstart (by decide)
  · apply read_word hstart
    · intro d hd
      exact List.all_eq_true.mp hrest d hd
    · intro d hd
      obtain rfl : ' ' = d := by simpa using hd
      decide

theorem written_sym {c : Char} (hgap : Blank gap) (hc : c ∈ ['(', ')', ',', '.'])
    (hw : Written s slots) : Written (gap ++ [c] ++ s) (.exact (.sym c) :: slots) := by
  have hcases : c = '(' ∨ c = ')' ∨ c = ',' ∨ c = '.' := by simpa using hc
  apply Written.exact hgap _ _ hw
  · obtain rfl | rfl | rfl | rfl := hcases <;> exact skip_start rfl (by decide) (by decide) s
  · obtain rfl | rfl | rfl | rfl := hcases <;> rfl

theorem written_str (v : Str) (hs : s.head? ≠ some '\'') (hw : Written s slots) :
    Written (' ' :: quoteOption v ++ s) (.exact (.str v) :: slots) := by
  have hspace : Blank [' '] := blank_of_all rfl
  have hread := read_str v hs
  have hskip : skip .blank (quoteOption v ++ s) = some (quoteOption v ++ s) :=
    skip_start rfl (by decide) (by decide) _
  have hexact : Written ([' '] ++ quoteOption v ++ s) (.exact (.str v) :: slots) :=
    .exact hspace hskip hread hw
  exact hexact

theorem written_option (p : Str × Str) (hgap : Blank gap) (hshort : gap.length ≤ 1)
    (hs : s.head? ≠ some '\'') (hw : Written s slots) :
    Written (gap ++ optionText p ++ s) (.label p.1 :: .exact (.str p.2) :: slots) := by
  have hstr := written_str p.2 hs hw
  have hlabel := Written.label (k := p.1) hgap hshort hstr
  simpa [optionText, quoteOption] using hlabel

theorem written_optionList {os : List (Str × Str)} (hne : os ≠ []) (hgap : Blank gap)
    (hshort : gap.length ≤ 1) (hs : s.head? ≠ some '\'') (hw : Written s slots) :
    Written (gap ++ [',', '\n'].intercalate (os.map optionText) ++ s) (optionList os ++ slots) := by
  induction os using optionList.induct generalizing gap with
  | case1 => exact absurd rfl hne
  | case2 k v =>
    have hone := written_option (k, v) hgap hshort hs hw
    simpa [List.intercalate, optionList] using hone
  | case3 k v o os ih =>
    have hline : Blank ['\n'] := blank_of_all rfl
    have hnil : Blank [] := blank_of_all rfl
    have hrest := ih (by simp) hline (le_refl 1)
    have hcomma := written_sym (c := ',') hnil (by simp) hrest
    have hone := written_option (k, v) hgap hshort (by simp) hcomma
    simpa [List.intercalate, optionList] using hone

theorem sortedItems_eq_nil {options : PyDict} :
    sortedItems options = [] ↔ options.entries.isEmpty = true := by
  rw [← List.length_eq_zero_iff, sortedItems, List.length_insertionSort, List.length_map,
    List.isEmpty_iff, List.length_eq_zero_iff]

theorem mem_sortedItems_keys {options : PyDict} {k : Str} :
    k ∈ (sortedItems options).map (·.1) ↔ k ∈ options.keys := by
  have hperm := (List.perm_insertionSort (fun a b : Str × Str => a.1 ≤ b.1)
    (options.entries.map fun e => (e.1, e.2))).map (·.1)
  rw [sortedItems, hperm.mem_iff, List.map_map]
  rfl

/-- The options of a column or a table, in front of the closing parenthesis. -/
theorem written_options {options : PyDict} (inner : Char) (hgap : Blank gap)
    (hinner : space inner = true) (hne : options.entries.isEmpty = false) (hw : Written s slots) :
    Written (gap ++ "OPTIONS".toList ++ ' ' :: '(' :: inner :: (dictToOptionstring options ++
      inner :: ')' :: s)) (optionsClause (sortedItems options) ++ slots) := by
  have hitems : sortedItems options ≠ [] := by
    rw [Ne, sortedItems_eq_nil, hne]
    exact Bool.false_ne_true
  have hblank : Blank [inner] := blank_of_all (by simpa using hinner)
  have hquote : inner ≠ '\'' := by
    rintro rfl
    cases hinner
  have hclose := written_sym (c := ')') hblank (by simp) hw
  have hlist := written_optionList hitems hblank (le_refl 1) (by simpa using hquote) hclose
  have hspace : Blank [' '] := blank_of_all rfl
  have hopen := written_sym (c := '(') hspace (by simp) hlist
  have hkeyword := written_keyword (c := 'O') (w := "PTIONS".toList) hgap rfl rfl hopen
  have hfold : ('O' :: "PTIONS".toList).map fold = "options".toList := by decide
  rw [hfold] at hkeyword
  simpa [optionsClause, hitems, dictToOptionstring] using hkeyword

/-- A name, a type expression and what comes after them. -/
theorem written_typed {g : TypeGrammar} {c : ColumnDefinition} (hc : c.Proper g) {t : Token}
    (hgap : Blank gap) (hb : Bound s) (hw : Written s (.exact t :: slots)) :
    Written (gap ++ quoteName c.column_name ++ ' ' :: (c.type_name ++ s))
      (.name c.column_name false :: ((lex c.type_name).getD []).map .exact ++ .exact t :: slots) := by
  obtain ⟨ty, hlex, hvalid⟩ := hc.type
  have hgetD : (lex c.type_name).getD [] = ty := by rw [hlex]; rfl
  have htype := Written.type (lex_eq_some_iff.mp hlex) hc.comments hb hw
  rw [hgetD]
  cases ty with
  | nil =>
    rw [g.nonempty] at hvalid
    cases hvalid
  | cons t' ty =>
    have hspace : Blank [' '] := blank_of_all rfl
    exact Written.name false hgap hc.name (by simp) (htype.blank hspace)

/-- A column in front of what separates it from the next or ends the list. -/
theorem written_column {g : TypeGrammar} {c : ColumnDefinition} (hc : c.Proper g) {d : Char}
    (hgap : Blank gap) (hb : Bound s) (hw : Written s (.exact (.sym d) :: slots)) :
    Written (gap ++ c.toStatement ++ s) (c.column.slots ++ .exact (.sym d) :: slots) := by
  by_cases hempty : c.options.entries.isEmpty = true
  · have hnone : optionsClause (sortedItems c.options) = [] := if_pos (sortedItems_eq_nil.mpr hempty)
    have htyped := written_typed hc hgap hb hw
    simpa [ColumnDefinition.toStatement, hempty, Column.slots, ColumnDefinition.column, hnone,
      quoteIdentifier_eq] using htyped
  · rw [Bool.not_eq_true] at hempty
    have hspace : Blank [' '] := blank_of_all rfl
    have hoptions := written_options ' ' hspace rfl hempty hw
    have hitems : sortedItems c.options ≠ [] := by
      rw [Ne, sortedItems_eq_nil, hempty]
      exact Bool.false_ne_true
    rw [optionsClause, if_neg hitems] at hoptions
    have htyped := written_typed hc hgap (by simp [Bound]) hoptions
    simpa [ColumnDefinition.toStatement, hempty, Column.slots, ColumnDefinition.column,
      optionsClause, hitems, quoteIdentifier_eq] using htyped

theorem written_columns {g : TypeGrammar} {cs : List ColumnDefinition}
    (hcs : ∀ c ∈ cs, c.Proper g) (hgap : Blank gap) (hb : Bound s)
    (hw : Written s (.exact (.sym ')') :: slots)) :
    Written (gap ++ [',', '\n'].intercalate (cs.map ColumnDefinition.toStatement) ++ s)
      (columnList (cs.map ColumnDefinition.column) ++ .exact (.sym ')') :: slots) := by
  induction cs generalizing gap with
  | nil => simpa [columnList, List.intercalate] using hw.blank hgap
  | cons c cs ih =>
    cases cs with
    | nil =>
      simpa [columnList, List.intercalate] using written_column (hcs c (by simp)) hgap hb hw
    | cons c' cs =>
      have hline : Blank ['\n'] := blank_of_all rfl
      have hnil : Blank [] := blank_of_all rfl
      have hrest := ih (fun e he => hcs e (List.mem_cons_of_mem c he))
        hline
      have hcomma := written_sym (c := ',') hnil (by simp) hrest
      have hcolumn := written_column (hcs c (by simp)) hgap (by simp [Bound]) hcomma
      simpa [columnList, List.intercalate] using hcolumn

/-- The part of the statement that every table has. -/
theorem written_header {g : TypeGrammar} {d : TableDefinition} {schema_name server_name : Str}
    (hd : d.Proper g schema_name server_name) (hend : s.head? ≠ some '"') (hw : Written s slots) :
    Written ("CREATE FOREIGN TABLE ".toList ++ quoteIdentifier schema_name ++ '.' ::
        quoteIdentifier d.table_name ++ " (\n".toList ++
        [',', '\n'].intercalate (d.columns.map ColumnDefinition.toStatement) ++
        "\n \n ) SERVER ".toList ++ quoteIdentifier server_name ++ s)
      (.exact (.word "create".toList) :: .exact (.word "foreign".toList) ::
        .exact (.word "table".toList) :: .name schema_name false :: .exact (.sym '.') ::
        .name d.table_name true :: .exact (.sym '(') ::
        columnList (d.columns.map ColumnDefinition.column) ++ .exact (.sym ')') ::
        .exact (.word "server".toList) :: .name server_name false :: slots) := by
  have hnil : Blank [] := blank_of_all rfl
  have hspace : Blank [' '] := blank_of_all rfl
  have hline : Blank ['\n'] := blank_of_all rfl
  have hlines : Blank ['\n', ' ', '\n', ' '] := blank_of_all rfl
  have hserver := Written.name false hspace hd.server hend hw
  have hkeyword := written_keyword (c := 'S') (w := "ERVER".toList) hspace rfl rfl hserver
  have hclose := written_sym (c := ')') hlines (by simp) hkeyword
  have hcolumns := written_columns hd.columns hline (by simp [Bound]) hclose
  have hopen := written_sym (c := '(') hspace (by simp) hcolumns
  have htable := Written.name true hnil hd.table (by simp) hopen
  have hdot := written_sym (c := '.') hnil (by simp) htable
  have hschema := Written.name false hspace hd.schema (by simp) hdot
  have hword := written_keyword (c := 'T') (w := "ABLE".toList) hspace rfl rfl hschema
  have hforeign := written_keyword (c := 'F') (w := "OREIGN".toList) hspace rfl rfl hword
  have hcreate := written_keyword (c := 'C') (w := "REATE".toList) hnil rfl rfl hforeign
  have hfold : ('C' :: "REATE".toList).map fold = "create".toList ∧
      ('F' :: "OREIGN".toList).map fold = "foreign".toList ∧
      ('T' :: "ABLE".toList).map fold = "table".toList ∧
      ('S' :: "ERVER".toList).map fold = "server".toList := by decide
  rw [hfold.1, hfold.2.1, hfold.2.2.1, hfold.2.2.2] at hcreate
  simpa [quoteIdentifier_eq] using hcreate

/-- The statement is written for the slots of what the definition stands for. -/
theorem written_toStatement {g : TypeGrammar} {d : TableDefinition} {schema_name server_name : Str}
    (hd : d.Proper g schema_name server_name) :
    Written (d.toStatement schema_name server_name)
      (d.meaning schema_name server_name).slots := by
  by_cases hempty : d.options.entries.isEmpty = true
  · have hnone : optionsClause (sortedItems d.options) = [] := if_pos (sortedItems_eq_nil.mpr hempty)
    have hspace : Blank [' '] := blank_of_all rfl
    have hheader := written_header hd (s := [' ']) (by simp) (.done hspace)
    simpa [TableDefinition.toStatement, hempty, CreateForeignTable.slots, TableDefinition.meaning,
      hnone, List.intercalate] using hheader
  · rw [Bool.not_eq_true] at hempty
    have hgap : Blank [' ', '\n', ' '] := blank_of_all rfl
    have hnil : Blank [] := blank_of_all rfl
    have hoptions := written_options '\n' hgap rfl hempty (.done hnil)
    have hheader := written_header hd (by simp) hoptions
    simpa [TableDefinition.toStatement, hempty, CreateForeignTable.slots, TableDefinition.meaning,
      List.intercalate] using hheader

end Written

theorem means_iff_labels {reserved : Str → Bool} {g : TypeGrammar} {d : TableDefinition}
    {schema_name server_name : Str} (hd : d.Proper g schema_name server_name) :
    Means reserved g (d.toStatement schema_name server_name) (d.meaning schema_name server_name) ↔
      ∀ k ∈ (d.meaning schema_name server_name).labels, plain k = true := by
  have hvalid : ∀ c ∈ (d.meaning schema_name server_name).columns, g.valid c.type = true := by
    intro c hc
    obtain ⟨c', hc', rfl⟩ := List.mem_map.mp hc
    obtain ⟨ty, hlex, hty⟩ := (hd.columns c' hc').type
    have hgetD : (lex c'.type_name).getD [] = ty := by rw [hlex]; rfl
    rw [ColumnDefinition.column, hgetD]
    exact hty
  rw [means_iff hvalid, (written_toStatement hd).readAs_iff (calm_slots hvalid)]
  simp only [label_mem_slots]

/-- For every grammar of types and every list of reserved words the generated statement means the
definition exactly when the names of the options can stand without quotes. -/
theorem toStatement_means_iff (reserved : Str → Bool) (g : TypeGrammar) (d : TableDefinition)
    (schema_name server_name : Str) (hd : d.Proper g schema_name server_name) :
    Means reserved g (d.toStatement schema_name server_name)
      (d.meaning schema_name server_name) ↔ d.PlainOptions := by
  rw [means_iff_labels hd]
  have hlabels : ∀ k, k ∈ (d.meaning schema_name server_name).labels ↔
      (∃ c ∈ d.columns, k ∈ c.options.keys) ∨ k ∈ d.options.keys := by
    intro k
    rw [CreateForeignTable.labels, List.mem_append, List.mem_flatMap, TableDefinition.meaning,
      mem_sortedItems_keys]
    constructor
    · rintro (⟨a, ha, hk⟩ | hk)
      · obtain ⟨c, hc, rfl⟩ := List.mem_map.mp ha
        exact .inl ⟨c, hc, mem_sortedItems_keys.mp hk⟩
      · exact .inr hk
    · rintro (⟨c, hc, hk⟩ | hk)
      · exact .inl ⟨_, List.mem_map.mpr ⟨c, hc, rfl⟩, mem_sortedItems_keys.mpr hk⟩
      · exact .inr hk
  simp only [hlabels, TableDefinition.PlainOptions]
  constructor
  · intro h
    exact ⟨fun c hc k hk => h k (.inl ⟨c, hc, hk⟩), fun k hk => h k (.inr hk)⟩
  · rintro h k (⟨c, hc, hk⟩ | hk)
    · exact h.1 c hc k hk
    · exact h.2 k hk

/-- A named type, or one with a length. -/
def namedType : List Token → Bool
  | [.word _] => true
  | [.quoted _] => true
  | [.word _, .sym '(', .number _, .sym ')'] => true
  | _ => false

def namedTypes : TypeGrammar where
  valid := namedType
  nonempty := rfl
  ends := by
    intro ty t rest hty hlong
    unfold namedType at hty
    split at hty
    · unfold namedType at hlong
      split at hlong <;> simp_all [endsType]
    · simp [namedType] at hlong
    · simp [namedType] at hlong
    · cases hty
  single _ _ _ := rfl

/-- A table with one column and an option of this name. -/
def tableWith (option : Str) : TableDefinition where
  table_name := "t".toList
  columns := [⟨"c".toList, "integer".toList, ∅⟩]
  options := AList.singleton option "x".toList

theorem proper_tableWith (option : Str) :
    (tableWith option).Proper namedTypes "s".toList "srv".toList where
  schema := by simp
  server := by simp
  table := by simp [tableWith]
  columns := by
    intro c hc
    obtain rfl := List.mem_singleton.mp hc
    refine ⟨by simp, ⟨[.word "integer".toList], by decide, rfl⟩, ?_⟩
    constructor <;> decide

/-- An option in lower case. -/
theorem toStatement_means_lower :
    Means (· == "table".toList) namedTypes
      ((tableWith "table_name".toList).toStatement "s".toList "srv".toList)
      ((tableWith "table_name".toList).meaning "s".toList "srv".toList) := by
  apply (toStatement_means_iff _ _ _ _ _ (proper_tableWith _)).mpr
  constructor
  · intro c hc k hk
    obtain rfl := List.mem_singleton.mp hc
    cases hk
  · intro k hk
    obtain rfl := List.mem_singleton.mp hk
    decide

/-- An option whose name has an upper case letter is folded, and the statement means another
table. -/
theorem upper_option_folded : ¬∀ (reserved : Str → Bool) (g : TypeGrammar) (d : TableDefinition)
    (schema_name server_name : Str), d.Proper g schema_name server_name →
      Means reserved g (d.toStatement schema_name server_name)
        (d.meaning schema_name server_name) := by
  intro h
  have hmeans := h (· == "table".toList) namedTypes _ _ _ (proper_tableWith "tableName".toList)
  have hplain := (means_iff_labels (proper_tableWith _)).mp hmeans "tableName".toList (by decide)
  revert hplain
  decide

end Multicorn.Import
