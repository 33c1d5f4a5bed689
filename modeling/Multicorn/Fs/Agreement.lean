import Multicorn.Fs.Effects
import Multicorn.General.Pointwise

/-! Rows that give a file name and the values of the properties: what the stored item takes
from each. -/
namespace Multicorn.Fs
open Multicorn.StateMonad

variable {s s' : State} {t : FilesystemFdw} {d : Directory}

section Lookups

variable {γ : Type} (g : PyVal → γ)

theorem lookup_map_entries (l : List (Sigma fun _ : Str => PyVal)) (k : Str) :
    (l.map fun e => (e.1, g e.2)).lookup k = (l.dlookup k).map g := by
  induction l with
  | nil => rfl
  | cons e l ih =>
    obtain ⟨k', v⟩ := e
    by_cases hk : k = k'
    · subst hk
      simp
    · have hbeq : (k == k') = false := by simpa using hk
      rw [List.map_cons, List.lookup_cons, hbeq, List.dlookup_cons_ne _ _ hk]
      exact ih

theorem lookup_insert_all (g : PyVal → PyVal) {l : List (Sigma fun _ : Str => PyVal)}
    (hl : l.NodupKeys) (row : Row) (k : Str) :
    (l.foldl (fun row e => row.insert e.1 (g e.2)) row).lookup k =
      ((l.dlookup k).map g).or (row.lookup k) := by
  induction l generalizing row with
  | nil => simp
  | cons e l ih =>
    obtain ⟨k', v⟩ := e
    obtain ⟨hnew, hrest⟩ := List.nodupKeys_cons.mp hl
    rw [List.foldl_cons, ih hrest]
    by_cases hk : k = k'
    · subst hk
      have hnone : l.dlookup k = none := List.dlookup_eq_none.mpr hnew
      simp [hnone]
    · rw [AList.lookup_insert_ne hk, List.dlookup_cons_ne _ _ hk]

theorem lookup_without {name : Option Str} {k : Str} (h : name ≠ some k) (values : Row) :
    (without name values).lookup k = values.lookup k := by
  cases name with
  | none => rfl
  | some n =>
    have hne : k ≠ n := fun heq => h (by rw [heq])
    exact AList.lookup_erase_ne hne

theorem lookup_without_self (k : Str) (values : Row) : (without (some k) values).lookup k = none :=
  AList.lookup_erase _ _

end Lookups

namespace FilesystemFdw

/-- The supplied values of the properties, as strings. -/
def supplied (t : FilesystemFdw) (values : Row) : List (Str × Str) :=
  t.structured_directory.properties.map fun k => (k, ((values.lookup k).map PyVal.pyStr).getD [])

/-- Neither the file name nor the content stands in a column of a property. -/
def ColumnsApart (t : FilesystemFdw) : Prop :=
  ∀ k ∈ t.structured_directory.properties, t.filename_column ≠ some k ∧ t.content_column ≠ some k

/-- The columns that `_item_from_dml` looks at for the properties. -/
def rest (t : FilesystemFdw) (values : Row) : Row :=
  without t.filename_column (without t.content_column values)

def suppliedKeys (values : Row) : List Str := values.keys.filter fun k => values.lookup k ≠ some .none

theorem lookup_rest {k : Str} (hf : t.filename_column ≠ some k) (hc : t.content_column ≠ some k)
    (values : Row) : (t.rest values).lookup k = values.lookup k := by
  rw [rest, lookup_without hf, lookup_without hc]

theorem apart_of_lookup_rest {values : Row}
    (h : ∀ k ∈ t.structured_directory.properties, (t.rest values).lookup k ≠ none) :
    t.ColumnsApart := by
  intro k hk
  constructor
  · intro hf
    apply h k hk
    rw [rest, hf, lookup_without_self]
  · intro hc
    apply h k hk
    rw [rest]
    by_cases hf : t.filename_column = some k
    · rw [hf, lookup_without_self]
    · rw [lookup_without hf, hc, lookup_without_self]

theorem mem_suppliedKeys {values : Row} {k : Str} :
    k ∈ suppliedKeys values ↔ ∃ v, values.lookup k = some v ∧ v ≠ .none := by
  rw [suppliedKeys, List.mem_filter, decide_eq_true_iff]
  change k ∈ values ∧ _ ↔ _
  rw [← AList.lookup_isSome]
  cases h : values.lookup k with
  | none => simp
  | some v => simp

theorem properties_of_create {values : Row} {item : Item}
    (h : t.structured_directory.create (values.entries.map fun e => (e.1, e.2.pyStr)) = .ok item) :
    item.properties = t.supplied values := by
  unfold Directory.create Directory.item at h
  split_ifs at h
  obtain rfl := Except.ok.inj h
  apply List.map_congr_left
  intro k _
  rw [lookup_map_entries]
  rfl

/-- The item of the columns, or none of them is given. -/
theorem itemFromValues_ok {create : List (Str × Str) → Except Failure Item} {a b : Option Item}
    {values : Row} (h : t.itemFromValues create a values = .ok b) :
    (suppliedKeys values = [] ∧ a.isSome ∧ b = none) ∨
      ((∀ k ∈ t.structured_directory.properties, k ∈ suppliedKeys values) ∧
        ∃ item, b = some item ∧ create (values.entries.map fun e => (e.1, e.2.pyStr)) = .ok item) := by
  change (if suppliedKeys values ≠ [] then _ else _) = Except.ok b at h
  split_ifs at h with hkeys hsame hnone
  · cases hcreate : create (values.entries.map fun e => (e.1, e.2.pyStr)) with
    | error e =>
      rw [hcreate] at h
      cases h
    | ok item =>
      rw [hcreate] at h
      obtain rfl := Except.ok.inj h
      right
      constructor
      · intro k hk
        obtain ⟨hall, -⟩ := Bool.and_eq_true_iff.mp hsame
        exact decide_eq_true_iff.mp (List.all_eq_true.mp hall k hk)
      · exact ⟨item, rfl, rfl⟩
  · left
    obtain rfl := Except.ok.inj h
    refine ⟨not_not.mp hkeys, ?_, rfl⟩
    cases a with
    | none => exact absurd rfl hnone
    | some _ => rfl

theorem itemFromFilename_ok {filename : PyVal} {item : Item}
    (h : t.itemFromFilename filename = .ok (some item)) :
    ∃ f, filename = .str f ∧ t.structured_directory.fromFilename f = .ok (some item) := by
  unfold FilesystemFdw.itemFromFilename at h
  split_ifs at h
  · cases filename with
    | str f => exact ⟨f, rfl, h⟩
    | _ => cases h
  · cases h

theorem column_of_getD_str {name : Option Str} {values : Row} {f : Str}
    (h : (column name values).getD .none = .str f) : column name values = some (.str f) := by
  cases hv : column name values with
  | none =>
    rw [hv] at h
    cases h
  | some v =>
    rw [hv] at h
    exact congrArg some h

/-- Where the properties of the item come from: the columns, all of them given, or else the
file name. -/
theorem itemFromDml_ok {values : Row} {item : Item} (h : t.itemFromDml values = .ok item) :
    ((∀ k ∈ t.structured_directory.properties, k ∈ suppliedKeys (t.rest values)) ∧
        item.properties = t.supplied (t.rest values)) ∨
      (suppliedKeys (t.rest values) = [] ∧ item.properties ≠ [] ∧
        ∃ f a, column t.filename_column (without t.content_column values) = some (.str f) ∧
          t.structured_directory.fromFilename f = .ok (some a) ∧
          item.properties = a.properties) := by
  obtain ⟨a, ha, h⟩ := Pointwise.bind_eq_ok.mp h
  obtain ⟨b, hb, h⟩ := Pointwise.bind_eq_ok.mp h
  rcases itemFromValues_ok hb with ⟨hnone, hsome, rfl⟩ | ⟨hall, c, rfl, hcreate⟩
  · right
    obtain ⟨a, rfl⟩ := Option.isSome_iff_exists.mp hsome
    obtain ⟨f, hf, hread⟩ := itemFromFilename_ok ha
    have hcolumn := column_of_getD_str hf
    by_cases hempty : a.properties = []
    · simp only [orItem, hempty, if_true] at h
      cases h
    · simp only [orItem, hempty, if_false, pure, Except.pure] at h
      obtain rfl := Except.ok.inj h
      exact ⟨hnone, hempty, f, a, hcolumn, hread, rfl⟩
  · left
    refine ⟨hall, ?_⟩
    have hc := properties_of_create hcreate
    cases a with
    | none =>
      simp only [orItem, pure, Except.pure] at h
      obtain rfl := Except.ok.inj h
      exact hc
    | some a =>
      by_cases hempty : a.properties = []
      · simp only [orItem, hempty, if_true, pure, Except.pure, ne_eq, not_true, false_and,
          if_false] at h
        obtain rfl := Except.ok.inj h
        exact hc
      · by_cases hsame : a.properties = c.properties
        · have hcheck : ¬ (a.properties ≠ [] ∧ a.properties ≠ c.properties) :=
            fun hdiff => hdiff.2 hsame
          simp only [if_neg hcheck, orItem, if_neg hempty] at h
          obtain rfl := Except.ok.inj h
          exact hsame.trans hc
        · simp only [hempty, hsame, ne_eq, not_false_eq_true, and_self, if_true] at h
          cases h

theorem keys_of_fromFilename {f : Str} {item : Item} (h : d.fromFilename f = .ok (some item)) :
    item.properties.map Prod.fst = d.properties ∧ item.content = .bytes [] := by
  rw [fromFilename_eq] at h
  obtain ⟨values, hvalues, hitem⟩ := Option.map_eq_some_iff.mp (Except.ok.inj h)
  subst hitem
  exact ⟨keys_of_matchParts hvalues, rfl⟩

/-- Values that give all properties, with the file name in a column of its own, make an item
of these values. -/
theorem properties_of_apart {values : Row} {item : Item} (happart : t.ColumnsApart)
    (hall : ∀ k ∈ t.structured_directory.properties, k ∈ suppliedKeys values)
    (h : t.itemFromDml values = .ok item) : item.properties = t.supplied values := by
  have hrest : ∀ k ∈ t.structured_directory.properties,
      (t.rest values).lookup k = values.lookup k := by
    intro k hk
    exact lookup_rest (happart k hk).1 (happart k hk).2 values
  rcases itemFromDml_ok h with ⟨-, hitem⟩ | ⟨hnone, hne, f, a, -, hread, hitem⟩
  · rw [hitem]
    apply List.map_congr_left
    intro k hk
    rw [hrest k hk]
  · -- Only a pattern without properties gets here, and such an item counts as false.
    have hkeys := (keys_of_fromFilename hread).1
    cases hprops : t.structured_directory.properties with
    | nil =>
      rw [hprops, List.map_eq_nil_iff] at hkeys
      exact absurd (hitem.trans hkeys) hne
    | cons k ks =>
      have hk : k ∈ t.structured_directory.properties := hprops ▸ List.mem_cons_self
      have hmem : k ∈ suppliedKeys (t.rest values) := by
        obtain ⟨v, hv, hvne⟩ := mem_suppliedKeys.mp (hall k hk)
        exact mem_suppliedKeys.mpr ⟨v, (hrest k hk).trans hv, hvne⟩
      rw [hnone] at hmem
      cases hmem

/-- Where a property stands in the column of the file name or of the content, the item is that
of the file name. -/
theorem item_of_shared {values : Row} {item : Item} (happart : ¬ t.ColumnsApart)
    (h : t.itemFromDml values = .ok item) :
    ∃ f a, column t.filename_column values = some (.str f) ∧
      t.structured_directory.fromFilename f = .ok (some a) ∧ item.properties = a.properties := by
  rcases itemFromDml_ok h with ⟨hall, -⟩ | ⟨-, -, f, a, hcolumn, hread, hitem⟩
  · have hlookup : ∀ k ∈ t.structured_directory.properties, (t.rest values).lookup k ≠ none := by
      intro k hk hnone
      obtain ⟨v, hv, -⟩ := mem_suppliedKeys.mp (hall k hk)
      rw [hv] at hnone
      cases hnone
    exact absurd (apart_of_lookup_rest hlookup) happart
  · refine ⟨f, a, ?_, hread, hitem⟩
    unfold column at hcolumn ⊢
    cases hn : t.filename_column with
    | none =>
      rw [hn] at hcolumn
      cases hcolumn
    | some n =>
      rw [hn, Option.bind_some] at hcolumn
      rw [Option.bind_some]
      by_cases hc : t.content_column = some n
      · rw [hc, lookup_without_self] at hcolumn
        cases hcolumn
      · rwa [lookup_without hc] at hcolumn

/-! What is stored. -/

/-- The item a logged operation is about. -/
def stored : Operation → Option Item
  | .insert item => some item
  | .update _ newitem => some newitem
  | .delete _ => none

/-- The call has stored an item that has the file name and the properties of the row. -/
def Agrees (t : FilesystemFdw) (s' : State) (filename : PyVal) (values : Row) : Prop :=
  ∃ op item f, s'.current_transaction_state.getLast? = some op ∧ stored op = some item ∧
    item.properties = t.supplied values ∧ t.structured_directory.filename item = .ok f ∧
    filename = .str f

/-- The supplied values of the properties format to the file name; where a property stands in
the column of the file name or of the content, the pattern also reads the name as these
values. -/
def Consistent (t : FilesystemFdw) (filename : PyVal) (values : Row) : Prop :=
  ∃ f, filename = .str f ∧
    t.structured_directory.filename ⟨t.supplied values, .bytes []⟩ = .ok f ∧
    (t.ColumnsApart ∨
      t.structured_directory.fromFilename f = .ok (some ⟨t.supplied values, .bytes []⟩))

/-- The calls that give both a file name and all properties: an insert, or an update that
changes both. -/
inductive GivesBoth (t : FilesystemFdw) : Action → PyVal → Row → Prop
  | insert {values : Row} {filename : PyVal} (hname : column t.filename_column values = some filename)
    (hne : filename ≠ .none)
    (hall : ∀ k ∈ t.structured_directory.properties, ∃ v, values.lookup k = some v ∧ v ≠ .none) :
    GivesBoth t (.insert values) filename values
  | update {oldfilename : Str} {newvalues : Row} {old : Item} {filename : PyVal}
    (hold : t.rowItem oldfilename = .ok old)
    (hname : (column t.filename_column newvalues).getD (.str oldfilename) = filename)
    (hne : filename ≠ .str oldfilename) (hchange : t.supplied newvalues ≠ old.properties) :
    GivesBoth t (.update oldfilename newvalues) filename newvalues

theorem filename_congr {a b : Item} (h : a.properties = b.properties) :
    d.filename a = d.filename b := by
  unfold Directory.filename
  rw [h]

theorem agrees_of_logged {op : Operation} {item : Item} {filename : PyVal} {values : Row}
    (hlog : s'.current_transaction_state.getLast? = some op) (hop : stored op = some item) :
    t.Agrees s' filename values ↔ item.properties = t.supplied values ∧
      ∃ f, filename = .str f ∧
        t.structured_directory.filename ⟨t.supplied values, .bytes []⟩ = .ok f := by
  constructor
  · intro h
    obtain ⟨op', item', f, hlog', hop', hitem, hf, hname⟩ := h
    rw [hlog] at hlog'
    obtain rfl := Option.some.inj hlog'
    rw [hop] at hop'
    obtain rfl := Option.some.inj hop'
    refine ⟨hitem, f, hname, ?_⟩
    rw [← hf]
    exact filename_congr hitem.symm
  · intro h
    obtain ⟨hitem, f, hname, hf⟩ := h
    exact ⟨op, item, f, hlog, hop, hitem, (filename_congr hitem).trans hf, hname⟩

theorem agrees_insert {values : Row} {filename : PyVal}
    (hname : column t.filename_column values = some filename)
    (hall : ∀ k ∈ t.structured_directory.properties, ∃ v, values.lookup k = some v ∧ v ≠ .none)
    {item : Item} (hitem : t.itemFromDml values = .ok item)
    (hlog : s'.current_transaction_state.getLast? = some (.insert item)) :
    t.Agrees s' filename values ↔ t.Consistent filename values := by
  rw [agrees_of_logged hlog rfl, Consistent]
  by_cases happart : t.ColumnsApart
  · have hprops := properties_of_apart happart (fun k hk => mem_suppliedKeys.mpr (hall k hk)) hitem
    constructor
    · intro h
      obtain ⟨-, f, hf, hformat⟩ := h
      exact ⟨f, hf, hformat, .inl happart⟩
    · intro h
      obtain ⟨f, hf, hformat, -⟩ := h
      exact ⟨hprops, f, hf, hformat⟩
  · obtain ⟨f, a, hcolumn, hread, ha⟩ := item_of_shared happart hitem
    rw [hname] at hcolumn
    obtain rfl := Option.some.inj hcolumn
    have hcontent := (keys_of_fromFilename hread).2
    constructor
    · intro h
      obtain ⟨hprops, f', hf', hformat⟩ := h
      obtain rfl := PyVal.str.inj hf'
      refine ⟨f, rfl, hformat, .inr ?_⟩
      have heq : a = ⟨t.supplied values, .bytes []⟩ := by
        rw [← hprops, ha, ← hcontent]
      rw [hread, heq]
    · intro h
      obtain ⟨f', hf', hformat, hcases⟩ := h
      obtain rfl := PyVal.str.inj hf'
      have hread' := hcases.resolve_left happart
      rw [hread] at hread'
      have heq : a = ⟨t.supplied values, .bytes []⟩ := by
        simpa using hread'
      exact ⟨ha.trans (by rw [heq]), f, rfl, hformat⟩

/-- The new values of an update as it reads them: strings, or None. -/
def newValues (t : FilesystemFdw) (newvalues : Row) : Row :=
  (without t.content_column (without t.filename_column newvalues)).entries.foldl
    (fun row e => row.insert e.1 (strOrNone e.2)) ∅

theorem lookup_newValues (newvalues : Row) (k : Str) : (t.newValues newvalues).lookup k =
    ((without t.content_column (without t.filename_column newvalues)).lookup k).map strOrNone := by
  have hrow := lookup_insert_all strOrNone
    (without t.content_column (without t.filename_column newvalues)).nodupKeys ∅ k
  rw [newValues, hrow, AList.lookup_empty, Option.or_none]
  rfl

theorem strOrNone_ne {v : PyVal} (h : strOrNone v ≠ .none) : v ≠ .none ∧ strOrNone v = .str v.pyStr := by
  cases v with
  | none => exact absurd rfl h
  | _ => exact ⟨by simp, rfl⟩

/-- In an update that goes on, every property has a new value, in a column of its own. -/
theorem new_property {newvalues : Row} {k : Str} {w : PyVal}
    (h : (t.newValues newvalues).lookup k = some w) (hne : w ≠ .none) :
    t.filename_column ≠ some k ∧ t.content_column ≠ some k ∧
      ∃ v, newvalues.lookup k = some v ∧ v ≠ .none ∧ w = .str v.pyStr := by
  rw [lookup_newValues] at h
  obtain ⟨v, hv, hw⟩ := Option.map_eq_some_iff.mp h
  obtain ⟨hvne, hstr⟩ := strOrNone_ne (hw ▸ hne)
  have hc : t.content_column ≠ some k := by
    intro hc
    rw [hc, lookup_without_self] at hv
    cases hv
  rw [lookup_without hc] at hv
  have hf : t.filename_column ≠ some k := by
    intro hf
    rw [hf, lookup_without_self] at hv
    cases hv
  rw [lookup_without hf] at hv
  exact ⟨hf, hc, v, hv, hvne, hw.symm.trans hstr⟩

/-- The old values under the new ones. -/
def mergedValues (t : FilesystemFdw) (olditem : Item) (newvalues : Row) : Row :=
  (t.newValues newvalues).entries.foldl (fun row e => row.insert e.1 e.2) olditem.row

theorem updateValues_ok {olditem : Item} {oldfilename : Str} {newvalues values : Row}
    (h : t.updateValues olditem oldfilename newvalues = .ok values) :
    (∀ k ∈ t.structured_directory.properties,
      ∃ w, (t.newValues newvalues).lookup k = some w ∧ w ≠ .none) ∧
    (values = t.mergedValues olditem newvalues ∨
      sameRow olditem.row (t.newValues newvalues) = true) := by
  change (do
    if t.structured_directory.properties.any (fun k => ((t.newValues newvalues).lookup k).isNone) then
      .error .keyError
    if (t.structured_directory.properties.filter
        fun k => (t.newValues newvalues).lookup k = some .none) ≠ [] then
      .error _
    if (column t.filename_column newvalues).getD (.str oldfilename) ≠ .str oldfilename ∧
        sameRow olditem.row (t.newValues newvalues) then
      return withColumn t.filename_column
        ((column t.filename_column newvalues).getD (.str oldfilename)) ∅
    else return t.mergedValues olditem newvalues : Except Failure Row) = .ok values at h
  dsimp only at h
  by_cases hmissing : t.structured_directory.properties.any
      (fun k => ((t.newValues newvalues).lookup k).isNone) = true
  · rw [if_pos hmissing] at h
    cases h
  rw [if_neg hmissing] at h
  by_cases hnull : (t.structured_directory.properties.filter
      fun k => (t.newValues newvalues).lookup k = some .none) ≠ []
  · rw [if_pos hnull] at h
    cases h
  rw [if_neg hnull] at h
  constructor
  · intro k hk
    cases hw : (t.newValues newvalues).lookup k with
    | none =>
      refine absurd (List.any_eq_true.mpr ⟨k, hk, ?_⟩) hmissing
      rw [hw]
      rfl
    | some w =>
      refine ⟨w, rfl, fun hnone => ?_⟩
      have hmem : k ∈ t.structured_directory.properties.filter
          fun k => (t.newValues newvalues).lookup k = some .none :=
        List.mem_filter.mpr ⟨hk, by rw [hw, hnone]; simp⟩
      rw [not_not.mp hnull] at hmem
      cases hmem
  · split_ifs at h with hrename
    · exact .inr hrename.2
    · exact .inl (Except.ok.inj h).symm

theorem lookup_mergedValues {olditem : Item} {newvalues : Row} {k : Str} {w : PyVal}
    (h : (t.newValues newvalues).lookup k = some w) :
    (t.mergedValues olditem newvalues).lookup k = some w := by
  have hrow := lookup_insert_all id (t.newValues newvalues).nodupKeys olditem.row k
  change (t.mergedValues olditem newvalues).lookup k = _ at hrow
  have hdlookup : (t.newValues newvalues).entries.dlookup k = some w := h
  rw [hrow, hdlookup]
  rfl

/-- The old values are the new ones. -/
theorem supplied_of_sameRow {olditem : Item} {newvalues : Row}
    (hkeys : olditem.properties.map Prod.fst = t.structured_directory.properties)
    (hgiven : ∀ k ∈ t.structured_directory.properties,
      ∃ w, (t.newValues newvalues).lookup k = some w ∧ w ≠ .none)
    (h : sameRow olditem.row (t.newValues newvalues) = true) :
    t.supplied newvalues = olditem.properties := by
  have hnodup : (olditem.properties.map Prod.fst).Nodup :=
    hkeys ▸ properties_nodup t.structured_directory
  rw [← map_lookup_keys hnodup, hkeys]
  apply List.map_congr_left
  intro k hk
  obtain ⟨w, hw, hne⟩ := hgiven k hk
  obtain ⟨-, -, v, hv, -, hstr⟩ := new_property hw hne
  have hmem : k ∈ (t.newValues newvalues).keys := by
    apply AList.lookup_isSome.mp
    rw [hw]
    rfl
  have hsame := List.all_eq_true.mp (Bool.and_eq_true_iff.mp h).2 k hmem
  rw [decide_eq_true_iff, hw, Item.lookup_row hnodup, hstr] at hsame
  obtain ⟨u, hu, heq⟩ := Option.map_eq_some_iff.mp hsame
  obtain rfl := PyVal.str.inj heq
  rw [hv, hu]
  rfl

theorem agrees_update {oldfilename : Str} {newvalues values : Row} {olditem item : Item}
    {filename : PyVal}
    (hkeys : olditem.properties.map Prod.fst = t.structured_directory.properties)
    (hchange : t.supplied newvalues ≠ olditem.properties)
    (hvalues : t.updateValues olditem oldfilename newvalues = .ok values)
    {newitem : Item} (hitem : t.itemFromDml values = .ok item)
    (hnew : newitem.properties = item.properties)
    (hlog : s'.current_transaction_state.getLast? = some (.update olditem newitem)) :
    t.Agrees s' filename newvalues ↔ t.Consistent filename newvalues := by
  obtain ⟨hgiven, hmerged⟩ := updateValues_ok hvalues
  have happart : t.ColumnsApart := by
    intro k hk
    obtain ⟨w, hw, hne⟩ := hgiven k hk
    obtain ⟨hf, hc, -⟩ := new_property hw hne
    exact ⟨hf, hc⟩
  have hvalues := hmerged.resolve_right fun hsame =>
    hchange (supplied_of_sameRow hkeys hgiven hsame)
  subst hvalues
  have hall : ∀ k ∈ t.structured_directory.properties,
      k ∈ suppliedKeys (t.mergedValues olditem newvalues) := by
    intro k hk
    obtain ⟨w, hw, hne⟩ := hgiven k hk
    exact mem_suppliedKeys.mpr ⟨w, lookup_mergedValues hw, hne⟩
  have hsupplied : t.supplied (t.mergedValues olditem newvalues) = t.supplied newvalues := by
    apply List.map_congr_left
    intro k hk
    obtain ⟨w, hw, hne⟩ := hgiven k hk
    obtain ⟨-, -, v, hv, -, hstr⟩ := new_property hw hne
    rw [lookup_mergedValues hw, hv, hstr]
    rfl
  have hprops := (properties_of_apart happart hall hitem).trans hsupplied
  rw [agrees_of_logged hlog rfl, Consistent]
  constructor
  · intro h
    obtain ⟨-, f, hf, hformat⟩ := h
    exact ⟨f, hf, hformat, .inl happart⟩
  · intro h
    obtain ⟨f, hf, hformat, -⟩ := h
    exact ⟨hnew.trans hprops, f, hf, hformat⟩

theorem insert_logged {values row : Row} (h : t.insert values s = .ok row s') :
    ∃ item, t.itemFromDml values = .ok item ∧
      s'.current_transaction_state.getLast? = some (.insert item) := by
  unfold FilesystemFdw.insert at h
  simp only [bind_eq_ok, liftExcept_eq_ok, modify_eq_ok, logOperation_eq_ok] at h
  obtain ⟨item, _, ⟨hitem, rfl⟩, _, _, _, _, _, _, _, _, rfl, _, _, rfl, hreturn⟩ := h
  rw [← returnValue_ok hreturn]
  exact ⟨item, hitem, by simp⟩

theorem oldItem_properties {oldfilename : Str} {olditem : Item}
    (h : t.oldItem oldfilename s = .ok olditem s') :
    ∃ old, t.rowItem oldfilename = .ok old ∧ olditem.properties = old.properties := by
  unfold oldItem at h
  simp only [bind_eq_ok, liftExcept_eq_ok, get_eq_ok] at h
  obtain ⟨old, _, ⟨hold, rfl⟩, k, _, ⟨-, rfl⟩, _, _, ⟨rfl, rfl⟩, h⟩ := h
  refine ⟨old, hold, ?_⟩
  split_ifs at h
  · obtain ⟨rfl, -⟩ := pure_eq_ok.mp h
    rfl
  · simp only [bind_eq_ok, pure_eq_ok] at h
    obtain ⟨data, _, -, rfl, -⟩ := h
    rfl

theorem update_logged {oldfilename : Str} {newvalues row : Row}
    (h : t.update oldfilename newvalues s = .ok row s') :
    ∃ old olditem values item newitem, t.rowItem oldfilename = .ok old ∧
      olditem.properties = old.properties ∧
      t.updateValues olditem oldfilename newvalues = .ok values ∧
      t.itemFromDml values = .ok item ∧ newitem.properties = item.properties ∧
      s'.current_transaction_state.getLast? = some (.update olditem newitem) := by
  unfold FilesystemFdw.update at h
  simp only [bind_eq_ok, liftExcept_eq_ok, modify_eq_ok, discard_eq_ok] at h
  obtain ⟨olditem, s₁, hold, values, _, ⟨hvalues, rfl⟩, item, _, ⟨hitem, rfl⟩, k, _, ⟨-, rfl⟩, _,
    _, rfl, _, s₂, -, k₀, _, ⟨-, rfl⟩, h⟩ := h
  obtain ⟨old, hrow, hprops⟩ := oldItem_properties hold
  refine ⟨old, olditem, values, item,
    { item with content := (column t.content_column newvalues).getD olditem.content }, hrow, hprops,
    hvalues, hitem, rfl, ?_⟩
  split_ifs at h
  · simp only [bind_eq_ok, logOperation_eq_ok, modify_eq_ok] at h
    obtain ⟨_, _, _, _, _, rfl, _, _, rfl, hreturn⟩ := h
    rw [← returnValue_ok hreturn]
    simp
  · simp only [bind_eq_ok, logOperation_eq_ok] at h
    obtain ⟨_, _, rfl, hreturn⟩ := h
    rw [← returnValue_ok hreturn]
    simp

theorem keys_of_rowItem {rowid : Str} {item : Item} (h : t.rowItem rowid = .ok item) :
    item.properties.map Prod.fst = t.structured_directory.properties := by
  unfold FilesystemFdw.rowItem at h
  cases hread : t.structured_directory.fromFilename rowid with
  | error e =>
    rw [hread] at h
    cases h
  | ok a =>
    rw [hread] at h
    cases a with
    | none => cases h
    | some a =>
      obtain rfl := Except.ok.inj h
      exact (keys_of_fromFilename hread).1

/-- A call that gives both a file name and all properties, and that does not raise, stores an
item with these just when they are consistent. -/
theorem agrees_iff {a : Action} {filename : PyVal} {values : Row} (h : t.GivesBoth a filename values)
    (hs : t.Succeeds s a) : t.Agrees (t.after s a) filename values ↔ t.Consistent filename values := by
  obtain ⟨u, hu⟩ := Option.isSome_iff_exists.mp hs
  obtain ⟨s', hrun⟩ := of_value? hu
  have hafter : t.after s a = s' := by
    unfold after
    rw [hrun]
    rfl
  rw [hafter]
  cases h with
  | insert hname _ hall =>
    obtain ⟨row, hrun⟩ := discard_eq_ok.mp hrun
    obtain ⟨item, hitem, hlog⟩ := insert_logged hrun
    exact agrees_insert hname hall hitem hlog
  | update hold hname _ hchange =>
    obtain ⟨row, hrun⟩ := discard_eq_ok.mp hrun
    obtain ⟨old', olditem, values, item, newitem, hold', hprops, hvalues, hitem, hnew, hlog⟩ :=
      update_logged hrun
    rw [hold] at hold'
    obtain rfl := Except.ok.inj hold'
    rw [← hprops] at hchange
    exact agrees_update (hprops ▸ keys_of_rowItem hold) hchange hvalues hitem hnew hlog

end FilesystemFdw

def bothRow (a f : Str) : Row := (flatRow a (.str ['1'])).insert ['f'] (.str f)

theorem agreeing_insert :
    flatTable.Agrees (flatTable.after (sampleState [] fun _ => []) (.insert (bothRow ['x'] ['x'])))
      (.str ['x']) (bothRow ['x'] ['x']) := by
  refine (FilesystemFdw.agrees_iff (.insert rfl (by simp) ?_) (by decide)).mpr
    ⟨['x'], rfl, by decide, .inl ?_⟩
  · intro k hk
    obtain rfl : k = ['a'] := List.mem_singleton.mp hk
    exact ⟨_, rfl, by simp⟩
  · intro k hk
    obtain rfl : k = ['a'] := List.mem_singleton.mp hk
    decide

/-- The name `b/c` is none of the pattern's, and in the update the new name is dropped. -/
theorem disagreeing_calls :
    let s := sampleState [([['r'], ['x']], .file 0)] fun _ => [65]
    (flatTable.Succeeds s (.insert (bothRow ['y'] "b/c".toList)) ∧
      ¬ flatTable.Agrees (flatTable.after s (.insert (bothRow ['y'] "b/c".toList)))
        (.str "b/c".toList) (bothRow ['y'] "b/c".toList)) ∧
    flatTable.Succeeds s (.update ['x'] (bothRow ['y'] ['z'])) ∧
      ¬ flatTable.Agrees (flatTable.after s (.update ['x'] (bothRow ['y'] ['z'])))
        (.str ['z']) (bothRow ['y'] ['z']) := by
  intro s
  have hother : ∀ s' filename values content,
      s'.current_transaction_state.getLast?.bind FilesystemFdw.stored =
        some ⟨[(['a'], ['y'])], content⟩ → filename ≠ .str ['y'] →
          ¬ flatTable.Agrees s' filename values := by
    intro s' filename values content hstored hne hagrees
    obtain ⟨op, item, f, hop, hitem, -, hf, hname⟩ := hagrees
    rw [hop, Option.bind_some, hitem] at hstored
    obtain rfl := Option.some.inj hstored
    have hformat : flat.filename ⟨[(['a'], ['y'])], content⟩ = .ok ['y'] := rfl
    have hf : flat.filename ⟨[(['a'], ['y'])], content⟩ = .ok f := hf
    rw [hformat] at hf
    exact hne (hname.trans (congrArg PyVal.str (Except.ok.inj hf).symm))
  refine ⟨⟨by decide, hother _ _ _ (.str ['1']) (by decide) (by decide)⟩, by decide,
    hother _ _ _ (.str ['1']) (by decide) (by decide)⟩

end Multicorn.Fs
