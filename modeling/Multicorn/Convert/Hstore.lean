import Multicorn.Convert.ArrayText
import Multicorn.General.Hstore

/-! Mappings written for an hstore column: read back as they are unless a value is None. -/
namespace Multicorn.Convert
open Multicorn.ArrayLiteral (Bytes quoted nul_not_mem_quoted upper plain isNull)
open Multicorn.Hstore
open Multicorn.StateMonad

inductive MappingValue
  | str (s : List Char)
  | int (n : ℤ)
  | none
  deriving DecidableEq

def MappingValue.python : MappingValue → PyValue
  | .str s => .unicode s
  | .int n => .number (decimal n)
  | .none => .none

/-- A Python mapping from texts without NUL to such texts, integers and None, in the order of
its `items`. -/
structure Mapping where
  items : List (List Char × MappingValue)
  nodup : (items.map Prod.fst).Nodup
  nulFree : ∀ item ∈ items, Char.ofNat 0 ∉ item.1 ∧ ∀ s, item.2 = .str s → Char.ofNat 0 ∉ s

namespace Mapping

variable (C : Charset) (m : Mapping)

def python : PyValue := .mapping (m.items.map fun item => (.unicode item.1, item.2.python))

/-- The value in the hstore, in the database encoding; None is a null value. -/
def stored : MappingValue → Option (Option Bytes)
  | .str s => (C.encode s).map some
  | .int n => some (some (ascii (decimal n)))
  | .none => some none

def storedItem (item : List Char × MappingValue) : Option Pair := do
  return (← C.encode item.1, ← stored C item.2)

/-- The pairs of the hstore with exactly the keys and values of the mapping. -/
def Hstore (pairs : List Pair) : Prop :=
  List.Forall₂ (fun item pair => storedItem C item = some pair) m.items pairs

end Mapping

variable {C : Charset}

/-! What is written. -/

def valueText : MappingValue → Option Bytes → Bytes
  | _, none => []
  | .str _, some text => quoted text
  | _, some text => text

def written (item : List Char × MappingValue) (pair : Pair) : Bytes × Bytes :=
  (pair.1, valueText item.2 pair.2)

theorem writes_value {cinfo : ConversionInfo} (hq : cinfo.needQuote = true) {value : MappingValue}
    {text : Option Bytes} (h : Mapping.stored C value = some text) :
    Writes C cinfo value.python (valueText value text) := by
  cases value with
  | str s =>
    obtain ⟨b, hb, htext⟩ := Option.map_eq_some_iff.mp h
    subst htext
    exact writes_unicode C hq hb
  | int n =>
    obtain rfl := Option.some.inj h
    exact writes_number C cinfo (C.encode_ascii _ (decimal_ascii n))
  | none =>
    obtain rfl := Option.some.inj h
    exact writes_none C cinfo

theorem valueText_missing {value : MappingValue} {text : Option Bytes}
    (h : Mapping.stored C value = some text) (hnone : value = .none) : valueText value text = [] := by
  subst hnone
  obtain rfl := Option.some.inj h
  rfl

theorem storedItem_eq_some {item : List Char × MappingValue} {pair : Pair} :
    Mapping.storedItem C item = some pair ↔
      C.encode item.1 = some pair.1 ∧ Mapping.stored C item.2 = some pair.2 := by
  obtain ⟨key, text⟩ := pair
  simp [Mapping.storedItem, Option.bind_eq_some_iff]

theorem pymappingItem_ok {cinfo : ConversionInfo} (hq : cinfo.needQuote = true)
    {item : List Char × MappingValue} {pair : Pair} (h : Mapping.storedItem C item = some pair)
    (buffer : Bytes) :
    pymappingItem C (.unicode item.1, item.2.python) ⟨cinfo, buffer⟩ =
      .ok () ⟨cinfo, buffer ++ (keyText pair.1 ++ valueText item.2 pair.2)⟩ := by
  obtain ⟨hkey, hvalue⟩ := storedItem_eq_some.mp h
  have hkey := writes_unicode C hq hkey buffer
  have hvalue := writes_value hq hvalue (buffer ++ quoted pair.1 ++ [61, 62])
  simp only [List.append_assoc] at hvalue
  simp [pymappingItem, bind, EStateM.bind, hkey, append, modify, modifyGet, MonadStateOf.modifyGet,
    run_modifyGet, hvalue, keyText, equalsSign, arrowHead]

theorem encode_of_ok {s : List Char} {u : Unit} {st st' : Conversion}
    (h : pyobjectToCString C (.unicode s) st = .ok u st') : ∃ text, C.encode s = some text := by
  cases hs : C.encode s with
  | some text => exact ⟨text, rfl⟩
  | none =>
    simp [pyobjectToCString, pyunicodeToCString, asEncodedString, hs, bind, EStateM.bind, throw,
      throwThe, MonadExceptOf.throw, run_throw] at h

theorem storedItem_of_ok {item : List Char × MappingValue} {u : Unit} {st st' : Conversion}
    (h : pymappingItem C (.unicode item.1, item.2.python) st = .ok u st') :
    ∃ pair, Mapping.storedItem C item = some pair := by
  simp only [pymappingItem, bind_eq_ok] at h
  obtain ⟨_, _, hkey, _, _, _, hvalue⟩ := h
  obtain ⟨key, hkey⟩ := encode_of_ok hkey
  have hstored : ∃ text, Mapping.stored C item.2 = some text := by
    cases hitem : item.2 with
    | str s =>
      rw [hitem] at hvalue
      obtain ⟨text, htext⟩ := encode_of_ok hvalue
      exact ⟨some text, by simp [Mapping.stored, htext]⟩
    | int n => exact ⟨_, rfl⟩
    | none => exact ⟨_, rfl⟩
  obtain ⟨text, htext⟩ := hstored
  exact ⟨(key, text), storedItem_eq_some.mpr ⟨hkey, htext⟩⟩

theorem pymappingItems_ok {cinfo : ConversionInfo} (hq : cinfo.needQuote = true)
    {items : List (List Char × MappingValue)} {buffer : Bytes} {u : Unit} {st' : Conversion}
    (h : pymappingItems C (items.map fun item => (.unicode item.1, item.2.python)) ⟨cinfo, buffer⟩ =
      .ok u st') :
    ∃ pairs, List.Forall₂ (fun item pair => Mapping.storedItem C item = some pair) items pairs ∧
      st' = ⟨cinfo, buffer ++ pairsText (List.zipWith written items pairs)⟩ := by
  induction items generalizing buffer with
  | nil =>
    simp only [List.map_nil, pymappingItems, pure_eq_ok] at h
    exact ⟨[], .nil, by simp [pairsText, ← h.2]⟩
  | cons item items ih =>
    simp only [List.map_cons, pymappingItems, bind_eq_ok] at h
    obtain ⟨_, st₁, hitem, _, st₂, hsep, hitems⟩ := h
    obtain ⟨pair, hpair⟩ := storedItem_of_ok hitem
    rw [pymappingItem_ok hq hpair buffer] at hitem
    obtain rfl := (EStateM.Result.ok.inj hitem).2
    have hst₂ : st₂ = ⟨cinfo, buffer ++ (keyText pair.1 ++ valueText item.2 pair.2) ++
        (if items.isEmpty then [] else [44, 32])⟩ := by
      rw [List.isEmpty_map] at hsep
      cases items with
      | nil => simpa [appendSeparator, pure, EStateM.pure] using hsep.symm
      | cons item' items =>
        simpa [appendSeparator, append, modify, modifyGet, MonadStateOf.modifyGet,
          run_modifyGet] using hsep.symm
    subst hst₂
    obtain ⟨pairs, hpairs, hst'⟩ := ih hitems
    have hempty : (List.zipWith written items pairs).isEmpty = items.isEmpty := by
      cases hpairs with
      | nil => rfl
      | cons _ _ => rfl
    refine ⟨pair :: pairs, .cons hpair hpairs, ?_⟩
    rw [hst', List.zipWith_cons_cons, pairsText_cons, hempty]
    simp [written, ArrayLiteral.comma, ArrayLiteral.space]

/-- What a successful conversion has written; the column's record is as before. -/
theorem pyobjectToCString_mapping {m : Mapping} {cinfo : ConversionInfo} {u : Unit}
    {st' : Conversion} (h : pyobjectToCString C m.python ⟨cinfo, []⟩ = .ok u st') :
    ∃ pairs, m.Hstore C pairs ∧
      st' = ⟨cinfo, pairsText (List.zipWith written m.items pairs)⟩ := by
  simp only [Mapping.python, pyobjectToCString, bind_eq_ok, get_eq_ok] at h
  obtain ⟨_, _, ⟨rfl, rfl⟩, _, _, hset, _, _, hitems, _, _, ⟨rfl, rfl⟩, hend⟩ := h
  simp only [setCinfo, modify_eq_ok] at hset hend
  obtain ⟨pairs, hpairs, hst⟩ := pymappingItems_ok rfl (hset ▸ hitems)
  refine ⟨pairs, hpairs, ?_⟩
  rw [hst] at hend
  simpa using hend.symm

/-! What is read back. -/

theorem isNull_decimal (n : ℤ) : isNull (ascii (decimal n)) = false := by
  have hne : ascii (decimal n) ≠ [] := by simpa [ascii] using decimal_ne_nil n
  obtain ⟨b, text, htext⟩ := List.exists_cons_of_ne_nil hne
  have hb := (ascii_decimal_plain (htext ▸ List.mem_cons_self : b ∈ ascii (decimal n))).2
  simp [htext, isNull, hb]

theorem readsAs_valueText {value : MappingValue} {text : Option Bytes}
    (h : Mapping.stored C value = some text) (hne : value ≠ .none) :
    ReadsAs (valueText value text) text := by
  cases value with
  | str s =>
    obtain ⟨b, _, htext⟩ := Option.map_eq_some_iff.mp h
    subst htext
    exact readsAs_quoted b
  | int n =>
    obtain rfl := Option.some.inj h
    have hne : ascii (decimal n) ≠ [] := by simpa [ascii] using decimal_ne_nil n
    exact readsAs_bare hne (fun b hb => (ascii_decimal_plain hb).1) (isNull_decimal n)
  | none => exact absurd rfl hne

theorem nul_not_mem_written {item : List Char × MappingValue} {pair : Pair}
    (h : Mapping.storedItem C item = some pair)
    (hnul : Char.ofNat 0 ∉ item.1 ∧ ∀ s, item.2 = .str s → Char.ofNat 0 ∉ s) :
    0 ∉ (written item pair).1 ∧ 0 ∉ (written item pair).2 := by
  obtain ⟨hkey, hvalue⟩ := storedItem_eq_some.mp h
  refine ⟨C.encode_nul _ _ hkey hnul.1, ?_⟩
  change 0 ∉ valueText item.2 pair.2
  cases hitem : item.2 with
  | str s =>
    rw [hitem] at hvalue
    obtain ⟨b, hb, htext⟩ := Option.map_eq_some_iff.mp hvalue
    rw [← htext]
    exact nul_not_mem_quoted (C.encode_nul s b hb (hnul.2 s hitem))
  | int n =>
    rw [hitem] at hvalue
    rw [← Option.some.inj hvalue]
    change 0 ∉ ascii (decimal n)
    intro h0
    exact absurd (ascii_decimal_plain h0).1 (by decide)
  | none =>
    rw [hitem] at hvalue
    rw [← Option.some.inj hvalue]
    exact List.not_mem_nil

variable {items : List (List Char × MappingValue)} {pairs : List Pair}

theorem mem_written
    (h : List.Forall₂ (fun item pair => Mapping.storedItem C item = some pair) items pairs)
    {text : Bytes × Bytes} (htext : text ∈ List.zipWith written items pairs) :
    ∃ item ∈ items, ∃ pair, Mapping.storedItem C item = some pair ∧ text = written item pair := by
  induction h with
  | nil => simp at htext
  | @cons item pair items pairs hitem hitems ih =>
    rcases List.mem_cons.mp htext with hhead | htail
    · exact ⟨item, List.mem_cons_self, pair, hitem, hhead⟩
    · obtain ⟨item', hmem, hrest⟩ := ih htail
      exact ⟨item', List.mem_cons_of_mem item hmem, hrest⟩

theorem readsAs_written
    (h : List.Forall₂ (fun item pair => Mapping.storedItem C item = some pair) items pairs)
    (hne : ∀ item ∈ items, item.2 ≠ .none) :
    List.Forall₂ (fun text pair => text.1 = pair.1 ∧ ReadsAs text.2 pair.2)
      (List.zipWith written items pairs) pairs := by
  induction h with
  | nil => exact .nil
  | @cons item pair items pairs hitem hitems ih =>
    have hvalue := readsAs_valueText (storedItem_eq_some.mp hitem).2 (hne item List.mem_cons_self)
    have hrest := ih fun item' hi => hne item' (List.mem_cons_of_mem item hi)
    exact .cons ⟨rfl, hvalue⟩ hrest

theorem missing_written
    (h : List.Forall₂ (fun item pair => Mapping.storedItem C item = some pair) items pairs)
    (hnone : ∃ item ∈ items, item.2 = .none) :
    ∃ text ∈ List.zipWith written items pairs, text.2 = [] := by
  induction h with
  | nil => simp at hnone
  | @cons item pair items pairs hitem hitems ih =>
    obtain ⟨item', hmem, hnone⟩ := hnone
    rcases List.mem_cons.mp hmem with heq | hmem
    · subst heq
      refine ⟨written item' pair, List.mem_cons_self, ?_⟩
      exact valueText_missing (storedItem_eq_some.mp hitem).2 hnone
    · obtain ⟨text, htext, hempty⟩ := ih ⟨item', hmem, hnone⟩
      exact ⟨text, List.mem_cons_of_mem _ htext, hempty⟩

theorem Mapping.Hstore.nul_not_mem {m : Mapping} (h : m.Hstore C pairs) :
    0 ∉ pairsText (List.zipWith written m.items pairs) := by
  apply nul_not_mem_pairsText
  intro text htext
  obtain ⟨item, hmem, pair, hitem, heq⟩ := mem_written h htext
  rw [heq]
  exact nul_not_mem_written hitem (m.nulFree item hmem)

/-- Two texts with one encoding are the same. -/
theorem encode_injective {s t : List Char} {text : Bytes} (hs : C.encode s = some text)
    (ht : C.encode t = some text) : s = t :=
  Option.some.inj ((C.decode_encode s text hs).symm.trans (C.decode_encode t text ht))

theorem encode_mem
    (h : List.Forall₂ (fun item pair => Mapping.storedItem C item = some pair) items pairs)
    {text : Bytes} (htext : text ∈ pairs.map Prod.fst) :
    ∃ key ∈ items.map Prod.fst, C.encode key = some text := by
  induction h with
  | nil => simp at htext
  | @cons item pair items pairs hitem hitems ih =>
    rcases List.mem_cons.mp htext with hhead | htail
    · subst hhead
      exact ⟨item.1, List.mem_cons_self, (storedItem_eq_some.mp hitem).1⟩
    · obtain ⟨key, hkey, hencode⟩ := ih htail
      exact ⟨key, List.mem_cons_of_mem _ hkey, hencode⟩

theorem Mapping.Hstore.nodup {m : Mapping} (h : m.Hstore C pairs) : (pairs.map Prod.fst).Nodup := by
  have hnodup := m.nodup
  unfold Mapping.Hstore at h
  generalize m.items = items at h hnodup
  induction h with
  | nil => exact List.nodup_nil
  | @cons item pair items pairs hitem hitems ih =>
    obtain ⟨hnew, hrest⟩ := List.nodup_cons.mp hnodup
    refine List.nodup_cons.mpr ⟨?_, ih hrest⟩
    intro hmem
    obtain ⟨key, hkey, hencode⟩ := encode_mem hitems hmem
    have heq := encode_injective (storedItem_eq_some.mp hitem).1 hencode
    exact hnew (heq ▸ hkey)

/-- A mapping that could be written is read back as the hstore with its keys and values just
when no value is None. The column's record keeps its quoting. -/
theorem hstoreIn_mapping_iff {m : Mapping} {cinfo : ConversionInfo} {u : Unit} {st' : Conversion}
    (h : pyobjectToCString C m.python ⟨cinfo, []⟩ = .ok u st') :
    (∃ pairs, m.Hstore C pairs ∧ (pairs.map Prod.fst).Nodup ∧
        hstoreIn (cstring st'.buffer) = some pairs) ∧ st'.cinfo.needQuote = cinfo.needQuote ↔
      ∀ item ∈ m.items, item.2 ≠ .none := by
  obtain ⟨pairs, hpairs, hst'⟩ := pyobjectToCString_mapping h
  subst hst'
  rw [cstring_eq_self hpairs.nul_not_mem]
  constructor
  · intro hread item hmem hnone
    obtain ⟨⟨pairs', _, _, hin⟩, _⟩ := hread
    have hmissing : hstoreIn (pairsText (List.zipWith written m.items pairs)) = none := by
      apply hstoreIn_missing _ (missing_written hpairs ⟨item, hmem, hnone⟩)
      intro text htext
      obtain ⟨item', _, pair, hitem', heq⟩ := mem_written hpairs htext
      subst heq
      by_cases hne : item'.2 = .none
      · exact .inl (valueText_missing (storedItem_eq_some.mp hitem').2 hne)
      · exact .inr ⟨_, readsAs_valueText (storedItem_eq_some.mp hitem').2 hne⟩
    exact absurd (hmissing.symm.trans hin) (by simp)
  · intro hne
    exact ⟨⟨pairs, hpairs, hpairs.nodup, hstoreIn_pairsText (readsAs_written hpairs hne)⟩, rfl⟩

/-- A key with an arrow, a text with a quote, a comma and a backslash, and a number. -/
def arrowMapping : Mapping where
  items := [("k=>".toList, .str ['"', ',', '\\']), ("n".toList, .int (-5))]
  nodup := by decide
  nulFree := by
    intro item hitem
    simp only [List.mem_cons, List.not_mem_nil, or_false] at hitem
    rcases hitem with rfl | rfl
    · refine ⟨by decide, fun s hs => ?_⟩
      obtain rfl := MappingValue.str.inj hs
      decide
    · exact ⟨by decide, fun s hs => by cases hs⟩

def hstoreColumn : ConversionInfo := ⟨"test1", 16400, -1, 1, 0, false⟩

theorem hstoreIn_arrowMapping :
    ∃ st', pyobjectToCString asciiCharset arrowMapping.python ⟨hstoreColumn, []⟩ = .ok () st' ∧
      ((∃ pairs, arrowMapping.Hstore asciiCharset pairs ∧ (pairs.map Prod.fst).Nodup ∧
        hstoreIn (cstring st'.buffer) = some pairs) ∧
          st'.cinfo.needQuote = hstoreColumn.needQuote) := by
  refine ⟨_, rfl, (hstoreIn_mapping_iff rfl).mpr ?_⟩
  decide

/-- One key whose value is None. -/
def noneMapping : Mapping where
  items := [("a".toList, .none)]
  nodup := by decide
  nulFree := by
    intro item hitem
    obtain rfl := List.mem_singleton.mp hitem
    exact ⟨by decide, fun s hs => by cases hs⟩

theorem noneMapping_not_hstore :
    pyobjectToCString asciiCharset noneMapping.python ⟨hstoreColumn, []⟩ =
        .ok () ⟨hstoreColumn, [34, 97, 34, 61, 62]⟩ ∧
      noneMapping.Hstore asciiCharset [([97], none)] ∧ hstoreIn (cstring [34, 97, 34, 61, 62]) = none := by
  refine ⟨rfl, ?_, rfl⟩
  exact .cons rfl .nil

end Multicorn.Convert
