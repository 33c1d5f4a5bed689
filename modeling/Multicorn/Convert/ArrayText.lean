import Mathlib.Tactic.IntervalCases
import Multicorn.Convert.CString
import Multicorn.Convert.Decimal

/-! Nested lists written for an array column are read back as the array of their leaves. -/
namespace Multicorn.Convert
open Multicorn.StateMonad (run_get run_modifyGet)
open Multicorn.ArrayLiteral

variable (C : Charset)

/-- The objects an array is made of, with their text in the database encoding. -/
inductive Leaf : PyValue → Bytes → Prop
  | unicode {s : List Char} {text : Bytes} (hs : Char.ofNat 0 ∉ s) (h : C.encode s = some text) :
    Leaf (.unicode s) text
  | bytes {text : Bytes} (h : 0 ∉ text) : Leaf (.bytes text) text
  | int (n : ℤ) : Leaf (.number (decimal n)) (ascii (decimal n))

/-- A rectangular nested list whose lengths are `dims`, none of them 0, and the texts of its
leaves in order. -/
def Nested : List ℕ → PyValue → List Bytes → Prop
  | [], value, texts => ∃ text, Leaf C value text ∧ texts = [text]
  | d :: dims, value, texts =>
    0 < d ∧ ∃ items str textss, value = .sequence items str ∧ items.length = d ∧
      List.Forall₂ (Nested dims) items textss ∧ texts = textss.flatten

/-! What the conversion appends to the buffer. -/

/-- `value` is written as `text`, and the column's record is left as it was. -/
def Writes (cinfo : ConversionInfo) (value : PyValue) (text : Bytes) : Prop :=
  ∀ buffer, pyobjectToCString C value ⟨cinfo, buffer⟩ = .ok () ⟨cinfo, buffer ++ text⟩

theorem appendBinaryStringInfoQuote_quoted (buffer text : Bytes) :
    appendBinaryStringInfoQuote buffer text true = buffer ++ quoted text := by
  have hloop : ∀ (text start : Bytes), text.foldl (fun buffer c =>
      if c = 34 then buffer ++ [92, 34]
      else if c = 92 then buffer ++ [92, 92]
      else buffer ++ [c]) start = start ++ text.flatMap escape := by
    intro text
    induction text with
    | nil => simp
    | cons c text ih =>
      intro start
      rw [List.foldl_cons, ih, List.flatMap_cons, ← List.append_assoc]
      congr 1
      unfold escape quote backslash
      split_ifs <;> simp_all
  simp only [appendBinaryStringInfoQuote, if_true, hloop, quoted, quote]
  simp

theorem writes_none (cinfo : ConversionInfo) : Writes C cinfo .none [] := by
  intro buffer
  simp [pyobjectToCString, pure, EStateM.pure]

theorem writes_unicode {cinfo : ConversionInfo} (hq : cinfo.needQuote = true) {s : List Char}
    {text : Bytes} (h : C.encode s = some text) : Writes C cinfo (.unicode s) (quoted text) := by
  intro buffer
  simp [pyobjectToCString, pyunicodeToCString, asEncodedString, h, appendQuote, modify, modifyGet,
    MonadStateOf.modifyGet, run_modifyGet, hq, appendBinaryStringInfoQuote_quoted]

theorem writes_bytes {cinfo : ConversionInfo} (hq : cinfo.needQuote = true) (text : Bytes) :
    Writes C cinfo (.bytes text) (quoted text) := by
  intro buffer
  simp [pyobjectToCString, pystringToCString, appendQuote, modify, modifyGet,
    MonadStateOf.modifyGet, run_modifyGet, hq, appendBinaryStringInfoQuote_quoted]

theorem writes_number (cinfo : ConversionInfo) {str : List Char} {text : Bytes}
    (h : C.encode str = some text) : Writes C cinfo (.number str) text := by
  intro buffer
  simp [pyobjectToCString, pynumberToCString, asEncodedString, h, append, modify, modifyGet,
    MonadStateOf.modifyGet, run_modifyGet]

theorem pysequenceItems_cons {cinfo : ConversionInfo} {item : PyValue} {text : Bytes}
    (h : Writes C cinfo item text) (items : List PyValue) (buffer : Bytes) :
    pysequenceItems C (item :: items) ⟨cinfo, buffer⟩ =
      pysequenceItems C items ⟨cinfo, buffer ++ text ++ (if items.isEmpty then [] else [44, 32])⟩ := by
  cases items with
  | nil => simp [pysequenceItems, appendSeparator, bind, EStateM.bind, h buffer, pure, EStateM.pure]
  | cons item' items =>
    rw [pysequenceItems]
    simp [appendSeparator, bind, EStateM.bind, h buffer, append, modify, modifyGet, MonadStateOf.modifyGet,
      run_modifyGet]

theorem pysequenceItems_writes {cinfo : ConversionInfo} {items : List PyValue} {texts : List Bytes}
    (h : List.Forall₂ (Writes C cinfo) items texts) (buffer : Bytes) :
    pysequenceItems C items ⟨cinfo, buffer⟩ = .ok () ⟨cinfo, buffer ++ commaSep texts⟩ := by
  induction h generalizing buffer with
  | nil => simp [pysequenceItems, commaSep, pure, EStateM.pure]
  | @cons item text items texts hitem hitems ih =>
    rw [pysequenceItems_cons C hitem, ih]
    cases hitems with
    | nil => simp [commaSep]
    | cons _ _ => simp [commaSep, comma, space]

/-- The record an array's elements are converted with. -/
def ConversionInfo.inner (cinfo : ConversionInfo) : ConversionInfo :=
  { cinfo with attndims := cinfo.attndims - 1, needQuote := true }

theorem writes_sequence {cinfo : ConversionInfo} (hdims : cinfo.attndims ≠ 0)
    {items : List PyValue} {texts : List Bytes}
    (h : List.Forall₂ (Writes C cinfo.inner) items texts) (str : List Char) :
    Writes C cinfo (.sequence items str) (braced (commaSep texts)) := by
  intro buffer
  have hitems := pysequenceItems_writes C h (buffer ++ [123])
  simp only [ConversionInfo.inner] at hitems
  simp [pyobjectToCString, bind, EStateM.bind, get, getThe, MonadStateOf.get, run_get, hdims,
    append, setCinfo, modify, modifyGet, MonadStateOf.modifyGet, run_modifyGet, hitems, braced,
    openBrace, closeBrace]

/-- Without dimensions a list is not written as an array. -/
theorem writes_sequence_flat {cinfo : ConversionInfo} (hdims : cinfo.attndims = 0)
    (hq : cinfo.needQuote = false) {str : List Char} {text : Bytes} (h : C.encode str = some text)
    (items : List PyValue) : Writes C cinfo (.sequence items str) text := by
  intro buffer
  have hflat : pyobjectToCString C (.sequence items str) ⟨cinfo, buffer⟩ =
      pyunknownToCstring C str ⟨cinfo, buffer⟩ := by
    simp [pyobjectToCString, bind, EStateM.bind, get, getThe, MonadStateOf.get, run_get, hdims]
  rw [hflat]
  simp [pyunknownToCstring, asEncodedString, h, appendQuote, modify, modifyGet,
    MonadStateOf.modifyGet, run_modifyGet, hq, appendBinaryStringInfoQuote]

/-! Integers. -/

theorem isDigit_toNat {c : Char} (h : c.isDigit = true) : 48 ≤ c.toNat ∧ c.toNat ≤ 57 :=
  Char.isDigit_iff_toNat.mp h

theorem decimal_ascii (n : ℤ) : ∀ c ∈ decimal n, c.toNat < 128 := by
  intro c hc
  rcases mem_decimal hc with rfl | hdigit
  · decide
  · have := (isDigit_toNat hdigit).2
    omega

theorem ascii_decimal_plain {n : ℤ} {b : UInt8} (h : b ∈ ascii (decimal n)) :
    plain b = true ∧ upper b ≠ 78 := by
  obtain ⟨c, hc, rfl⟩ := List.mem_map.mp h
  rcases mem_decimal hc with rfl | hdigit
  · decide
  · obtain ⟨hlo, hhi⟩ := isDigit_toNat hdigit
    generalize c.toNat = k at hlo hhi
    interval_cases k <;> decide

theorem readsAs_decimal (n : ℤ) : ReadsAs (ascii (decimal n)) (some (ascii (decimal n))) := by
  have hne : ascii (decimal n) ≠ [] := by simpa [ascii] using decimal_ne_nil n
  refine readsAs_plain hne (fun b hb => (ascii_decimal_plain hb).1) ?_
  obtain ⟨b, text, htext⟩ := List.exists_cons_of_ne_nil hne
  have hb := (ascii_decimal_plain (htext ▸ List.mem_cons_self : b ∈ ascii (decimal n))).2
  simp [htext, isNull, hb]

/-! Nested lists. -/

theorem Leaf.writes {value : PyValue} {text : Bytes} (h : Leaf C value text)
    {cinfo : ConversionInfo} (hq : cinfo.needQuote = true) :
    ∃ out, Writes C cinfo value out ∧ ReadsAs out (some text) := by
  cases h with
  | unicode hs h => exact ⟨_, writes_unicode C hq h, readsAs_quoted (C.encode_nul _ _ h hs)⟩
  | bytes h => exact ⟨_, writes_bytes C hq text, readsAs_quoted h⟩
  | int n =>
    exact ⟨_, writes_number C cinfo (C.encode_ascii _ (decimal_ascii n)), readsAs_decimal n⟩

/-- The encoder keeps to the nesting: what it writes is a literal of the same dimensions. -/
theorem Nested.writes {dims : List ℕ} {value : PyValue} {texts : List Bytes}
    (h : Nested C dims value texts) {cinfo : ConversionInfo} (hdims : cinfo.attndims = dims.length)
    (hq : dims = [] → cinfo.needQuote = true) :
    ∃ out, Writes C cinfo value out ∧ Literal dims out (texts.map some) := by
  induction dims generalizing value texts cinfo with
  | nil =>
    obtain ⟨text, hleaf, rfl⟩ := h
    obtain ⟨out, hout, hread⟩ := hleaf.writes C (hq rfl)
    exact ⟨out, hout, some text, hread, rfl⟩
  | cons d dims ih =>
    obtain ⟨hd, items, str, textss, rfl, rfl, hitems, rfl⟩ := h
    have hinner : cinfo.inner.attndims = dims.length := by simp [ConversionInfo.inner, hdims]
    have hout : ∃ outs, List.Forall₂ (Writes C cinfo.inner) items outs ∧
        List.Forall₂ (Literal dims) outs (textss.map (·.map some)) := by
      clear hd hdims hq
      induction hitems with
      | nil => exact ⟨[], .nil, .nil⟩
      | cons hitem hitems ihs =>
        obtain ⟨out, hout, hlit⟩ := ih hitem hinner fun _ => rfl
        obtain ⟨outs, houts, hlits⟩ := ihs
        exact ⟨out :: outs, .cons hout houts, .cons hlit hlits⟩
    obtain ⟨outs, houts, hlits⟩ := hout
    refine ⟨_, writes_sequence C (by simp [hdims]) houts str, hd, outs, _, ?_, hlits, rfl, ?_⟩
    · rw [← houts.length_eq]
    · rw [List.map_flatten]

theorem cstring_eq_self {text : Bytes} (h : 0 ∉ text) : cstring text = text := by
  rw [cstring, List.takeWhile_eq_self_iff]
  intro b hb
  have : b ≠ 0 := fun h0 => h (h0 ▸ hb)
  simpa using this

/-- A nested list written for an array column of its depth is read back as the array of its
leaves' texts, and the column's record is as before. -/
theorem pyobjectToCString_array {dims : List ℕ} {value : PyValue} {texts : List Bytes}
    (h : Nested C dims value texts) (hpos : 1 ≤ dims.length) (hmax : dims.length ≤ maxDim)
    (cinfo : ConversionInfo) (hdims : cinfo.attndims = dims.length) :
    ∃ out, pyobjectToCString C value ⟨cinfo, []⟩ = .ok () ⟨cinfo, out⟩ ∧
      arrayIn (cstring out) = some ⟨dims, texts.map some⟩ := by
  have hne : dims ≠ [] := List.length_pos_iff.mp hpos
  obtain ⟨out, hout, hlit⟩ := h.writes C hdims fun h => absurd h hne
  refine ⟨out, by simpa using hout [], ?_⟩
  rw [cstring_eq_self hlit.nul_not_mem]
  exact arrayIn_literal hlit hne hmax

/-- A text with quotes and a comma, an integer, bytes that spell NULL and an empty text. -/
theorem pyobjectToCString_array_two_by_two :
    ∃ out, pyobjectToCString asciiCharset
        (.sequence [.sequence [.unicode ['"', ',', '\\'], .number (decimal (-3))] [],
          .sequence [.bytes [78, 85, 76, 76], .unicode []] []] [])
        ⟨⟨"tags", 1009, -1, 1, 2, false⟩, []⟩ = .ok () ⟨⟨"tags", 1009, -1, 1, 2, false⟩, out⟩ ∧
      arrayIn (cstring out) =
        some ⟨[2, 2], [some [34, 44, 92], some [45, 51], some [78, 85, 76, 76], some []]⟩ := by
  have hquote : Nested asciiCharset [] (.unicode ['"', ',', '\\']) [[34, 44, 92]] :=
    ⟨_, .unicode (by decide) (by decide), rfl⟩
  have hint : Nested asciiCharset [] (.number (decimal (-3))) [[45, 51]] := ⟨_, .int (-3), rfl⟩
  have hbytes : Nested asciiCharset [] (.bytes [78, 85, 76, 76]) [[78, 85, 76, 76]] :=
    ⟨_, .bytes (by decide), rfl⟩
  have hempty : Nested asciiCharset [] (.unicode []) [[]] :=
    ⟨_, .unicode (by decide) (by decide), rfl⟩
  refine @pyobjectToCString_array asciiCharset [2, 2] _ _
    ⟨by decide, _, _, [[[34, 44, 92], [45, 51]], [[78, 85, 76, 76], []]], rfl, rfl, ?_, rfl⟩
    (by decide) (by decide) ⟨"tags", 1009, -1, 1, 2, false⟩ rfl
  refine .cons ⟨by decide, _, _, [[[34, 44, 92]], [[45, 51]]], rfl, rfl, ?_, rfl⟩
    (.cons ⟨by decide, _, _, [[[78, 85, 76, 76]], [[]]], rfl, rfl, ?_, rfl⟩ .nil)
  · exact .cons hquote (.cons hint .nil)
  · exact .cons hbytes (.cons hempty .nil)

end Multicorn.Convert
