import Multicorn.Convert.ArrayRoundTrip
import Multicorn.General.Iso8601

/-! Scalar values on their way to Python and back. -/
namespace Multicorn.Convert
open Multicorn.ArrayLiteral (Bytes)
open Multicorn.Catalog (Oid)
open Multicorn.Iso8601
open Multicorn.Planner (Datum)
open Multicorn.StateMonad

inductive ScalarType
  | text
  | varchar
  | bytea
  | int4
  | date
  | timestamp
  deriving DecidableEq

def ScalarType.oid : ScalarType → Oid
  | .text => textOid
  | .varchar => varcharOid
  | .bytea => byteaOid
  | .int4 => int4Oid
  | .date => dateOid
  | .timestamp => timestampOid

/-- A stored value; the string types are bytes behind a length. -/
inductive ScalarValue
  | varlena (data : Bytes)
  | int4 (n : ℤ)
  | date (year month day : ℤ)
  | timestamp (year month day hour min sec usec : ℤ)
  deriving DecidableEq

/-- The values of a type: dates in the years 1 to 9999, timestamps of any year. -/
def ScalarType.Holds : ScalarType → ScalarValue → Prop
  | .text, .varlena data => 0 ∉ data
  | .varchar, .varlena data => 0 ∉ data
  | .bytea, .varlena _ => True
  | .int4, .int4 n => -2 ^ 31 ≤ n ∧ n < 2 ^ 31
  | .date, .date year month day => ValidDate year month day ∧ 1 ≤ year ∧ year ≤ 9999
  | .timestamp, .timestamp year month day hour min sec usec =>
    ValidDate year month day ∧ ValidTime hour min sec usec
  | _, _ => False

/-- The input functions of the types, which read what Python prints of an integer, and dates
and timestamps in ISO 8601. -/
structure ScalarInput where
  inputFunctionCall : Oid → ℤ → Bytes → Option ScalarValue
  int4in : ∀ n typmod, -2 ^ 31 ≤ n → n < 2 ^ 31 →
    inputFunctionCall int4Oid typmod (ascii (decimal n)) = some (.int4 n)
  date_in : ∀ year month day typmod, ValidDate year month day → 1 ≤ year → year ≤ 9999 →
    inputFunctionCall dateOid typmod (ascii (dateText year month day)) = some (.date year month day)
  timestamp_in : ∀ year month day hour min sec typmod, ValidDate year month day → 1 ≤ year →
    year ≤ 9999 → ValidTime hour min sec 0 →
    inputFunctionCall timestampOid typmod
        (ascii (timestampText year month day hour min sec 0)) =
      some (.timestamp year month day hour min sec 0)

/-- The bytes of a buffer are a string value as they are. -/
def ScalarInput.functions (I : ScalarInput) : InputFunctions ScalarValue where
  inputFunctionCall := I.inputFunctionCall
  cstringToText := .varlena

variable (C : Charset) (T : TypeSystem) (P : Printer) (I : ScalarInput)

/-- A stored value as the conversion meets it. A text is decoded on the way; where Python's
codec cannot do that there is no object. -/
def ScalarType.datum : ScalarType → ScalarValue → Option Datum
  | .bytea, .varlena data => some (.bytea data)
  | _, .varlena data => (C.decode data).map .text
  | _, .int4 n => some (.int4 n)
  | _, .date year month day => some (.date year month day)
  | _, .timestamp year month day hour min sec usec =>
    some (.timestamp year month day hour min sec usec)

/-- `isoformat` is how Python prints dates. -/
def isoPrinter : Printer := { P with date := dateText, datetime := timestampText }

/-- A value handed to Python and written back to its column. -/
def writtenBack (cinfo : ConversionInfo) (st : ScalarType) (v : ScalarValue) :
    Option ScalarValue := do
  let d ← st.datum C v
  let object ← datumToPython T cinfo.atttypoid (some d)
  match pyobjectToDatum C I.functions (object.returned (isoPrinter P)) ⟨cinfo, []⟩ with
  | .ok v _ => some v
  | .error _ _ => none

/-- A text survives when the codec takes it there and back, a timestamp without a microsecond
part in a year that Python has. -/
def Preserved : ScalarType → ScalarValue → Prop
  | .bytea, .varlena _ => True
  | _, .varlena data => ∃ s, C.decode data = some s ∧ C.encode s = some data
  | _, .timestamp year _ _ _ _ _ usec => usec = 0 ∧ 1 ≤ year ∧ year ≤ 9999
  | _, _ => True

/-! Outside of arrays and mappings nothing is quoted. -/

theorem writes_unicode_plain {cinfo : ConversionInfo} (hq : cinfo.needQuote = false)
    {s : List Char} {text : Bytes} (h : C.encode s = some text) :
    Writes C cinfo (.unicode s) text := by
  intro buffer
  simp [pyobjectToCString, pyunicodeToCString, asEncodedString, h, appendQuote, modify, modifyGet,
    MonadStateOf.modifyGet, run_modifyGet, hq, appendBinaryStringInfoQuote]

theorem writes_bytes_plain {cinfo : ConversionInfo} (hq : cinfo.needQuote = false)
    (text : Bytes) : Writes C cinfo (.bytes text) text := by
  intro buffer
  simp [pyobjectToCString, pystringToCString, appendQuote, modify, modifyGet,
    MonadStateOf.modifyGet, run_modifyGet, hq, appendBinaryStringInfoQuote]

theorem writes_date (cinfo : ConversionInfo) {isoformat : List Char} (h : Ascii isoformat) :
    Writes C cinfo (.date isoformat) (ascii isoformat) := by
  intro buffer
  simp [pyobjectToCString, pydateToCString, asEncodedString, C.encode_ascii _ fun c hc => (h c hc).2,
    append, modify, modifyGet, MonadStateOf.modifyGet, run_modifyGet]

theorem nul_not_mem_ascii {s : List Char} (h : Ascii s) : 0 ∉ ascii s := by
  intro hmem
  obtain ⟨c, hc, hzero⟩ := List.mem_map.mp hmem
  obtain ⟨hpos, hlt⟩ := h c hc
  have hnat := toNat_ascii hlt
  rw [hzero, UInt8.toNat_zero] at hnat
  omega

theorem nul_not_mem_decimal (n : ℤ) : 0 ∉ ascii (decimal n) := fun h =>
  absurd (ascii_decimal_plain h).1 (by decide)

/-! What is written back, by the text that the conversion leaves in the buffer. -/

variable {cinfo : ConversionInfo} {st : ScalarType} {v : ScalarValue}

theorem writtenBack_string {d : Datum} {object : PyObject} {out : Bytes}
    (hst : st.oid = byteaOid ∨ st.oid = textOid ∨ st.oid = varcharOid)
    (hcinfo : cinfo.atttypoid = st.oid) (hd : st.datum C v = some d)
    (hobject : datumToPython T st.oid (some d) = some object)
    (hout : Writes C cinfo (object.returned (isoPrinter P)) out) :
    writtenBack C T P I cinfo st v = some (.varlena out) := by
  have hwritten := hout []
  rw [List.nil_append] at hwritten
  simp only [writtenBack, hd, hcinfo, hobject, Option.bind_some,
    pyobjectToDatum, bind, EStateM.bind, hwritten, get, getThe, MonadStateOf.get, run_get, hst,
    if_true, ScalarInput.functions, pure, EStateM.pure]

theorem writtenBack_input {d : Datum} {object : PyObject} {out : Bytes}
    (hst : ¬ (st.oid = byteaOid ∨ st.oid = textOid ∨ st.oid = varcharOid))
    (hcinfo : cinfo.atttypoid = st.oid) (hd : st.datum C v = some d)
    (hobject : datumToPython T st.oid (some d) = some object)
    (hout : Writes C cinfo (object.returned (isoPrinter P)) out) (hnul : 0 ∉ out) :
    writtenBack C T P I cinfo st v = I.inputFunctionCall st.oid cinfo.atttypmod out := by
  have hwritten := hout []
  rw [List.nil_append] at hwritten
  simp only [writtenBack, hd, hcinfo, hobject, Option.bind_some,
    pyobjectToDatum, bind, EStateM.bind, hwritten, get, getThe, MonadStateOf.get, run_get, hst,
    if_false, cstring_eq_self hnul, ScalarInput.functions]
  cases I.inputFunctionCall st.oid cinfo.atttypmod out <;> rfl

/-- A text or varchar value: the codec decides. -/
theorem writtenBack_text_iff {data : Bytes} (hst : st = .text ∨ st = .varchar)
    (hcinfo : cinfo.atttypoid = st.oid) (hq : cinfo.needQuote = false) :
    writtenBack C T P I cinfo st (.varlena data) = some (.varlena data) ↔
      ∃ s, C.decode data = some s ∧ C.encode s = some data := by
  have hdatum : st.datum C (.varlena data) = (C.decode data).map .text := by
    rcases hst with rfl | rfl <;> rfl
  have hoid : st.oid = byteaOid ∨ st.oid = textOid ∨ st.oid = varcharOid := by
    rcases hst with rfl | rfl <;> decide
  have hobject : ∀ s, datumToPython T st.oid (some (.text s)) = some (.str s) := by
    intro s
    rcases hst with rfl | rfl
    · exact datumToPython_text T s
    · simp [datumToPython, datumStringToPython, ScalarType.oid, varcharOid, textOid, byteaOid]
  cases hdecode : C.decode data with
  | none =>
    have hlost : writtenBack C T P I cinfo st (.varlena data) = none := by
      simp [writtenBack, hdatum, hdecode]
    simp [hlost]
  | some s =>
    rw [hdecode, Option.map_some] at hdatum
    cases hencode : C.encode s with
    | none =>
      have hlost : writtenBack C T P I cinfo st (.varlena data) = none := by
        simp [writtenBack, hdatum, hcinfo, hobject, PyObject.returned, pyobjectToDatum,
          pyobjectToCString, pyunicodeToCString, asEncodedString, hencode, bind, EStateM.bind,
          throw, throwThe, MonadExceptOf.throw, run_throw]
      simp [hlost, hencode]
    | some text =>
      have hout : Writes C cinfo ((PyObject.str s).returned (isoPrinter P)) text := by
        rw [PyObject.returned]
        exact writes_unicode_plain C hq hencode
      rw [writtenBack_string C T P I hoid hcinfo hdatum (hobject s) hout]
      simp [hencode]

theorem writtenBack_bytea {data : Bytes} (hcinfo : cinfo.atttypoid = ScalarType.bytea.oid)
    (hq : cinfo.needQuote = false) :
    writtenBack C T P I cinfo .bytea (.varlena data) = some (.varlena data) := by
  have hobject : datumToPython T ScalarType.bytea.oid (some (.bytea data)) = some (.bytes data) := by
    simp [datumToPython, datumByteaToPython, ScalarType.oid]
  apply writtenBack_string C T P I (by decide) hcinfo rfl hobject
  rw [PyObject.returned]
  exact writes_bytes_plain C hq data

theorem writtenBack_int4 {n : ℤ} (hlow : -2 ^ 31 ≤ n) (hhigh : n < 2 ^ 31)
    (hcinfo : cinfo.atttypoid = ScalarType.int4.oid) :
    writtenBack C T P I cinfo .int4 (.int4 n) = some (.int4 n) := by
  have hobject : datumToPython T ScalarType.int4.oid (some (.int4 n)) = some (.int n) := by
    simp [datumToPython, datumIntToPython, ScalarType.oid, int4Oid, byteaOid, textOid, varcharOid,
      bpcharOid, numericOid, dateOid, timestampOid]
  have hout : Writes C cinfo ((PyObject.int n).returned (isoPrinter P)) (ascii (decimal n)) := by
    rw [PyObject.returned]
    exact writes_number C cinfo (C.encode_ascii _ (decimal_ascii n))
  rw [writtenBack_input C T P I (by decide) hcinfo rfl hobject hout (nul_not_mem_decimal n)]
  exact I.int4in n _ hlow hhigh

theorem writtenBack_date {year month day : ℤ} (hdate : ValidDate year month day)
    (hlow : 1 ≤ year) (hhigh : year ≤ 9999) (hcinfo : cinfo.atttypoid = ScalarType.date.oid) :
    writtenBack C T P I cinfo .date (.date year month day) = some (.date year month day) := by
  have hobject : datumToPython T ScalarType.date.oid (some (.date year month day)) =
      some (.date year month day) := by
    simp [datumToPython, datumDateToPython, ScalarType.oid, byteaOid, textOid, varcharOid,
      bpcharOid, numericOid, dateOid, pythonYear, hlow, hhigh]
  have hout : Writes C cinfo ((PyObject.date year month day).returned (isoPrinter P))
      (ascii (dateText year month day)) := by
    rw [PyObject.returned]
    exact writes_date C cinfo (ascii_dateText year month day)
  rw [writtenBack_input C T P I (by decide) hcinfo rfl hobject hout
    (nul_not_mem_ascii (ascii_dateText year month day))]
  exact I.date_in year month day _ hdate hlow hhigh

/-- What comes back of a timestamp has no microseconds. -/
theorem writtenBack_timestamp {year month day hour min sec usec : ℤ}
    (hdate : ValidDate year month day) (htime : ValidTime hour min sec usec)
    (hcinfo : cinfo.atttypoid = ScalarType.timestamp.oid) :
    writtenBack C T P I cinfo .timestamp (.timestamp year month day hour min sec usec) =
      if 1 ≤ year ∧ year ≤ 9999 then some (.timestamp year month day hour min sec 0) else none := by
  have hobject : datumToPython T ScalarType.timestamp.oid
      (some (.timestamp year month day hour min sec usec)) =
      if pythonYear year then some (.datetime year month day hour min sec 0) else none := by
    simp [datumToPython, datumTimestampToPython, ScalarType.oid, byteaOid, textOid, varcharOid,
      bpcharOid, numericOid, dateOid, timestampOid]
  by_cases hyear : 1 ≤ year ∧ year ≤ 9999
  · have hpython : pythonYear year = true := by simp [pythonYear, hyear]
    rw [if_pos hpython] at hobject
    have hout : Writes C cinfo ((PyObject.datetime year month day hour min sec 0).returned
        (isoPrinter P)) (ascii (timestampText year month day hour min sec 0)) := by
      rw [PyObject.returned]
      exact writes_date C cinfo (ascii_timestampText year month day hour min sec 0)
    rw [writtenBack_input C T P I (by decide) hcinfo rfl hobject hout
      (nul_not_mem_ascii (ascii_timestampText year month day hour min sec 0)), if_pos hyear]
    exact I.timestamp_in year month day hour min sec _ hdate hyear.1 hyear.2
      { htime with usec_nonneg := by omega, usec_lt := by omega }
  · have hpython : ¬ pythonYear year = true := by simpa [pythonYear] using hyear
    rw [if_neg hpython] at hobject
    have hdatum : ScalarType.timestamp.datum C (.timestamp year month day hour min sec usec) =
        some (.timestamp year month day hour min sec usec) := rfl
    rw [if_neg hyear]
    simp [writtenBack, hdatum, hcinfo, hobject]

/-- A value of a column comes back as it was exactly when it is a text that the codec takes
there and back, bytes, an integer, a date, or a timestamp of full seconds in Python's years. -/
theorem writtenBack_eq_self_iff (hv : st.Holds v) (hcinfo : cinfo.atttypoid = st.oid)
    (hq : cinfo.needQuote = false) :
    writtenBack C T P I cinfo st v = some v ↔ Preserved C st v := by
  cases st with
  | text =>
    cases v with
    | varlena data => exact writtenBack_text_iff C T P I (.inl rfl) hcinfo hq
    | _ => exact hv.elim
  | varchar =>
    cases v with
    | varlena data => exact writtenBack_text_iff C T P I (.inr rfl) hcinfo hq
    | _ => exact hv.elim
  | bytea =>
    cases v with
    | varlena data => exact iff_of_true (writtenBack_bytea C T P I hcinfo hq) trivial
    | _ => exact hv.elim
  | int4 =>
    cases v with
    | int4 n => exact iff_of_true (writtenBack_int4 C T P I hv.1 hv.2 hcinfo) trivial
    | _ => exact hv.elim
  | date =>
    cases v with
    | date year month day =>
      obtain ⟨hdate, hlow, hhigh⟩ := hv
      exact iff_of_true (writtenBack_date C T P I hdate hlow hhigh hcinfo) trivial
    | _ => exact hv.elim
  | timestamp =>
    cases v with
    | timestamp year month day hour min sec usec =>
      obtain ⟨hdate, htime⟩ := hv
      rw [writtenBack_timestamp C T P I hdate htime hcinfo]
      by_cases hyear : 1 ≤ year ∧ year ≤ 9999
      · simp [hyear, Preserved, eq_comm]
      · simp [hyear, Preserved]
    | _ => exact hv.elim

/-- Readers of integers, dates and timestamps. -/
def scalarIn (type : Oid) (text : Bytes) : Option ScalarValue :=
  if type = int4Oid then
    (decimalIn text).bind fun n => if -2 ^ 31 ≤ n ∧ n < 2 ^ 31 then some (.int4 n) else none
  else if type = dateOid then
    (readDate (fromAscii text)).bind fun ((year, month, day), rest) =>
      if rest = [] then some (.date year month day) else none
  else if type = timestampOid then
    (readTimestamp (fromAscii text)).map fun ((year, month, day), hour, min, sec, usec) =>
      .timestamp year month day hour min sec usec
  else none

def isoInput : ScalarInput where
  inputFunctionCall type _ text := scalarIn type text
  int4in n _ hlow hhigh := by
    simp only [scalarIn, if_true, decimalIn_decimal, Option.bind_some, hlow, hhigh, and_self]
  date_in year month day _ hdate hlow hhigh := by
    have hread := readDate_dateText hdate (by omega) (by omega : year < 10000) []
    rw [List.append_nil] at hread
    simp [scalarIn, dateOid, int4Oid, hread,
      fromAscii_ascii fun c hc => (ascii_dateText year month day c hc).2]
  timestamp_in year month day hour min sec _ hdate hlow hhigh htime := by
    have hread := readTimestamp_timestampText hdate (by omega) (by omega : year < 10000) htime
    simp [scalarIn, timestampOid, dateOid, int4Oid, hread,
      fromAscii_ascii fun c hc => (ascii_timestampText year month day hour min sec 0 c hc).2]

/-- A leap day at the last second. -/
theorem writtenBack_leapDay :
    writtenBack asciiCharset catalogElemTypes.toTypeSystem plainPrinter isoInput
        ⟨"seen", timestampOid, -1, 2, 0, false⟩ .timestamp (.timestamp 2024 2 29 23 59 59 0) =
      some (.timestamp 2024 2 29 23 59 59 0) := by
  have hdate : ValidDate 2024 2 29 := ⟨by decide, by decide, by decide, by decide⟩
  have htime : ValidTime 23 59 59 0 :=
    ⟨by decide, by decide, by decide, by decide, by decide, by decide, by decide, by decide⟩
  have hv : ScalarType.timestamp.Holds (.timestamp 2024 2 29 23 59 59 0) := ⟨hdate, htime⟩
  exact (writtenBack_eq_self_iff asciiCharset catalogElemTypes.toTypeSystem plainPrinter isoInput
    hv rfl rfl).mpr ⟨rfl, by decide, by decide⟩

/-- Half a second past noon comes back as noon. -/
theorem writtenBack_halfSecond :
    ScalarType.timestamp.Holds (.timestamp 2024 2 29 12 0 0 500000) ∧
    writtenBack asciiCharset catalogElemTypes.toTypeSystem plainPrinter isoInput
        ⟨"seen", timestampOid, -1, 2, 0, false⟩ .timestamp (.timestamp 2024 2 29 12 0 0 500000) =
      some (.timestamp 2024 2 29 12 0 0 0) ∧
    writtenBack asciiCharset catalogElemTypes.toTypeSystem plainPrinter isoInput
        ⟨"seen", timestampOid, -1, 2, 0, false⟩ .timestamp (.timestamp 2024 2 29 12 0 0 500000) ≠
      some (.timestamp 2024 2 29 12 0 0 500000) := by
  have hdate : ValidDate 2024 2 29 := ⟨by decide, by decide, by decide, by decide⟩
  have htime : ValidTime 12 0 0 500000 :=
    ⟨by decide, by decide, by decide, by decide, by decide, by decide, by decide, by decide⟩
  have hnoon : writtenBack asciiCharset catalogElemTypes.toTypeSystem plainPrinter isoInput
      ⟨"seen", timestampOid, -1, 2, 0, false⟩ .timestamp (.timestamp 2024 2 29 12 0 0 500000) =
      some (.timestamp 2024 2 29 12 0 0 0) := by decide +kernel
  have hv : ScalarType.timestamp.Holds (.timestamp 2024 2 29 12 0 0 500000) := ⟨hdate, htime⟩
  exact ⟨hv, hnoon, by rw [hnoon]; decide⟩

end Multicorn.Convert
