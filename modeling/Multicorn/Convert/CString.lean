import Multicorn.Convert.Datum
import Multicorn.General.ArrayLiteral
import Multicorn.General.StateMonad

/-! Python objects turned into the text an input function reads. -/
namespace Multicorn.Convert
open Multicorn.Catalog (Oid)
open Multicorn.ArrayLiteral (Bytes)

def ascii (s : List Char) : Bytes := s.map fun c => UInt8.ofNat c.toNat

/-- Python's codec under the name PostgreSQL has for the database encoding. The laws hold of the
codecs of UTF8, SQL_ASCII and the single-byte encodings that Python knows by that name. A name it
does not know (WIN1252) has no codec, and that of EUC_JP writes two characters alike. -/
structure Charset where
  encode : List Char → Option Bytes
  decode : Bytes → Option (List Char)
  decode_encode : ∀ s b, encode s = some b → decode b = some s
  encode_nul : ∀ s b, encode s = some b → Char.ofNat 0 ∉ s → 0 ∉ b
  decode_nul : ∀ b s, decode b = some s → 0 ∉ b → Char.ofNat 0 ∉ s
  encode_ascii : ∀ s : List Char, (∀ c ∈ s, c.toNat < 128) → encode s = some (ascii s)

theorem toNat_ascii {c : Char} (h : c.toNat < 128) : (UInt8.ofNat c.toNat).toNat = c.toNat := by
  rw [UInt8.toNat_ofNat', Nat.mod_eq_of_lt (by omega)]

def fromAscii (b : Bytes) : List Char := b.map fun x => Char.ofNat x.toNat

theorem fromAscii_ascii {s : List Char} (h : ∀ c ∈ s, c.toNat < 128) : fromAscii (ascii s) = s := by
  rw [fromAscii, ascii, List.map_map]
  conv_rhs => rw [← List.map_id s]
  refine List.map_congr_left fun c hc => ?_
  simp only [Function.comp_apply, toNat_ascii (h c hc), Char.ofNat_toNat, id]

/-- The codec of an SQL_ASCII database. -/
def asciiCharset : Charset where
  encode s := if s.all (·.toNat < 128) then some (ascii s) else none
  decode b := if b.all (· < 128) then some (fromAscii b) else none
  decode_encode s b h := by
    obtain ⟨hs, hb⟩ := Option.ite_none_right_eq_some.mp h
    obtain rfl := Option.some.inj hb
    have hcode : ∀ c ∈ s, c.toNat < 128 := by simpa using hs
    have hsmall : (ascii s).all (· < 128) = true := by
      simp only [ascii, List.all_map, List.all_eq_true, Function.comp_apply, decide_eq_true_eq,
        UInt8.lt_iff_toNat_lt]
      intro c hc
      rw [toNat_ascii (hcode c hc)]
      exact hcode c hc
    rw [if_pos hsmall, fromAscii_ascii hcode]
  encode_nul s b h hs := by
    obtain ⟨hall, hb⟩ := Option.ite_none_right_eq_some.mp h
    obtain rfl := Option.some.inj hb
    have hcode : ∀ c ∈ s, c.toNat < 128 := by simpa using hall
    intro h0
    obtain ⟨c, hc, hzero⟩ := List.mem_map.mp h0
    have hnat := toNat_ascii (hcode c hc)
    rw [hzero] at hnat
    have : c = Char.ofNat 0 := by rw [← Char.ofNat_toNat c, ← hnat]; rfl
    exact hs (this ▸ hc)
  decode_nul b s h hb := by
    obtain ⟨hall, hs⟩ := Option.ite_none_right_eq_some.mp h
    obtain rfl := Option.some.inj hs
    intro h0
    obtain ⟨x, hx, hzero⟩ := List.mem_map.mp h0
    have hsmall : x < 128 := by simpa using List.all_eq_true.mp hall x hx
    have hnat : (Char.ofNat x.toNat).toNat = x.toNat := by
      have hascii : ∀ n < 128, (Char.ofNat n).toNat = n := by decide
      exact hascii _ (UInt8.lt_iff_toNat_lt.mp hsmall)
    rw [hzero] at hnat
    have : x = 0 := UInt8.toNat_inj.mp hnat.symm
    exact hb (this ▸ hx)
  encode_ascii s h := if_pos (by simpa using h)

/-- The objects a wrapper returns, told apart by the checks of `pyobjectToCString` in their
order. `str` is what `PyObject_Str` makes of the object. -/
inductive PyValue
  | none
  | number (str : List Char)
  | unicode (s : List Char)
  | bytes (b : Bytes)
  | sequence (items : List PyValue) (str : List Char)
  | mapping (items : List (PyValue × PyValue))
  | date (isoformat : List Char)
  | unknown (str : List Char)

structure ConversionInfo where
  attrname : String
  atttypoid : Oid
  atttypmod : ℤ
  attnum : ℕ
  attndims : ℕ
  needQuote : Bool

inductive Failure
  | unicodeEncodeError
  | indexError
  | inputError
  | notARow
  deriving DecidableEq

/-- The conversion works on a buffer and changes the column's `ConversionInfo` on its way. -/
structure Conversion where
  cinfo : ConversionInfo
  buffer : Bytes

abbrev M := EStateM Failure Conversion

def append (text : Bytes) : M Unit := modify fun s => { s with buffer := s.buffer ++ text }

def appendSeparator (last : Bool) : M Unit := if last then pure () else append [44, 32]

def setCinfo (attndims : ℕ) (needQuote : Bool) : M Unit :=
  modify fun s => { s with cinfo := { s.cinfo with attndims := attndims, needQuote := needQuote } }

def appendBinaryStringInfoQuote (buffer tempbuffer : Bytes) (needQuote : Bool) : Bytes :=
  if needQuote then
    tempbuffer.foldl (fun buffer c =>
      if c = 34 then buffer ++ [92, 34]
      else if c = 92 then buffer ++ [92, 92]
      else buffer ++ [c]) (buffer ++ [34]) ++ [34]
  else buffer ++ tempbuffer

def appendQuote (tempbuffer : Bytes) : M Unit :=
  modify fun s =>
    { s with buffer := appendBinaryStringInfoQuote s.buffer tempbuffer s.cinfo.needQuote }

variable (C : Charset)

/-- `PyUnicode_AsEncodedString` and the error check after it. -/
def asEncodedString (s : List Char) : M Bytes :=
  match C.encode s with
  | some b => pure b
  | none => throw .unicodeEncodeError

def pynumberToCString (str : List Char) : M Unit := do
  append (← asEncodedString C str)

def pyunicodeToCString (s : List Char) : M Unit := do
  appendQuote (← asEncodedString C s)

def pystringToCString (b : Bytes) : M Unit := appendQuote b

def pydateToCString (isoformat : List Char) : M Unit := do
  append (← asEncodedString C isoformat)

def pyunknownToCstring (str : List Char) : M Unit := do
  appendQuote (← asEncodedString C str)

mutual

def pyobjectToCString : PyValue → M Unit
  | .none => pure ()
  | .number str => pynumberToCString C str
  | .unicode s => pyunicodeToCString C s
  | .bytes b => pystringToCString b
  | .sequence items str => do
    let cinfo := (← get).cinfo
    if cinfo.attndims = 0 then pyunknownToCstring C str
    else
      append [123]
      setCinfo (cinfo.attndims - 1) true
      pysequenceItems items
      append [125]
      setCinfo cinfo.attndims cinfo.needQuote
  | .mapping items => do
    let cinfo := (← get).cinfo
    setCinfo cinfo.attndims true
    pymappingItems items
    let cinfo' := (← get).cinfo
    setCinfo cinfo'.attndims cinfo.needQuote
  | .date isoformat => pydateToCString C isoformat
  | .unknown str => pyunknownToCstring C str

/-- The loop of `pysequenceToCString`. -/
def pysequenceItems : List PyValue → M Unit
  | [] => pure ()
  | item :: items => do
    pyobjectToCString item
    appendSeparator items.isEmpty
    pysequenceItems items

/-- The loop of `pymappingToCString`. -/
def pymappingItems : List (PyValue × PyValue) → M Unit
  | [] => pure ()
  | item :: items => do
    pymappingItem item
    appendSeparator items.isEmpty
    pymappingItems items

def pymappingItem : PyValue × PyValue → M Unit
  | (key, value) => do
    pyobjectToCString key
    append [61, 62]
    pyobjectToCString value

end

/-- A C string ends at the first NUL. -/
def cstring (buffer : Bytes) : Bytes := buffer.takeWhile (· ≠ 0)

/-- The input functions of the column types, and the text value made of a buffer as it is. -/
structure InputFunctions (D : Type) where
  inputFunctionCall : Oid → ℤ → Bytes → Option D
  cstringToText : Bytes → D

/-- The conversion is appended to a buffer that the caller has reset. -/
def pyobjectToDatum {D : Type} (I : InputFunctions D) (object : PyValue) : M D := do
  pyobjectToCString C object
  let ⟨cinfo, buffer⟩ ← get
  if cinfo.atttypoid = byteaOid ∨ cinfo.atttypoid = textOid ∨ cinfo.atttypoid = varcharOid then
    return I.cstringToText buffer
  else
    match I.inputFunctionCall cinfo.atttypoid cinfo.atttypmod (cstring buffer) with
    | some d => return d
    | none => throw .inputError

end Multicorn.Convert
