import Mathlib.Data.List.DropRight
import Multicorn.Planner.Expr

/-! SQL values turned into Python objects. -/
namespace Multicorn.Convert
open Multicorn.Catalog (Oid)
open Multicorn.Planner (Datum)

/-- The Python objects the extension builds from SQL values. A float is its bit pattern. -/
inductive PyObject
  | none
  | int (n : ℤ)
  | float (bits : UInt64)
  | str (s : List Char)
  | bytes (b : List UInt8)
  | date (year month day : ℤ)
  | datetime (year month day hour min sec usec : ℤ)
  | list (items : List PyObject)

def byteaOid : Oid := 17
def int4Oid : Oid := 23
def textOid : Oid := 25
def bpcharOid : Oid := 1042
def varcharOid : Oid := 1043
def dateOid : Oid := 1082
def timestampOid : Oid := 1114
def numericOid : Oid := 1700

/-- What `pg_type` and the output functions supply. `typelem` is set for varlena arrays
only. `misread` is what comes of reading a datum as a value of another type; like
`output`, it may crash. -/
structure TypeSystem where
  typelem : Oid → Option Oid
  output : Oid → Option Datum → Option (List Char)
  parseFloat : List Char → UInt64
  misread : Oid → Datum → Option PyObject
  misread_ne_none : ∀ type d, misread type d ≠ some .none

/-- A crash on every misread datum. -/
theorem TypeSystem.crash_ne_none : ∀ (_ : Oid) (_ : Datum), (none : Option PyObject) ≠ some .none := by
  simp

variable (T : TypeSystem)

/-! A datum is `none` when it is the zero word, and a result is `none` when the conversion
crashes or makes no object. -/

def datumByteaToPython : Option Datum → Option PyObject
  | none => none
  | some (.bytea b) => some (.bytes b)
  | some d => T.misread byteaOid d

def datumStringToPython : Option Datum → Option PyObject
  | none => some (.str ['?'])
  | some (.text s) => some (.str s)
  | some d => T.misread textOid d

/-- The text without its padding, by `bpchartruelen`. -/
def datumBlankPaddedStringToPython : Option Datum → Option PyObject
  | none => some (.str ['?'])
  | some (.text s) => some (.str (s.rdropWhile (· = ' ')))
  | some d => T.misread bpcharOid d

def datumNumberToPython : Option Datum → Option PyObject
  | none => none
  | some (.numeric out) => some (.float (T.parseFloat out))
  | some d => T.misread numericOid d

/-- The years of Python's dates; there is no object for others. -/
def pythonYear (year : ℤ) : Bool := 1 ≤ year && year ≤ 9999

def datumDateToPython : Option Datum → Option PyObject
  | none => some (.date 2000 1 1)
  | some (.date year month day) => if pythonYear year then some (.date year month day) else none
  | some d => T.misread dateOid d

/-- The microseconds are not passed on. -/
def datumTimestampToPython : Option Datum → Option PyObject
  | none => some (.datetime 2000 1 1 0 0 0 0)
  | some (.timestamp year month day hour min sec _) =>
    if pythonYear year then some (.datetime year month day hour min sec 0) else none
  | some d => T.misread timestampOid d

def datumIntToPython : Option Datum → Option PyObject
  | none => some (.int 0)
  | some (.int4 n) => some (.int n)
  | some d => T.misread int4Oid d

def datumUnknownToPython (d : Option Datum) (type : Oid) : Option PyObject :=
  (T.output type d).map .str

mutual

def datumToPython (type : Oid) (d : Option Datum) : Option PyObject :=
  if type = byteaOid then datumByteaToPython T d
  else if type = textOid ∨ type = varcharOid then datumStringToPython T d
  else if type = bpcharOid then datumBlankPaddedStringToPython T d
  else if type = numericOid then datumNumberToPython T d
  else if type = dateOid then datumDateToPython T d
  else if type = timestampOid then datumTimestampToPython T d
  else if type = int4Oid then datumIntToPython T d
  else
    match T.typelem type with
    | some typelem =>
      match d with
      | none => none
      | some (.array _ elems) => (datumArrayToPython typelem elems).map .list
      | some d => T.misread type d
    | none => datumUnknownToPython T d type

/-- The elements in storage order, whatever the dimensions. -/
def datumArrayToPython (typelem : Oid) : List (Option Datum) → Option (List PyObject)
  | [] => some []
  | none :: elems => (datumArrayToPython typelem elems).map (.none :: ·)
  | some elem :: elems => do
    let pyitem ← datumToPython typelem (some elem)
    let items ← datumArrayToPython typelem elems
    return pyitem :: items

end

@[simp] theorem datumToPython_text (s : List Char) :
    datumToPython T textOid (some (.text s)) = some (.str s) := by
  simp [datumToPython, datumStringToPython, textOid, byteaOid]

/-- No conversion makes `None`: the caller has to look at the null flag. -/
theorem datumToPython_ne_none (type : Oid) (d : Option Datum) :
    datumToPython T type d ≠ some .none := by
  unfold datumToPython
  split_ifs
  · unfold datumByteaToPython
    split <;> simp [T.misread_ne_none]
  · unfold datumStringToPython
    split <;> simp [T.misread_ne_none]
  · unfold datumBlankPaddedStringToPython
    split <;> simp [T.misread_ne_none]
  · unfold datumNumberToPython
    split <;> simp [T.misread_ne_none]
  · unfold datumDateToPython
    split
    · simp
    · split_ifs <;> simp
    · exact T.misread_ne_none _ _
  · unfold datumTimestampToPython
    split
    · simp
    · split_ifs <;> simp
    · exact T.misread_ne_none _ _
  · unfold datumIntToPython
    split <;> simp [T.misread_ne_none]
  · split
    · split <;> simp [T.misread_ne_none]
    · simp [datumUnknownToPython]

end Multicorn.Convert
