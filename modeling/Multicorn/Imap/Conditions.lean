import Multicorn.General.ImapSearch
import Multicorn.General.Like

/-! The IMAP wrapper's search criteria: how quals become them, and what a mail has to be like
to satisfy the quals. -/
namespace Multicorn.Imap
open Multicorn.ImapSearch
open Multicorn.Like (like isWildcard unescape)

/-- The operators `~~`, `!~~`, `~~*`, `!~~*`, `=`, `<>`, `@>` and `&&`, and any other. -/
inductive Operator
  | like
  | notLike
  | ilike
  | notIlike
  | eq
  | ne
  | contains
  | overlaps
  | other (name : Str)
  deriving DecidableEq

def Operator.isPattern : Operator → Bool
  | .like | .notLike | .ilike | .notIlike => true
  | _ => false

def Operator.isNegated : Operator → Bool
  | .notLike | .ne | .notIlike => true
  | _ => false

inductive QualValue
  | null
  | text (s : Str)
  | array (elems : List (Option Str))

/-- The right side of a qual: a value, or the elements of an array under ANY or ALL. -/
inductive QualArg
  | scalar (value : QualValue)
  | any (elems : List (Option Str))
  | all (elems : List (Option Str))

structure Qual where
  field_name : Str
  operator : Operator
  value : QualArg

/-- The two special columns, and how `str()` shows a list. -/
structure ImapFdw where
  payload_column : Option Str
  flags_column : Option Str
  listStr : List (Option Str) → Str

inductive Raise
  | noMatchPossible
  | attributeError
  | typeError
  deriving DecidableEq

def STANDARD_FLAGS : List (Str × Str) :=
  [("seen".toList, "Seen".toList), ("flagged".toList, "Flagged".toList),
    ("delete".toList, "Deleted".toList), ("draft".toList, "Draft".toList),
    ("recent".toList, "Recent".toList)]

def SEARCH_HEADERS : List Str := addressFields

/-- `str.lower`; outside ASCII it leads to no name of a standard flag. -/
def lower (s : Str) : Str := s.map Char.toLower

def standardFlag (name : Str) : Option Str := STANDARD_FLAGS.lookup (lower name)

def element : Option Str → QualValue
  | none => .null
  | some s => .text s

/-! The pattern operators. -/

def dropLeading : Str → Str
  | [] => []
  | c :: value => if isWildcard c then value else c :: value

def dropTrailing (value : Str) : Str :=
  match value.getLast? with
  | some c => if isWildcard c then value.dropLast else value
  | none => value

/-- `re.match(r'.*[^\\][_%]', value)`: the dot does not pass a line feed. -/
def innerWildcard : Str → Bool
  | a :: b :: rest => (a ≠ '\\' && isWildcard b) || (a ≠ '\n' && innerWildcard (b :: rest))
  | _ => false

/-- `value.replace` of an escaped character by the character. -/
def replaceEscaped (w : Char) : Str → Str
  | '\\' :: c :: rest =>
    if c = w then w :: replaceEscaped w rest else '\\' :: replaceEscaped w (c :: rest)
  | c :: rest => c :: replaceEscaped w rest
  | [] => []

def stripped (value : Str) : Str := dropTrailing (dropLeading value)

/-- The text to search for; a pattern with inner wildcards gives none. -/
def normalizePattern (value : Str) : Option Str :=
  if innerWildcard (stripped value) then none
  else some (replaceEscaped '_' (replaceEscaped '%' (stripped value)))

/-! Criteria. -/

/-- `make_or`, on conditions of which some may be None. -/
def makeOr (values : List (Option Str)) : Option Str :=
  match values.filterMap (fun x => if x = some "()".toList then none else x) with
  | [] => none
  | value :: values =>
    some (values.foldl (fun x y => "(OR ".toList ++ x ++ ' ' :: y ++ [')']) value)

namespace ImapFdw

variable (t : ImapFdw)

def valueStr : QualValue → Str
  | .null => "None".toList
  | .text s => s
  | .array elems => t.listStr elems

/-- The prefix of the criterion and the value after a look for the name of a flag. -/
def negation (key : Str) (operator : Operator) (value : QualValue) : Str × QualValue :=
  if operator.isNegated then
    let pre := if some key = t.flags_column then "UN".toList else "NOT ".toList
    match value with
    | .text s => if (standardFlag s).isSome then ([], .text (upper s)) else (pre, value)
    | _ => (pre, value)
  else ([], value)

/-- The key for one flag. -/
def flagKey (atom : Option Str) : Except Raise Str :=
  match atom with
  | none => .error .attributeError
  | some atom => .ok ((standardFlag atom).getD ("KEYWORD ".toList ++ atom))

/-- What a loop over the value goes through. -/
def atoms : QualValue → Except Raise (List (Option Str))
  | .null => .error .typeError
  | .text s => .ok (s.map fun c => some [c])
  | .array elems => .ok elems

def spaced : List Str → Str
  | [] => []
  | [s] => s
  | s :: ss => s ++ ' ' :: spaced ss

/-- The criterion for a value whose wildcards are gone. -/
def keyCondition (key : Str) (operator : Operator) (value : QualValue) :
    Except Raise (Option Str) :=
  let (pre, value) := t.negation key operator value
  if some key = t.flags_column then
    match operator with
    | .contains => do
      let keys ← (← atoms value).mapM flagKey
      return some (spaced (keys.map (pre ++ ·)))
    | .overlaps => do
      let keys ← (← atoms value).mapM flagKey
      return makeOr (keys.map fun key => some (parens (pre ++ key)))
    | _ => .ok (some (pre ++ "\\\\".toList ++ t.valueStr value))
  else if some key = t.payload_column then
    .ok (some (pre ++ "TEXT ".toList ++ quoted (t.valueStr value)))
  else if key ∈ SEARCH_HEADERS then
    .ok (some (pre ++ key ++ ' ' :: quoted (t.valueStr value)))
  else
    match value with
    | .null => .error .noMatchPossible
    | .text [] => .error .noMatchPossible
    | .array [] => .error .noMatchPossible
    | value => .ok (some ("HEADER ".toList ++ key ++ ' ' :: quoted (t.valueStr value)))

def makeCondition (key : Str) (operator : Operator) (value : QualValue) :
    Except Raise (Option Str) :=
  match operator with
  | .other _ => .ok (some [])
  | operator =>
    match value with
    | .text s =>
      if operator.isPattern then
        match normalizePattern s with
        | none => .ok (some [])
        | some s => t.keyCondition key operator (.text s)
      else t.keyCondition key operator value
    | value => t.keyCondition key operator value

def qualConditions (qual : Qual) : Except Raise (List (Option Str)) :=
  match qual.value with
  | .any elems => do
    let values ← elems.mapM fun value =>
      t.makeCondition qual.field_name qual.operator (element value)
    return [makeOr (values.map fun c => some (parens (c.getD "None".toList)))]
  | .all elems => elems.mapM fun value =>
      t.makeCondition qual.field_name qual.operator (element value)
  | .scalar value => do
    return [← t.makeCondition qual.field_name qual.operator value]

def extractConditions (quals : List Qual) : Except Raise (List Str) := do
  let conditions ← quals.mapM t.qualConditions
  return conditions.flatten.filterMap (fun x => if x = some "()".toList then none else x)

end ImapFdw

/-! What the quals say of a mail. -/

/-- A mail with the text of its payload column, which is part of the mail. -/
structure Message extends Mail where
  payload : Str
  payload_infix : payload <:+: text

inductive ColumnValue
  | text (s : Str)
  | array (elems : List Str)

def ImapFdw.column (t : ImapFdw) (m : Message) (key : Str) : ColumnValue :=
  if some key = t.payload_column then .text m.payload
  else if some key = t.flags_column then .array m.flags
  else .text (m.header key)

/-- The letter case that ILIKE and the server ignore, and the operators that are not
translated. -/
structure Comparison where
  fold : Char → Char
  other : Str → ColumnValue → QualValue → Prop

namespace Comparison

variable (S : Comparison)

def exact (a c : Char) : Bool := a = c

def folded (a c : Char) : Bool := S.fold a = S.fold c

/-- The comparison is true; with a NULL, or on values of other types, it never is. -/
def Holds : Operator → ColumnValue → QualValue → Prop
  | .like, .text s, .text p => like exact p s = true
  | .notLike, .text s, .text p => like exact p s = false
  | .ilike, .text s, .text p => like S.folded p s = true
  | .notIlike, .text s, .text p => like S.folded p s = false
  | .eq, .text s, .text v => s = v
  | .ne, .text s, .text v => s ≠ v
  | .eq, .array fs, .array vs => fs.map some = vs
  | .ne, .array fs, .array vs => fs.map some ≠ vs
  | .contains, .array fs, .array vs => ∀ v ∈ vs, ∃ f ∈ fs, v = some f
  | .overlaps, .array fs, .array vs => ∃ f ∈ fs, some f ∈ vs
  | .other name, col, v => S.other name col v
  | _, _, _ => False

/-- `IS NOT NULL` arrives as `<>` with None, and no column of a mail is NULL. -/
def QualHolds (t : ImapFdw) (m : Message) (q : Qual) : Prop :=
  match q.value with
  | .scalar v => S.Holds q.operator (t.column m q.field_name) v ∨ (q.operator = .ne ∧ v = .null)
  | .any vs => ∃ v ∈ vs, S.Holds q.operator (t.column m q.field_name) (element v)
  | .all vs => ∀ v ∈ vs, S.Holds q.operator (t.column m q.field_name) (element v)

/-- No mail that satisfies the quals is excluded. -/
def KeepsMatches (t : ImapFdw) (quals : List Qual) (m : Message) : Prop :=
  (∀ q ∈ quals, S.QualHolds t m q) →
    ∃ conditions, t.extractConditions quals = .ok conditions ∧
      ∀ c ∈ conditions, Satisfies S.fold m.toMail c

end Comparison

end Multicorn.Imap
