import Mathlib.Data.List.Induction
import Multicorn.General.LdapFilter

/-! The LDAP wrapper's search request: what becomes of the quals, and the filter that the
request is the text of. -/
namespace Multicorn.Ldap
open Multicorn.LdapFilter

/-- `str()` of an integer or of a float is made of letters, digits, signs and points. -/
def numberChar (c : Char) : Bool := c.isAlphanum || c = '+' || c = '-' || c = '.'

structure Number where
  text : Str
  chars : text.all numberChar = true

inductive Atom
  | str (s : Str)
  | number (n : Number)
  | none

/-- A scalar, or the elements of an array. -/
inductive Value
  | atom (a : Atom)
  | list (elems : List Atom)

/-- The operator's name; under ANY or ALL it comes as a tuple with a flag. -/
inductive Operator
  | scalar (name : Str)
  | array (name : Str) (useOr : Bool)

def Operator.name : Operator → Str
  | .scalar name => name
  | .array name _ => name

structure Qual where
  field_name : Str
  operator : Operator
  value : Value

structure ColumnDefinition where
  column_name : Str
  type_name : Str

/-- The options and columns of the table, and which characters Python prints unescaped. -/
structure LdapFdw where
  object_class : Str
  field_list : List ColumnDefinition
  isprintable : Char → Bool

def SPECIAL_CHARS : List (Char × Str) :=
  [('*', "\\2a".toList), ('(', "\\28".toList), (')', "\\29".toList), ('\\', "\\5c".toList),
    ('\x00', "\\00".toList), ('/', "\\2f".toList)]

def translateChar (c : Char) : Str := (SPECIAL_CHARS.lookup c).getD [c]

def translate (s : Str) : Str := s.flatMap translateChar

/-- `replace("%", "*")`. -/
def replacePercent (s : Str) : Str := s.map fun c => if c = '%' then '*' else c

/-! Python's `str()` of a value that is not a string. -/

def hexChar (n : ℕ) : Char := "0123456789abcdef".toList.getD n '0'

def hexText : ℕ → ℕ → Str
  | 0, _ => []
  | width + 1, n => hexText width (n / 16) ++ [hexChar (n % 16)]

/-- A string with single quotes only is shown in double quotes. -/
def quoteOf (s : Str) : Char := if '\'' ∈ s ∧ '"' ∉ s then '"' else '\''

namespace LdapFdw

variable (t : LdapFdw)

def printed (c : Char) : Bool :=
  (' ' ≤ c && c ≤ '~') || ('~' < c && c ≠ '\x7f' && t.isprintable c)

def reprChar (quote c : Char) : Str :=
  if c = quote ∨ c = '\\' then ['\\', c]
  else if c = '\t' then ['\\', 't']
  else if c = '\n' then ['\\', 'n']
  else if c = '\r' then ['\\', 'r']
  else if t.printed c then [c]
  else if c.toNat < 0x100 then '\\' :: 'x' :: hexText 2 c.toNat
  else if c.toNat < 0x10000 then '\\' :: 'u' :: hexText 4 c.toNat
  else '\\' :: 'U' :: hexText 8 c.toNat

def repr : Atom → Str
  | .str s => quoteOf s :: (s.flatMap (t.reprChar (quoteOf s)) ++ [quoteOf s])
  | .number n => n.text
  | .none => "None".toList

def elemsStr : List Atom → Str
  | [] => []
  | [a] => t.repr a
  | a :: elems => t.repr a ++ ',' :: ' ' :: elemsStr elems

def str : Value → Str
  | .atom (.str s) => s
  | .atom a => t.repr a
  | .list elems => '[' :: (t.elemsStr elems ++ [']'])

/-! The request. -/

def likeOp : Str := ['~', '~']

def eqOp : Str := ['=']

/-- What a qual puts on the right of the equals sign. -/
def val (operator : Str) : Value → Str
  | .atom (.str s) => if operator = likeOp then replacePercent (translate s) else translate s
  | value => t.str value

def addQual (request : Str) (qual : Qual) : Str :=
  let operator := qual.operator.name
  if operator = eqOp ∨ operator = likeOp then
    "(&".toList ++ request ++ '(' :: (qual.field_name ++ '=' :: (t.val operator qual.value ++ "))".toList))
  else request

/-- The filter string that `execute` sends. -/
def request (quals : List Qual) : Str :=
  quals.foldl t.addQual ("(objectClass=".toList ++ t.object_class ++ [')'])

end LdapFdw

/-! The filter that is meant. -/

def Qual.pushed (qual : Qual) : Bool :=
  qual.operator.name = LdapFdw.eqOp || qual.operator.name = LdapFdw.likeOp

namespace LdapFdw

variable (t : LdapFdw)

def classItem : Filter := .item "objectClass".toList .equal t.object_class

def qualItem (qual : Qual) : Filter :=
  .item qual.field_name .equal (t.val qual.operator.name qual.value)

/-- One conjunction for each qual that is pushed, around those before it. -/
def filter (quals : List Qual) : Filter :=
  quals.foldl (fun f qual => if qual.pushed then .and [f, t.qualItem qual] else f) t.classItem

theorem filter_concat (quals : List Qual) (qual : Qual) :
    t.filter (quals ++ [qual]) =
      if qual.pushed then .and [t.filter quals, t.qualItem qual] else t.filter quals := by
  simp [filter]

theorem request_concat (quals : List Qual) (qual : Qual) :
    t.request (quals ++ [qual]) = t.addQual (t.request quals) qual := by
  simp [request]

theorem addQual_pushed {request : Str} {qual : Qual} (h : qual.pushed = true) :
    t.addQual request qual = "(&".toList ++ request ++
      '(' :: (qual.field_name ++ '=' :: (t.val qual.operator.name qual.value ++ "))".toList)) := by
  simp only [Qual.pushed, Bool.or_eq_true, decide_eq_true_eq] at h
  exact if_pos h

theorem addQual_other {request : Str} {qual : Qual} (h : qual.pushed = false) :
    t.addQual request qual = request := by
  simp only [Qual.pushed, Bool.or_eq_false_iff, decide_eq_false_iff_not] at h
  exact if_neg (by tauto)

/-- The request is the text of the filter that is meant, whatever the quals hold. -/
theorem text_filter (quals : List Qual) : (t.filter quals).text = t.request quals := by
  induction quals using List.reverseRecOn with
  | nil => simp [filter, request, classItem, Filter.text, FilterType.text]
  | append_singleton quals qual ih =>
    rw [filter_concat, request_concat]
    by_cases hp : qual.pushed = true
    · rw [if_pos hp, t.addQual_pushed hp, ← ih]
      simp [Filter.text, Filter.texts, qualItem, FilterType.text]
    · rw [if_neg hp, t.addQual_other (by simpa using hp), ih]

/-- What the grammar asks of a qual: an attribute to the left and a value to the right. -/
def ValidQual (qual : Qual) : Prop :=
  attributeDescription qual.field_name = true ∧
    validValue true (t.val qual.operator.name qual.value) = true

theorem qualItem_wf (qual : Qual) : (t.qualItem qual).wf = true ↔ t.ValidQual qual := by
  simp [qualItem, Filter.wf, validItem, ValidQual]

theorem classItem_wf : t.classItem.wf = true ↔ validValue true t.object_class = true := by
  have h : attributeDescription "objectClass".toList = true := by decide
  simp only [classItem, Filter.wf, validItem, h, decide_true, Bool.true_and]

theorem filter_wf (quals : List Qual) : (t.filter quals).wf = true ↔
    validValue true t.object_class = true ∧
      ∀ qual ∈ quals, qual.pushed = true → t.ValidQual qual := by
  induction quals using List.reverseRecOn with
  | nil =>
    change t.classItem.wf = true ↔ _
    rw [classItem_wf]
    simp
  | append_singleton quals qual ih =>
    rw [filter_concat]
    simp only [List.mem_append, List.mem_singleton, or_imp, forall_and, forall_eq]
    by_cases hp : qual.pushed = true
    · rw [if_pos hp]
      simp only [Filter.wf, Filter.wfs, List.isEmpty_cons, Bool.not_false, Bool.true_and,
        Bool.and_true, Bool.and_eq_true, ih, qualItem_wf]
      tauto
    · rw [if_neg hp, ih]
      tauto

/-- The request has this reading when all its parts are in order. -/
theorem request_reads {quals : List Qual} (hclass : validValue true t.object_class = true)
    (h : ∀ qual ∈ quals, qual.pushed = true → t.ValidQual qual) :
    ReadsAs (t.request quals) (t.filter quals) :=
  ⟨(t.filter_wf quals).mpr ⟨hclass, h⟩, t.text_filter quals⟩

end LdapFdw

end Multicorn.Ldap
