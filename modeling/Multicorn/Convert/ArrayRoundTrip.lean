import Mathlib.Algebra.BigOperators.Ring.List
import Multicorn.Convert.ArrayText

/-! Array values on their way to Python and back: dimensions and NULL elements get lost. -/
namespace Multicorn.Convert
open Multicorn.StateMonad (run_get run_modifyGet run_throw)
open Multicorn.Catalog (Oid)
open Multicorn.Planner (Datum)
open Multicorn.ArrayLiteral

/-- How Python prints the values that are not texts or integers. -/
structure Printer where
  float : UInt64 → List Char
  date : ℤ → ℤ → ℤ → List Char
  datetime : ℤ → ℤ → ℤ → ℤ → ℤ → ℤ → ℤ → List Char
  list : List PyObject → List Char
  list_nil : list [] = ['[', ']']

mutual

/-- An object built from an SQL value, seen as one that a wrapper returns. -/
def PyObject.returned (P : Printer) : PyObject → PyValue
  | .none => .none
  | .int n => .number (decimal n)
  | .float bits => .number (P.float bits)
  | .str s => .unicode s
  | .bytes b => .bytes b
  | .date year month day => .date (P.date year month day)
  | .datetime year month day hour min sec usec =>
    .date (P.datetime year month day hour min sec usec)
  | .list items => .sequence (PyObject.returnedItems P items) (P.list items)

def PyObject.returnedItems (P : Printer) : List PyObject → List PyValue
  | [] => []
  | item :: items => item.returned P :: PyObject.returnedItems P items

end

theorem PyObject.returnedItems_eq (P : Printer) (items : List PyObject) :
    PyObject.returnedItems P items = items.map (PyObject.returned P) := by
  induction items with
  | nil => rfl
  | cons item items ih => rw [PyObject.returnedItems, ih, List.map_cons]

inductive ElemType
  | text
  | int4
  deriving DecidableEq

def ElemType.oid : ElemType → Oid
  | .text => textOid
  | .int4 => int4Oid

def ElemType.arrayOid : ElemType → Oid
  | .text => 1009
  | .int4 => 1007

/-- What the server knows of the element types: the catalog's array types and the input of
integers. -/
structure ElemTypes extends TypeSystem where
  typelem_arrayOid : ∀ et : ElemType, typelem et.arrayOid = some et.oid
  int4in : Bytes → Option ℤ
  int4in_decimal : ∀ n : ℤ, -2 ^ 31 ≤ n → n < 2 ^ 31 → int4in (ascii (decimal n)) = some n

/-- Integers written in decimal. -/
def decimalIn (text : Bytes) : Option ℤ :=
  match fromAscii text with
  | '-' :: digits => if digits.all Char.isDigit then some (-Nat.ofDigitChars 10 digits 0) else none
  | digits => if digits.all Char.isDigit then some (Nat.ofDigitChars 10 digits 0) else none

theorem decimalIn_decimal (n : ℤ) : decimalIn (ascii (decimal n)) = some n := by
  have hread : decimalIn (ascii (decimal n)) = readDecimal (fromAscii (ascii (decimal n))) := rfl
  rw [hread, fromAscii_ascii (decimal_ascii n), readDecimal_decimal]

/-- The two array types of the system catalog. -/
def catalogElemTypes : ElemTypes where
  typelem oid := if oid = 1009 then some textOid else if oid = 1007 then some int4Oid else none
  output _ _ := none
  parseFloat _ := 0
  misread _ _ := none
  misread_ne_none := TypeSystem.crash_ne_none
  typelem_arrayOid et := by cases et <;> rfl
  int4in := decimalIn
  int4in_decimal n _ _ := decimalIn_decimal n

/-- An element as the database holds it: a text is the bytes behind its length. -/
inductive ElemValue
  | varlena (data : Bytes)
  | int4 (n : ℤ)
  deriving DecidableEq

/-- An array with its lower bounds. -/
structure PgArray where
  dims : List ℕ
  lbounds : List ℤ
  elems : List (Option ElemValue)

/-- The values of the type. -/
def ElemType.Holds : ElemType → ElemValue → Prop
  | .text, .varlena data => 0 ∉ data
  | .int4, .int4 n => -2 ^ 31 ≤ n ∧ n < 2 ^ 31
  | _, _ => False

structure StoredArray (et : ElemType) extends PgArray where
  lbounds_length : lbounds.length = dims.length
  pos : ∀ d ∈ dims, 0 < d
  deep : dims.length ≤ maxDim
  size : elems.length = if dims = [] then 0 else dims.prod
  held : ∀ v, some v ∈ elems → et.Holds v

/-- The elements one by one; a NULL stays one, and without one of the others there is no list. -/
def mapElems {α β : Type} (f : α → Option β) : List (Option α) → Option (List (Option β))
  | [] => some []
  | none :: elems => (mapElems f elems).map (none :: ·)
  | some a :: elems => do
    let b ← f a
    let bs ← mapElems f elems
    return some b :: bs

variable (C : Charset) (S : ElemTypes) (P : Printer) (et : ElemType)

def elementIn (text : Bytes) : Option ElemValue :=
  match et with
  | .text => some (.varlena text)
  | .int4 => (S.int4in text).map .int4

/-- `array_in` with the input function of the elements. -/
def readArray (text : Bytes) : Option PgArray := do
  let a ← arrayIn text
  let elems ← mapElems (elementIn S et) a.elems
  return ⟨a.dims, List.replicate a.dims.length 1, elems⟩

/-- The column's input function; a text value is kept as its bytes. -/
def arrayInput : InputFunctions (PgArray ⊕ Bytes) where
  inputFunctionCall _ _ text := (readArray S et text).map .inl
  cstringToText := .inr

/-- `initConversioninfo` for an array column. -/
def arrayColumn (attrname : String) (attnum attndims : ℕ) : ConversionInfo :=
  ⟨attrname, et.arrayOid, -1, attnum, attndims, false⟩

/-- An element as the conversion meets it. A text is decoded on the way; where Python's codec
cannot do that there is no object, and the backend crashes on the list. -/
def ElemValue.datum : ElemValue → Option Datum
  | .varlena data => (C.decode data).map .text
  | .int4 n => some (.int4 n)

/-- A value handed to the wrapper by `datumToPython` and written back by `pyobjectToDatum`. -/
def echo (cinfo : ConversionInfo) (a : PgArray) : Option (PgArray ⊕ Bytes) := do
  let elems ← mapElems (ElemValue.datum C) a.elems
  let object ← datumToPython S.toTypeSystem cinfo.atttypoid (some (.array a.dims elems))
  match pyobjectToDatum C (arrayInput S et) (object.returned P) ⟨cinfo, []⟩ with
  | .ok d _ => some d
  | .error _ _ => none

/-- Python's codec takes a text there and back. -/
def ElemValue.Preserved : ElemValue → Prop
  | .varlena data => ∃ s, C.decode data = some s ∧ C.encode s = some data
  | .int4 _ => True

/-! Element by element. -/

section MapElems
variable {α β γ : Type} {f : α → Option β} {g : β → Option γ}

theorem mapElems_bind (elems : List (Option α)) :
    (mapElems f elems).bind (mapElems g) = mapElems (fun a => (f a).bind g) elems := by
  induction elems with
  | nil => rfl
  | cons elem elems ih =>
    cases elem with
    | none =>
      rw [mapElems, mapElems, ← ih]
      cases mapElems f elems <;> rfl
    | some a =>
      simp only [mapElems, Option.bind_eq_bind, ← ih]
      cases f a with
      | none => rfl
      | some b =>
        cases mapElems f elems with
        | none => cases hb : g b <;> simp [hb]
        | some bs => rfl

theorem mapElems_none_cons {elems : List (Option α)} {bs : List (Option β)}
    (h : mapElems f (none :: elems) = some bs) :
    ∃ bs', mapElems f elems = some bs' ∧ bs = none :: bs' := by
  obtain ⟨bs', hbs', rfl⟩ := Option.map_eq_some_iff.mp h
  exact ⟨bs', hbs', rfl⟩

theorem mapElems_some_cons {a : α} {elems : List (Option α)} {bs : List (Option β)}
    (h : mapElems f (some a :: elems) = some bs) :
    ∃ b bs', f a = some b ∧ mapElems f elems = some bs' ∧ bs = some b :: bs' := by
  obtain ⟨b, hb, h⟩ := Option.bind_eq_some_iff.mp h
  obtain ⟨bs', hbs', h⟩ := Option.bind_eq_some_iff.mp h
  exact ⟨b, bs', hb, hbs', (Option.some.inj h).symm⟩

theorem mapElems_none_mem_iff {elems : List (Option α)} {bs : List (Option β)}
    (h : mapElems f elems = some bs) : none ∈ bs ↔ none ∈ elems := by
  induction elems generalizing bs with
  | nil =>
    obtain rfl := Option.some.inj h
    simp
  | cons elem elems ih =>
    cases elem with
    | none =>
      obtain ⟨bs, -, rfl⟩ := mapElems_none_cons h
      simp
    | some a =>
      obtain ⟨b, bs, -, hbs, rfl⟩ := mapElems_some_cons h
      simp [ih hbs]

theorem mapElems_ne_nil {elems : List (Option α)} {bs : List (Option β)}
    (h : mapElems f elems = some bs) (hne : elems ≠ []) : bs ≠ [] := by
  cases elems with
  | nil => exact absurd rfl hne
  | cons elem elems =>
    cases elem with
    | none =>
      obtain ⟨bs, -, rfl⟩ := mapElems_none_cons h
      exact List.cons_ne_nil _ _
    | some a =>
      obtain ⟨b, bs, -, -, rfl⟩ := mapElems_some_cons h
      exact List.cons_ne_nil _ _

/-- Nothing changes when no element does. -/
theorem mapElems_eq_self_iff {f : α → Option α} {elems : List (Option α)} :
    mapElems f elems = some elems ↔ ∀ a, some a ∈ elems → f a = some a := by
  induction elems with
  | nil => simp [mapElems]
  | cons elem elems ih =>
    cases elem with
    | none => simp [mapElems, ih]
    | some a =>
      constructor
      · intro h
        obtain ⟨b, bs, hb, hbs, heq⟩ := mapElems_some_cons h
        obtain ⟨hhead, rfl⟩ := List.cons.inj heq
        obtain rfl := Option.some.inj hhead
        intro c hc
        rcases List.mem_cons.mp hc with hc | hc
        · obtain rfl := Option.some.inj hc
          exact hb
        · exact ih.mp hbs c hc
      · intro h
        have htail := ih.mpr fun c hc => h c (List.mem_cons_of_mem _ hc)
        simp [mapElems, h a List.mem_cons_self, htail]

end MapElems

/-! Decoding. -/

/-- The values of the type as the conversion meets them. -/
def ElemType.Carries : ElemType → Datum → Prop
  | .text, .text s => Char.ofNat 0 ∉ s
  | .int4, .int4 n => -2 ^ 31 ≤ n ∧ n < 2 ^ 31
  | _, _ => False

def elemObject : Option Datum → PyObject
  | some (.text s) => .str s
  | some (.int4 n) => .int n
  | _ => .none

variable {C S P et}

theorem carries_of_datum {v : ElemValue} {d : Datum} (h : et.Holds v) (hd : v.datum C = some d) :
    et.Carries d := by
  cases et with
  | text =>
    cases v with
    | varlena data =>
      obtain ⟨s, hs, rfl⟩ := Option.map_eq_some_iff.mp hd
      exact C.decode_nul data s hs h
    | int4 n => exact h.elim
  | int4 =>
    cases v with
    | varlena data => exact h.elim
    | int4 n =>
      obtain rfl := Option.some.inj hd
      exact h

theorem carries_of_mapElems {elems : List (Option ElemValue)} {ds : List (Option Datum)}
    (h : ∀ v, some v ∈ elems → et.Holds v) (hds : mapElems (ElemValue.datum C) elems = some ds) :
    ∀ d, some d ∈ ds → et.Carries d := by
  induction elems generalizing ds with
  | nil =>
    obtain rfl := Option.some.inj hds
    exact fun d hd => absurd hd List.not_mem_nil
  | cons elem elems ih =>
    have hrest : ∀ v, some v ∈ elems → et.Holds v := fun v hv => h v (List.mem_cons_of_mem _ hv)
    cases elem with
    | none =>
      obtain ⟨ds, htail, rfl⟩ := mapElems_none_cons hds
      intro d hd
      exact ih hrest htail d (by simpa using hd)
    | some v =>
      obtain ⟨d, ds, hd, htail, rfl⟩ := mapElems_some_cons hds
      intro d' hd'
      rcases List.mem_cons.mp hd' with hd' | hd'
      · obtain rfl := Option.some.inj hd'
        exact carries_of_datum (h v List.mem_cons_self) hd
      · exact ih hrest htail d' hd'

theorem datumToPython_carried {d : Datum} (h : et.Carries d) :
    datumToPython S.toTypeSystem et.oid (some d) = some (elemObject (some d)) := by
  cases et <;> cases d <;> simp_all [ElemType.Carries, ElemType.oid, elemObject, datumToPython,
    datumStringToPython, datumIntToPython, int4Oid, byteaOid, textOid, varcharOid, bpcharOid,
    numericOid, dateOid, timestampOid]

theorem datumArrayToPython_carried {ds : List (Option Datum)}
    (h : ∀ d, some d ∈ ds → et.Carries d) :
    datumArrayToPython S.toTypeSystem et.oid ds = some (ds.map elemObject) := by
  induction ds with
  | nil => simp [datumArrayToPython]
  | cons elem ds ih =>
    have htail := ih fun d hd => h d (List.mem_cons_of_mem _ hd)
    cases elem with
    | none => simp [datumArrayToPython, htail, elemObject]
    | some d =>
      have hd := datumToPython_carried (S := S) (h d List.mem_cons_self)
      simp [datumArrayToPython, htail, hd]

theorem datumToPython_array {dims : List ℕ} {ds : List (Option Datum)}
    (h : ∀ d, some d ∈ ds → et.Carries d) :
    datumToPython S.toTypeSystem et.arrayOid (some (.array dims ds)) =
      some (.list (ds.map elemObject)) := by
  have htypelem := S.typelem_arrayOid et
  have helems := datumArrayToPython_carried (S := S) h
  cases et <;> simp_all [datumToPython, ElemType.arrayOid, int4Oid, byteaOid, textOid, varcharOid,
    bpcharOid, numericOid, dateOid, timestampOid]

/-! Encoding: every element is a text the reader takes for it, but a missing one is written
as nothing at all. -/

/-- The element that is written; without one the text cannot be encoded. -/
def recode (C : Charset) : Datum → Option ElemValue
  | .text s => (C.encode s).map .varlena
  | .int4 n => some (.int4 n)
  | _ => none

theorem preserved_iff (v : ElemValue) : (v.datum C).bind (recode C) = some v ↔ v.Preserved C := by
  cases v with
  | varlena data =>
    cases hdecode : C.decode data with
    | none => simp [ElemValue.datum, ElemValue.Preserved, hdecode]
    | some s => simp [ElemValue.datum, ElemValue.Preserved, recode, hdecode]
  | int4 n => simp [ElemValue.datum, ElemValue.Preserved, recode]

inductive Piece (S : ElemTypes) (et : ElemType) : Option ElemValue → Bytes → Prop
  | missing : Piece S et none []
  | elem {v : ElemValue} {out text : Bytes} (hread : ReadsAs out (some text))
    (hin : elementIn S et text = some v) : Piece S et (some v) out

theorem elemObject_writes {d : Datum} {v : ElemValue} (h : et.Carries d)
    (hv : recode C d = some v) {cinfo : ConversionInfo} (hq : cinfo.needQuote = true) :
    ∃ out, Writes C cinfo ((elemObject (some d)).returned P) out ∧ Piece S et (some v) out := by
  cases et with
  | text =>
    cases d with
    | text s =>
      obtain ⟨text, htext, rfl⟩ := Option.map_eq_some_iff.mp hv
      exact ⟨_, writes_unicode C hq htext, .elem (readsAs_quoted (C.encode_nul _ _ htext h)) rfl⟩
    | _ => exact h.elim
  | int4 =>
    cases d with
    | int4 n =>
      obtain rfl := Option.some.inj hv
      have htext := C.encode_ascii _ (decimal_ascii n)
      refine ⟨_, writes_number C cinfo htext, .elem (readsAs_decimal n) ?_⟩
      simp [elementIn, S.int4in_decimal n h.1 h.2]
    | _ => exact h.elim

theorem elems_write {ds : List (Option Datum)} {vs : List (Option ElemValue)}
    (h : ∀ d, some d ∈ ds → et.Carries d) (hvs : mapElems (recode C) ds = some vs)
    {cinfo : ConversionInfo} (hq : cinfo.needQuote = true) :
    ∃ outs, List.Forall₂ (Writes C cinfo) (PyObject.returnedItems P (ds.map elemObject)) outs ∧
      List.Forall₂ (Piece S et) vs outs := by
  rw [PyObject.returnedItems_eq]
  induction ds generalizing vs with
  | nil =>
    obtain rfl := Option.some.inj hvs
    exact ⟨[], .nil, .nil⟩
  | cons elem ds ih =>
    have hrest : ∀ d, some d ∈ ds → et.Carries d := fun d hd => h d (List.mem_cons_of_mem _ hd)
    cases elem with
    | none =>
      obtain ⟨vs, htail, rfl⟩ := mapElems_none_cons hvs
      obtain ⟨outs, houts, hpieces⟩ := ih hrest htail
      exact ⟨[] :: outs, .cons (writes_none C cinfo) houts, .cons .missing hpieces⟩
    | some d =>
      obtain ⟨v, vs, hv, htail, rfl⟩ := mapElems_some_cons hvs
      obtain ⟨outs, houts, hpieces⟩ := ih hrest htail
      obtain ⟨out, hout, hpiece⟩ :=
        elemObject_writes (P := P) (S := S) (h d List.mem_cons_self) hv hq
      exact ⟨out :: outs, .cons hout houts, .cons hpiece hpieces⟩

/-- `value` is not written: the conversion raises. -/
def Raises (C : Charset) (cinfo : ConversionInfo) (value : PyValue) : Prop :=
  ∀ buffer, ∃ e st, pyobjectToCString C value ⟨cinfo, buffer⟩ = .error e st

theorem elemObject_raises {d : Datum} (h : et.Carries d) (hv : recode C d = none)
    (cinfo : ConversionInfo) : Raises C cinfo ((elemObject (some d)).returned P) := by
  intro buffer
  cases et with
  | text =>
    cases d with
    | text s =>
      have hencode : C.encode s = none := by simpa [recode] using hv
      refine ⟨.unicodeEncodeError, ⟨cinfo, buffer⟩, ?_⟩
      simp [elemObject, PyObject.returned, pyobjectToCString, pyunicodeToCString, asEncodedString,
        hencode, bind, EStateM.bind, throw, throwThe, MonadExceptOf.throw, run_throw]
    | _ => exact h.elim
  | int4 =>
    cases d with
    | int4 n => cases hv
    | _ => exact h.elim

/-- The loop over the elements ends at the first one that cannot be encoded. -/
theorem elems_raise {ds : List (Option Datum)} (h : ∀ d, some d ∈ ds → et.Carries d)
    (hvs : mapElems (recode C) ds = none) {cinfo : ConversionInfo} (hq : cinfo.needQuote = true)
    (buffer : Bytes) :
    ∃ e st, pysequenceItems C (PyObject.returnedItems P (ds.map elemObject)) ⟨cinfo, buffer⟩ =
      .error e st := by
  rw [PyObject.returnedItems_eq]
  induction ds generalizing buffer with
  | nil => cases hvs
  | cons elem ds ih =>
    have hrest : ∀ d, some d ∈ ds → et.Carries d := fun d hd => h d (List.mem_cons_of_mem _ hd)
    cases elem with
    | none =>
      have htail : mapElems (recode C) ds = none := Option.map_eq_none_iff.mp hvs
      have hnone : (elemObject none).returned P = .none := rfl
      rw [List.map_cons, List.map_cons, hnone, pysequenceItems_cons C (writes_none C cinfo)]
      exact ih hrest htail _
    | some d =>
      rw [List.map_cons, List.map_cons]
      cases hv : recode C d with
      | none =>
        obtain ⟨e, st, hraise⟩ :=
          elemObject_raises (P := P) (h d List.mem_cons_self) hv cinfo buffer
        refine ⟨e, st, ?_⟩
        simp only [pysequenceItems, bind, EStateM.bind, hraise]
      | some v =>
        have htail : mapElems (recode C) ds = none := by
          cases htail : mapElems (recode C) ds with
          | none => rfl
          | some vs => simp [mapElems, hv, htail] at hvs
        obtain ⟨out, hout, -⟩ :=
          elemObject_writes (P := P) (S := catalogElemTypes) (h d List.mem_cons_self) hv hq
        rw [pysequenceItems_cons C hout]
        exact ih hrest htail _

/-- With all elements there, what is written is read as a one-dimensional array of them. -/
theorem readArray_pieces {elems : List (Option ElemValue)} {outs : List Bytes}
    (h : List.Forall₂ (Piece S et) elems outs) (hne : elems ≠ []) (hnone : none ∉ elems) :
    readArray S et (braced (commaSep outs)) = some ⟨[elems.length], [1], elems⟩ := by
  have hlit : ∃ texts : List Bytes, List.Forall₂ (Literal []) outs (texts.map fun text => [some text]) ∧
      mapElems (elementIn S et) (texts.map some) = some elems := by
    clear hne
    induction h with
    | nil => exact ⟨[], .nil, rfl⟩
    | @cons elem out elems outs hpiece hpieces ih =>
      obtain ⟨texts, htexts, hin⟩ := ih fun h => hnone (List.mem_cons_of_mem _ h)
      cases hpiece with
      | missing => exact absurd List.mem_cons_self hnone
      | @elem v _ text hread hv =>
        refine ⟨text :: texts, .cons ⟨_, hread, rfl⟩ htexts, ?_⟩
        simp [mapElems, hv, hin]
  obtain ⟨texts, htexts, hin⟩ := hlit
  have hpos : 0 < outs.length := h.length_eq ▸ List.length_pos_iff.mpr hne
  have hflat : (texts.map fun text => [some text]).flatten = texts.map some := by
    clear htexts hin
    induction texts with
    | nil => rfl
    | cons text texts ih => simp [ih]
  have hliteral : Literal [outs.length] (braced (commaSep outs)) (texts.map some) :=
    ⟨hpos, outs, _, rfl, htexts, rfl, hflat.symm⟩
  have harray := arrayIn_literal hliteral (by simp) (by simp [maxDim])
  simp [readArray, harray, hin, h.length_eq]

/-- A missing element makes the text malformed, or an empty array when there is no other. -/
theorem readArray_missing {elems : List (Option ElemValue)} {outs : List Bytes}
    (h : List.Forall₂ (Piece S et) elems outs) (hnone : none ∈ elems) :
    readArray S et (braced (commaSep outs)) = none ∨
      readArray S et (braced (commaSep outs)) = some ⟨[], [], []⟩ := by
  have hsplit : ∃ texts rest, outs = texts ++ [] :: rest ∧ ∀ text ∈ texts, ∃ e, ReadsAs text e := by
    induction h with
    | nil => exact absurd hnone List.not_mem_nil
    | @cons elem out elems outs hpiece hpieces ih =>
      cases hpiece with
      | missing => exact ⟨[], outs, rfl, fun _ h => absurd h List.not_mem_nil⟩
      | elem hread hd =>
        obtain ⟨texts, rest, rfl, htexts⟩ := ih (by simpa using hnone)
        refine ⟨out :: texts, rest, rfl, fun text ht => ?_⟩
        rcases List.mem_cons.mp ht with rfl | ht
        · exact ⟨_, hread⟩
        · exact htexts text ht
  obtain ⟨texts, rest, rfl, htexts⟩ := hsplit
  by_cases hmore : texts ≠ [] ∨ rest ≠ []
  · left
    simp [readArray, arrayIn_missing htexts hmore]
  · rw [not_or, not_not, not_not] at hmore
    obtain ⟨rfl, rfl⟩ := hmore
    right
    have hempty : arrayIn (braced (commaSep [[]])) = some ⟨[], []⟩ := by decide
    simp [readArray, hempty, mapElems]

theorem nul_not_mem_pieces {elems : List (Option ElemValue)} {outs : List Bytes}
    (h : List.Forall₂ (Piece S et) elems outs) : 0 ∉ braced (commaSep outs) := by
  have houts : ∀ out ∈ outs, 0 ∉ out := by
    induction h with
    | nil => exact fun _ h => absurd h List.not_mem_nil
    | cons hpiece _ ih =>
      refine List.forall_mem_cons.mpr ⟨?_, ih⟩
      cases hpiece with
      | missing => exact List.not_mem_nil
      | elem hread _ => exact hread.nul
  simp [braced, nul_not_mem_commaSep houts, openBrace, closeBrace]

/-- What the written text is turned into. -/
theorem echo_of_writes {a : PgArray} {ds : List (Option Datum)}
    (hds : mapElems (ElemValue.datum C) a.elems = some ds) (h : ∀ d, some d ∈ ds → et.Carries d)
    {attrname : String} {attnum attndims : ℕ} {out : Bytes}
    (hout : Writes C (arrayColumn et attrname attnum attndims)
      ((PyObject.list (ds.map elemObject)).returned P) out) (hnul : 0 ∉ out) :
    echo C S P et (arrayColumn et attrname attnum attndims) a =
      (readArray S et out).map .inl := by
  have hwritten := hout []
  have htype : ¬ (et.arrayOid = byteaOid ∨ et.arrayOid = textOid ∨ et.arrayOid = varcharOid) := by
    cases et <;> decide
  have hcinfo : (arrayColumn et attrname attnum attndims).atttypoid = et.arrayOid := rfl
  rw [List.nil_append] at hwritten
  rw [echo, hcinfo, hds]
  simp only [Option.bind_eq_bind, Option.bind_some, datumToPython_array h]
  simp only [pyobjectToDatum, bind, EStateM.bind, hwritten,
    get, getThe, MonadStateOf.get, run_get, hcinfo, htype, if_false, cstring_eq_self hnul,
    arrayInput]
  cases readArray S et out <;> rfl

/-- Nothing comes back of an element that is not encoded. -/
theorem echo_of_raises {a : PgArray} {ds : List (Option Datum)}
    (hds : mapElems (ElemValue.datum C) a.elems = some ds) (h : ∀ d, some d ∈ ds → et.Carries d)
    {cinfo : ConversionInfo} (hcinfo : cinfo.atttypoid = et.arrayOid)
    (hraise : Raises C cinfo ((PyObject.list (ds.map elemObject)).returned P)) :
    echo C S P et cinfo a = none := by
  obtain ⟨e, st, hraise⟩ := hraise []
  rw [echo, hcinfo, hds]
  simp only [Option.bind_eq_bind, Option.bind_some, datumToPython_array h]
  simp only [pyobjectToDatum, bind, EStateM.bind, hraise]

theorem sequence_raises {cinfo : ConversionInfo} (hdims : cinfo.attndims ≠ 0)
    {items : List PyValue} (str : List Char)
    (h : ∀ buffer, ∃ e st, pysequenceItems C items ⟨cinfo.inner, buffer⟩ = .error e st) :
    Raises C cinfo (.sequence items str) := by
  intro buffer
  obtain ⟨e, st, hitems⟩ := h (buffer ++ [123])
  refine ⟨e, st, ?_⟩
  simp only [ConversionInfo.inner] at hitems
  simp [pyobjectToCString, bind, EStateM.bind, get, getThe, MonadStateOf.get, run_get, hdims,
    append, setCinfo, modify, modifyGet, MonadStateOf.modifyGet, run_modifyGet, hitems]

/-- An array without dimensions is printed as Python prints a list, which no array is read
from. -/
theorem echo_empty {a : PgArray} (helems : a.elems = []) (attrname : String) (attnum : ℕ) :
    echo C S P et (arrayColumn et attrname attnum 0) a = none := by
  have hbrackets : C.encode ['[', ']'] = some [91, 93] := by
    refine C.encode_ascii _ fun c hc => ?_
    obtain rfl | rfl : c = '[' ∨ c = ']' := by simpa using hc
    · decide
    · decide
  have hout : Writes C (arrayColumn et attrname attnum 0)
      ((PyObject.list (([] : List (Option Datum)).map elemObject)).returned P) [91, 93] := by
    rw [PyObject.returned, List.map_nil, P.list_nil]
    exact writes_sequence_flat C rfl rfl hbrackets _
  have hread : readArray S et [91, 93] = none := by
    simp [readArray, show arrayIn [91, 93] = none by decide]
  have hds : mapElems (ElemValue.datum C) a.elems = some [] := by rw [helems, mapElems]
  rw [echo_of_writes hds (fun d hd => absurd hd List.not_mem_nil) hout (by decide), hread]
  rfl

/-- A stored array comes back as it was exactly when it has one dimension, starts at 1 and
every element is there and is preserved by the codec. -/
theorem echo_eq_self_iff (a : StoredArray et) (attrname : String) (attnum : ℕ) :
    echo C S P et (arrayColumn et attrname attnum a.dims.length) a.toPgArray =
        some (.inl a.toPgArray) ↔
      a.dims.length = 1 ∧ a.lbounds = [1] ∧ ∀ elem ∈ a.elems, ∃ v, elem = some v ∧ v.Preserved C := by
  by_cases hdims : a.dims = []
  · -- without dimensions the list is printed as Python would
    have helems : a.elems = [] := List.length_eq_zero_iff.mp (by simpa [hdims] using a.size)
    rw [hdims, List.length_nil, echo_empty helems]
    simp
  have hne : a.elems ≠ [] := by
    intro hnil
    have hsize := a.size
    rw [if_neg hdims, hnil, List.length_nil] at hsize
    exact absurd (List.prod_eq_zero_iff.mp hsize.symm) fun h => (a.pos 0 h).false
  have hpreserved : mapElems (fun v => (v.datum C).bind (recode C)) a.elems = some a.elems ↔
      ∀ v, some v ∈ a.elems → v.Preserved C := by
    rw [mapElems_eq_self_iff]
    exact forall₂_congr fun v _ => preserved_iff v
  have hall : (∀ elem ∈ a.elems, ∃ v, elem = some v ∧ v.Preserved C) ↔
      none ∉ a.elems ∧ ∀ v, some v ∈ a.elems → v.Preserved C := by
    constructor
    · intro h
      constructor
      · intro hnone
        obtain ⟨v, hv, -⟩ := h none hnone
        cases hv
      · intro v hv
        obtain ⟨w, hw, hpres⟩ := h _ hv
        obtain rfl := Option.some.inj hw
        exact hpres
    · rintro ⟨hnone, hpres⟩ elem helem
      cases elem with
      | none => exact absurd helem hnone
      | some v => exact ⟨v, rfl, hpres v helem⟩
  rw [hall, ← hpreserved, ← mapElems_bind]
  cases hds : mapElems (ElemValue.datum C) a.elems with
  | none =>
    have hlost : echo C S P et (arrayColumn et attrname attnum a.dims.length) a.toPgArray = none := by
      rw [echo, hds]
      rfl
    simp [hlost]
  | some ds =>
    have hcarries := carries_of_mapElems a.held hds
    let cinfo := arrayColumn et attrname attnum a.dims.length
    have hattndims : cinfo.attndims ≠ 0 := by simpa [cinfo, arrayColumn] using hdims
    have hquote : cinfo.inner.needQuote = true := rfl
    cases hvs : mapElems (recode C) ds with
    | none =>
      have hraise := sequence_raises hattndims (P.list (ds.map elemObject))
        fun buffer => elems_raise (P := P) hcarries hvs hquote buffer
      have hlost : echo C S P et cinfo a.toPgArray = none :=
        echo_of_raises hds hcarries rfl (by rw [PyObject.returned]; exact hraise)
      simp [cinfo] at hlost
      simp [hlost, hvs]
    | some vs =>
      obtain ⟨outs, houts, hpieces⟩ := elems_write (P := P) (S := S) hcarries hvs hquote
      have hout : Writes C cinfo ((PyObject.list (ds.map elemObject)).returned P)
          (braced (commaSep outs)) := by
        rw [PyObject.returned]
        exact writes_sequence C hattndims houts _
      have hnull : none ∈ vs ↔ none ∈ a.elems :=
        (mapElems_none_mem_iff hvs).trans (mapElems_none_mem_iff hds)
      have hvsne : vs ≠ [] := mapElems_ne_nil hvs (mapElems_ne_nil hds hne)
      rw [echo_of_writes hds hcarries hout (nul_not_mem_pieces hpieces), Option.bind_some, hvs]
      by_cases hnone : none ∈ a.elems
      · have hlost : readArray S et (braced (commaSep outs)) ≠ some a.toPgArray := by
          rcases readArray_missing hpieces (hnull.mpr hnone) with h | h
          · simp [h]
          · rw [h]
            intro heq
            exact hdims (congrArg PgArray.dims (Option.some.inj heq)).symm
        simp [hnone, hlost]
      · rw [readArray_pieces hpieces hvsne (fun h => hnone (hnull.mp h))]
        constructor
        · intro h
          have hback : (⟨[vs.length], [1], vs⟩ : PgArray) = a.toPgArray := by simpa using h
          exact ⟨by rw [← hback]; rfl, by rw [← hback], hnone, by rw [← hback]⟩
        · rintro ⟨hone, hlow, -, hsame⟩
          obtain rfl := Option.some.inj hsame
          obtain ⟨d, hd⟩ := List.length_eq_one_iff.mp hone
          have hsize := a.size
          rw [if_neg hdims, hd, List.prod_singleton] at hsize
          rw [hsize, ← hd, ← hlow]
          rfl

def plainPrinter : Printer where
  float _ := []
  date _ _ _ := []
  datetime _ _ _ _ _ _ _ := []
  list _ := ['[', ']']
  list_nil := rfl

/-- `{a,NULL}` -/
def withNull : StoredArray .text where
  dims := [2]
  lbounds := [1]
  elems := [some (.varlena [97]), none]
  lbounds_length := rfl
  pos := by decide
  deep := by decide
  size := rfl
  held v h := by
    obtain rfl : v = .varlena [97] := by simpa using h
    exact (by decide : (0 : UInt8) ∉ [97])

/-- `{{1,2}}` -/
def oneByTwo : StoredArray .int4 where
  dims := [1, 2]
  lbounds := [1, 1]
  elems := [some (.int4 1), some (.int4 2)]
  lbounds_length := rfl
  pos := by decide
  deep := by decide
  size := rfl
  held v h := by
    obtain rfl | rfl : v = .int4 1 ∨ v = .int4 2 := by simpa using h
    · exact ⟨by decide, by decide⟩
    · exact ⟨by decide, by decide⟩

/-- The first is refused by `array_in`, the second comes back as `{1,2}`. -/
theorem echo_withNull_oneByTwo :
    echo asciiCharset catalogElemTypes plainPrinter .text (arrayColumn .text "tags" 1 1)
        withNull.toPgArray ≠ some (.inl withNull.toPgArray) ∧
    echo asciiCharset catalogElemTypes plainPrinter .int4 (arrayColumn .int4 "tags" 1 2)
        oneByTwo.toPgArray ≠ some (.inl oneByTwo.toPgArray) := by
  constructor
  · intro h
    have hnone : (echo asciiCharset catalogElemTypes plainPrinter .text
        (arrayColumn .text "tags" 1 1) withNull.toPgArray).isNone = true := by decide +kernel
    rw [h] at hnone
    exact absurd hnone (by decide)
  · intro h
    have hflat : ((echo asciiCharset catalogElemTypes plainPrinter .int4
        (arrayColumn .int4 "tags" 1 2) oneByTwo.toPgArray).any fun
          | .inl a => a.dims = [2]
          | .inr _ => false) = true := by decide +kernel
    rw [h] at hflat
    exact absurd hflat (by decide)

end Multicorn.Convert
