import Multicorn.Convert.Datum
import Multicorn.Planner.Restrictions

/-! Quals as the wrapper gets them, with Python objects for their values. -/
namespace Multicorn.Planner
open Multicorn.Catalog (Oid TupleDesc)
open Multicorn.Convert

/-- The type for the conversion; a qual without one has the column's. -/
def qualType (desc : TupleDesc) (q : MulticornBaseQual) : Oid :=
  if q.typeoid = 0 ∨ q.typeoid = 4294967295 then
    (desc[(q.varattno - 1).toNat]?).elim 0 (·.atttypid)
  else q.typeoid

/-- An object read as a value; `None` is NULL. -/
def readObject (sqlValue : PyObject → Datum) : PyObject → Option Datum
  | .none => none
  | object => some (sqlValue object)

/-- The SQL value of a type that a Python object stands for. A boolean arrives as its output text,
and a list is the array of its items. -/
structure Reading (T : TypeSystem) where
  sqlValue : Oid → PyObject → Datum
  sqlValue_bool : ∀ b object, datumToPython T boolOid (some (.bool b)) = some object →
    sqlValue boolOid object = .bool b
  sqlValue_list : ∀ type typelem items, T.typelem type = some typelem →
    sqlValue type (.list items) = .array [items.length] (items.map (readObject (sqlValue typelem)))

variable {T : TypeSystem} (V : Reading T) (desc : TupleDesc)

/-- What a value of a type stands for after its conversion; there may be no object for it. -/
def Reading.handedValue (type : Oid) : Option Datum → Option (Option Datum)
  | none => some none
  | some d => (datumToPython T type (some d)).map fun object => some (V.sqlValue type object)

/-- The qual with the value that the wrapper reads. -/
def MulticornConstQual.handed (q : MulticornConstQual) : Option MulticornConstQual :=
  (V.handedValue (qualType desc q.base) q.value).map fun value => { q with value := value }

variable (S : SqlSemantics)

/-- Every row that passes the clause passes each qual that is made of it, as the wrapper reads
it. -/
def QualsSound (relid : ℕ) (e : Expr) : Prop :=
  ∀ ρ ρ₀, AtScanStart relid ρ ρ₀ → IsTrue S ρ e →
    ∀ q ∈ extractRestrictions S {relid} e, ∀ c, executeQual S ρ₀ q = some c →
      ∀ c', c.handed V desc = some c' → c'.HoldsOn S (ρ.vars relid q.varattno)

theorem handed_base {c c' : MulticornConstQual} (h : c.handed V desc = some c') :
    c'.base = c.base := by
  obtain ⟨value, -, rfl⟩ := Option.map_eq_some_iff.mp h
  rfl

theorem handed_of_null {c c' : MulticornConstQual} (hnull : c.value = none)
    (h : c.handed V desc = some c') : c' = c := by
  obtain ⟨value, hvalue, rfl⟩ := Option.map_eq_some_iff.mp h
  rw [hnull] at hvalue
  obtain rfl := Option.some.inj hvalue
  rw [← hnull]

/-- Booleans stay what they are. -/
theorem handed_of_bool {c c' : MulticornConstQual} {b : Bool} (htype : c.base.typeoid = boolOid)
    (hvalue : c.value = some (.bool b)) (h : c.handed V desc = some c') : c' = c := by
  obtain ⟨value, hhanded, rfl⟩ := Option.map_eq_some_iff.mp h
  have hqual : qualType desc c.base = boolOid := by
    rw [qualType, htype, if_neg (by decide)]
  rw [hvalue, hqual] at hhanded
  obtain ⟨object, hobject, rfl⟩ := Option.map_eq_some_iff.mp hhanded
  rw [V.sqlValue_bool b object hobject, ← hvalue]

/-! Objects by their kind: a text is what the type's input makes of it. -/

section Objects

variable (T : TypeSystem) (repr : UInt64 → List Char)

mutual

def objectValue (type : Oid) : PyObject → Datum
  | .none => .record []
  | .int n => .int4 n
  | .float bits => .numeric (repr bits)
  | .str s =>
    if type = boolOid then .bool (s = ['t'])
    else if type ∈ [textOid, varcharOid, bpcharOid] then .text s
    else .other type s
  | .bytes b => .bytea b
  | .date year month day => .date year month day
  | .datetime year month day hour min sec usec => .timestamp year month day hour min sec usec
  | .list items => .array [items.length] (itemValues ((T.typelem type).getD 0) items)

def itemValues (typelem : Oid) : List PyObject → List (Option Datum)
  | [] => []
  | .none :: items => none :: itemValues typelem items
  | item :: items => some (objectValue typelem item) :: itemValues typelem items

end

theorem itemValues_eq (typelem : Oid) (items : List PyObject) :
    itemValues T repr typelem items = items.map (readObject (objectValue T repr typelem)) := by
  induction items with
  | nil => rfl
  | cons item items ih => cases item <;> simp [itemValues, readObject, ih]

/-- The reading of a type system that writes booleans as `t` and `f`. -/
def objectReading (htypelem : T.typelem boolOid = none)
    (houtput : ∀ b text, T.output boolOid (some (.bool b)) = some text →
      text = if b then ['t'] else ['f']) : Reading T where
  sqlValue := objectValue T repr
  sqlValue_bool b object h := by
    have hunknown : datumToPython T boolOid (some (.bool b)) =
        (T.output boolOid (some (.bool b))).map .str := by
      simp only [datumToPython, htypelem]
      rfl
    rw [hunknown] at h
    obtain ⟨text, htext, rfl⟩ := Option.map_eq_some_iff.mp h
    rw [houtput b text htext]
    cases b <;> simp [objectValue]
  sqlValue_list type typelem items h := by
    rw [objectValue, itemValues_eq, h, Option.getD_some]

end Objects

end Multicorn.Planner
