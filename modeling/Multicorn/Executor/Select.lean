import Multicorn.General.Recheck
import Multicorn.Modify.NullFlags
import Multicorn.Planner.Limit

/-! A SELECT over one foreign table: what the wrapper is asked for, and what the nodes above
the scan make of its answer. -/
namespace Multicorn.Executor
open Multicorn.Catalog (Attribute Oid TupleDesc)
open Multicorn.Planner
open Multicorn.Convert (PyObject TypeSystem datumToPython datumToPython_ne_none)
open Multicorn.KeyOrder
open Multicorn.Recheck

/-- The `operator` of a `Qual`: a name, or for a list the name with ANY or ALL. -/
inductive QualOperator
  | scalar (name : String)
  | list (name : String) (any : Bool)
  deriving DecidableEq

/-- The Python `Qual`. -/
structure Qual where
  field_name : String
  operator : QualOperator
  value : PyObject

def pythonQual (operatorname : String) (value : PyObject) (attname : String)
    (is_array use_or : Bool) : Qual where
  field_name := attname
  operator := if is_array then .list operatorname use_or else .scalar operatorname
  value := value

/-- The entry of `cinfos`, which only live columns have. -/
def cinfoOf (desc : TupleDesc) (attnum : ℤ) : Option Attribute :=
  if 1 ≤ attnum then (desc[attnum.toNat - 1]?).filter (fun att => !att.attisdropped) else none

theorem liveColumn_of_cinfoOf {r : Relation} {attnum : ℤ} {att : Attribute}
    (h : cinfoOf r.desc attnum = some att) : r.LiveColumn attnum att.attname := by
  unfold cinfoOf at h
  split_ifs at h with hpos
  obtain ⟨hatt, hlive⟩ := Option.filter_eq_some_iff.mp h
  exact ⟨att, hpos, hatt, by simpa using hlive, rfl⟩

/-- A qual as it is handed over; `none` when its value cannot be converted. -/
def qualdefToPython (T : TypeSystem) (desc : TupleDesc) (q : MulticornConstQual) :
    Option Qual := do
  let att ← cinfoOf desc q.base.varattno
  let value ← Modify.qualdefToPython T desc ⟨q.base, Modify.nullableDatum q.base.typeoid q.value⟩
  return pythonQual q.base.opname value att.attname q.base.isArray q.base.useOr

/-- What the wrapper reads is in the object that it is handed. -/
theorem handed_eq_map {T : TypeSystem} (V : Reading T) (desc : TupleDesc)
    (c : MulticornConstQual) :
    c.handed V desc =
      (Modify.qualdefToPython T desc ⟨c.base, Modify.nullableDatum c.base.typeoid c.value⟩).map
        fun object => { c with value := readObject (V.sqlValue (qualType desc c.base)) object } := by
  unfold MulticornConstQual.handed Modify.qualdefToPython
  rw [Modify.nullableDatum_bits]
  cases hvalue : c.value with
  | none => simp [Reading.handedValue, Modify.nullableDatum, readObject]
  | some d =>
    have hnone := datumToPython_ne_none T (qualType desc c.base) (some d)
    cases hobject : datumToPython T (qualType desc c.base) (some d) with
    | none => simp [Reading.handedValue, Modify.nullableDatum, hobject]
    | some object =>
      cases object <;> simp_all [Reading.handedValue, Modify.nullableDatum, readObject]

theorem base_of_executeQual {S : SqlSemantics} {ρ : Env} {b : MulticornBaseQual}
    {c : MulticornConstQual} (h : executeQual S ρ b = some c) : c.base = b := by
  unfold executeQual at h
  split at h <;> cases h <;> rfl

/-- `rt` is the range table and `relid` the foreign table in it. -/
structure Select where
  rt : ℕ → Relation
  relid : ℕ
  targets : List Expr
  clauses : List Expr
  sort_pathkeys : List PathKey

/-- The row of a wrapper: a dictionary from column names. -/
abbrev Record := String → Option Datum

namespace Select

variable (q : Select) (S : SqlSemantics) (T : TypeSystem) (O : OrderSemantics)
  (defaultOpfamily : Oid → Oid) (ρ : Env) (sys : ℤ → Option Datum)

def relation : Relation := q.rt q.relid

/-- The quals of `multicornBeginForeignScan`, after `execute` evaluated them. -/
def constQuals : List MulticornConstQual :=
  (q.clauses.flatMap (extractRestrictions S {q.relid})).filterMap (executeQual S ρ)

/-- The first argument of the wrapper's `execute`. -/
def pythonQuals : Option (List Qual) :=
  (q.constQuals S ρ).mapM (qualdefToPython T q.relation.desc)

/-- The second argument. -/
def columns : Finset String := scanColumns q.rt q.relid q.targets q.clauses

/-- The row that a record becomes. -/
def row (record : Record) : Row := q.relation.rowVars sys record

/-- A live column has the value under its name. -/
theorem row_of_live {attnum : ℤ} {name : String} (h : q.relation.LiveColumn attnum name)
    (record : Record) : q.row sys record attnum = record name := by
  obtain ⟨att, h1, hatt, hlive, rfl⟩ := h
  unfold row Relation.rowVars
  rw [if_neg (by omega), if_neg (by omega), hatt]
  simp [hlive]

def passes (row : Row) : Bool :=
  q.clauses.all fun e => decide (IsTrue S (ρ.withRow q.relid row) e)

def output (row : Row) : List (Option Datum) :=
  q.targets.map (eval S (ρ.withRow q.relid row))

/-- The order of the ORDER BY clause. -/
def le (row row' : Row) : Prop :=
  (lexCompare (q.sort_pathkeys.map (PathKey.order O {q.relid})) row row').isLE

/-- A path that `multicornGetForeignPaths` adds for a wrapper that sorts by the first `m`
keys. -/
def HasPath (m : ℕ) (path : ForeignPath) : Prop :=
  path = ⟨[], none⟩ ∨ ∃ deparsed, deparseSortgroup q.relation {q.relid} q.sort_pathkeys =
    .ok deparsed ∧ sortedForeignPath m deparsed = some path

/-- The recheck of all clauses, a Sort node unless the path promises the order, and the
projection. -/
def Finishes (path : ForeignPath) (answer : List Row) (out : List (List (Option Datum))) :
    Prop :=
  ∃ L : List Row, L.Perm (answer.filter (q.passes S ρ)) ∧
    (if pathkeysContainedIn q.sort_pathkeys path.pathkeys then
      L = answer.filter (q.passes S ρ)
    else L.Pairwise (q.le O)) ∧
    out = L.map (q.output S ρ)

/-- What the query means: the rows of the table that pass, in order, projected. -/
def Returns (table : List Row) (out : List (List (Option Datum))) : Prop :=
  ∃ L : List Row, L.Perm (table.filter (q.passes S ρ)) ∧ L.Pairwise (q.le O) ∧
    out = L.map (q.output S ρ)

/-- The quals, with the values that the wrapper reads. -/
def handedQuals {T : TypeSystem} (V : Reading T) : List MulticornConstQual :=
  (q.constQuals S ρ).filterMap (MulticornConstQual.handed V q.relation.desc)

/-- What the documentation of `execute` asks for: no row is lost that every qual keeps which the
wrapper is given, the rows come in the order of the sort keys, with at least the columns asked
for. -/
def Answers {T : TypeSystem} (V : Reading T) (sortkeys : List SortKey)
    (table answer : List Record) : Prop :=
  ∃ rows, Keeps (fun record => ∀ c ∈ q.handedQuals S ρ V,
      c.HoldsOn S (q.row sys record c.base.varattno)) table rows ∧
    (rows.map (q.row sys)).Pairwise (sortkeysLE O defaultOpfamily q.relation sortkeys) ∧
    List.Forall₂ (fun record answered => ∀ name ∈ q.columns, answered name = record name)
      rows answer

end Select

end Multicorn.Executor
