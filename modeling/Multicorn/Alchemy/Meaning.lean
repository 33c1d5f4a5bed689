import Multicorn.Alchemy.Statement

/-! What a statement means to the remote database, and when that database computes as the
backend does. -/
namespace Multicorn.Alchemy
open Multicorn.Catalog (Oid TupleDesc)
open Multicorn.Convert (PyObject TypeSystem datumToPython)
open Multicorn.Executor
open Multicorn.Kleene
open Multicorn.KeyOrder
open Multicorn.Planner

/-- An operator sees the value of a column and the value bound to the statement. `collations` are
the names that may follow COLLATE, and `compare` orders the values of a column under one of them
or under its own. -/
structure Remote where
  operator : Sqlop → Option Datum → PyObject → Option Bool
  collations : String → Bool
  compare : String → Option String → Datum → Datum → Ordering
  default : NullDefault
  nullsClause : Bool

/-- An ORDER BY element as SQL has it. -/
structure OrderItem where
  column : String
  collation : Option String
  reversed : Bool
  nulls : Option NullOrdering

namespace OrderExpr

/-- A column with its COLLATE: `none` is no expression of SQL. -/
def toValue : OrderExpr → Option (String × Option String)
  | .column name => some (name, none)
  | .collate e collation => e.toValue.map fun value => (value.1, some collation)
  | _ => none

/-- Then comes DESC. -/
def toDirected : OrderExpr → Option OrderItem
  | .desc e => e.toValue.map fun value => ⟨value.1, value.2, true, none⟩
  | e => e.toValue.map fun value => ⟨value.1, value.2, false, none⟩

/-- And at the end NULLS FIRST or LAST. -/
def toItem : OrderExpr → Option OrderItem
  | .nulls ordering e => e.toDirected.map fun item => { item with nulls := some ordering }
  | e => e.toDirected

end OrderExpr

namespace Remote

variable (R : Remote)

def truth : ColumnFunction → Option Datum → PyObject → Option Bool
  | .op o, x, value => R.operator o x value
  | .inv f, x, value => not3 (truth f x value)

/-- Equality with an element of a list. -/
def equals (x : Option Datum) : PyObject → Option Bool
  | .none => none
  | item => R.operator .eq x item

def selects (clauses : List Clause) (record : Record) : Bool :=
  clauses.all fun c => R.truth c.function (record c.column) c.value == some true

def nullsFirst (item : OrderItem) : Bool :=
  match item.nulls with
  | some ordering => decide (ordering = .nullsfirst)
  | none => if item.reversed then decide (R.default = .higher) else decide (R.default = .lower)

def order (item : OrderItem) : Record → Record → Ordering :=
  keyCompare (R.nullsFirst item) item.reversed (R.compare item.column item.collation)
    fun record => record item.column

/-- The elements as items, unless the remote database refuses the text. -/
def Accepts (orders : List OrderExpr) (items : List OrderItem) : Prop :=
  orders.map OrderExpr.toItem = items.map some ∧
    ∀ item ∈ items, (item.nulls ≠ none → R.nullsClause = true) ∧
      ∀ collation, item.collation = some collation → R.collations collation = true

/-- The rows of the statement, under any tie break. -/
def Returns (st : Statement) (table answer : List Record) : Prop :=
  ∃ items, R.Accepts st.orderBy items ∧
    ∃ rows, rows.Perm (table.filter (R.selects st.clauses)) ∧
      SortedBy (items.map R.order) rows ∧
      answer = rows.map (restrictRow st.columns.toFinset)

/-- The remote database has the dialect's treatment of NULL, and no collation with quotes around
its name. -/
structure Speaks (dialect : String) : Prop where
  default : ∀ support, sortSupport.lookup dialect = some support → R.default = support.default
  nullsClause : ∀ support, sortSupport.lookup dialect = some support →
    support.support = true → R.nullsClause = true
  unquoted : ∀ collname, R.collations ("\"" ++ collname ++ "\"") = false

/-- The columns of the relation are compared as here under the default collation. -/
def Sorts (O : OrderSemantics) (defaultOpfamily : Oid → Oid) (r : Relation) : Prop :=
  ∀ attnum name, r.LiveColumn attnum name →
    R.compare name none = O.cmp (defaultOpfamily (r.atttypid attnum)) .default

end Remote

/-- The qual with one value to compare with. -/
def single (b : MulticornBaseQual) (d : Datum) : MulticornConstQual :=
  ⟨{ b with isArray := false }, some d⟩

/-- The objects that a column is compared with, and their types: the value of a qual or the
elements of its list. -/
inductive Comparand (T : TypeSystem) (desc : TupleDesc) (c : MulticornConstQual) :
    Oid → PyObject → Prop
  | value {d : Datum} {object : PyObject} (hscalar : c.base.isArray = false)
      (hvalue : c.value = some d)
      (hobject : datumToPython T (qualType desc c.base) (some d) = some object) :
      Comparand T desc c (qualType desc c.base) object
  | element {typelem : Oid} {dims : List ℕ} {elems : List (Option Datum)} {d : Datum}
      {object : PyObject} (harray : c.base.isArray = true)
      (htypelem : Modify.elementType T (qualType desc c.base) = some typelem)
      (hvalue : c.value = some (.array dims elems)) (hmem : some d ∈ elems)
      (hobject : datumToPython T typelem (some d) = some object) :
      Comparand T desc c typelem object

/-- The remote database computes the pushed operators as the backend does: `=` and `<>` with
`None` are null tests, IN is a disjunction of equalities, `<>` is the negation of `=`, and a
comparison that holds here with the value an object stands for holds there with the object. -/
structure Remote.Agrees (R : Remote) (S : SqlSemantics) {T : TypeSystem} (V : Reading T)
    (desc : TupleDesc) (c : MulticornConstQual) : Prop where
  array : c.base.isArray = true → ∀ d, c.value = some d →
    (∃ typelem, Modify.elementType T (qualType desc c.base) = some typelem) ∧
      ∃ dims elems, d = .array dims elems
  eq_none : ∀ x, NullTestType.isNull.test x = true → R.operator .eq x .none = some true
  ne_none : ∀ x, NullTestType.isNotNull.test x = true → R.operator .ne x .none = some true
  ne_eq : ∀ x value, value ≠ .none → R.operator .ne x value = not3 (R.operator .eq x value)
  in_op : ∀ x items, R.operator .in_op x (.list items) =
    any3 (items.map (R.equals x))
  strict : ∀ op x, c.base.opno = some op → S.binary op c.base.collation x none ≠ some true
  comparison : ∀ type object, Comparand T desc c type object →
    ∀ f, operators.lookup (.scalar c.base.opname) = some f →
      ∀ x, (single c.base (V.sqlValue type object)).HoldsOn S x → R.truth f x object = some true

end Multicorn.Alchemy
