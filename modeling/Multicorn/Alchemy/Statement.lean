import Multicorn.Executor.Select

/-! `SqlAlchemyFdw`: quals, columns and sort keys made into a SELECT for another database. -/
namespace Multicorn.Alchemy
open Multicorn.Convert (PyObject)
open Multicorn.Executor
open Multicorn.Planner (SortKey)

/-- The functions of `operator` and `sqlops` that are applied to a column and a value. -/
inductive Sqlop
  | eq
  | lt
  | gt
  | le
  | ge
  | ne
  | like_op
  | ilike_op
  | in_op
  deriving DecidableEq

inductive ColumnFunction
  | op (o : Sqlop)
  | inv (f : ColumnFunction)
  deriving DecidableEq

/-- `compose(operator.inv, function)`. -/
def not_ (function : ColumnFunction) : ColumnFunction := .inv function

def operators : List (QualOperator × ColumnFunction) :=
  [(.scalar "=", .op .eq),
   (.scalar "<", .op .lt),
   (.scalar ">", .op .gt),
   (.scalar "<=", .op .le),
   (.scalar ">=", .op .ge),
   (.scalar "<>", .op .ne),
   (.scalar "~~", .op .like_op),
   (.scalar "~~*", .op .ilike_op),
   (.scalar "!~~*", not_ (.op .ilike_op)),
   (.scalar "!~~", not_ (.op .like_op)),
   (.list "=" true, .op .in_op),
   (.list "<>" false, not_ (.op .in_op))]

/-- Whether NULL sorts below or above all other values. -/
inductive NullDefault
  | lower
  | higher
  deriving DecidableEq

structure SortSupport where
  default : NullDefault
  support : Bool

def sortSupport : List (String × SortSupport) :=
  [("mssql", ⟨.lower, false⟩),
   ("postgresql", ⟨.higher, true⟩),
   ("mysql", ⟨.lower, false⟩),
   ("oracle", ⟨.higher, true⟩),
   ("sqlite", ⟨.lower, false⟩)]

inductive NullOrdering
  | nullsfirst
  | nullslast
  deriving DecidableEq

def needExplicitNullOrdering (support : SortSupport) (key : SortKey) : Option NullOrdering :=
  let no : NullOrdering :=
    if key.is_reversed then if support.default = .higher then .nullsfirst else .nullslast
    else if support.default = .higher then .nullslast else .nullsfirst
  if key.nulls_first then
    if no ≠ .nullsfirst then some .nullsfirst else none
  else if no ≠ .nullslast then some .nullslast else none

/-- `can_sort`: all of the keys or none. -/
def canSort (dialect : String) (sortkeys : List SortKey) : List SortKey :=
  match sortSupport.lookup dialect with
  | none => []
  | some support =>
    if sortkeys.any (fun key => (needExplicitNullOrdering support key).isSome) &&
        !support.support then []
    else sortkeys

/-- An ORDER BY element, by the methods that made it. -/
inductive OrderExpr
  | column (name : String)
  | desc (e : OrderExpr)
  | collate (e : OrderExpr) (collation : String)
  | nulls (ordering : NullOrdering) (e : OrderExpr)

structure Clause where
  column : String
  function : ColumnFunction
  value : PyObject

/-- The clauses are joined by `and_`. -/
structure Statement where
  clauses : List Clause
  columns : List String
  orderBy : List OrderExpr

inductive PyError
  | keyError (key : String)
  | argumentError (value : PyObject)

/-- `columns` are those of the remote `Table`, which has the columns of the foreign one.
SQLAlchemy applies an operator function to some values and raises for others. -/
structure SqlAlchemyFdw where
  columns : List String
  dialect : String
  applies : ColumnFunction → PyObject → Bool

namespace SqlAlchemyFdw

variable (w : SqlAlchemyFdw)

/-- `self.table.c[name]`. -/
def column (name : String) : Except PyError String :=
  if name ∈ w.columns then .ok name else .error (.keyError name)

/-- The clause of a qual; one whose operator has no function is not pushed. -/
def clauseOf (qual : Qual) : Except PyError (Option Clause) :=
  match operators.lookup qual.operator with
  | none => .ok none
  | some function => do
    let column ← w.column qual.field_name
    if w.applies function qual.value then return some ⟨column, function, qual.value⟩
    else throw (.argumentError qual.value)

theorem clauseOf_eq_ok {qual : Qual} {clause : Clause}
    (h : w.clauseOf qual = .ok (some clause)) :
    ∃ f, operators.lookup qual.operator = some f ∧
      clause = ⟨qual.field_name, f, qual.value⟩ := by
  unfold clauseOf column at h
  split at h
  · cases h
  · next f hf =>
    split_ifs at h <;> cases h
    exact ⟨f, hf, rfl⟩

/-- The name that `collate` gets; an empty one is false to Python. -/
def quotedCollation (sortkey : SortKey) : Option String :=
  match sortkey.collate with
  | some collate => if collate = "" then none else some ("\"" ++ collate ++ "\"")
  | none => none

/-- The element of a sort key before its NULL ordering. -/
def orderColumn (sortkey : SortKey) : OrderExpr :=
  let column := OrderExpr.column sortkey.attname
  let column := if sortkey.is_reversed then column.desc else column
  match quotedCollation sortkey with
  | some collation => column.collate collation
  | none => column

def orderOf (sortkey : SortKey) : Except PyError OrderExpr := do
  let _ ← w.column sortkey.attname
  match sortSupport.lookup w.dialect with
  | none => throw (.keyError w.dialect)
  | some support =>
    match needExplicitNullOrdering support sortkey with
    | some ordering => return .nulls ordering (orderColumn sortkey)
    | none => return orderColumn sortkey

theorem support_of_orderOf {sortkey : SortKey} {e : OrderExpr} (h : w.orderOf sortkey = .ok e) :
    ∃ support, sortSupport.lookup w.dialect = some support := by
  cases hsupport : sortSupport.lookup w.dialect with
  | some support => exact ⟨support, rfl⟩
  | none =>
    unfold orderOf column at h
    rw [hsupport] at h
    split_ifs at h <;> cases h

theorem orderOf_eq_ok {support : SortSupport}
    (hsupport : sortSupport.lookup w.dialect = some support) {sortkey : SortKey} {e : OrderExpr}
    (h : w.orderOf sortkey = .ok e) :
    e = match needExplicitNullOrdering support sortkey with
      | some ordering => .nulls ordering (orderColumn sortkey)
      | none => orderColumn sortkey := by
  unfold orderOf column at h
  simp only [hsupport] at h
  split_ifs at h
  · cases hnulls : needExplicitNullOrdering support sortkey <;> rw [hnulls] at h <;> cases h <;> rfl
  · cases h

/-- The columns of `with_only_columns`. -/
def selectedColumns (columns : List String) : Except PyError (List String) :=
  if columns.isEmpty then .ok w.columns else columns.mapM w.column

/-- `_build_statement`; `columns` comes as the list that its iteration yields. -/
def buildStatement (quals : List Qual) (columns : List String) (sortkeys : List SortKey) :
    Except PyError Statement := do
  let clauses ← quals.mapM w.clauseOf
  let columns ← w.selectedColumns columns
  let orders ← sortkeys.mapM w.orderOf
  return ⟨clauses.reduceOption, columns, orders⟩

end SqlAlchemyFdw

end Multicorn.Alchemy
