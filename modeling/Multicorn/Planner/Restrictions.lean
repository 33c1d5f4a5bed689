import Mathlib.Data.Finset.Basic
import Multicorn.Planner.Expr

/-! Restriction clauses turned into quals, and the quals as a scan evaluates them. -/
namespace Multicorn.Planner
open Multicorn.Catalog (Oid)
open Multicorn.Kleene

/-- The value half of a `MulticornBaseQual`, tagged by `right_type`; `expr` is the
`T_Invalid` tag. -/
inductive QualRight
  | const (value : Option Datum)
  | var (rightvarattno : ℤ)
  | param (expr : Expr)
  | sqlValueFunction (expr : Expr)
  | expr (expr : Expr)

/-- `opno` and `collation` are not in the C struct. The one remembers which operator `opname`
spells, and is `none` where the extractor wrote the spelling itself; the other is the collation of
the column, the only one a qual can be read under. -/
structure MulticornBaseQual where
  varattno : ℤ
  opname : String
  isArray : Bool
  useOr : Bool
  typeoid : Oid
  right : QualRight
  opno : Option Oid
  collation : Collation

def makeQual (varattno : ℤ) (opname : String) (value : Expr) (isArray useOr : Bool)
    (opno : Option Oid) (collation : Collation) : MulticornBaseQual :=
  match value with
  | .const t v => ⟨varattno, opname, isArray, useOr, t, .const v, opno, collation⟩
  | .var v => ⟨varattno, opname, isArray, useOr, 0, .var v.varattno, opno, collation⟩
  | .sqlValueFunction op t =>
    ⟨varattno, opname, isArray, useOr, t, .sqlValueFunction (.sqlValueFunction op t), opno,
      collation⟩
  | .param i t => ⟨varattno, opname, isArray, useOr, t, .param (.param i t), opno, collation⟩
  | e => ⟨varattno, opname, isArray, useOr, exprType e, .expr e, opno, collation⟩

def unnestClause : Expr → Expr
  | .relabelType arg _ _ => arg
  | .arrayCoerceExpr arg _ _ => arg
  | e => e

variable (S : SqlSemantics)

/-- The operands as left, right and operator, exchanged when only the right one is a
column of the scanned relation and the operator has a commutator. -/
def swapOperandsAsNeeded (baseRelids : Finset ℕ) (l r : Expr) (opno : Oid) :
    Expr × Expr × Oid :=
  match r with
  | .var rvar =>
    let swap := match l with
      | .var lvar => decide (lvar.varno ∉ baseRelids ∧ rvar.varno ∈ baseRelids)
      | _ => true
    if swap then
      if S.oprcom opno = 0 then (l, r, opno) else (r, l, S.oprcom opno)
    else (l, r, opno)
  | _ => (l, r, opno)

/-- A comparison of a column of the scanned relation with an expression. -/
structure Comparison where
  opno : Oid
  left : Var
  right : Expr

def comparisonOn (baseRelids : Finset ℕ) (opno : Oid) (l r : Expr) : Option Comparison :=
  match l with
  | .var v => if v.varno ∈ baseRelids ∧ 1 ≤ v.varattno then some ⟨opno, v, r⟩ else none
  | _ => none

def canonicalOpExpr (baseRelids : Finset ℕ) (opno : Oid) (args : List Expr) :
    Option Comparison :=
  match args with
  | [a, b] =>
    let s := swapOperandsAsNeeded S baseRelids (unnestClause a) (unnestClause b) opno
    comparisonOn baseRelids s.2.2 s.1 s.2.1
  | _ => none

def canonicalScalarArrayOpExpr (baseRelids : Finset ℕ) (opno : Oid) (args : List Expr) :
    Option Comparison :=
  match args with
  | [a, b] => comparisonOn baseRelids opno (unnestClause a) (unnestClause b)
  | _ => none

/-- The right side can be computed before the scan: it is not volatile and does not read
the scanned relation. -/
def pushable (baseRelids : Finset ℕ) (right : Expr) : Bool :=
  !(containVolatileFunctions S right || decide (baseRelids ⊆ (pullVarnos right).toFinset))

def extractComparison (baseRelids : Finset ℕ) (c : Option Comparison)
    (isArray useOr : Bool) : List MulticornBaseQual :=
  match c with
  | some c =>
    if pushable S baseRelids c.right then
      [makeQual c.left.varattno (S.oprname c.opno) c.right isArray useOr (some c.opno)
        c.left.varcollid]
    else []
  | none => []

def extractClauseFromOpExpr (baseRelids : Finset ℕ) (opno : Oid) (args : List Expr) :
    List MulticornBaseQual :=
  extractComparison S baseRelids (canonicalOpExpr S baseRelids opno args) false false

def extractClauseFromScalarArrayOpExpr (baseRelids : Finset ℕ) (opno : Oid)
    (useOr : Bool) (args : List Expr) : List MulticornBaseQual :=
  extractComparison S baseRelids (canonicalScalarArrayOpExpr baseRelids opno args) true
    useOr

def extractClauseFromNullTest (t : NullTestType) : Expr → List MulticornBaseQual
  | .var v =>
    if v.varattno < 1 then []
    else
      let opname := match t with
        | .isNull => "="
        | .isNotNull => "<>"
      [makeQual v.varattno opname (.const int4Oid none) false false none v.varcollid]
  | _ => []

def BoolTestType.opname : BoolTestType → String
  | .isTrue | .isFalse | .isUnknown => "IS"
  | .isNotTrue | .isNotFalse | .isNotUnknown => "IS NOT"

def BoolTestType.constant : BoolTestType → Option Bool
  | .isTrue | .isNotTrue => some true
  | .isFalse | .isNotFalse => some false
  | .isUnknown | .isNotUnknown => none

def extractClauseFromBooleanTest (t : BoolTestType) : Expr → List MulticornBaseQual
  | .var v =>
    if v.varattno < 1 then []
    else [makeQual v.varattno t.opname (.const boolOid (ofBool t.constant)) false false none
      v.varcollid]
  | _ => []

def trueExpr : Expr := .const boolOid (some (.bool true))

def extractClauseFromVar (baseRelids : Finset ℕ) (v : Var) : List MulticornBaseQual :=
  if (pullVarnos (.var v)).toFinset ⊆ baseRelids then
    [makeQual v.varattno "=" trueExpr false false none v.varcollid]
  else []

def extractClauseFromBoolExpr (baseRelids : Finset ℕ) (op : BoolExprType)
    (args : List Expr) : List MulticornBaseQual :=
  if (pullVarnos (.boolExpr op args)).toFinset ⊆ baseRelids then
    match op, args with
    | .notExpr, [.var v] => [makeQual v.varattno "<>" trueExpr false false none v.varcollid]
    | _, _ => []
  else []

/-- The quals one clause contributes; a node of another kind only warns. -/
def extractRestrictions (baseRelids : Finset ℕ) : Expr → List MulticornBaseQual
  | .opExpr opno _ _ args => extractClauseFromOpExpr S baseRelids opno args
  | .nullTest t arg => extractClauseFromNullTest t arg
  | .scalarArrayOpExpr opno useOr _ args =>
    extractClauseFromScalarArrayOpExpr S baseRelids opno useOr args
  | .booleanTest t arg => extractClauseFromBooleanTest t arg
  | .var v => extractClauseFromVar baseRelids v
  | .boolExpr op args => extractClauseFromBoolExpr baseRelids op args
  | _ => []

/-- A qual after `execute` evaluated its right side. -/
structure MulticornConstQual where
  base : MulticornBaseQual
  value : Option Datum

/-- The right side in the state of the scan node; a qual against a column of another
relation is skipped. -/
def executeQual (ρ : Env) (q : MulticornBaseQual) : Option MulticornConstQual :=
  match q.right with
  | .const v => some ⟨q, v⟩
  | .var _ => none
  | .param e | .sqlValueFunction e | .expr e => some ⟨q, eval S ρ e⟩

/-- The SQL reading of a qual on the value `x` of its column: `=` and `<>` with `None` are
the null tests, a list operator compares with every element, and any other operator is the
one the backend has under `opno`, which compares under the collation of the column. -/
def MulticornConstQual.HoldsOn (q : MulticornConstQual) (x : Option Datum) : Prop :=
  match q.base.opno, q.base.isArray, q.value with
  | some op, true, value =>
    scalarArrayOp (S.binary op q.base.collation) q.base.useOr [x, value] = some true
  | op, _, none =>
    if q.base.opname = "=" then NullTestType.isNull.test x = true
    else if q.base.opname = "<>" then NullTestType.isNotNull.test x = true
    else match op with
      | some op => S.binary op q.base.collation x none = some true
      | none => if q.base.opname = "IS" then asBool x = none else asBool x ≠ none
  | some op, false, some value => S.binary op q.base.collation x (some value) = some true
  | none, _, some value =>
    if q.base.opname = "=" ∨ q.base.opname = "IS" then asBool x = asBool (some value)
    else if q.base.opname = "<>" then asBool x = not3 (asBool (some value))
    else asBool x ≠ asBool (some value)

/-- The environment of the scan node: parameters and the columns of the other relations are
those of `ρ`, there is no row yet and the clock may differ. -/
def AtScanStart (relid : ℕ) (ρ ρ₀ : Env) : Prop :=
  ρ₀.params = ρ.params ∧ ∀ varno ≠ relid, ρ₀.vars varno = ρ.vars varno

/-- The tests are only handed over on columns of the scanned relation. -/
def OnRelation (relid : ℕ) : Expr → Prop
  | .nullTest _ (.var v) => v.varno = relid
  | .booleanTest _ (.var v) => v.varno = relid
  | _ => True

end Multicorn.Planner
