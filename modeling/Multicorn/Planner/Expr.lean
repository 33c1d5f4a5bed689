import Multicorn.Catalog.Options
import Multicorn.General.Kleene

/-! Planner expression trees and their SQL meaning. What `pg_operator` and `pg_proc`
supply is a parameter. -/
namespace Multicorn.Planner
open Multicorn.Catalog (Oid)
open Multicorn.Kleene

/-- A collation as the C code tells them apart: `InvalidOid`, `DEFAULT_COLLATION_OID`, or
one that `get_collation_name` names. -/
inductive Collation
  | invalid
  | default
  | named (collname : String)
  deriving DecidableEq

/-- A non-null SQL value. Arrays hold their elements flat, next to their dimensions; a type
without its own constructor is kept by its output text. -/
inductive Datum
  | bool (b : Bool)
  | int4 (n : ℤ)
  | text (s : List Char)
  | bytea (bytes : List UInt8)
  | numeric (out : List Char)
  | date (year month day : ℤ)
  | timestamp (year month day hour min sec usec : ℤ)
  | array (dims : List ℕ) (elems : List (Option Datum))
  | record (fields : List (Option Datum))
  | other (type : Oid) (out : List Char)

def boolOid : Oid := 16
def int4Oid : Oid := 23

inductive CmdType
  | select
  | insert
  | update
  | delete
  deriving DecidableEq

structure Var where
  varno : ℕ
  varattno : ℤ
  vartype : Oid
  varcollid : Collation
  deriving DecidableEq

inductive NullTestType
  | isNull
  | isNotNull
  deriving DecidableEq

inductive BoolTestType
  | isTrue
  | isNotTrue
  | isFalse
  | isNotFalse
  | isUnknown
  | isNotUnknown
  deriving DecidableEq

inductive BoolExprType
  | andExpr
  | orExpr
  | notExpr
  deriving DecidableEq

/-- `funcExpr` stands for every node that computes a value from its children and has no
constructor of its own (functions, CASE, COALESCE, aggregates). -/
inductive Expr
  | var (v : Var)
  | const (consttype : Oid) (constvalue : Option Datum)
  | param (paramid : ℕ) (paramtype : Oid)
  | sqlValueFunction (op : ℕ) (type : Oid)
  | relabelType (arg : Expr) (resulttype : Oid) (resultcollid : Collation)
  | arrayCoerceExpr (arg : Expr) (elemfuncid : Oid) (resulttype : Oid)
  | opExpr (opno : Oid) (opresulttype : Oid) (inputcollid : Collation) (args : List Expr)
  | scalarArrayOpExpr (opno : Oid) (useOr : Bool) (inputcollid : Collation) (args : List Expr)
  | nullTest (nulltesttype : NullTestType) (arg : Expr)
  | booleanTest (booltesttype : BoolTestType) (arg : Expr)
  | boolExpr (boolop : BoolExprType) (args : List Expr)
  | funcExpr (funcid : Oid) (funcresulttype : Oid) (args : List Expr)
  | placeHolderVar (phexpr : Expr)

/-- `exprType`. -/
def exprType : Expr → Oid
  | .var v => v.vartype
  | .const t _ => t
  | .param _ t => t
  | .sqlValueFunction _ t => t
  | .relabelType _ t _ => t
  | .arrayCoerceExpr _ _ t => t
  | .opExpr _ t _ _ => t
  | .funcExpr _ t _ => t
  | .placeHolderVar e => exprType e
  | .scalarArrayOpExpr .. => boolOid
  | .nullTest .. => boolOid
  | .booleanTest .. => boolOid
  | .boolExpr .. => boolOid

/-- Operators, functions and element conversions of the backend. An operator compares under a
collation. A function may read the moment of its evaluation only when it is volatile. -/
structure SqlSemantics where
  oprname : Oid → String
  oprcom : Oid → Oid
  operator : Oid → Collation → List (Option Datum) → Option Datum
  commutes : ∀ opno, oprcom opno ≠ 0 →
    ∀ collation a b, operator opno collation [a, b] = operator (oprcom opno) collation [b, a]
  function : Oid → ℕ → List (Option Datum) → Option Datum
  isVolatile : Oid → Bool
  stable : ∀ f, isVolatile f = false → ∀ t t' args, function f t args = function f t' args
  elemConversion : Oid → Option Datum → Option Datum
  sqlValue : ℕ → Option Datum

/-- What an expression is evaluated in: the columns in scope, the parameters and the
moment of evaluation. -/
structure Env where
  vars : ℕ → ℤ → Option Datum
  params : ℕ → Option Datum
  now : ℕ

def asBool : Option Datum → Option Bool
  | some (.bool b) => some b
  | _ => none

@[simp] theorem asBool_none : asBool none = none := rfl

@[simp] theorem asBool_bool (b : Bool) : asBool (some (.bool b)) = some b := rfl

def ofBool (b : Option Bool) : Option Datum := b.map .bool

@[simp] theorem asBool_ofBool (b : Option Bool) : asBool (ofBool b) = b := by
  cases b <;> rfl

/-- On a row value the tests ask about every field. -/
def NullTestType.test (t : NullTestType) (a : Option Datum) : Bool :=
  match t, a with
  | .isNull, some (.record fields) => fields.all Option.isNone
  | .isNotNull, some (.record fields) => fields.all Option.isSome
  | .isNull, a => a.isNone
  | .isNotNull, a => a.isSome

def BoolTestType.test (t : BoolTestType) (a : Option Bool) : Bool :=
  match t with
  | .isTrue => a == some true
  | .isNotTrue => a != some true
  | .isFalse => a == some false
  | .isNotFalse => a != some false
  | .isUnknown => a == none
  | .isNotUnknown => a != none

def BoolExprType.eval (op : BoolExprType) (args : List (Option Bool)) : Option Bool :=
  match op, args with
  | .andExpr, args => all3 args
  | .orExpr, args => any3 args
  | .notExpr, [a] => not3 a
  | .notExpr, _ => none

/-- Conversion of every element of an array; other values pass. -/
def coerceArray (conv : Option Datum → Option Datum) : Datum → Datum
  | .array dims elems => .array dims (elems.map conv)
  | d => d

/-- `scalar op ANY (array)` and `scalar op ALL (array)`. -/
def scalarArrayOp (op : Option Datum → Option Datum → Option Bool) (useOr : Bool) :
    List (Option Datum) → Option Bool
  | [scalar, some (.array _ elems)] =>
    if useOr then any3 (elems.map (op scalar)) else all3 (elems.map (op scalar))
  | _ => none

variable (S : SqlSemantics)

def SqlSemantics.binary (opno : Oid) (collation : Collation) (a b : Option Datum) : Option Bool :=
  asBool (S.operator opno collation [a, b])

mutual

def eval (ρ : Env) : Expr → Option Datum
  | .var v => ρ.vars v.varno v.varattno
  | .const _ value => value
  | .param paramid _ => ρ.params paramid
  | .sqlValueFunction op _ => S.sqlValue op
  | .relabelType arg _ _ => eval ρ arg
  | .arrayCoerceExpr arg f _ => (eval ρ arg).map (coerceArray (S.elemConversion f))
  | .opExpr opno _ inputcollid args => S.operator opno inputcollid (evalList ρ args)
  | .scalarArrayOpExpr opno useOr inputcollid args =>
    ofBool (scalarArrayOp (S.binary opno inputcollid) useOr (evalList ρ args))
  | .nullTest t arg => some (.bool (t.test (eval ρ arg)))
  | .booleanTest t arg => some (.bool (t.test (asBool (eval ρ arg))))
  | .boolExpr op args => ofBool (op.eval ((evalList ρ args).map asBool))
  | .funcExpr f _ args => S.function f ρ.now (evalList ρ args)
  | .placeHolderVar e => eval ρ e

def evalList (ρ : Env) : List Expr → List (Option Datum)
  | [] => []
  | e :: es => eval ρ e :: evalList ρ es

end

/-- A clause keeps a row exactly when it evaluates to true. -/
def IsTrue (ρ : Env) (e : Expr) : Prop := asBool (eval S ρ e) = some true

instance (ρ : Env) (e : Expr) : Decidable (IsTrue S ρ e) :=
  inferInstanceAs (Decidable (_ = _))

mutual

/-- `contain_volatile_functions`. -/
def containVolatileFunctions : Expr → Bool
  | .var _ => false
  | .const _ _ => false
  | .param _ _ => false
  | .sqlValueFunction _ _ => false
  | .relabelType arg _ _ => containVolatileFunctions arg
  | .arrayCoerceExpr arg _ _ => containVolatileFunctions arg
  | .opExpr _ _ _ args => containVolatileFunctionsList args
  | .scalarArrayOpExpr _ _ _ args => containVolatileFunctionsList args
  | .nullTest _ arg => containVolatileFunctions arg
  | .booleanTest _ arg => containVolatileFunctions arg
  | .boolExpr _ args => containVolatileFunctionsList args
  | .funcExpr f _ args => S.isVolatile f || containVolatileFunctionsList args
  | .placeHolderVar e => containVolatileFunctions e

def containVolatileFunctionsList : List Expr → Bool
  | [] => false
  | e :: es => containVolatileFunctions e || containVolatileFunctionsList es

end

mutual

/-- `pull_var_clause` with both recursion flags set: every Var of the tree, also below
aggregates and placeholders. -/
def pullVarClause : Expr → List Var
  | .var v => [v]
  | .const _ _ => []
  | .param _ _ => []
  | .sqlValueFunction _ _ => []
  | .relabelType arg _ _ => pullVarClause arg
  | .arrayCoerceExpr arg _ _ => pullVarClause arg
  | .opExpr _ _ _ args => pullVarClauseList args
  | .scalarArrayOpExpr _ _ _ args => pullVarClauseList args
  | .nullTest _ arg => pullVarClause arg
  | .booleanTest _ arg => pullVarClause arg
  | .boolExpr _ args => pullVarClauseList args
  | .funcExpr _ _ args => pullVarClauseList args
  | .placeHolderVar e => pullVarClause e

def pullVarClauseList : List Expr → List Var
  | [] => []
  | e :: es => pullVarClause e ++ pullVarClauseList es

end

/-- `pull_varnos`, as a list of range table indexes. -/
def pullVarnos (e : Expr) : List ℕ := (pullVarClause e).map (·.varno)

mutual

/-- An expression reads its Vars and parameters, and the clock only through volatile
functions. -/
theorem eval_congr {ρ ρ' : Env} (hp : ρ.params = ρ'.params) : ∀ (e : Expr),
    (∀ v ∈ pullVarClause e, ρ.vars v.varno v.varattno = ρ'.vars v.varno v.varattno) →
    (ρ.now = ρ'.now ∨ containVolatileFunctions S e = false) → eval S ρ e = eval S ρ' e
  | .var v, h, _ => by simpa [eval] using h v (by simp [pullVarClause])
  | .const _ _, _, _ => by simp [eval]
  | .param _ _, _, _ => by simp [eval, hp]
  | .sqlValueFunction _ _, _, _ => by simp [eval]
  | .relabelType arg _ _, h, hv => by
    simpa [eval] using eval_congr hp arg h hv
  | .arrayCoerceExpr arg _ _, h, hv => by
    simp [eval, eval_congr hp arg h hv]
  | .opExpr _ _ _ args, h, hv => by
    simp [eval, evalList_congr hp args h hv]
  | .scalarArrayOpExpr _ _ _ args, h, hv => by
    simp [eval, evalList_congr hp args h hv]
  | .nullTest _ arg, h, hv => by
    simp [eval, eval_congr hp arg h hv]
  | .booleanTest _ arg, h, hv => by
    simp [eval, eval_congr hp arg h hv]
  | .boolExpr _ args, h, hv => by
    simp [eval, evalList_congr hp args h hv]
  | .funcExpr f _ args, h, hv => by
    rcases hv with hv | hv
    · simp [eval, evalList_congr hp args h (.inl hv), hv]
    · simp only [containVolatileFunctions, Bool.or_eq_false_iff] at hv
      simp only [eval, evalList_congr hp args h (.inr hv.2)]
      exact S.stable f hv.1 _ _ _
  | .placeHolderVar e, h, hv => by
    simpa [eval] using eval_congr hp e h hv

theorem evalList_congr {ρ ρ' : Env} (hp : ρ.params = ρ'.params) : ∀ (es : List Expr),
    (∀ v ∈ pullVarClauseList es, ρ.vars v.varno v.varattno = ρ'.vars v.varno v.varattno) →
    (ρ.now = ρ'.now ∨ containVolatileFunctionsList S es = false) →
    evalList S ρ es = evalList S ρ' es
  | [], _, _ => by simp [evalList]
  | e :: es, h, hv => by
    have he : ∀ v ∈ pullVarClause e,
        ρ.vars v.varno v.varattno = ρ'.vars v.varno v.varattno :=
      fun v hm => h v (by simp [pullVarClauseList, hm])
    have hes : ∀ v ∈ pullVarClauseList es,
        ρ.vars v.varno v.varattno = ρ'.vars v.varno v.varattno :=
      fun v hm => h v (by simp [pullVarClauseList, hm])
    have hve : ρ.now = ρ'.now ∨ containVolatileFunctions S e = false :=
      hv.imp_right fun hb => by simp_all [containVolatileFunctionsList]
    have hves : ρ.now = ρ'.now ∨ containVolatileFunctionsList S es = false :=
      hv.imp_right fun hb => by simp_all [containVolatileFunctionsList]
    simp only [evalList, eval_congr hp e he hve, evalList_congr hp es hes hves]

end

/-- Nonnegative `numeric` to `integer`: rounded by its first fractional digit. -/
def numericToInt4 (out : List Char) : ℤ :=
  let digits := (out.takeWhile (· ≠ '.')).foldl
    (fun n ch => 10 * n + ((ch.toNat : ℤ) - '0'.toNat)) 0
  match out.dropWhile (· ≠ '.') with
  | _ :: ch :: _ => if '5' ≤ ch then digits + 1 else digits
  | _ => digits

def integerEq : List (Option Datum) → Option Datum
  | [some (.int4 a), some (.int4 b)] => some (.bool (a == b))
  | [some _, some _] => some (.bool false)
  | _ => none

private theorem integerEq_comm (a b : Option Datum) : integerEq [a, b] = integerEq [b, a] := by
  rcases a with _ | a <;> rcases b with _ | b
  case some.some => cases a <;> cases b <;> simp [integerEq, Bool.beq_comm]
  all_goals simp [integerEq]

/-- `=` on integers and the cast of `numeric[]` to `integer[]`. -/
def integerSemantics : SqlSemantics where
  oprname _ := "="
  oprcom opno := opno
  operator _ _ := integerEq
  commutes _ _ _ := integerEq_comm
  function _ _ _ := none
  isVolatile _ := false
  stable _ _ _ _ _ := rfl
  elemConversion _
    | some (.numeric out) => some (.int4 (numericToInt4 out))
    | d => d
  sqlValue _ := none

end Multicorn.Planner
