import Mathlib.Algebra.Group.Int.Defs
import Mathlib.Algebra.Group.Nat.Defs
import Multicorn.General.Window
import Multicorn.Planner.SortPushdown

/-! LIMIT pushdown: the upper planner stages hand the scan a count and an offset, and the
rows it returns are rechecked above it. -/
namespace Multicorn.Planner
open Multicorn.Catalog (Oid PgError)
open Multicorn.KeyOrder
open Multicorn.Window

inductive LimitOption
  | count
  | withTies
  deriving DecidableEq

/-- A LIMIT or OFFSET expression; constants are of type `int8`, null where `none`. -/
inductive LimitExpr
  | const (constvalue : Option ℤ)
  | other

/-- The join tree over one table: a pulled-up subquery leaves its quals in a nested
`FromExpr`. -/
inductive JoinTree
  | rangeTblRef (rtindex : ℕ)
  | fromExpr (fromlist : JoinTree) (quals : List Expr)

def JoinTree.quals : JoinTree → List Expr
  | .rangeTblRef _ => []
  | .fromExpr _ quals => quals

/-- The clauses of all levels, which the scan rechecks. -/
def JoinTree.restrictClauses : JoinTree → List Expr
  | .rangeTblRef _ => []
  | .fromExpr fromlist quals => fromlist.restrictClauses ++ quals

/-- `otherStages` is set when grouping, windows or DISTINCT come between the scan and the
sort. `targetSRFs` is what a ProjectSet node makes of a row, where the target list has functions
that return sets. -/
structure SelectQuery where
  commandType : CmdType
  limitOption : LimitOption
  jointree : JoinTree
  limitCount : Option LimitExpr
  limitOffset : Option LimitExpr
  sortClause : Bool
  sort_pathkeys : List PathKey
  otherStages : Bool
  targetSRFs : Option (Row → List Row)
  unsorted : sortClause = false → sort_pathkeys = []

/-- The planner's `limit_needed`. -/
def SelectQuery.limitNeeded (q : SelectQuery) : Bool :=
  (match q.limitCount with
    | some (.const n) => n.isSome
    | some .other => true
    | none => false) ||
  (match q.limitOffset with
    | some (.const (some n)) => n != 0
    | some .other => true
    | _ => false)

def pathkeysContainedIn (keys1 : List PathKey) (keys2 : List (Option PathKey)) : Bool :=
  (keys1.map fun key => some key.address).isPrefixOf (keys2.map (Option.map (·.address)))

/-- The sort part of `multicornGetForeignPaths`: what it leaves in the plan state. -/
def multicornGetForeignPaths (r : Relation) (relids : Finset ℕ) (m : ℕ) (q : SelectQuery)
    (planstate : MulticornPlanState) : Except Crash MulticornPlanState := do
  let deparsed ← deparseSortgroup r relids q.sort_pathkeys
  let (apply_pathkeys, deparsed_pathkeys) := computeDeparsedSortGroup m deparsed
  return { planstate with
    sort_pushed_down := pathkeysContainedIn q.sort_pathkeys apply_pathkeys
    pathkeys := if apply_pathkeys.isEmpty || deparsed_pathkeys.isEmpty then planstate.pathkeys
      else deparsed_pathkeys }

/-- `fdw_private` of the relation that reaches the final stage. -/
def finalInputPrivate (q : SelectQuery) (planstate : MulticornPlanState) :
    Option MulticornPlanState :=
  if q.otherStages then none
  else if q.sortClause && !planstate.sort_pushed_down then none
  else some planstate

/-- The low word of an `int8`, as a signed number. -/
def datumGetInt32 (n : ℤ) : ℤ := n.bmod (2 ^ 32)

/-- A count that can be pushed: `-1` when it is absent. -/
def pushedCount : Option LimitExpr → Option ℤ
  | none => some (-1)
  | some (.const (some n)) => some (datumGetInt32 n)
  | some (.const none) => none
  | some .other => none

def addForeignFinalPaths (canLimit : ℤ → ℤ → Bool) (q : SelectQuery)
    (fdw_private : Option MulticornPlanState) : Option ForeignPath :=
  match fdw_private with
  | none => none
  | some planstate =>
    if q.limitNeeded = false then none
    else if q.commandType ≠ .select then none
    else if q.limitOption = .withTies then none
    else if q.jointree.quals.isEmpty = false then none
    else
      match pushedCount q.limitCount, pushedCount q.limitOffset with
      | some limitCount, some limitOffset =>
        if canLimit limitCount limitOffset then
          some ⟨[], some ⟨limitOffset, limitCount, planstate.pathkeys⟩⟩
        else none
      | _, _ => none

/-- The plan state and the path with a pushed limit, where one is added. -/
def planLimit (r : Relation) (relids : Finset ℕ) (m : ℕ) (canLimit : ℤ → ℤ → Bool)
    (q : SelectQuery) (planstate : MulticornPlanState) :
    Except Crash (Option (MulticornPlanState × ForeignPath)) := do
  let planstate ← multicornGetForeignPaths r relids m q planstate
  return (addForeignFinalPaths canLimit q (finalInputPrivate q planstate)).map (planstate, ·)

/-- The value of a constant count. -/
def constCount : Option LimitExpr → Option ℤ
  | some (.const n) => n
  | _ => none

section Meaning

variable (S : SqlSemantics) (O : OrderSemantics) (defaultOpfamily : Oid → Oid) (r : Relation)
  (relid : ℕ) (ρ : Env) (W : Row → Prop)

/-- The row passes the restriction clauses of every level. -/
def SelectQuery.passes (q : SelectQuery) (row : Row) : Bool :=
  q.jointree.restrictClauses.all fun e => decide (IsTrue S (ρ.withRow relid row) e)

/-- The order of the sort keys given to `execute`. -/
def sortkeysLE (sortkeys : List SortKey) (row row' : Row) : Prop :=
  (lexCompare (sortkeys.map (SortKey.order O defaultOpfamily r)) row row').isLE

/-- The order of the ORDER BY clause. -/
def SelectQuery.le (q : SelectQuery) (row row' : Row) : Prop :=
  (lexCompare (q.sort_pathkeys.map (PathKey.order O {relid})) row row').isLE

/-- A wrapper that keeps at least the rows that pass, sorts them as told and cuts out the
window it is given. -/
def HonoursKwargs (q : SelectQuery) (kwargs : ExecuteKwargs) (T answer : List Row) : Prop :=
  ∃ L : List Row, L.Subperm T ∧
    (L.filter (q.passes S relid ρ)).Perm (T.filter (q.passes S relid ρ)) ∧
    L.Pairwise (sortkeysLE O defaultOpfamily r (kwargs.sortkeys.getD [])) ∧
    answer = window ((kwargs.offset.map Int.toNat).getD 0) (kwargs.limit.map Int.toNat) L

/-- The rows behind the ProjectSet node, if there is one. -/
def SelectQuery.projectSet (q : SelectQuery) (rows : List Row) : List Row :=
  match q.targetSRFs with
  | some srfs => rows.flatMap srfs
  | none => rows

/-- What the scan with the target list of the final relation returns of the rows that pass: it
stands in for the ProjectSet node too, and a scan node cannot evaluate a function that returns a
set. -/
def SelectQuery.scanProduces (q : SelectQuery) (rows : List Row) : Except PgError (List Row) :=
  if q.targetSRFs.isSome then
    .error ⟨"set-valued function called in context that cannot accept a set", none⟩
  else .ok rows

/-- What the Limit node makes of the rows that pass, under any tie break. -/
def LimitNodeProduces (q : SelectQuery) (T : List Row) (out : Except PgError (List Row)) :
    Prop :=
  if ∃ n, constCount q.limitOffset = some n ∧ n < 0 then
    out = .error ⟨"OFFSET must not be negative", none⟩
  else if ∃ n, constCount q.limitCount = some n ∧ n < 0 then
    out = .error ⟨"LIMIT must not be negative", none⟩
  else
    ∃ L : List Row, L.Perm (T.filter (q.passes S relid ρ)) ∧ L.Pairwise (q.le O relid) ∧
      out = .ok (window ((constCount q.limitOffset).getD 0).toNat
        ((constCount q.limitCount).map Int.toNat) (q.projectSet L))

/-- `W` holds of the rows the table can have. -/
def LimitFaithful (q : SelectQuery) (planstate : MulticornPlanState) (path : ForeignPath) :
    Prop :=
  ∀ T : List Row, (∀ row ∈ T, W row) → ∀ kwargs, scanKwargs planstate path = some kwargs →
    ∀ answer, HonoursKwargs S O defaultOpfamily r relid ρ q kwargs T answer →
      LimitNodeProduces S O relid ρ q T (q.scanProduces (answer.filter (q.passes S relid ρ)))

def SelectQuery.CountsNonneg (q : SelectQuery) : Prop :=
  (∀ n, constCount q.limitOffset = some n → 0 ≤ n) ∧
    ∀ n, constCount q.limitCount = some n → 0 ≤ n

def SelectQuery.CountsSmall (q : SelectQuery) : Prop :=
  (∀ n, constCount q.limitOffset = some n → n < 2 ^ 31) ∧
    ∀ n, constCount q.limitCount = some n → n < 2 ^ 31

/-- Pushing the window is harmless: no function of the target list returns a set, no count is
negative, and unless the limit is 0 the counts fit into an `int` (when some row can pass), the
rows that pass come first in the order of the sort keys, and that order refines the ORDER BY. -/
def SelectQuery.LimitSafe (q : SelectQuery) (planstate : MulticornPlanState) : Prop :=
  q.targetSRFs = none ∧ q.CountsNonneg ∧ (constCount q.limitCount = some 0 ∨
    ((∃ row, W row ∧ q.passes S relid ρ row = true) → q.CountsSmall) ∧
    PassFirst W (q.passes S relid ρ)
      (sortkeysLE O defaultOpfamily r (planstate.pathkeys.map getSortKey)) ∧
    Refines W (q.passes S relid ρ)
      (sortkeysLE O defaultOpfamily r (planstate.pathkeys.map getSortKey)) (q.le O relid))

end Meaning

end Multicorn.Planner
