import Multicorn.General.KeyOrder
import Multicorn.Planner.Columns

/-! Sort pushdown: query pathkeys deparsed to sort keys, offered to the wrapper, matched back
and carried through the plan to `execute`. -/
namespace Multicorn.Planner
open Multicorn.Catalog (Oid)
open Multicorn.KeyOrder

/-- The collation an expression exposes, for the two nodes a sort column can be. -/
def exprCollation : Expr → Option Collation
  | .var v => some v.varcollid
  | .relabelType _ _ c => some c
  | _ => none

structure EquivalenceMember where
  em_relids : Finset ℕ
  em_expr : Expr

/-- `canonical` is what `canonicalize_ec_expression` ensures. -/
structure EquivalenceClass where
  ec_members : List EquivalenceMember
  ec_collation : Collation
  canonical : ∀ em ∈ ec_members, ∀ c, exprCollation em.em_expr = some c → c = ec_collation

inductive SortStrategy
  | less
  | greater
  deriving DecidableEq

/-- Pathkeys are canonical: the planner compares their addresses. -/
structure PathKey where
  address : ℕ
  pk_eclass : EquivalenceClass
  pk_opfamily : Oid
  pk_strategy : SortStrategy
  pk_nulls_first : Bool

structure MulticornDeparsedSortGroup where
  attname : String
  attnum : ℤ
  reversed : Bool
  nulls_first : Bool
  collate : Option String
  key : Option PathKey

/-- The Python `SortKey` tuple. -/
structure SortKey where
  attname : String
  attnum : ℤ
  is_reversed : Bool
  nulls_first : Bool
  collate : Option String
  deriving DecidableEq

/-- `strdup(NULL)` takes the backend down. -/
inductive Crash
  | nullPointer
  deriving DecidableEq

def strdup : Option String → Except Crash String
  | some s => .ok s
  | none => .error .nullPointer

def getCollationName : Collation → Option String
  | .invalid => none
  | .default => some "default"
  | .named collname => some collname

def multicornGetEmExpr (ec : EquivalenceClass) (relids : Finset ℕ) : Option Expr :=
  (ec.ec_members.find? (fun em => em.em_relids = relids)).map (·.em_expr)

/-- One round of the loop of `deparse_sortgroup`; `none` is a key it does not find. -/
def deparsePathKey (r : Relation) (relids : Finset ℕ) (key : PathKey) :
    Except Crash (Option MulticornDeparsedSortGroup) :=
  let reversed := decide (key.pk_strategy = .greater)
  match multicornGetEmExpr key.pk_eclass relids with
  | some (.var v) => do
    let attname ← strdup (r.getAttname v.varattno)
    return some ⟨attname, v.varattno, reversed, key.pk_nulls_first, none, some key⟩
  | some (.relabelType (.var v) _ collid) => do
    let collate ← if collid = .default then pure none
      else some <$> strdup (getCollationName collid)
    let attname ← strdup (r.getAttname v.varattno)
    return some ⟨attname, v.varattno, reversed, key.pk_nulls_first, collate, some key⟩
  | _ => return none

/-- All keys, or none when one of them is not a column of the relation. -/
def deparseSortgroup (r : Relation) (relids : Finset ℕ) (queryPathkeys : List PathKey) :
    Except Crash (List MulticornDeparsedSortGroup) :=
  go [] queryPathkeys
where
  go (result : List MulticornDeparsedSortGroup) :
      List PathKey → Except Crash (List MulticornDeparsedSortGroup)
    | [] => .ok result
    | key :: keys => do
      match ← deparsePathKey r relids key with
      | some md => go (result ++ [md]) keys
      | none => .ok []

def getSortKey (key : MulticornDeparsedSortGroup) : SortKey :=
  ⟨key.attname, key.attnum, key.reversed, key.nulls_first, key.collate⟩

/-- Names outside Latin-1 are garbled here; the caller reads `attnum` only. -/
def getDeparsedSortGroup (sortKey : SortKey) : MulticornDeparsedSortGroup :=
  ⟨sortKey.attname, sortKey.attnum, sortKey.is_reversed, sortKey.nulls_first, sortKey.collate,
    none⟩

/-- `canSort` for a wrapper whose `can_sort` keeps the first `m` of the keys it is offered. -/
def canSort (m : ℕ) (deparsed : List MulticornDeparsedSortGroup) :
    List MulticornDeparsedSortGroup :=
  ((deparsed.map getSortKey).take m).map getDeparsedSortGroup

/-- `apply_pathkeys` and `deparsed_pathkeys`. -/
def computeDeparsedSortGroup (m : ℕ) (deparsed : List MulticornDeparsedSortGroup) :
    List (Option PathKey) × List MulticornDeparsedSortGroup :=
  let wanted := (canSort m deparsed).flatMap fun sortable_md =>
    deparsed.filter fun wanted_md => sortable_md.attnum = wanted_md.attnum
  (wanted.map (·.key), wanted)

structure MulticornPathState where
  offset : ℤ
  limit : ℤ
  pathkeys : List MulticornDeparsedSortGroup

structure ForeignPath where
  pathkeys : List (Option PathKey)
  fdw_private : Option MulticornPathState

/-- The path with sort pushdown, if `multicornGetForeignPaths` adds one. -/
def sortedForeignPath (m : ℕ) (deparsed : List MulticornDeparsedSortGroup) :
    Option ForeignPath :=
  let (apply_pathkeys, deparsed_pathkeys) := computeDeparsedSortGroup m deparsed
  if apply_pathkeys.isEmpty || deparsed_pathkeys.isEmpty then none
  else some ⟨apply_pathkeys, some ⟨-1, -1, deparsed_pathkeys⟩⟩

/-- The nodes a plan state is serialized to. -/
inductive PlanNode
  | const (constvalue : ℤ)
  | string (s : String)
  | integer (n : ℤ)
  | nil
  | pathKey (key : Option PathKey)
  | list (l : List PlanNode)

structure MulticornPlanState where
  numattrs : ℤ
  foreigntableid : Oid
  target_list : List String
  pathkeys : List MulticornDeparsedSortGroup
  limit : ℤ
  offset : ℤ
  sort_pushed_down : Bool

structure MulticornExecState where
  target_list : List String
  pathkeys : List MulticornDeparsedSortGroup
  limit : ℤ
  offset : ℤ

def boolVal (b : Bool) : ℤ := if b then 1 else 0

def serializeSortGroup (key : MulticornDeparsedSortGroup) : PlanNode :=
  .list [.string key.attname, .integer key.attnum, .integer (boolVal key.reversed),
    .integer (boolVal key.nulls_first), (key.collate.map PlanNode.string).getD .nil,
    .pathKey key.key]

def serializeDeparsedSortGroup (pathkeys : List MulticornDeparsedSortGroup) : PlanNode :=
  .list (pathkeys.map serializeSortGroup)

def deserializeSortGroup : PlanNode → Option MulticornDeparsedSortGroup
  | .list [.string attname, .integer attnum, .integer reversed, .integer nulls_first,
      collate, .pathKey key] =>
    match collate with
    | .string c => some ⟨attname, attnum, reversed != 0, nulls_first != 0, some c, key⟩
    | .nil => some ⟨attname, attnum, reversed != 0, nulls_first != 0, none, key⟩
    | _ => none
  | _ => none

def deserializeDeparsedSortGroup : PlanNode → Option (List MulticornDeparsedSortGroup)
  | .list items => items.mapM deserializeSortGroup
  | _ => none

def serializePlanState (state : MulticornPlanState) : PlanNode :=
  .list [.const state.numattrs, .const state.foreigntableid,
    .list (state.target_list.map .string), serializeDeparsedSortGroup state.pathkeys,
    .const state.limit, .const state.offset]

def strVal : PlanNode → Option String
  | .string s => some s
  | _ => none

def initializeExecState : PlanNode → Option MulticornExecState
  | .list [_, _, .list targets, pathkeys, .const limit, .const offset] => do
    let target_list ← targets.mapM strVal
    let pathkeys ← deserializeDeparsedSortGroup pathkeys
    return ⟨target_list, pathkeys, limit, offset⟩
  | _ => none

/-- The sort state that `multicornGetForeignPlan` takes over from the chosen path. -/
def foreignPlanState (planstate : MulticornPlanState) (best_path : ForeignPath) :
    MulticornPlanState :=
  match best_path.fdw_private with
  | some pathstate =>
    { planstate with
      pathkeys := pathstate.pathkeys, limit := pathstate.limit, offset := pathstate.offset }
  | none => { planstate with pathkeys := [], limit := -1, offset := -1 }

/-- The optional keyword arguments of `execute`. -/
structure ExecuteKwargs where
  sortkeys : Option (List SortKey)
  limit : Option ℤ
  offset : Option ℤ

def executeKwargs (state : MulticornExecState) : ExecuteKwargs where
  sortkeys := if state.pathkeys.isEmpty then none else some (state.pathkeys.map getSortKey)
  limit := if 0 ≤ state.limit then some state.limit else none
  offset := if 0 ≤ state.offset then some state.offset else none

/-- What a scan of `best_path` is executed with. -/
def scanKwargs (planstate : MulticornPlanState) (best_path : ForeignPath) :
    Option ExecuteKwargs :=
  (initializeExecState (serializePlanState (foreignPlanState planstate best_path))).map
    executeKwargs

@[simp] theorem deserializeSortGroup_serialize (key : MulticornDeparsedSortGroup) :
    deserializeSortGroup (serializeSortGroup key) = some key := by
  obtain ⟨attname, attnum, reversed, nulls_first, collate, key⟩ := key
  cases collate <;> cases reversed <;> cases nulls_first <;> rfl

private theorem mapM_map_of_left_inverse {α β : Type} {f : β → Option α} {g : α → β}
    (h : ∀ a, f (g a) = some a) (l : List α) : (l.map g).mapM f = some l := by
  induction l with
  | nil => rfl
  | cons a l ih => rw [List.map_cons, List.mapM_cons, h, ih]; rfl

/-- The plan hands the executor what it was given. -/
theorem initializeExecState_serialize (state : MulticornPlanState) :
    initializeExecState (serializePlanState state) =
      some ⟨state.target_list, state.pathkeys, state.limit, state.offset⟩ := by
  have hs : ∀ s, strVal (.string s) = some s := fun _ => rfl
  have ht : (state.target_list.map PlanNode.string).mapM strVal = some state.target_list :=
    mapM_map_of_left_inverse hs _
  have hp : deserializeDeparsedSortGroup (serializeDeparsedSortGroup state.pathkeys) =
      some state.pathkeys :=
    mapM_map_of_left_inverse deserializeSortGroup_serialize _
  simp [initializeExecState, serializePlanState, ht, hp]

end Multicorn.Planner
