import Multicorn.Convert.Datum
import Multicorn.Planner.Columns

/-! The row identity of UPDATE and DELETE: a junk entry of the subplan's target list, found
again by name when a row is deleted. -/
namespace Multicorn.Modify
open Multicorn.Catalog (Oid PgError Attribute TupleDesc)
open Multicorn.Planner
open Multicorn.Convert

structure TargetEntry where
  expr : Expr
  resname : String
  resjunk : Bool

structure Query where
  commandType : CmdType
  resultRelation : ℕ
  returningList : List TargetEntry

/-- `add_row_identity_var`: the entry goes to the end of the processed target list. -/
def addRowIdentityVar (processedTlist : List TargetEntry) (var : Expr) (rowidName : String) :
    List TargetEntry :=
  processedTlist ++ [⟨var, rowidName, true⟩]

/-- The position and the attribute of the first live column called `name`. -/
def findLiveAttribute (desc : TupleDesc) (name : String) : Option (ℕ × Attribute) :=
  (desc.zipIdx.find? (fun p => !p.1.attisdropped && p.1.attname == name)).map
    (fun p => (p.2, p.1))

variable (attcollation : Attribute → Collation)

def makeVar (varno attnum : ℕ) (att : Attribute) : Expr :=
  .var ⟨varno, attnum, att.atttypid, attcollation att⟩

/-- The target list after `multicornAddForeignUpdateTargets`; `attrname` is the wrapper's
`rowid_column`. -/
def multicornAddForeignUpdateTargets (root : Query) (processedTlist : List TargetEntry)
    (desc : TupleDesc) (attrname : String) : Except PgError (List TargetEntry) :=
  match root.commandType with
  | .update =>
    .ok ((desc.zipIdx.filter (fun p => !p.1.attisdropped)).foldl
      (fun tlist p => addRowIdentityVar tlist
        (makeVar attcollation root.resultRelation (p.2 + 1) p.1) p.1.attname) processedTlist)
  | _ =>
    let tlist := root.returningList.foldl
      (fun tlist tle => addRowIdentityVar tlist tle.expr tle.resname) processedTlist
    match findLiveAttribute desc attrname with
    | none => .error ⟨"The rowid attribute does not exist", none⟩
    | some (i, att) =>
      .ok (addRowIdentityVar tlist (makeVar attcollation root.resultRelation (i + 1) att) attrname)

/-- `ExecFindJunkAttributeInTlist`: the first junk entry with that name. -/
def execFindJunkAttributeInTlist (targetlist : List TargetEntry) (name : String) :
    Option TargetEntry :=
  targetlist.find? (fun tle => tle.resjunk && tle.resname == name)

structure MulticornModifyState where
  rowidCinfo : Option Attribute
  rowidAttno : Option TargetEntry

def multicornBeginForeignModify (desc : TupleDesc) (targetlist : List TargetEntry)
    (rowidAttrName : String) : MulticornModifyState where
  rowidCinfo := (findLiveAttribute desc rowidAttrName).map (·.2)
  rowidAttno := execFindJunkAttributeInTlist targetlist rowidAttrName

/-- How the row id reaches `delete()`: an error, a crash of the backend (`none`) or the
object handed over. The null flag of the junk attribute is not looked at. -/
def multicornExecForeignDelete (S : SqlSemantics) (T : TypeSystem)
    (modstate : MulticornModifyState) (ρ : Env) : Except PgError (Option PyObject) :=
  match modstate.rowidAttno with
  | none => .error ⟨"The rowid_column could not be identified", none⟩
  | some tle =>
    match modstate.rowidCinfo with
    | none => .ok none
    | some cinfo => .ok (datumToPython T cinfo.atttypid (eval S ρ tle.expr))

/-- The object for the value of the rowid column. -/
def rowIdObject (T : TypeSystem) (type : Oid) (value : Option Datum) : Option PyObject :=
  match value with
  | none => some .none
  | some d => datumToPython T type (some d)

/-- The subplan's target list is the processed one and whatever the planner adds later. -/
def DeletesRow (S : SqlSemantics) (T : TypeSystem) (root : Query) (desc : TupleDesc)
    (attrname : String) (later : List TargetEntry) (ρ : Env) : Prop :=
  ∃ tlist i att obj,
    multicornAddForeignUpdateTargets attcollation root [] desc attrname = .ok tlist ∧
    findLiveAttribute desc attrname = some (i, att) ∧
    rowIdObject T att.atttypid (ρ.vars root.resultRelation (i + 1 : ℕ)) = some obj ∧
    multicornExecForeignDelete S T (multicornBeginForeignModify desc (tlist ++ later) attrname) ρ =
      .ok (some obj)

theorem foldl_addRowIdentityVar (returningList tlist : List TargetEntry) :
    returningList.foldl (fun tlist tle => addRowIdentityVar tlist tle.expr tle.resname) tlist =
      tlist ++ returningList.map (fun tle => ⟨tle.expr, tle.resname, true⟩) := by
  induction returningList generalizing tlist with
  | nil => simp
  | cons tle returningList ih =>
    rw [List.foldl_cons, ih, addRowIdentityVar, List.append_assoc]
    rfl

/-- The search by name meets the RETURNING items before the row identity. -/
theorem execFind_deleteTargets {initial : List TargetEntry}
    (hplain : ∀ tle ∈ initial, tle.resjunk = false) (returningList later : List TargetEntry)
    (var : Expr) (name : String) :
    execFindJunkAttributeInTlist (addRowIdentityVar (returningList.foldl
        (fun tlist tle => addRowIdentityVar tlist tle.expr tle.resname) initial) var name ++ later)
        name =
      some (match returningList.find? (fun tle => tle.resname == name) with
        | some tle => ⟨tle.expr, tle.resname, true⟩
        | none => ⟨var, name, true⟩) := by
  have hinitial : initial.find? (fun tle => tle.resjunk && tle.resname == name) = none := by
    rw [List.find?_eq_none]
    intro tle htle
    simp [hplain tle htle]
  have hjunk : ((fun tle : TargetEntry => tle.resjunk && tle.resname == name) ∘
      fun tle : TargetEntry => ⟨tle.expr, tle.resname, true⟩) = fun tle => tle.resname == name := rfl
  rw [foldl_addRowIdentityVar]
  unfold execFindJunkAttributeInTlist addRowIdentityVar
  simp only [hinitial, Option.none_or, List.append_assoc, List.find?_append, List.find?_map, hjunk]
  cases h : returningList.find? (fun tle => tle.resname == name) with
  | none => simp
  | some tle => simp

/-- In an UPDATE the search finds the rowid column itself. -/
theorem execFind_updateTargets {initial : List TargetEntry}
    (hplain : ∀ tle ∈ initial, tle.resjunk = false) (relid : ℕ) (desc : TupleDesc)
    (later : List TargetEntry) {name : String} {i : ℕ} {att : Attribute}
    (hcol : findLiveAttribute desc name = some (i, att)) :
    execFindJunkAttributeInTlist ((desc.zipIdx.filter (fun p => !p.1.attisdropped)).foldl
        (fun tlist p => addRowIdentityVar tlist (makeVar attcollation relid (p.2 + 1) p.1)
          p.1.attname) initial ++ later) name =
      some ⟨makeVar attcollation relid (i + 1) att, name, true⟩ := by
  have hfold : ∀ (ps : List (Attribute × ℕ)) (tlist : List TargetEntry),
      ps.foldl (fun tlist p => addRowIdentityVar tlist (makeVar attcollation relid (p.2 + 1) p.1)
          p.1.attname) tlist =
        tlist ++ ps.map fun p => ⟨makeVar attcollation relid (p.2 + 1) p.1, p.1.attname, true⟩ := by
    intro ps
    induction ps with
    | nil => simp
    | cons p ps ih =>
      intro tlist
      rw [List.foldl_cons, ih, addRowIdentityVar, List.append_assoc]
      rfl
  have hinitial : initial.find? (fun tle => tle.resjunk && tle.resname == name) = none := by
    rw [List.find?_eq_none]
    intro tle htle
    simp [hplain tle htle]
  obtain ⟨⟨att', i'⟩, hfind, hpair⟩ := Option.map_eq_some_iff.mp hcol
  obtain ⟨rfl, rfl⟩ : i' = i ∧ att' = att := by simpa using hpair
  have hname : att'.attname = name := by
    have hlive := List.find?_some hfind
    simp only [Bool.and_eq_true, beq_iff_eq] at hlive
    exact hlive.2
  rw [hfold]
  unfold execFindJunkAttributeInTlist
  simp only [List.append_assoc, List.find?_append, hinitial, Option.none_or, List.find?_map,
    List.find?_filter]
  have hfind' : desc.zipIdx.find? (fun p => decide ((!p.1.attisdropped) = true ∧
      (((fun tle : TargetEntry => tle.resjunk && tle.resname == name) ∘ fun p : Attribute × ℕ =>
        ⟨makeVar attcollation relid (p.2 + 1) p.1, p.1.attname, true⟩) p) = true)) =
      some (att', i') := by
    rw [← hfind]
    congr 1
    funext p
    rw [Bool.beq_eq_decide_eq]
    simp
  rw [hfind']
  simp [hname]

/-- A DELETE hands over the rowid column of its row exactly when that column is not null
and the first RETURNING item with the column's name, if there is one, reads to the same
object. -/
theorem deletesRow_iff (S : SqlSemantics) (T : TypeSystem) (root : Query) (desc : TupleDesc)
    (attrname : String) (later : List TargetEntry) (ρ : Env) (i : ℕ) (att : Attribute)
    (hcmd : root.commandType = .delete)
    (hcol : findLiveAttribute desc attrname = some (i, att))
    (hrow : ∀ d, ρ.vars root.resultRelation (i + 1 : ℕ) = some d →
      (datumToPython T att.atttypid (some d)).isSome) :
    DeletesRow attcollation S T root desc attrname later ρ ↔
      ρ.vars root.resultRelation (i + 1 : ℕ) ≠ none ∧
        ∀ tle, root.returningList.find? (fun tle => tle.resname == attrname) = some tle →
          datumToPython T att.atttypid (eval S ρ tle.expr) =
            datumToPython T att.atttypid (ρ.vars root.resultRelation (i + 1 : ℕ)) := by
  have hplan : multicornAddForeignUpdateTargets attcollation root [] desc attrname =
      .ok (addRowIdentityVar (root.returningList.foldl
        (fun tlist tle => addRowIdentityVar tlist tle.expr tle.resname) [])
        (makeVar attcollation root.resultRelation (i + 1) att) attrname) := by
    unfold multicornAddForeignUpdateTargets
    simp only [hcmd, hcol]
  have hhanded : DeletesRow attcollation S T root desc attrname later ρ ↔
      ∃ obj, rowIdObject T att.atttypid (ρ.vars root.resultRelation (i + 1 : ℕ)) = some obj ∧
        datumToPython T att.atttypid
          (match root.returningList.find? (fun tle => tle.resname == attrname) with
          | some tle => eval S ρ tle.expr
          | none => ρ.vars root.resultRelation (i + 1 : ℕ)) = some obj := by
    have hnil : ∀ tle ∈ ([] : List TargetEntry), tle.resjunk = false :=
      fun tle h => absurd h List.not_mem_nil
    have hfind := execFind_deleteTargets hnil root.returningList later
      (makeVar attcollation root.resultRelation (i + 1) att) attrname
    simp only [DeletesRow, hplan, hcol, Except.ok.injEq, Option.some.injEq, Prod.mk.injEq,
      exists_and_left, exists_eq_left', and_assoc, multicornExecForeignDelete,
      multicornBeginForeignModify, hfind, Option.map_some]
    cases root.returningList.find? (fun tle => tle.resname == attrname) <;>
      simp [makeVar, eval]
  rw [hhanded]
  cases hv : ρ.vars root.resultRelation (i + 1 : ℕ) with
  | none => simpa [rowIdObject] using datumToPython_ne_none T att.atttypid _
  | some d =>
    obtain ⟨obj, hobj⟩ := Option.isSome_iff_exists.mp (hrow d hv)
    cases root.returningList.find? (fun tle => tle.resname == attrname) <;>
      simp [rowIdObject, hobj]

/-- The base types, without arrays. -/
def baseTypes : TypeSystem where
  typelem _ := none
  output _ _ := none
  parseFloat _ := 0
  misread _ _ := none
  misread_ne_none := TypeSystem.crash_ne_none

/-- `t (id text, b text)`. -/
def idTable : TupleDesc := [⟨"id", 25, -1, false, []⟩, ⟨"b", 25, -1, false, []⟩]

/-- The row `('1', 'x')`. -/
def idRow : Env where
  vars _ n := if n = 1 then some (.text ['1']) else some (.text ['x'])
  params _ := none
  now := 0

/-- `DELETE FROM t RETURNING b AS id`. -/
def deleteReturningAlias : Query where
  commandType := .delete
  resultRelation := 1
  returningList := [⟨.var ⟨1, 2, 25, .default⟩, "id", false⟩]

/-- The row id `'x'` of another row is handed over. -/
theorem deleteReturningAlias_wrong_row :
    ¬ DeletesRow (fun _ => .default) integerSemantics baseTypes deleteReturningAlias idTable "id"
      [] idRow := by
  rintro ⟨tlist, i, att, obj, hplan, hcol, hid, hexec⟩
  obtain ⟨rfl, rfl⟩ : (0, ⟨"id", 25, -1, false, []⟩) = (i, att) := Option.some.inj hcol
  obtain rfl : [⟨.var ⟨1, 2, 25, .default⟩, "id", true⟩, ⟨.var ⟨1, 1, 25, .default⟩, "id", true⟩] =
      tlist := Except.ok.inj hplan
  have hid' : obj = .str ['1'] :=
    Option.some.inj (hid.symm.trans (datumToPython_text baseTypes ['1']))
  have hexec' : obj = .str ['x'] :=
    Option.some.inj ((Except.ok.inj hexec).symm.trans (datumToPython_text baseTypes ['x']))
  simp [hid'] at hexec'

/-- `DELETE FROM t RETURNING b`. -/
def deleteReturningColumn : Query where
  commandType := .delete
  resultRelation := 1
  returningList := [⟨.var ⟨1, 2, 25, .default⟩, "b", false⟩]

theorem deleteReturningColumn_deletesRow :
    DeletesRow (fun _ => .default) integerSemantics baseTypes deleteReturningColumn idTable "id"
      [] idRow :=
  (deletesRow_iff (fun _ => .default) integerSemantics baseTypes deleteReturningColumn idTable
    "id" [] idRow 0 ⟨"id", 25, -1, false, []⟩ rfl rfl
    (fun d hd => by cases Option.some.inj hd; exact congrArg Option.isSome (datumToPython_text _ _))).mpr
    ⟨by simp [idRow], by simp [deleteReturningColumn]⟩

end Multicorn.Modify
