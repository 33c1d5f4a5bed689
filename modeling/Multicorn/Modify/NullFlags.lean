import Multicorn.Modify.Returning
import Multicorn.Planner.Handover

/-! Null flags next to datums: which words reach the conversion to Python. -/
namespace Multicorn.Modify
open Multicorn.Catalog
open Multicorn.Planner
open Multicorn.Convert

/-- What a `Datum` word was made from: the zeroed field of a qual that was not evaluated, a
NULL, or a value with its type. -/
inductive DatumWord
  | placeholder
  | null
  | value (type : Oid) (d : Datum)

/-- The word as the conversion meets it, zero unless it is a value. -/
def DatumWord.bits : DatumWord → Option Datum
  | .value _ d => some d
  | _ => none

structure NullableDatum where
  value : DatumWord
  isnull : Bool

def nullableDatum (type : Oid) : Option Datum → NullableDatum
  | none => ⟨.null, true⟩
  | some d => ⟨.value type d, false⟩

theorem nullableDatum_bits (type : Oid) (v : Option Datum) :
    (nullableDatum type v).value.bits = v := by
  cases v <;> rfl

/-- An application of `datumToPython`. -/
structure Application where
  datum : DatumWord
  type : Oid

/-- It is to a value, of the type that it is told. -/
def Application.Sound (a : Application) : Prop := ∃ d, a.datum = .value a.type d

section Applications

variable (T : TypeSystem)

/-- `typelem` for the types that get to the default branch of `datumToPython`. -/
def elementType (type : Oid) : Option Oid :=
  if type ∈ [byteaOid, textOid, varcharOid, bpcharOid, numericOid, dateOid, timestampOid,
    Convert.int4Oid] then none
  else T.typelem type

theorem datumToPython_array_of_elementType {type typelem : Oid}
    (h : elementType T type = some typelem) (dims : List ℕ) (elems : List (Option Datum)) :
    datumToPython T type (some (.array dims elems)) =
      (datumArrayToPython T typelem elems).map .list := by
  obtain ⟨hother, htypelem⟩ := Option.ite_none_left_eq_some.mp h
  simp only [List.mem_cons, List.not_mem_nil, or_false, not_or] at hother
  simp [datumToPython, hother, htypelem]

mutual

/-- What `datumToPython` applies itself to on a value. -/
def innerApplications (type : Oid) : Datum → List Application
  | .array _ elems =>
    match elementType T type with
    | some typelem => elementApplications typelem elems
    | none => []
  | _ => []

/-- The loop of `datumArrayToPython`. -/
def elementApplications (typelem : Oid) : List (Option Datum) → List Application
  | [] => []
  | none :: elems => elementApplications typelem elems
  | some elem :: elems =>
    ⟨.value typelem elem, typelem⟩ ::
      (innerApplications typelem elem ++ elementApplications typelem elems)

end

/-- The applications made by one from outside, itself first. -/
def applications (type : Oid) (w : DatumWord) : List Application :=
  ⟨w, type⟩ ::
    match w with
    | .value _ d => innerApplications T type d
    | _ => []

/-- A conversion behind a look at the null flag. -/
def guardedApplications (type : Oid) (v : NullableDatum) : List Application :=
  if v.isnull then [] else applications T type v.value

mutual

theorem innerApplications_sound (type : Oid) (d : Datum) :
    ∀ a ∈ innerApplications T type d, a.Sound := by
  cases d with
  | array dims elems =>
    rw [innerApplications]
    cases elementType T type with
    | none => exact fun a ha => absurd ha List.not_mem_nil
    | some typelem => exact elementApplications_sound typelem elems
  | _ =>
    intro a ha
    simp [innerApplications] at ha

theorem elementApplications_sound (typelem : Oid) (elems : List (Option Datum)) :
    ∀ a ∈ elementApplications T typelem elems, a.Sound := by
  match elems with
  | [] => exact fun a ha => absurd ha (by simp [elementApplications])
  | none :: elems =>
    rw [elementApplications]
    exact elementApplications_sound typelem elems
  | some elem :: elems =>
    intro a ha
    rw [elementApplications] at ha
    rcases List.mem_cons.mp ha with rfl | ha
    · exact ⟨elem, rfl⟩
    · rcases List.mem_append.mp ha with ha | ha
      · exact innerApplications_sound typelem elem a ha
      · exact elementApplications_sound typelem elems a ha

end

theorem applications_sound_iff (type : Oid) (w : DatumWord) :
    (∀ a ∈ applications T type w, a.Sound) ↔ ∃ d, w = .value type d := by
  constructor
  · intro h
    exact h ⟨w, type⟩ List.mem_cons_self
  · rintro ⟨d, rfl⟩ a ha
    rcases List.mem_cons.mp ha with rfl | ha
    · exact ⟨d, rfl⟩
    · exact innerApplications_sound T type d a ha

/-- With the flag looked at, only values get converted. -/
theorem guardedApplications_sound (type : Oid) (v : Option Datum) :
    ∀ a ∈ guardedApplications T type (nullableDatum type v), a.Sound := by
  cases v with
  | none => exact fun a ha => absurd ha List.not_mem_nil
  | some d => exact (applications_sound_iff T type (.value type d)).mpr ⟨d, rfl⟩

end Applications

/-! Scans. -/

/-- The arguments of `makeQual`. -/
structure QualSource where
  varattno : ℤ
  opname : String
  value : Expr
  isArray : Bool
  useOr : Bool
  opno : Option Oid
  collation : Collation

def QualSource.qual (s : QualSource) : MulticornBaseQual :=
  makeQual s.varattno s.opname s.value s.isArray s.useOr s.opno s.collation

/-- A `MulticornConstQual`, with its flag apart from its value. -/
structure FlaggedQual where
  base : MulticornBaseQual
  value : NullableDatum

section Scan

variable (S : SqlSemantics) (T : TypeSystem)

def execEvalExpr (ρ : Env) (e : Expr) : NullableDatum := nullableDatum (exprType e) (eval S ρ e)

/-- The body of the loop of `execute`. In an EXPLAIN the expression is not evaluated, and the
flag stays as it was set first. -/
def newqual (explain : Bool) (ρ : Env) (s : QualSource) : Option FlaggedQual :=
  match s.value with
  | .const type value => some ⟨s.qual, nullableDatum type value⟩
  | .var _ => none
  | e => some ⟨s.qual, if explain then ⟨.placeholder, false⟩ else execEvalExpr S ρ e⟩

/-- The value for the wrapper's `Qual`. -/
def qualdefToPython (desc : TupleDesc) (q : FlaggedQual) : Option PyObject :=
  if q.value.isnull then some .none else datumToPython T (qualType desc q.base) q.value.value.bits

/-- The conversions of `qualdefToPython`. -/
def qualApplications (desc : TupleDesc) (q : FlaggedQual) : List Application :=
  guardedApplications T (qualType desc q.base) q.value

end Scan

/-- A scan of a foreign table, its quals of any kind. The nodes have a type. -/
structure ForeignScan where
  desc : TupleDesc
  quals : List QualSource
  explain : Bool
  env : Env
  typed : ∀ s ∈ quals, exprType s.value ≠ 0 ∧ exprType s.value ≠ 4294967295

def ForeignScan.applications (S : SqlSemantics) (T : TypeSystem) (scan : ForeignScan) :
    List Application :=
  scan.quals.flatMap fun s =>
    (newqual S scan.explain scan.env s).elim [] (qualApplications T scan.desc)

/-- Neither a constant nor a column. -/
def NeedsEvaluation : Expr → Prop
  | .const .. => False
  | .var _ => False
  | _ => True

theorem qualType_qual {desc : TupleDesc} {s : QualSource} (hvar : ∀ v, s.value ≠ .var v)
    (htype : exprType s.value ≠ 0 ∧ exprType s.value ≠ 4294967295) :
    qualType desc s.qual = exprType s.value := by
  have hoid : s.qual.typeoid = exprType s.value := by
    obtain ⟨varattno, opname, value, isArray, useOr, opno, collation⟩ := s
    cases value with
    | var v => exact absurd rfl (hvar v)
    | _ => rfl
  rw [qualType, hoid, if_neg (by simpa using htype)]

/-- The flag that `newqual` sets says whether there is a value, except on a placeholder. -/
theorem newqual_sound_iff (S : SqlSemantics) (T : TypeSystem) (desc : TupleDesc) (explain : Bool)
    (ρ : Env) {s : QualSource}
    (htype : exprType s.value ≠ 0 ∧ exprType s.value ≠ 4294967295) :
    (∀ a ∈ (newqual S explain ρ s).elim [] (qualApplications T desc), a.Sound) ↔
      (explain = true → ¬ NeedsEvaluation s.value) := by
  by_cases hneeds : NeedsEvaluation s.value
  · have hvar : ∀ v, s.value ≠ .var v := by
      intro v hv
      rw [hv] at hneeds
      exact hneeds
    have hqual : newqual S explain ρ s =
        some ⟨s.qual, if explain then ⟨.placeholder, false⟩ else execEvalExpr S ρ s.value⟩ := by
      unfold newqual
      split
      · next type value hv =>
        rw [hv] at hneeds
        exact hneeds.elim
      · next v hv => exact absurd hv (hvar v)
      · rfl
    rw [hqual, Option.elim_some, qualApplications, qualType_qual hvar htype]
    cases explain with
    | false =>
      simpa [execEvalExpr] using
        guardedApplications_sound T (exprType s.value) (eval S ρ s.value)
    | true =>
      have hbad : ¬ ∀ a ∈ guardedApplications T (exprType s.value) ⟨.placeholder, false⟩,
          a.Sound := by
        intro h
        obtain ⟨d, hd⟩ := (applications_sound_iff T (exprType s.value) .placeholder).mp h
        cases hd
      simpa [hneeds] using hbad
  · refine iff_of_true ?_ fun _ => hneeds
    cases hv : s.value with
    | const type value =>
      have hqual : newqual S explain ρ s = some ⟨s.qual, nullableDatum type value⟩ := by
        simp [newqual, hv]
      have htold : qualType desc s.qual = type := by
        rw [qualType_qual (by simp [hv]) htype, hv, exprType]
      rw [hqual, Option.elim_some, qualApplications, htold]
      exact guardedApplications_sound T type value
    | var v =>
      have hqual : newqual S explain ρ s = none := by simp [newqual, hv]
      rw [hqual]
      exact fun a ha => absurd ha List.not_mem_nil
    | _ =>
      rw [hv] at hneeds
      exact absurd trivial hneeds

theorem ForeignScan.applications_sound_iff (S : SqlSemantics) (T : TypeSystem)
    (scan : ForeignScan) :
    (∀ a ∈ scan.applications S T, a.Sound) ↔
      (scan.explain = true → ∀ s ∈ scan.quals, ¬ NeedsEvaluation s.value) := by
  have heach : ∀ s ∈ scan.quals,
      (∀ a ∈ (newqual S scan.explain scan.env s).elim [] (qualApplications T scan.desc), a.Sound) ↔
        (scan.explain = true → ¬ NeedsEvaluation s.value) := fun s hs =>
    newqual_sound_iff S T scan.desc scan.explain scan.env (scan.typed s hs)
  constructor
  · intro h hexplain s hs
    exact (heach s hs).mp (fun a ha => h a (List.mem_flatMap.mpr ⟨s, hs, ha⟩)) hexplain
  · intro h a ha
    obtain ⟨s, hs, ha⟩ := List.mem_flatMap.mp ha
    exact (heach s hs).mpr (fun hexplain => h hexplain s hs) a ha

/-! UPDATE and DELETE. -/

section Modify

variable (S : SqlSemantics) (T : TypeSystem)

def execGetJunkAttribute (ρ : Env) (tle : TargetEntry) : NullableDatum :=
  execEvalExpr S ρ tle.expr

/-- The conversion of the row id, which does not look at the flag. -/
def rowIdApplications (modstate : MulticornModifyState) (ρ : Env) : List Application :=
  match modstate.rowidAttno, modstate.rowidCinfo with
  | some tle, some cinfo => applications T cinfo.atttypid (execGetJunkAttribute S ρ tle).value
  | _, _ => []

/-- `tupleTableSlotToPyObject` on the row of a subplan. -/
def planSlotApplications (ρ : Env) (tlist : List TargetEntry) : List Application :=
  tlist.flatMap fun tle => guardedApplications T (exprType tle.expr) (execEvalExpr S ρ tle.expr)

/-- `tupleTableSlotToPyObject` on a row of the table. -/
def slotApplications (desc : List FormAttribute) (slot : TupleTableSlot Datum) :
    List Application :=
  (List.range desc.length).flatMap fun i =>
    (Convert.initConversioninfo desc i).elim [] fun cinfo =>
      guardedApplications T cinfo.atttypoid (nullableDatum cinfo.atttypoid (slotGetattr slot i))

theorem planSlotApplications_sound (ρ : Env) (tlist : List TargetEntry) :
    ∀ a ∈ planSlotApplications S T ρ tlist, a.Sound := by
  intro a ha
  obtain ⟨tle, -, ha⟩ := List.mem_flatMap.mp ha
  exact guardedApplications_sound T _ _ a ha

theorem slotApplications_sound (desc : List FormAttribute) (slot : TupleTableSlot Datum) :
    ∀ a ∈ slotApplications T desc slot, a.Sound := by
  intro a ha
  obtain ⟨i, -, ha⟩ := List.mem_flatMap.mp ha
  cases hcinfo : Convert.initConversioninfo desc i with
  | none =>
    rw [hcinfo] at ha
    cases ha
  | some cinfo =>
    rw [hcinfo] at ha
    exact guardedApplications_sound T _ _ a ha

end Modify

/-- The modification of one row. `initial` is the target list before the row identity, `later`
what the planner adds after it, `slot` the new row of an UPDATE; `returnsNone` says that the
wrapper's `delete` returned None. -/
structure ForeignModify where
  root : Query
  desc : List FormAttribute
  attrname : String
  index : ℕ
  att : Attribute
  initial : List TargetEntry
  later : List TargetEntry
  env : Env
  slot : TupleTableSlot Datum
  returnsNone : Bool
  modifies : root.commandType = .update ∨ root.commandType = .delete
  plain : ∀ tle ∈ initial, tle.resjunk = false
  rowid : findLiveAttribute (attributes desc) attrname = some (index, att)

namespace ForeignModify

variable (attcollation : Attribute → Collation) (S : SqlSemantics) (T : TypeSystem)
variable (m : ForeignModify)

def tlist : List TargetEntry :=
  match multicornAddForeignUpdateTargets attcollation m.root m.initial (attributes m.desc)
      m.attrname with
  | .ok tlist => tlist ++ m.later
  | .error _ => []

def modstate : MulticornModifyState :=
  multicornBeginForeignModify (attributes m.desc) (m.tlist attcollation) m.attrname

/-- The conversions of `multicornExecForeignUpdate` and `multicornExecForeignDelete`. -/
def applications : List Application :=
  match m.root.commandType with
  | .update =>
    slotApplications T m.desc m.slot ++ rowIdApplications S T (m.modstate attcollation) m.env
  | _ =>
    rowIdApplications S T (m.modstate attcollation) m.env ++
      if m.returnsNone then planSlotApplications S T m.env (m.tlist attcollation) else []

/-- The value of the rowid column of the row. -/
def rowId : Option Datum := m.env.vars m.root.resultRelation (m.index + 1 : ℕ)

/-- The RETURNING item of a DELETE that is found in place of the row identity. -/
def shadow : Option TargetEntry :=
  match m.root.commandType with
  | .delete => m.root.returningList.find? fun tle => tle.resname == m.attrname
  | _ => none

/-- The expression that the row id is read from. -/
def rowIdExpr : Expr :=
  match m.shadow with
  | some tle => tle.expr
  | none => makeVar attcollation m.root.resultRelation (m.index + 1) m.att

theorem modstate_eq : (m.modstate attcollation).rowidCinfo = some m.att ∧
    ∃ tle, (m.modstate attcollation).rowidAttno = some tle ∧
      tle.expr = m.rowIdExpr attcollation := by
  have hcinfo : (m.modstate attcollation).rowidCinfo = some m.att := by
    simp [modstate, multicornBeginForeignModify, m.rowid]
  refine ⟨hcinfo, ?_⟩
  change ∃ tle, execFindJunkAttributeInTlist (m.tlist attcollation) m.attrname = some tle ∧
    tle.expr = m.rowIdExpr attcollation
  rcases m.modifies with hcmd | hcmd
  · have hfind := execFind_updateTargets attcollation m.plain m.root.resultRelation
      (attributes m.desc) m.later m.rowid
    rw [tlist, multicornAddForeignUpdateTargets, hcmd]
    exact ⟨_, hfind, by simp [rowIdExpr, shadow, hcmd]⟩
  · have hfind := execFind_deleteTargets m.plain m.root.returningList m.later
      (makeVar attcollation m.root.resultRelation (m.index + 1) m.att) m.attrname
    rw [tlist, multicornAddForeignUpdateTargets, hcmd]
    simp only [m.rowid]
    refine ⟨_, hfind, ?_⟩
    simp only [rowIdExpr, shadow, hcmd]
    cases m.root.returningList.find? fun tle => tle.resname == m.attrname <;> rfl

theorem rowIdApplications_eq : rowIdApplications S T (m.modstate attcollation) m.env =
    Modify.applications T m.att.atttypid (execEvalExpr S m.env (m.rowIdExpr attcollation)).value := by
  obtain ⟨hcinfo, tle, htle, hexpr⟩ := m.modstate_eq attcollation
  rw [rowIdApplications, htle, hcinfo]
  simp only [execGetJunkAttribute, hexpr]

/-- The object handed over is the conversion of that word. -/
theorem handed_eq : multicornExecForeignDelete S T (m.modstate attcollation) m.env =
    .ok (datumToPython T m.att.atttypid (eval S m.env (m.rowIdExpr attcollation))) := by
  obtain ⟨hcinfo, tle, htle, hexpr⟩ := m.modstate_eq attcollation
  simp only [multicornExecForeignDelete, htle, hcinfo, hexpr]

theorem applications_sound_iff : (∀ a ∈ m.applications attcollation S T, a.Sound) ↔
    eval S m.env (m.rowIdExpr attcollation) ≠ none ∧
      exprType (m.rowIdExpr attcollation) = m.att.atttypid := by
  have hrest : (∀ a ∈ m.applications attcollation S T, a.Sound) ↔
      ∀ a ∈ rowIdApplications S T (m.modstate attcollation) m.env, a.Sound := by
    unfold applications
    rcases m.modifies with hcmd | hcmd
    · have hslot := slotApplications_sound T m.desc m.slot
      simp only [hcmd, List.mem_append]
      exact ⟨fun h a ha => h a (.inr ha), fun h a ha => ha.elim (hslot a) (h a)⟩
    · have hplan := planSlotApplications_sound S T m.env (m.tlist attcollation)
      simp only [hcmd, List.mem_append]
      constructor
      · exact fun h a ha => h a (.inl ha)
      · intro h a ha
        rcases ha with ha | ha
        · exact h a ha
        · split_ifs at ha
          · exact hplan a ha
          · cases ha
  rw [hrest, rowIdApplications_eq, Modify.applications_sound_iff]
  unfold execEvalExpr
  cases eval S m.env (m.rowIdExpr attcollation) with
  | none => simp [nullableDatum]
  | some d => simp [nullableDatum, eq_comm]

end ForeignModify

/-- A statement that converts values for a wrapper. -/
inductive Activity
  | scan (node : ForeignScan)
  | modify (m : ForeignModify)

section Activity

variable (attcollation : Attribute → Collation) (S : SqlSemantics) (T : TypeSystem)

/-- Only values get converted, by their type, and a NULL row id is handed over as `None`. -/
def Activity.NullSafe : Activity → Prop
  | .scan node => ∀ a ∈ node.applications S T, a.Sound
  | .modify m =>
    (∀ a ∈ m.applications attcollation S T, a.Sound) ∧
      (m.rowId = none →
        multicornExecForeignDelete S T (m.modstate attcollation) m.env = .ok (some .none))

/-- An EXPLAIN has only constants to convert. A modified row has a row id, and a RETURNING
item with its name has a value of its type. -/
def Activity.HasValues : Activity → Prop
  | .scan node => node.explain = true → ∀ s ∈ node.quals, ¬ NeedsEvaluation s.value
  | .modify m =>
    m.rowId ≠ none ∧
      ∀ tle, m.shadow = some tle → eval S m.env tle.expr ≠ none ∧ exprType tle.expr = m.att.atttypid

theorem Activity.nullSafe_iff (a : Activity) :
    a.NullSafe attcollation S T ↔ a.HasValues S := by
  cases a with
  | scan node => exact node.applications_sound_iff S T
  | modify m =>
    rw [NullSafe, HasValues, m.applications_sound_iff, m.handed_eq]
    have hnull : m.rowId = none →
        (.ok (datumToPython T m.att.atttypid (eval S m.env (m.rowIdExpr attcollation))) :
          Except PgError (Option PyObject)) ≠ .ok (some .none) := by
      intro _ h
      exact datumToPython_ne_none T _ _ (Except.ok.inj h)
    cases hshadow : m.shadow with
    | some tle =>
      have hexpr : m.rowIdExpr attcollation = tle.expr := by simp [ForeignModify.rowIdExpr, hshadow]
      rw [hexpr] at hnull ⊢
      constructor
      · rintro ⟨hvalue, hnone⟩
        refine ⟨fun h => hnull h (hnone h), ?_⟩
        rintro tle' ⟨⟩
        exact hvalue
      · rintro ⟨hrow, hvalue⟩
        exact ⟨hvalue tle rfl, fun h => absurd h hrow⟩
    | none =>
      have hexpr : m.rowIdExpr attcollation =
          makeVar attcollation m.root.resultRelation (m.index + 1) m.att := by
        simp [ForeignModify.rowIdExpr, hshadow]
      rw [hexpr]
      constructor
      · rintro ⟨⟨hrow, -⟩, -⟩
        exact ⟨hrow, fun tle h => absurd h (by simp)⟩
      · rintro ⟨hrow, -⟩
        exact ⟨⟨hrow, rfl⟩, fun h => absurd h hrow⟩

end Activity

/-- `EXPLAIN SELECT * FROM t WHERE id = $1`, with a numeric column. -/
def explainParam : ForeignScan where
  desc := [⟨"id", numericOid, -1, false, []⟩]
  quals := [⟨1, "=", .param 1 numericOid, false, false, some 1752, .invalid⟩]
  explain := true
  env := ⟨fun _ _ => none, fun _ => none, 0⟩
  typed := by simp [exprType, numericOid]

/-- `DELETE FROM t` at a row without an id, with an integer column. -/
def deleteNull : ForeignModify where
  root := ⟨.delete, 1, []⟩
  desc := [⟨⟨"id", Convert.int4Oid, -1, false, []⟩, 0⟩]
  attrname := "id"
  index := 0
  att := ⟨"id", Convert.int4Oid, -1, false, []⟩
  initial := []
  later := []
  env := ⟨fun _ _ => none, fun _ => none, 0⟩
  slot := ⟨fun _ => none, fun _ => true⟩
  returnsNone := true
  modifies := .inr rfl
  plain := by simp
  rowid := rfl

/-- The first follows a null pointer, the second deletes the row with the id 0. -/
theorem explainParam_deleteNull :
    ¬ (Activity.scan explainParam).NullSafe (fun _ => .default) integerSemantics baseTypes ∧
    (newqual integerSemantics true explainParam.env
        ⟨1, "=", .param 1 numericOid, false, false, some 1752, .invalid⟩).map
      (qualdefToPython baseTypes explainParam.desc) = some none ∧
    ¬ (Activity.modify deleteNull).NullSafe (fun _ => .default) integerSemantics baseTypes ∧
    multicornExecForeignDelete integerSemantics baseTypes (deleteNull.modstate fun _ => .default)
      deleteNull.env = .ok (some (.int 0)) := by
  have hzero : multicornExecForeignDelete integerSemantics baseTypes
      (deleteNull.modstate fun _ => .default) deleteNull.env = .ok (some (.int 0)) := by
    have hnull : eval integerSemantics deleteNull.env
        (deleteNull.rowIdExpr fun _ => .default) = none := by
      simp [ForeignModify.rowIdExpr, ForeignModify.shadow, deleteNull, makeVar, eval]
    rw [deleteNull.handed_eq, hnull]
    simp [deleteNull, datumToPython, datumIntToPython, Convert.int4Oid, byteaOid, textOid,
      varcharOid, bpcharOid, numericOid, dateOid, timestampOid]
  have hcrash : (newqual integerSemantics true explainParam.env
        ⟨1, "=", .param 1 numericOid, false, false, some 1752, .invalid⟩).map
      (qualdefToPython baseTypes explainParam.desc) = some none := by
    simp [newqual, qualdefToPython, qualType, QualSource.qual, makeQual, DatumWord.bits,
      datumToPython, datumNumberToPython, byteaOid, textOid, varcharOid, bpcharOid, numericOid]
  refine ⟨?_, hcrash, ?_, hzero⟩
  · intro h
    have hconst := (explainParam.applications_sound_iff integerSemantics baseTypes).mp h rfl _
      List.mem_cons_self
    exact hconst trivial
  · intro h
    have hnone := h.2 rfl
    rw [hzero] at hnone
    simp at hnone

end Multicorn.Modify
