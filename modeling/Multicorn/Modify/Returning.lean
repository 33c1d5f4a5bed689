import Multicorn.Convert.ArrayRoundTrip
import Multicorn.Convert.Tuple
import Multicorn.Modify.RowId

/-! The row that DELETE ... RETURNING reads when the wrapper's `delete` returned None. -/
namespace Multicorn.Modify
open Multicorn.Catalog
open Multicorn.Planner
open Multicorn.Convert
open Multicorn.StateMonad

section Source

variable (S : SqlSemantics) (T : TypeSystem) (P : Printer) (C : Charset) (I : InputFunctions Datum)
variable (ρ : Env)

/-- The object for an entry of the subplan's row; `none` is a crash of the backend. -/
def entryObject (tle : TargetEntry) : Option PyValue :=
  match eval S ρ tle.expr with
  | none => some .none
  | some d => (datumToPython T (exprType tle.expr) (some d)).map (PyObject.returned P)

/-- The dictionary under the names of the result descriptor; a name set twice keeps the last
value. -/
def tupleTableSlotToPyObject : List TargetEntry → (String → Option PyValue) →
    Option (String → Option PyValue)
  | [], dict => some dict
  | tle :: tlist, dict => do
    let item ← entryObject S T P ρ tle
    tupleTableSlotToPyObject tlist (Function.update dict tle.resname (some item))

/-- The slot that `multicornExecForeignDelete` returns when `delete` returned None. Without
`resultCinfos` the names of the entries are read through a null pointer. -/
def returnedSlot (desc : List FormAttribute) (resultCinfos : Option (List TargetEntry))
    (slot : TupleTableSlot Datum) : Option (EStateM.Result Failure (RowState Datum) Unit) := do
  let dict ← tupleTableSlotToPyObject S T P ρ (← resultCinfos) fun _ => none
  return pythonResultToTuple C I desc.length (.mapping dict) (startRow desc slot)

end Source

/-- `multicornBeginForeignModify` sets `resultCinfos` only for a subplan with a result slot of its
own; a scan that returns the rows of the table as they are has none. -/
def resultCinfos (ps_ResultTupleSlot : Bool) (tlist : List TargetEntry) :
    Option (List TargetEntry) :=
  if ps_ResultTupleSlot then some tlist else none

/-- `slot_getattr`. -/
def slotGetattr (slot : TupleTableSlot Datum) (i : ℕ) : Option Datum :=
  if slot.isnull i then none else slot.values i

/-- What RETURNING is evaluated in: user columns of the result relation come from the slot. -/
def withSlot (ρ : Env) (relid : ℕ) (slot : TupleTableSlot Datum) : Env :=
  ρ.withRow relid fun attno =>
    if 1 ≤ attno then slotGetattr slot (attno - 1).toNat else ρ.vars relid attno

/-- The attributes of a table as the planner's callback sees them. -/
def attributes (desc : List FormAttribute) : TupleDesc := desc.map FormAttribute.toAttribute

/-- Every RETURNING item has on the returned slot the value it has on the deleted row. The
subplan's target list is the processed one and whatever the planner adds later; the executor
decides whether the subplan has a result slot. -/
def ReturnsDeletedRow (S : SqlSemantics) (T : TypeSystem) (P : Printer) (C : Charset)
    (I : InputFunctions Datum) (attcollation : Attribute → Collation) (root : Query)
    (desc : List FormAttribute) (attrname : String) (later : List TargetEntry)
    (ps_ResultTupleSlot : Bool) (slot : TupleTableSlot Datum) (ρ : Env) : Prop :=
  ∃ tlist st,
    multicornAddForeignUpdateTargets attcollation root [] (attributes desc) attrname = .ok tlist ∧
    returnedSlot S T P C I ρ desc (resultCinfos ps_ResultTupleSlot (tlist ++ later)) slot =
      some (.ok () st) ∧
    ∀ item ∈ root.returningList,
      eval S (withSlot ρ root.resultRelation st.slot) item.expr = eval S ρ item.expr

section Conditions

variable (S : SqlSemantics) (T : TypeSystem) (P : Printer) (C : Charset) (I : InputFunctions Datum)
variable (ρ : Env)

/-- The object of the last entry with that name. -/
def lastItem : List TargetEntry → String → Option PyValue
  | [], _ => none
  | tle :: tlist, name =>
    match lastItem tlist name with
    | some item => some item
    | none => if tle.resname = name then entryObject S T P ρ tle else none

/-- A column given `item` reads as `value`: null without an item, else its conversion. -/
def Receives (cinfo : ConversionInfo) (item : Option PyValue) (value : Option Datum) : Prop :=
  ∃ d isnull, Column C I cinfo item d isnull ∧ value = if isnull then none else d

/-- A user column of the result relation occurs in the RETURNING list. -/
def ReadByReturning (root : Query) (i : ℕ) : Prop :=
  ∃ item ∈ root.returningList, ∃ v ∈ pullVarClause item.expr,
    v.varno = root.resultRelation ∧ v.varattno = (i + 1 : ℕ)

/-- What the entries of the subplan hold, by name, is accepted by the columns and is for a
column that RETURNING reads its own value. -/
structure Supplies (root : Query) (desc : List FormAttribute) (tlist : List TargetEntry) :
    Prop where
  defined : ∀ tle ∈ tlist, (entryObject S T P ρ tle).isSome
  accepted : ∀ i cinfo, initConversioninfo desc i = some cinfo →
    ∃ value, Receives C I cinfo (lastItem S T P ρ tlist cinfo.attrname) value
  own : ∀ i cinfo, initConversioninfo desc i = some cinfo → ReadByReturning root i →
    Receives C I cinfo (lastItem S T P ρ tlist cinfo.attrname)
      (ρ.vars root.resultRelation (i + 1 : ℕ))

end Conditions

variable {S : SqlSemantics} {T : TypeSystem} {P : Printer} {C : Charset} {I : InputFunctions Datum}
variable {ρ : Env}

theorem Receives.unique {cinfo : ConversionInfo} {item : Option PyValue} {v v' : Option Datum}
    (h : Receives C I cinfo item v) (h' : Receives C I cinfo item v') : v = v' := by
  obtain ⟨d, isnull, hcol, rfl⟩ := h
  obtain ⟨d', isnull', hcol', rfl⟩ := h'
  cases item with
  | none => rw [hcol.1, hcol.2, hcol'.1, hcol'.2]
  | some object =>
    by_cases hne : object = .none
    · subst hne
      rw [hcol.1, hcol.2, hcol'.1, hcol'.2]
    · obtain ⟨rfl, e, s, he, rfl⟩ := (column_some hne).mp hcol
      obtain ⟨rfl, e', s', he', rfl⟩ := (column_some hne).mp hcol'
      rw [he] at he'
      cases he'
      rfl

/-- The dictionary is there when every entry has an object, and then holds the last ones. -/
theorem tupleTableSlotToPyObject_eq_some (tlist : List TargetEntry)
    (start dict : String → Option PyValue) :
    tupleTableSlotToPyObject S T P ρ tlist start = some dict ↔
      (∀ tle ∈ tlist, (entryObject S T P ρ tle).isSome) ∧
        dict = fun name => (lastItem S T P ρ tlist name).or (start name) := by
  induction tlist generalizing start with
  | nil =>
    constructor
    · intro h
      cases h
      exact ⟨fun _ h => absurd h List.not_mem_nil, rfl⟩
    · rintro ⟨-, rfl⟩
      rfl
  | cons tle tlist ih =>
    cases hitem : entryObject S T P ρ tle with
    | none => simp [tupleTableSlotToPyObject, hitem]
    | some item =>
      have hnames : (fun name => (lastItem S T P ρ tlist name).or
          (Function.update start tle.resname (some item) name)) =
          fun name => (lastItem S T P ρ (tle :: tlist) name).or (start name) := by
        funext name
        rw [lastItem]
        cases lastItem S T P ρ tlist name with
        | some _ => rfl
        | none =>
          by_cases hname : tle.resname = name
          · subst hname
            simp [hitem]
          · simp [hname, Function.update_of_ne (Ne.symm hname)]
      simp only [tupleTableSlotToPyObject, hitem, Option.bind_eq_bind, Option.bind_some, ih, hnames,
        List.forall_mem_cons, Option.isSome_some, true_and]

/-- Nothing is returned without a result slot. -/
theorem resultCinfos_of_returnedSlot {desc : List FormAttribute} {ps_ResultTupleSlot : Bool}
    {tlist : List TargetEntry} {slot : TupleTableSlot Datum} {st : RowState Datum}
    (h : returnedSlot S T P C I ρ desc (resultCinfos ps_ResultTupleSlot tlist) slot =
      some (.ok () st)) :
    ps_ResultTupleSlot = true := by
  cases ps_ResultTupleSlot with
  | true => rfl
  | false => cases h

/-- What a run that returns a slot put into the live columns. -/
theorem returnedSlot_receives {desc : List FormAttribute} {tlist : List TargetEntry}
    {slot : TupleTableSlot Datum} {st : RowState Datum}
    (h : returnedSlot S T P C I ρ desc (some tlist) slot = some (.ok () st)) :
    (∀ tle ∈ tlist, (entryObject S T P ρ tle).isSome) ∧
      ∀ i cinfo, initConversioninfo desc i = some cinfo →
        Receives C I cinfo (lastItem S T P ρ tlist cinfo.attrname) (slotGetattr st.slot i) := by
  obtain ⟨dict, hdict, hrun⟩ := Option.bind_eq_some_iff.mp h
  obtain ⟨hdefined, rfl⟩ := (tupleTableSlotToPyObject_eq_some _ _ _).mp hdict
  refine ⟨hdefined, fun i cinfo hc => ?_⟩
  have hstored := pythonResultToTuple_stored (Option.some.inj hrun)
  have hcolumn := hstored.written i (List.mem_range.mpr (initConversioninfo_lt hc)) cinfo hc
  simp only [PyRow.itemOf, Option.or_none] at hcolumn
  exact ⟨_, _, hcolumn, rfl⟩

/-- A slot is returned when the entries have objects that the columns accept. -/
theorem returnedSlot_runs {desc : List FormAttribute} {tlist : List TargetEntry}
    (hdefined : ∀ tle ∈ tlist, (entryObject S T P ρ tle).isSome)
    (haccepted : ∀ i cinfo, initConversioninfo desc i = some cinfo →
      ∃ value, Receives C I cinfo (lastItem S T P ρ tlist cinfo.attrname) value)
    (slot : TupleTableSlot Datum) :
    ∃ st, returnedSlot S T P C I ρ desc (some tlist) slot = some (.ok () st) := by
  have hdict := (tupleTableSlotToPyObject_eq_some (S := S) (T := T) (P := P) (ρ := ρ) tlist
    (fun _ => none) _).mpr ⟨hdefined, rfl⟩
  have hruns : ∃ st, pythonResultToTuple C I desc.length
      (.mapping fun name => (lastItem S T P ρ tlist name).or none) (startRow desc slot) =
        .ok () st := by
    apply pythonDictToTuple_runs
    intro i _ cinfo hc
    obtain ⟨_, d, isnull, hcolumn, -⟩ := haccepted i cinfo hc
    exact ⟨d, isnull, by simpa using hcolumn⟩
  obtain ⟨st, hst⟩ := hruns
  refine ⟨st, ?_⟩
  simp only [returnedSlot, Option.bind_eq_bind, Option.bind_some, hdict, hst]
  rfl

/-- RETURNING reads user columns of the table, all of them live. -/
def ReadsLiveColumns (root : Query) (desc : List FormAttribute) : Prop :=
  ∀ item ∈ root.returningList, ∀ v ∈ pullVarClause item.expr, v.varno = root.resultRelation →
    ∃ i : ℕ, v.varattno = (i + 1 : ℕ) ∧ (initConversioninfo desc i).isSome

/-- The entries of the subplan: the RETURNING items under their aliases, the rowid column and
what the planner adds. -/
def subplanEntries (root : Query) (rowid : Expr) (attrname : String) (later : List TargetEntry) :
    List TargetEntry :=
  root.returningList.map (fun tle => ⟨tle.expr, tle.resname, true⟩) ++
    ⟨rowid, attrname, true⟩ :: later

/-- A supplied column reads on the slot as on the row. -/
theorem withSlot_supplied {root : Query} {desc : List FormAttribute} {tlist : List TargetEntry}
    {slot : TupleTableSlot Datum} {st : RowState Datum}
    (h : Supplies S T P C I ρ root desc tlist) (hreads : ReadsLiveColumns root desc)
    (hst : returnedSlot S T P C I ρ desc (some tlist) slot = some (.ok () st)) {item : TargetEntry}
    (hitem : item ∈ root.returningList) {v : Var} (hv : v ∈ pullVarClause item.expr) :
    (withSlot ρ root.resultRelation st.slot).vars v.varno v.varattno =
      ρ.vars v.varno v.varattno := by
  by_cases hrel : v.varno = root.resultRelation
  · obtain ⟨i, hi, hlive⟩ := hreads item hitem v hv hrel
    obtain ⟨cinfo, hc⟩ := Option.isSome_iff_exists.mp hlive
    have hown := h.own i cinfo hc ⟨item, hitem, v, hv, hrel, hi⟩
    have hgot := (returnedSlot_receives hst).2 i cinfo hc
    have hpos : (1 : ℤ) ≤ (i + 1 : ℕ) := by omega
    have hindex : (((i + 1 : ℕ) : ℤ) - 1).toNat = i := by omega
    simp only [withSlot, Env.withRow, hrel, hi, hpos, hindex, if_true]
    exact hgot.unique hown
  · simp [withSlot, Env.withRow, hrel]

/-- A column read as such by RETURNING shows what the slot got for it. -/
theorem slotGetattr_of_items {root : Query} {st : RowState Datum}
    (hvars : ∀ item ∈ root.returningList, ∃ v, item.expr = .var v)
    (hitems : ∀ item ∈ root.returningList,
      eval S (withSlot ρ root.resultRelation st.slot) item.expr = eval S ρ item.expr)
    {i : ℕ} (hread : ReadByReturning root i) :
    slotGetattr st.slot i = ρ.vars root.resultRelation (i + 1 : ℕ) := by
  obtain ⟨item, hitem, v, hv, hrel, hi⟩ := hread
  obtain ⟨w, hw⟩ := hvars item hitem
  rw [hw, pullVarClause, List.mem_singleton] at hv
  subst hv
  have hsame := hitems item hitem
  have hpos : (1 : ℤ) ≤ (i + 1 : ℕ) := by omega
  have hindex : (((i + 1 : ℕ) : ℤ) - 1).toNat = i := by omega
  simp only [hw, eval, withSlot, Env.withRow, hrel, hi, hpos, hindex, if_true] at hsame
  exact hsame

/-- RETURNING shows the deleted row when the subplan has a result slot and every column it reads is
supplied; for a list of columns, under any aliases, it does so only then. -/
theorem returnsDeletedRow_iff (S : SqlSemantics) (T : TypeSystem) (P : Printer) (C : Charset)
    (I : InputFunctions Datum) (attcollation : Attribute → Collation) (root : Query)
    (desc : List FormAttribute) (attrname : String) (later : List TargetEntry)
    (ps_ResultTupleSlot : Bool) (slot : TupleTableSlot Datum) (ρ : Env) (k : ℕ) (att : Attribute)
    (hcmd : root.commandType = .delete)
    (hcol : findLiveAttribute (attributes desc) attrname = some (k, att))
    (hreads : ReadsLiveColumns root desc) :
    let entries := subplanEntries root
      (makeVar attcollation root.resultRelation (k + 1) att) attrname later
    (ps_ResultTupleSlot = true ∧ Supplies S T P C I ρ root desc entries →
      ReturnsDeletedRow S T P C I attcollation root desc attrname later ps_ResultTupleSlot slot
        ρ) ∧
    ((∀ item ∈ root.returningList, ∃ v, item.expr = .var v) →
      (ReturnsDeletedRow S T P C I attcollation root desc attrname later ps_ResultTupleSlot slot ρ ↔
        ps_ResultTupleSlot = true ∧ Supplies S T P C I ρ root desc entries)) := by
  intro entries
  have hplan : ∃ tlist, tlist ++ later = entries ∧
      multicornAddForeignUpdateTargets attcollation root [] (attributes desc) attrname =
        .ok tlist := by
    unfold multicornAddForeignUpdateTargets
    simp only [hcmd, hcol]
    refine ⟨_, ?_, rfl⟩
    rw [foldl_addRowIdentityVar]
    simp [entries, subplanEntries, addRowIdentityVar]
  obtain ⟨tlist, htlist, hplan⟩ := hplan
  have henough : ps_ResultTupleSlot = true ∧ Supplies S T P C I ρ root desc entries →
      ReturnsDeletedRow S T P C I attcollation root desc attrname later ps_ResultTupleSlot slot
        ρ := by
    rintro ⟨rfl, h⟩
    obtain ⟨st, hst⟩ := returnedSlot_runs h.defined h.accepted slot
    refine ⟨tlist, st, hplan, by rw [htlist, resultCinfos, if_pos rfl, hst], fun item hitem => ?_⟩
    apply eval_congr S
    · rfl
    · exact fun v hv => withSlot_supplied h hreads hst hitem hv
    · exact .inl rfl
  refine ⟨henough, fun hvars => ⟨?_, henough⟩⟩
  rintro ⟨tlist', st, hplan', hst, hitems⟩
  obtain rfl := Except.ok.inj (hplan.symm.trans hplan')
  rw [htlist] at hst
  obtain rfl := resultCinfos_of_returnedSlot hst
  obtain ⟨hdefined, hgot⟩ := returnedSlot_receives hst
  refine ⟨rfl, hdefined, fun i cinfo hc => ⟨_, hgot i cinfo hc⟩, fun i cinfo hc hread => ?_⟩
  rw [← slotGetattr_of_items hvars hitems hread]
  exact hgot i cinfo hc

/-- Text columns of an SQL_ASCII database. -/
def textInput : InputFunctions Datum where
  inputFunctionCall _ _ _ := none
  cstringToText text := .text (fromAscii text)

/-- `t (id text, b text)` with its dimensions. -/
def idColumns : List FormAttribute := idTable.map fun attr => ⟨attr, 0⟩

/-- `DELETE FROM t RETURNING b AS c`. -/
def deleteReturningOtherName : Query where
  commandType := .delete
  resultRelation := 1
  returningList := [⟨.var ⟨1, 2, 25, .default⟩, "c", false⟩]

def emptySlot : TupleTableSlot Datum := ⟨fun _ => none, fun _ => true⟩

/-- No entry is called `b`, so the item reads null. -/
theorem deleteReturningOtherName_null :
    ¬ ReturnsDeletedRow integerSemantics baseTypes plainPrinter asciiCharset textInput
      (fun _ => .default) deleteReturningOtherName idColumns "id" [] true emptySlot idRow := by
  rintro ⟨tlist, st, hplan, hst, hitems⟩
  obtain rfl : [⟨.var ⟨1, 2, 25, .default⟩, "c", true⟩, ⟨.var ⟨1, 1, 25, .default⟩, "id", true⟩] =
      tlist := Except.ok.inj hplan
  have hgot := (returnedSlot_receives hst).2 1 ⟨"b", 25, -1, 2, 0, false⟩ rfl
  have hnull : slotGetattr st.slot 1 = none :=
    hgot.unique ⟨none, true, ⟨rfl, rfl⟩, rfl⟩
  have hread : slotGetattr st.slot 1 = some (.text ['x']) :=
    hitems ⟨.var ⟨1, 2, 25, .default⟩, "c", false⟩ List.mem_cons_self
  rw [hnull] at hread
  cases hread

theorem entryObject_text {tle : TargetEntry} {s : List Char}
    (hd : eval S ρ tle.expr = some (.text s)) (ht : exprType tle.expr = textOid) :
    entryObject S T P ρ tle = some (.unicode s) := by
  rw [entryObject, hd, ht]
  simp [PyObject.returned]

/-- A table without dropped columns has the records of its attributes. -/
theorem idColumns_cinfo {i : ℕ} {cinfo : ConversionInfo}
    (h : initConversioninfo idColumns i = some cinfo) :
    (i = 0 ∧ cinfo = ⟨"id", 25, -1, 1, 0, false⟩) ∨ (i = 1 ∧ cinfo = ⟨"b", 25, -1, 2, 0, false⟩) := by
  have hlt : i < 2 := initConversioninfo_lt h
  obtain rfl | rfl : i = 0 ∨ i = 1 := by omega
  · exact .inl ⟨rfl, (Option.some.inj h).symm⟩
  · exact .inr ⟨rfl, (Option.some.inj h).symm⟩

theorem deleteReturningColumn_returns :
    ReturnsDeletedRow integerSemantics baseTypes plainPrinter asciiCharset textInput
      (fun _ => .default) deleteReturningColumn idColumns "id" [] true emptySlot idRow := by
  have hb : entryObject integerSemantics baseTypes plainPrinter idRow
      ⟨.var ⟨1, 2, 25, .default⟩, "b", true⟩ = some (.unicode ['x']) := entryObject_text rfl rfl
  have hid : entryObject integerSemantics baseTypes plainPrinter idRow
      ⟨.var ⟨1, 1, 25, .default⟩, "id", true⟩ = some (.unicode ['1']) := entryObject_text rfl rfl
  let entries : List TargetEntry :=
    [⟨.var ⟨1, 2, 25, .default⟩, "b", true⟩, ⟨.var ⟨1, 1, 25, .default⟩, "id", true⟩]
  have hitemb : lastItem integerSemantics baseTypes plainPrinter idRow entries "b" =
      some (.unicode ['x']) := by simp [entries, lastItem, hb]
  have hitemid : lastItem integerSemantics baseTypes plainPrinter idRow entries "id" =
      some (.unicode ['1']) := by simp [entries, lastItem, hid]
  have hgetb : Receives asciiCharset textInput ⟨"b", 25, -1, 2, 0, false⟩
      (some (.unicode ['x'])) (some (.text ['x'])) :=
    ⟨some (.text ['x']), false, ⟨rfl, _, _, rfl, rfl⟩, rfl⟩
  have hgetid : Receives asciiCharset textInput ⟨"id", 25, -1, 1, 0, false⟩
      (some (.unicode ['1'])) (some (.text ['1'])) :=
    ⟨some (.text ['1']), false, ⟨rfl, _, _, rfl, rfl⟩, rfl⟩
  refine (returnsDeletedRow_iff integerSemantics baseTypes plainPrinter asciiCharset textInput
    (fun _ => .default) deleteReturningColumn idColumns "id" [] true emptySlot idRow 0
    ⟨"id", 25, -1, false, []⟩ rfl rfl ?_).1 ⟨rfl, ?_, ?_, ?_⟩
  · intro item hitem v hv _
    obtain rfl := List.mem_singleton.mp hitem
    obtain rfl := List.mem_singleton.mp hv
    exact ⟨1, rfl, rfl⟩
  · intro tle htle
    obtain rfl | rfl : tle = ⟨.var ⟨1, 2, 25, .default⟩, "b", true⟩ ∨
        tle = ⟨.var ⟨1, 1, 25, .default⟩, "id", true⟩ := by
      simpa [subplanEntries, deleteReturningColumn, makeVar] using htle
    · simp [hb]
    · simp [hid]
  · intro i cinfo hc
    obtain ⟨rfl, rfl⟩ | ⟨rfl, rfl⟩ := idColumns_cinfo hc
    · exact ⟨_, hitemid ▸ hgetid⟩
    · exact ⟨_, hitemb ▸ hgetb⟩
  · intro i cinfo hc hread
    obtain ⟨rfl, rfl⟩ | ⟨rfl, rfl⟩ := idColumns_cinfo hc
    · exact hitemid ▸ hgetid
    · exact hitemb ▸ hgetb

end Multicorn.Modify
