import Multicorn.Alchemy.Sorting
import Multicorn.Executor.Pushdown
import Multicorn.General.KeyedWrites
import Multicorn.Modify.Insert

/-! UPDATE and DELETE on a table of `SqlAlchemyFdw`: the rows come from a scan, and each gets a
statement of its own that finds it by the primary key. -/
namespace Multicorn.Alchemy
open Multicorn.Catalog (Attribute Oid PgError TupleDesc)
open Multicorn.Convert
open Multicorn.Executor
open Multicorn.KeyedWrites
open Multicorn.Modify
open Multicorn.Planner
open Multicorn.Pointwise

inductive WriteError
  | crash
  | pg (e : PgError)
  | python (e : PyError)

namespace SqlAlchemyFdw

variable (w : SqlAlchemyFdw) (R : Remote) (assign : String → PyObject → Option Datum)
  (primary_key : String)

/-- `self.table.c[self._row_id_column] == rowid`. -/
def rowIdClause (rowid : PyObject) : Except PyError Clause := do
  let column ← w.column primary_key
  if w.applies (.op .eq) rowid then return ⟨column, .op .eq, rowid⟩
  else throw (.argumentError rowid)

/-- The rows that the clause selects. -/
def hits (rowid : PyObject) (record : Record) : Bool :=
  R.selects [⟨primary_key, .op .eq, rowid⟩] record

def delete (rowid : PyObject) (table : List Record) : Except PyError (List Record) := do
  let clause ← w.rowIdClause primary_key rowid
  return table.filter fun record => !R.selects [clause] record

/-- `.values(**newvalues)`, in the order of the columns of the table. -/
def setClause (newvalues : Values) : List (String × PyObject) :=
  w.columns.filterMap fun name => (newvalues name).map (Prod.mk name)

/-- The columns that are set have what the remote database stores for the bound value. -/
def stored (sets : List (String × PyObject)) (record : Record) : Record := fun name =>
  match sets.lookup name with
  | some value => assign name value
  | none => record name

def update (rowid : PyObject) (newvalues : Values) (table : List Record) :
    Except PyError (List Record) := do
  let clause ← w.rowIdClause primary_key rowid
  return table.map fun record =>
    if R.selects [clause] record then stored assign (w.setClause newvalues) record else record

theorem rowIdClause_eq_ok {rowid : PyObject} {clause : Clause}
    (h : w.rowIdClause primary_key rowid = .ok clause) :
    clause = ⟨primary_key, .op .eq, rowid⟩ := by
  unfold rowIdClause column at h
  split_ifs at h <;> cases h
  rfl

section Statement

variable (S : SqlSemantics) (T : TypeSystem) (ρ : Env) (q : Select)
  (modstate : MulticornModifyState) (desc : List FormAttribute)
  (newSlot : List (Option Datum) → TupleTableSlot Datum)

/-- The row id of a row of the subplan, which UPDATE reads as DELETE does. -/
def rowIdOf (row : Row) : Except WriteError PyObject :=
  match multicornExecForeignDelete S T modstate (ρ.withRow q.relid row) with
  | .error e => .error (.pg e)
  | .ok none => .error .crash
  | .ok (some rowid) => .ok rowid

/-- One round of a DELETE after the other. -/
def deleteRows : List Row → List Record → Except WriteError (List Record)
  | [], table => .ok table
  | row :: rows, table => do
    let rowid ← rowIdOf S T ρ q modstate row
    let table ← (w.delete R primary_key rowid table).mapError .python
    deleteRows rows table

/-- What `multicornExecForeignUpdate` hands over: the tuple that the executor made of the row
comes first. -/
def writeOf (row : Row) : Except WriteError (PyObject × Values) := do
  let newvalues ← (slotToPyObject T desc (newSlot (q.output S ρ row))).elim (.error .crash) .ok
  let rowid ← rowIdOf S T ρ q modstate row
  return (rowid, newvalues)

/-- One round of an UPDATE after the other. -/
def updateRows : List Row → List Record → Except WriteError (List Record)
  | [], table => .ok table
  | row :: rows, table => do
    let (rowid, newvalues) ← writeOf S T ρ q modstate desc newSlot row
    let table ← (w.update R assign primary_key rowid newvalues table).mapError .python
    updateRows rows table

end Statement

section Rounds

variable {w : SqlAlchemyFdw} {R : Remote} {assign : String → PyObject → Option Datum}
  {primary_key : String} {S : SqlSemantics} {T : TypeSystem} {ρ : Env} {q : Select}
  {modstate : MulticornModifyState} {desc : List FormAttribute}
  {newSlot : List (Option Datum) → TupleTableSlot Datum}

theorem delete_eq_ok {rowid : PyObject} {table table' : List Record}
    (h : w.delete R primary_key rowid table = .ok table') :
    table' = table.filter fun record => !hits R primary_key rowid record := by
  obtain ⟨clause, hclause, h⟩ := bind_eq_ok.mp h
  cases h
  rw [w.rowIdClause_eq_ok primary_key hclause]
  rfl

theorem update_eq_ok {rowid : PyObject} {newvalues : Values} {table table' : List Record}
    (h : w.update R assign primary_key rowid newvalues table = .ok table') :
    table' = table.map fun record => if hits R primary_key rowid record then
      stored assign (w.setClause newvalues) record else record := by
  obtain ⟨clause, hclause, h⟩ := bind_eq_ok.mp h
  cases h
  rw [w.rowIdClause_eq_ok primary_key hclause]
  rfl

/-- The rounds of a DELETE are deletes by the row ids of its rows. -/
theorem deleteRows_eq_ok {rows : List Row} {table table' : List Record}
    (h : deleteRows w R primary_key S T ρ q modstate rows table = .ok table') :
    ∃ rowids, rows.map (rowIdOf S T ρ q modstate) = rowids.map .ok ∧
      table' = deleteAll (hits R primary_key) rowids table := by
  induction rows generalizing table with
  | nil =>
    cases h
    exact ⟨[], rfl, rfl⟩
  | cons row rows ih =>
    obtain ⟨rowid, hrowid, h⟩ := bind_eq_ok.mp h
    obtain ⟨table₁, hdelete, h⟩ := bind_eq_ok.mp h
    rw [mapError_eq_ok] at hdelete
    obtain ⟨rowids, hrowids, rfl⟩ := ih h
    refine ⟨rowid :: rowids, ?_, ?_⟩
    · rw [List.map_cons, List.map_cons, hrowid, hrowids]
    · rw [delete_eq_ok hdelete]
      rfl

/-- And those of an UPDATE are updates by row id. -/
theorem updateRows_eq_ok {rows : List Row} {table table' : List Record}
    (h : updateRows w R assign primary_key S T ρ q modstate desc newSlot rows table =
      .ok table') :
    ∃ writes : List (PyObject × Values),
      rows.map (writeOf S T ρ q modstate desc newSlot) = writes.map .ok ∧
      table' = updateAll (hits R primary_key)
        (writes.map fun p => (p.1, stored assign (w.setClause p.2))) table := by
  induction rows generalizing table with
  | nil =>
    cases h
    exact ⟨[], rfl, rfl⟩
  | cons row rows ih =>
    obtain ⟨⟨rowid, newvalues⟩, hwrite, h⟩ := bind_eq_ok.mp h
    obtain ⟨table₁, hupdate, h⟩ := bind_eq_ok.mp h
    rw [mapError_eq_ok] at hupdate
    obtain ⟨writes, hwrites, rfl⟩ := ih h
    refine ⟨(rowid, newvalues) :: writes, ?_, ?_⟩
    · rw [List.map_cons, List.map_cons, hwrite, hwrites]
    · rw [update_eq_ok hupdate]
      rfl

theorem lookup_setClause (newvalues : Values) (name : String) :
    (w.setClause newvalues).lookup name = if name ∈ w.columns then newvalues name else none := by
  unfold setClause
  induction w.columns with
  | nil => rfl
  | cons column columns ih =>
    rw [List.filterMap_cons]
    by_cases hname : name = column
    · subst hname
      cases hvalue : newvalues name with
      | none =>
        rw [Option.map_none, ih, hvalue]
        simp
      | some value => simp
    · have hbeq : (name == column) = false := beq_false_of_ne hname
      cases hvalue : newvalues column with
      | none =>
        rw [Option.map_none, ih]
        simp [hname]
      | some value =>
        rw [Option.map_some, List.lookup_cons, hbeq, ih]
        simp [hname]

/-- Columns that are set twice to the same values keep them. -/
theorem stored_stored (sets : List (String × PyObject)) (record : Record) :
    stored assign sets (stored assign sets record) = stored assign sets record := by
  funext name
  unfold stored
  cases sets.lookup name <;> rfl

variable (w assign T desc) in
/-- The remote table has the live columns, and stores a converted value as the value it was
converted from. -/
structure Stores : Prop where
  nodup : (desc.map (·.attname)).Nodup
  columns : ∀ name, name ∈ w.columns ↔ (columnIndex desc name).isSome
  none : ∀ name, assign name .none = none
  value : ∀ i cinfo d item, initConversioninfo desc i = some cinfo →
    datumToPython T cinfo.atttypoid (some d) = some item → assign cinfo.attrname item = some d

variable (desc) in
/-- The row after an UPDATE made a tuple of it. -/
def updatedRecord (slot : TupleTableSlot Datum) (record : Record) : Record := fun name =>
  match columnIndex desc name with
  | some i => slotGetattr slot i
  | none => record name

theorem Stores.stored_eq (h : w.Stores assign T desc) {slot : TupleTableSlot Datum}
    {newvalues : Values} (hvalues : slotToPyObject T desc slot = some newvalues)
    (record : Record) :
    stored assign (w.setClause newvalues) record = updatedRecord desc slot record := by
  funext name
  obtain ⟨hother, hlive⟩ := slotToPyObject_eq_some h.nodup hvalues name
  unfold stored updatedRecord
  rw [lookup_setClause]
  cases hindex : columnIndex desc name with
  | none =>
    have hname : name ∉ w.columns := by simp [h.columns, hindex]
    simp [hname]
  | some i =>
    have hname : name ∈ w.columns := by simp [h.columns, hindex]
    obtain ⟨cinfo, item, hcinfo, rfl, hitem, hvalue⟩ := hlive i hindex
    unfold columnObject at hitem
    simp only [hname, if_true, hvalue]
    cases hd : slotGetattr slot i with
    | none =>
      simp only [hd] at hitem
      cases hitem
      exact h.none _
    | some d =>
      simp only [hd] at hitem
      exact h.value i cinfo d item hcinfo hitem

theorem rowIdOf_alike (htargets : ∀ tle, modstate.rowidAttno = some tle → tle.expr ∈ q.targets)
    {answered row : Row} (h : q.Alike S ρ answered row) :
    rowIdOf S T ρ q modstate answered = rowIdOf S T ρ q modstate row := by
  unfold rowIdOf multicornExecForeignDelete
  cases htle : modstate.rowidAttno with
  | none => rfl
  | some tle =>
    have heval := h.eval tle.expr (List.mem_append_left _ (htargets tle htle))
    simp only [heval]

theorem writeOf_eq_ok {row : Row} {rowid : PyObject} {newvalues : Values}
    (h : writeOf S T ρ q modstate desc newSlot row = .ok (rowid, newvalues)) :
    slotToPyObject T desc (newSlot (q.output S ρ row)) = some newvalues ∧
      rowIdOf S T ρ q modstate row = .ok rowid := by
  obtain ⟨newvalues', hvalues, h⟩ := bind_eq_ok.mp h
  obtain ⟨rowid', hrowid, h⟩ := bind_eq_ok.mp h
  cases h
  cases hslot : slotToPyObject T desc (newSlot (q.output S ρ row)) with
  | none => simp [hslot] at hvalues
  | some values =>
    rw [hslot] at hvalues
    cases hvalues
    exact ⟨rfl, hrowid⟩

theorem writeOf_alike (htargets : ∀ tle, modstate.rowidAttno = some tle → tle.expr ∈ q.targets)
    {answered row : Row} (h : q.Alike S ρ answered row) :
    writeOf S T ρ q modstate desc newSlot answered = writeOf S T ρ q modstate desc newSlot row := by
  unfold writeOf
  rw [h.output, rowIdOf_alike htargets h]

/-- The row identity is an entry of the target list. -/
theorem rowidAttno_mem {tdesc : TupleDesc} {targetlist : List TargetEntry}
    (htargets : targetlist.map TargetEntry.expr = q.targets) :
    ∀ tle, (multicornBeginForeignModify tdesc targetlist primary_key).rowidAttno = some tle →
      tle.expr ∈ q.targets := by
  intro tle htle
  rw [← htargets]
  exact List.mem_map_of_mem (List.mem_of_find?_eq_some htle)

end Rounds

section Meaning

variable {w : SqlAlchemyFdw} {R : Remote} {primary_key : String} {q : Select}
  {S : SqlSemantics} {T : TypeSystem} {V : Reading T} {O : OrderSemantics}
  {defaultOpfamily : Oid → Oid} {ρ : Env} {sys : ℤ → Option Datum}
  {targetlist : List TargetEntry} {tdesc : TupleDesc}
  {modstate : MulticornModifyState} {table answer table' : List Record}

/-- What the rounds make of the answer is what they would make of the rows that pass. -/
theorem mem_rounds {α : Type} {f : Row → Except WriteError α} {items : List α}
    (hanswer : q.Answers S O defaultOpfamily ρ sys V [] table answer) (hcolumns : q.Columns)
    (hquals : ∀ e ∈ q.clauses, QualsSound V q.relation.desc S q.relid e)
    (hf : ∀ answered row, q.Alike S ρ answered row → f answered = f row)
    (hitems : ((answer.map (q.row sys)).filter (q.passes S ρ)).map f = items.map .ok) (item : α) :
    item ∈ items ↔ ∃ record ∈ table, q.passes S ρ (q.row sys record) = true ∧
      f (q.row sys record) = .ok item := by
  have hperm := hanswer.map_perm hcolumns hquals hf
  rw [hitems] at hperm
  have hok : item ∈ items ↔ Except.ok item ∈ items.map (Except.ok (ε := WriteError)) := by
    simp
  rw [hok, hperm.mem_iff, List.filter_map, List.map_map]
  simp [List.mem_map, List.mem_filter, and_assoc]

theorem exists_round {α : Type} {f : Row → Except WriteError α} {items : List α}
    (hanswer : q.Answers S O defaultOpfamily ρ sys V [] table answer) (hcolumns : q.Columns)
    (hquals : ∀ e ∈ q.clauses, QualsSound V q.relation.desc S q.relid e)
    (hf : ∀ answered row, q.Alike S ρ answered row → f answered = f row)
    (hitems : ((answer.map (q.row sys)).filter (q.passes S ρ)).map f = items.map .ok)
    {record : Record} (hrecord : record ∈ table)
    (hpasses : q.passes S ρ (q.row sys record) = true) :
    ∃ item ∈ items, f (q.row sys record) = .ok item := by
  have hperm := hanswer.map_perm hcolumns hquals hf
  rw [hitems] at hperm
  have hmem : f (q.row sys record) ∈ items.map Except.ok := by
    rw [hperm.mem_iff]
    exact List.mem_map_of_mem (List.mem_filter.mpr ⟨List.mem_map_of_mem hrecord, hpasses⟩)
  obtain ⟨item, hitem, hok⟩ := List.mem_map.mp hmem
  exact ⟨item, hitem, hok.symm⟩

/-- A DELETE that succeeds removes the rows that pass, and no other row, exactly when a row
passes if and only if the row id of some row that passes finds it. -/
theorem delete_agrees_iff (hcolumns : q.Columns)
    (hquals : ∀ e ∈ q.clauses, QualsSound V q.relation.desc S q.relid e)
    (hanswer : q.Answers S O defaultOpfamily ρ sys V [] table answer)
    (htargets : targetlist.map TargetEntry.expr = q.targets)
    (hmodify : multicornBeginForeignModify tdesc targetlist primary_key = modstate)
    (hrun : w.deleteRows R primary_key S T ρ q modstate
      ((answer.map (q.row sys)).filter (q.passes S ρ)) table = .ok table') :
    table' = table.filter (fun record => !q.passes S ρ (q.row sys record)) ↔
      ∀ record ∈ table, q.passes S ρ (q.row sys record) = true ↔
        ∃ deleted ∈ table, q.passes S ρ (q.row sys deleted) = true ∧
          ∃ rowid, rowIdOf S T ρ q modstate (q.row sys deleted) = .ok rowid ∧
            hits R primary_key rowid record = true := by
  subst hmodify
  obtain ⟨rowids, hrowids, rfl⟩ := deleteRows_eq_ok hrun
  have hmem := mem_rounds hanswer hcolumns hquals
    (fun _ _ h => rowIdOf_alike (rowidAttno_mem htargets) h) hrowids
  rw [deleteAll_eq_iff]
  refine forall₂_congr fun record _ => iff_congr Iff.rfl ?_
  constructor
  · intro ⟨rowid, hrowid, hhits⟩
    obtain ⟨deleted, hdeleted, hpasses, hid⟩ := (hmem rowid).mp hrowid
    exact ⟨deleted, hdeleted, hpasses, rowid, hid, hhits⟩
  · intro ⟨deleted, hdeleted, hpasses, rowid, hid, hhits⟩
    exact ⟨rowid, (hmem rowid).mpr ⟨deleted, hdeleted, hpasses, hid⟩, hhits⟩

/-- An UPDATE that succeeds gives the rows that pass their new values, and leaves the others,
when the row id of a row that passes finds that row alone, before the statement and among the
rows written by it. -/
theorem update_agrees {desc : List FormAttribute}
    {newSlot : List (Option Datum) → TupleTableSlot Datum}
    {assign : String → PyObject → Option Datum} (hcolumns : q.Columns)
    (hquals : ∀ e ∈ q.clauses, QualsSound V q.relation.desc S q.relid e)
    (hanswer : q.Answers S O defaultOpfamily ρ sys V [] table answer)
    (htargets : targetlist.map TargetEntry.expr = q.targets)
    (hmodify : multicornBeginForeignModify tdesc targetlist primary_key = modstate)
    (hstores : w.Stores assign T desc)
    (hbefore : ∀ updated ∈ table, q.passes S ρ (q.row sys updated) = true →
      ∀ rowid, rowIdOf S T ρ q modstate (q.row sys updated) = .ok rowid →
        ∀ record ∈ table, hits R primary_key rowid record = true ↔ record = updated)
    (hafter : ∀ updated ∈ table, q.passes S ρ (q.row sys updated) = true →
      ∀ rowid, rowIdOf S T ρ q modstate (q.row sys updated) = .ok rowid →
        ∀ record ∈ table, q.passes S ρ (q.row sys record) = true →
          hits R primary_key rowid
              (updatedRecord desc (newSlot (q.output S ρ (q.row sys record))) record) = true →
            record = updated)
    (hrun : w.updateRows R assign primary_key S T ρ q modstate desc newSlot
      ((answer.map (q.row sys)).filter (q.passes S ρ)) table = .ok table') :
    table' = table.map fun record => if q.passes S ρ (q.row sys record) then
      updatedRecord desc (newSlot (q.output S ρ (q.row sys record))) record else record := by
  subst hmodify
  obtain ⟨writes, hwrites, rfl⟩ := updateRows_eq_ok hrun
  have halike : ∀ answered row, q.Alike S ρ answered row →
      writeOf S T ρ q (multicornBeginForeignModify tdesc targetlist primary_key) desc newSlot
          answered =
        writeOf S T ρ q (multicornBeginForeignModify tdesc targetlist primary_key) desc newSlot
          row :=
    fun _ _ h => writeOf_alike (rowidAttno_mem htargets) h
  -- every write is that of a row that passes
  have hwrite : ∀ v ∈ writes.map (fun p => (p.1, stored assign (w.setClause p.2))),
      ∃ updated ∈ table, q.passes S ρ (q.row sys updated) = true ∧
        rowIdOf S T ρ q (multicornBeginForeignModify tdesc targetlist primary_key)
          (q.row sys updated) = .ok v.1 ∧
        (∀ record, v.2 record =
          updatedRecord desc (newSlot (q.output S ρ (q.row sys updated))) record) ∧
        ∀ record, v.2 (v.2 record) = v.2 record := by
    intro v hv
    obtain ⟨p, hp, rfl⟩ := List.mem_map.mp hv
    obtain ⟨updated, hupdated, hpasses, hp⟩ :=
      (mem_rounds hanswer hcolumns hquals halike hwrites p).mp hp
    obtain ⟨hvalues, hrowid⟩ := writeOf_eq_ok hp
    exact ⟨updated, hupdated, hpasses, hrowid, hstores.stored_eq hvalues,
      stored_stored (w.setClause p.2)⟩
  refine updateAll_eq (fun record hrecord hpasses => ?_) (fun v hv record hrecord hhits => ?_)
    (fun v hv record hrecord hpasses hhits => ?_)
  · obtain ⟨p, hp, hok⟩ := exists_round hanswer hcolumns hquals halike hwrites hrecord hpasses
    exact ⟨_, List.mem_map_of_mem hp,
      (hbefore record hrecord hpasses p.1 (writeOf_eq_ok hok).2 record hrecord).mpr rfl⟩
  · obtain ⟨updated, hupdated, hpasses, hrowid, hnew, -⟩ := hwrite v hv
    have : record = updated :=
      (hbefore updated hupdated hpasses v.1 hrowid record hrecord).mp hhits
    subst this
    exact ⟨hpasses, hnew record⟩
  · obtain ⟨updated, hupdated, hpasses', hrowid, hnew, htwice⟩ := hwrite v hv
    have : record = updated :=
      hafter updated hupdated hpasses' v.1 hrowid record hrecord hpasses hhits
    subst this
    rw [← hnew, htwice]

end Meaning

end SqlAlchemyFdw

/-! `DELETE FROM t WHERE a = 3 RETURNING b` and `UPDATE t SET b = 'w' WHERE a = 3`, with `a` as
the primary key. -/

def writeSelect (targetlist : List TargetEntry) : Select where
  rt _ := twoColumns
  relid := 1
  targets := targetlist.map TargetEntry.expr
  clauses := [varEqConst]
  sort_pathkeys := []

def deleteTargets : List TargetEntry :=
  [⟨.var ⟨1, 2, 25, .default⟩, "b", true⟩, ⟨.var ⟨1, 1, Planner.int4Oid, .invalid⟩, "a", true⟩]

def updateTargets : List TargetEntry :=
  [⟨.const 25 (some (.text ['w'])), "b", false⟩, ⟨.var ⟨1, 1, Planner.int4Oid, .invalid⟩, "a", true⟩,
    ⟨.var ⟨1, 2, 25, .default⟩, "b", true⟩]

def twoRows : List Record := [pair 4 ['x'], pair 3 ['y']]

theorem deleteTargets_columns : (writeSelect deleteTargets).Columns where
  confined := by
    simp only [writeSelect, deleteTargets, varEqConst, OverRelation, List.map_cons, List.map_nil,
      List.cons_append, List.nil_append, List.forall_mem_cons, pullVarClause, pullVarClauseList,
      List.append_nil]
    obtain ⟨ha, hb⟩ := twoColumns_live
    exact ⟨⟨⟨trivial, .inr (.inr ⟨"b", hb⟩)⟩, by simp⟩,
      ⟨⟨trivial, .inr (.inr ⟨"a", ha⟩)⟩, by simp⟩, ⟨⟨trivial, .inr (.inr ⟨"a", ha⟩)⟩, by simp⟩,
      by simp⟩
  covers := twoColumns_covered (by decide) (by decide) _
  sorted _ hkey := absurd hkey List.not_mem_nil

theorem updateTargets_columns : (writeSelect updateTargets).Columns where
  confined := by
    simp only [writeSelect, updateTargets, varEqConst, OverRelation, List.map_cons, List.map_nil,
      List.cons_append, List.nil_append, List.forall_mem_cons, pullVarClause, pullVarClauseList,
      List.append_nil]
    obtain ⟨ha, hb⟩ := twoColumns_live
    exact ⟨by simp, ⟨⟨trivial, .inr (.inr ⟨"a", ha⟩)⟩, by simp⟩,
      ⟨⟨trivial, .inr (.inr ⟨"b", hb⟩)⟩, by simp⟩, ⟨⟨trivial, .inr (.inr ⟨"a", ha⟩)⟩, by simp⟩,
      by simp⟩
  covers := twoColumns_covered (by decide) (by decide) _
  sorted _ hkey := absurd hkey List.not_mem_nil

theorem writeSelect_sound (targetlist : List TargetEntry) :
    ∀ e ∈ (writeSelect targetlist).clauses,
      QualsSound integerReading (writeSelect targetlist).relation.desc integerSemantics 1 e := by
  intro e he
  obtain rfl := List.mem_singleton.mp he
  exact varEqConst_sound

/-- The remote database may answer with the whole table. -/
theorem twoRows_answers (targetlist : List TargetEntry) :
    (writeSelect targetlist).Answers integerSemantics integerOrder (fun _ => 1976) emptyEnv
      (fun _ => none) integerReading [] twoRows twoRows :=
  ⟨twoRows, ⟨[], by rw [List.append_nil], by simp⟩,
    List.pairwise_of_forall_mem_list fun _ _ _ _ => rfl, List.forall₂_same.mpr fun _ _ _ _ => rfl⟩

theorem datumToPython_integer (d : Option Datum) :
    datumToPython Modify.baseTypes Planner.int4Oid d = datumIntToPython Modify.baseTypes d := by
  simp [datumToPython, Planner.int4Oid, Convert.int4Oid, byteaOid, textOid, varcharOid, bpcharOid,
    numericOid, dateOid, timestampOid]

theorem datumToPython_string (d : Option Datum) :
    datumToPython Modify.baseTypes textOid d = datumStringToPython Modify.baseTypes d := by
  simp [datumToPython, textOid, byteaOid]

/-- One row passes. -/
theorem twoRows_passing (targetlist : List TargetEntry) :
    ((twoRows.map ((writeSelect targetlist).row fun _ => none)).filter
      ((writeSelect targetlist).passes integerSemantics emptyEnv)) =
      [(writeSelect targetlist).row (fun _ => none) (pair 3 ['y'])] :=
  rfl

def twoRowsDelete : MulticornModifyState :=
  multicornBeginForeignModify twoColumns.desc deleteTargets "a"

theorem twoRowsDelete_rowId (a : ℤ) (b : List Char) :
    SqlAlchemyFdw.rowIdOf integerSemantics Modify.baseTypes emptyEnv (writeSelect deleteTargets)
      twoRowsDelete ((writeSelect deleteTargets).row (fun _ => none) (pair a b)) =
      .ok (.int a) := by
  have hexec : multicornExecForeignDelete integerSemantics Modify.baseTypes twoRowsDelete
      (emptyEnv.withRow (writeSelect deleteTargets).relid
        ((writeSelect deleteTargets).row (fun _ => none) (pair a b))) =
      .ok (some (.int a)) := congrArg Except.ok (datumToPython_integer _)
  unfold SqlAlchemyFdw.rowIdOf
  rw [hexec]

theorem twoRows_deleteRows : pairFdw.deleteRows postgresql "a" integerSemantics Modify.baseTypes
    emptyEnv (writeSelect deleteTargets) twoRowsDelete
    ((twoRows.map ((writeSelect deleteTargets).row fun _ => none)).filter
      ((writeSelect deleteTargets).passes integerSemantics emptyEnv)) twoRows =
    .ok [pair 4 ['x']] := by
  rw [twoRows_passing, SqlAlchemyFdw.deleteRows, twoRowsDelete_rowId]
  rfl

theorem twoRows_deleted : [pair 4 ['x']] = twoRows.filter (fun record =>
    !(writeSelect deleteTargets).passes integerSemantics emptyEnv
      ((writeSelect deleteTargets).row (fun _ => none) record)) ↔
    ∀ record ∈ twoRows, (writeSelect deleteTargets).passes integerSemantics emptyEnv
        ((writeSelect deleteTargets).row (fun _ => none) record) = true ↔
      ∃ deleted ∈ twoRows, (writeSelect deleteTargets).passes integerSemantics emptyEnv
          ((writeSelect deleteTargets).row (fun _ => none) deleted) = true ∧
        ∃ rowid, SqlAlchemyFdw.rowIdOf integerSemantics Modify.baseTypes emptyEnv
            (writeSelect deleteTargets) twoRowsDelete
            ((writeSelect deleteTargets).row (fun _ => none) deleted) = .ok rowid ∧
          SqlAlchemyFdw.hits postgresql "a" rowid record = true :=
  SqlAlchemyFdw.delete_agrees_iff (w := pairFdw) deleteTargets_columns
    (writeSelect_sound deleteTargets) (twoRows_answers deleteTargets) rfl rfl
    twoRows_deleteRows

def twoRowsUpdate : MulticornModifyState :=
  multicornBeginForeignModify twoColumns.desc updateTargets "a"

def twoColumnForm : List FormAttribute :=
  [⟨⟨"a", 23, -1, false, []⟩, 0⟩, ⟨⟨"b", 25, -1, false, []⟩, 0⟩]

/-- `a` as it was and the new `b`. -/
def newPair (out : List (Option Datum)) : TupleTableSlot Datum :=
  ⟨fun i => if i = 0 then out.getD 1 none else out.getD 0 none, fun _ => false⟩

def assignPair (name : String) : PyObject → Option Datum
  | .int n => if name = "a" then some (.int4 n) else none
  | .str s => if name = "b" then some (.text s) else none
  | _ => none

theorem pair_stores : pairFdw.Stores assignPair Modify.baseTypes twoColumnForm where
  nodup := by decide
  columns name := by
    by_cases ha : name = "a"
    · subst ha
      decide
    · by_cases hb : name = "b"
      · subst hb
        decide
      · simp [pairFdw, columnIndex, twoColumnForm, initConversioninfo, List.range_succ, Ne.symm ha,
          Ne.symm hb, ha, hb]
  none _ := rfl
  value i cinfo d item hcinfo hitem := by
    rcases i with _ | _ | i
    · cases hcinfo
      have hint : datumIntToPython Modify.baseTypes (some d) = some item :=
        (datumToPython_integer _).symm.trans hitem
      cases d <;> cases hint
      rfl
    · cases hcinfo
      have hstr : datumStringToPython Modify.baseTypes (some d) = some item :=
        (datumToPython_string _).symm.trans hitem
      cases d <;> cases hstr
      rfl
    · cases hcinfo

theorem twoRowsUpdate_rowId (a : ℤ) (b : List Char) :
    SqlAlchemyFdw.rowIdOf integerSemantics Modify.baseTypes emptyEnv (writeSelect updateTargets)
      twoRowsUpdate ((writeSelect updateTargets).row (fun _ => none) (pair a b)) =
      .ok (.int a) := by
  have hexec : multicornExecForeignDelete integerSemantics Modify.baseTypes twoRowsUpdate
      (emptyEnv.withRow (writeSelect updateTargets).relid
        ((writeSelect updateTargets).row (fun _ => none) (pair a b))) =
      .ok (some (.int a)) := congrArg Except.ok (datumToPython_integer _)
  unfold SqlAlchemyFdw.rowIdOf
  rw [hexec]

/-- The dictionary of the new row. -/
def newValues : Values :=
  Function.update (Function.update (fun _ => none) "a" (some (.int 3))) "b" (some (.str ['w']))

theorem newPair_values :
    slotToPyObject Modify.baseTypes twoColumnForm
      (newPair [some (.text ['w']), some (.int4 3), some (.text ['y'])]) = some newValues := by
  have ha : columnObject Modify.baseTypes
      (newPair [some (.text ['w']), some (.int4 3), some (.text ['y'])]) 0
      ⟨"a", 23, -1, 1, 0, false⟩ = some (.int 3) := datumToPython_integer _
  have hb : columnObject Modify.baseTypes
      (newPair [some (.text ['w']), some (.int4 3), some (.text ['y'])]) 1
      ⟨"b", 25, -1, 2, 0, false⟩ = some (.str ['w']) := datumToPython_string _
  simp [slotToPyObject, twoColumnForm, List.range_succ, putColumn, initConversioninfo, ha, hb,
    newValues]

theorem stored_newValues :
    SqlAlchemyFdw.stored assignPair (pairFdw.setClause newValues) (pair 3 ['y']) =
      pair 3 ['w'] := by
  funext name
  unfold SqlAlchemyFdw.stored
  rw [SqlAlchemyFdw.lookup_setClause]
  by_cases ha : name = "a"
  · subst ha
    rfl
  · by_cases hb : name = "b"
    · subst hb
      rfl
    · simp [pairFdw, pair, ha, hb]

theorem twoRowsUpdate_write :
    SqlAlchemyFdw.writeOf integerSemantics Modify.baseTypes emptyEnv (writeSelect updateTargets)
      twoRowsUpdate twoColumnForm newPair
      ((writeSelect updateTargets).row (fun _ => none) (pair 3 ['y'])) =
      .ok (.int 3, newValues) := by
  have houtput : (writeSelect updateTargets).output integerSemantics emptyEnv
      ((writeSelect updateTargets).row (fun _ => none) (pair 3 ['y'])) =
      [some (.text ['w']), some (.int4 3), some (.text ['y'])] := rfl
  unfold SqlAlchemyFdw.writeOf
  rw [houtput, newPair_values, twoRowsUpdate_rowId]
  rfl

theorem twoRows_updateRows : pairFdw.updateRows postgresql assignPair "a" integerSemantics
    Modify.baseTypes emptyEnv (writeSelect updateTargets) twoRowsUpdate twoColumnForm newPair
    ((twoRows.map ((writeSelect updateTargets).row fun _ => none)).filter
      ((writeSelect updateTargets).passes integerSemantics emptyEnv)) twoRows =
    .ok [pair 4 ['x'], pair 3 ['w']] := by
  rw [twoRows_passing, SqlAlchemyFdw.updateRows, twoRowsUpdate_write, ← stored_newValues]
  rfl

theorem hits_pair (n a : ℤ) (b : List Char) :
    SqlAlchemyFdw.hits postgresql "a" (.int n) (pair a b) = (a == n) := by
  show ((some (a == n) == some true) && true) = (a == n)
  cases a == n <;> rfl

theorem pair_ne {a a' : ℤ} (h : a ≠ a') (b b' : List Char) : pair a b ≠ pair a' b' := by
  intro heq
  have hvalue : some (Datum.int4 a) = some (.int4 a') := congrFun heq "a"
  cases hvalue
  exact h rfl

/-- The rows have different keys. -/
theorem twoRows_found : ∀ updated ∈ twoRows, ∀ rowid,
    SqlAlchemyFdw.rowIdOf integerSemantics Modify.baseTypes emptyEnv (writeSelect updateTargets)
      twoRowsUpdate ((writeSelect updateTargets).row (fun _ => none) updated) = .ok rowid →
    ∀ record ∈ twoRows, SqlAlchemyFdw.hits postgresql "a" rowid record = true ↔
      record = updated := by
  simp only [twoRows, List.forall_mem_cons, List.not_mem_nil, false_imp_iff, implies_true,
    and_true, twoRowsUpdate_rowId, Except.ok.injEq, forall_eq', hits_pair]
  have h43 : pair 4 ['x'] ≠ pair 3 ['y'] := pair_ne (by decide) _ _
  simp [h43, h43.symm]

theorem twoRows_passes {record : Record} (hrecord : record ∈ twoRows)
    (h : (writeSelect updateTargets).passes integerSemantics emptyEnv
      ((writeSelect updateTargets).row (fun _ => none) record) = true) :
    record = pair 3 ['y'] := by
  simp only [twoRows, List.mem_cons, List.not_mem_nil, or_false] at hrecord
  rcases hrecord with rfl | rfl
  · have hfails : (writeSelect updateTargets).passes integerSemantics emptyEnv
        ((writeSelect updateTargets).row (fun _ => none) (pair 4 ['x'])) = false := rfl
    rw [hfails] at h
    cases h
  · rfl

theorem twoRows_updated : [pair 4 ['x'], pair 3 ['w']] = twoRows.map fun record =>
    if (writeSelect updateTargets).passes integerSemantics emptyEnv
        ((writeSelect updateTargets).row (fun _ => none) record) then
      SqlAlchemyFdw.updatedRecord twoColumnForm (newPair ((writeSelect updateTargets).output
        integerSemantics emptyEnv ((writeSelect updateTargets).row (fun _ => none) record))) record
    else record :=
  SqlAlchemyFdw.update_agrees (w := pairFdw) (R := postgresql) updateTargets_columns
    (writeSelect_sound updateTargets) (twoRows_answers updateTargets) rfl
    (show multicornBeginForeignModify twoColumns.desc updateTargets "a" = twoRowsUpdate from rfl)
    pair_stores (fun updated hupdated _ => twoRows_found updated hupdated)
    (fun _ hupdated hpasses _ _ _ hrecord hpasses' _ =>
      (twoRows_passes hrecord hpasses').trans (twoRows_passes hupdated hpasses).symm)
    twoRows_updateRows

end Multicorn.Alchemy
