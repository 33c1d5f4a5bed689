import Multicorn.Alchemy.Sorting
import Multicorn.Alchemy.Where
import Multicorn.Executor.Pushdown

/-! `execute` of `SqlAlchemyFdw` answers as its documentation asks. -/
namespace Multicorn.Alchemy
open Multicorn.Catalog (Oid)
open Multicorn.Convert (PyObject TypeSystem datumToPython)
open Multicorn.Executor
open Multicorn.KeyOrder
open Multicorn.Planner
open Multicorn.Pointwise
open Multicorn.Recheck

namespace SqlAlchemyFdw

variable {w : SqlAlchemyFdw}

/-- Every column asked for is selected. -/
theorem mem_selectedColumns {columns selected : List String}
    (h : w.selectedColumns columns = .ok selected) : ∀ name ∈ columns, name ∈ selected := by
  intro name hname
  unfold selectedColumns at h
  split_ifs at h with hempty
  · rw [List.isEmpty_iff.mp hempty] at hname
    cases hname
  · obtain ⟨name', hmem, hcolumn⟩ := exists_of_mem_left (forall₂_of_mapM_ok h) hname
    unfold column at hcolumn
    split_ifs at hcolumn
    cases hcolumn
    exact hmem

theorem buildStatement_eq_ok {quals : List Qual} {columns : List String}
    {sortkeys : List SortKey} {st : Statement}
    (h : w.buildStatement quals columns sortkeys = .ok st) :
    ∃ clauses, quals.mapM w.clauseOf = .ok clauses ∧ st.clauses = clauses.reduceOption ∧
      sortkeys.mapM w.orderOf = .ok st.orderBy ∧ ∀ name ∈ columns, name ∈ st.columns := by
  obtain ⟨clauses, hclauses, h⟩ := bind_eq_ok.mp h
  obtain ⟨selected, hselected, h⟩ := bind_eq_ok.mp h
  obtain ⟨orders, horders, h⟩ := bind_eq_ok.mp h
  cases h
  exact ⟨clauses, hclauses, rfl, horders, mem_selectedColumns hselected⟩

/-- What the remote database returns for the statement keeps every row that the quals keep,
in the order of the sort keys, with the columns asked for. -/
theorem execute_answers (q : Select) {R : Remote} {S : SqlSemantics} {T : TypeSystem}
    {V : Reading T} {O : OrderSemantics} {defaultOpfamily : Oid → Oid} {ρ : Env} {sys : ℤ → Option Datum}
    {quals : List Qual} {columns : List String} {sortkeys : List SortKey} {st : Statement}
    {table answer : List Record} (hspeaks : R.Speaks w.dialect)
    (hsorts : R.Sorts O defaultOpfamily q.relation)
    (hagrees : ∀ c ∈ q.constQuals S ρ, R.Agrees S V q.relation.desc c)
    (hkeys : ∀ key ∈ sortkeys, q.relation.LiveColumn key.attnum key.attname ∧
      key.collate ≠ some "")
    (hquals : q.pythonQuals S T ρ = some quals) (hcolumns : columns.toFinset = q.columns)
    (hbuild : w.buildStatement quals columns sortkeys = .ok st)
    (hreturns : R.Returns st table answer) :
    q.Answers S O defaultOpfamily ρ sys V sortkeys table answer := by
  obtain ⟨clauses, hclauses, hst, horders, hselected⟩ := buildStatement_eq_ok hbuild
  obtain ⟨items, haccepts, rows, hperm, hsorted, rfl⟩ := hreturns
  refine ⟨rows, ?_, ?_, ?_⟩
  · have hkeeps : Keeps (fun record => ∀ c ∈ q.handedQuals S ρ V,
        c.HoldsOn S (q.row sys record c.base.varattno)) table
        (table.filter (R.selects st.clauses)) := by
      rw [hst]
      exact keeps_filter fun record _ hholds =>
        selects_of_holds w q hquals hclauses hagrees hholds
    exact hkeeps.perm hperm
  · have hitems := itemizes_of_build horders haccepts.1
    have hplain := plain_of_accepts hspeaks (fun key hkey => (hkeys key hkey).2) horders haccepts
    exact (sortedBy_items q sys hspeaks hsorts
      (fun key hkey => ⟨(hkeys key hkey).1, hplain key hkey⟩) hitems rows).mp hsorted
  · rw [List.forall₂_map_right_iff, List.forall₂_same]
    intro record _ name hname
    rw [← hcolumns, List.mem_toFinset] at hname
    simp [restrictRow, hselected name hname]

end SqlAlchemyFdw

/-! `SELECT b FROM t WHERE a = 3 ORDER BY a` on PostgreSQL. -/

theorem orderedSelect_constQuals : orderedSelect.constQuals integerSemantics emptyEnv =
    [⟨equalsThree, some (.int4 3)⟩] := by
  have hquals : orderedSelect.clauses.flatMap (extractRestrictions integerSemantics {1}) =
      [equalsThree] := by
    rw [orderedSelect, List.flatMap_singleton, extract_varEqConst]
  unfold Select.constQuals
  rw [show orderedSelect.relid = 1 from rfl, hquals]
  rfl

theorem integer_of_conversion {type : Oid} {n : ℤ} {value : PyObject}
    (h : datumToPython Modify.baseTypes type (some (.int4 n)) = some value) : value = .int n := by
  unfold datumToPython at h
  split_ifs at h
  all_goals first
    | cases h
      rfl
    | cases h

theorem postgresql_agrees : ∀ c ∈ orderedSelect.constQuals integerSemantics emptyEnv,
    postgresql.Agrees integerSemantics integerReading orderedSelect.relation.desc c := by
  rw [orderedSelect_constQuals]
  intro c hc
  rw [List.mem_singleton] at hc
  subst hc
  refine ⟨?_, ?_, ?_, ?_, ?_, ?_, ?_⟩
  · intro h
    cases h
  · exact fun x hx => congrArg some hx
  · exact fun x hx => congrArg some hx
  · intro x value hne
    cases value <;> first | exact absurd rfl hne | rfl
  · intro x items
    refine congrArg Kleene.any3 (List.map_congr_left fun item _ => ?_)
    cases item <;> rfl
  · intro op x hop
    cases hop
    cases x <;> simp [integerSemantics, SqlSemantics.binary, integerEq]
  · intro type object hcomparand f hf x hx
    cases hf
    cases hcomparand with
    | element harray => cases harray
    | value _ hvalue hobject =>
      cases hvalue
      obtain rfl := integer_of_conversion hobject
      have hbinary : asBool (integerEq [x, some (.int4 3)]) = some true := by
        simp only [integerReading, objectReading, objectValue] at hx
        exact hx
      rcases x with _ | d
      · cases hbinary
      · cases d <;> first | exact hbinary | cases hbinary

def pairStatement : Statement where
  clauses := [⟨"a", .op .eq, .int 3⟩]
  columns := ["b", "a"]
  orderBy := [.column "a"]

theorem pairFdw_build : pairFdw.buildStatement [⟨"a", .scalar "=", .int 3⟩] ["b", "a"]
    [getSortKey integerGroup] = .ok pairStatement := by
  rfl

theorem pairStatement_returns : postgresql.Returns pairStatement pairs
    ([pair 3 ['y'], pair 3 ['z']].map (restrictRow {"b", "a"})) := by
  refine ⟨[⟨"a", none, false, none⟩], ⟨rfl, ?_⟩, [pair 3 ['y'], pair 3 ['z']], ?_, ?_, rfl⟩
  · simp
  · rfl
  · exact (sortedBy_pair _ _ _).mpr rfl

theorem integerGroup_live :
    twoColumns.LiveColumn (getSortKey integerGroup).attnum (getSortKey integerGroup).attname :=
  twoColumns_live.1

theorem orderedSelect_pythonQuals :
    orderedSelect.pythonQuals integerSemantics Modify.baseTypes emptyEnv =
      some [⟨"a", .scalar "=", .int 3⟩] := by
  have hvalue : datumToPython Modify.baseTypes Planner.int4Oid (some (.int4 3)) = some (.int 3) := by
    unfold datumToPython
    rfl
  have hqual : qualdefToPython Modify.baseTypes twoColumns.desc ⟨equalsThree, some (.int4 3)⟩ =
      some ⟨"a", .scalar "=", .int 3⟩ := by
    change (datumToPython Modify.baseTypes Planner.int4Oid (some (.int4 3))).bind _ = _
    rw [hvalue]
    rfl
  unfold Select.pythonQuals
  rw [orderedSelect_constQuals, List.mapM_cons, List.mapM_nil]
  change (qualdefToPython Modify.baseTypes twoColumns.desc _).bind _ = _
  rw [hqual]
  rfl

theorem pairFdw_answers :
    orderedSelect.Answers integerSemantics integerOrder (fun _ => 1976) emptyEnv (fun _ => none)
      integerReading [getSortKey integerGroup] pairs
      ([pair 3 ['y'], pair 3 ['z']].map (restrictRow {"b", "a"})) :=
  SqlAlchemyFdw.execute_answers orderedSelect (w := pairFdw) postgresql_speaks postgresql_sorts
    postgresql_agrees (by simpa using ⟨integerGroup_live, by decide⟩) orderedSelect_pythonQuals
    (show ["b", "a"].toFinset = orderedSelect.columns by decide) pairFdw_build
    pairStatement_returns

end Multicorn.Alchemy
