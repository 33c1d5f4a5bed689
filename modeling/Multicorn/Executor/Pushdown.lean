import Multicorn.Executor.Select
import Multicorn.General.Pointwise
import Multicorn.Planner.LimitPushdown

/-! What pushing quals, columns and sort keys to a wrapper leaves of a SELECT. -/
namespace Multicorn.Executor
open Multicorn.Catalog (Oid)
open Multicorn.Convert (TypeSystem datumToPython)
open Multicorn.Planner
open Multicorn.KeyOrder
open Multicorn.Pointwise
open Multicorn.Recheck

namespace Select

variable {T : TypeSystem} (V : Reading T) (q : Select) (S : SqlSemantics) (ρ : Env)
  (sys : ℤ → Option Datum)

/-- The expressions of the query are over its foreign table, the columns asked for are those
they read, and the sort columns are among them. -/
structure Columns : Prop where
  confined : OverRelation q.rt q.relid (q.targets ++ q.clauses)
  covers : CoversReads q.relation q.columns (q.targets ++ q.clauses)
  sorted : ∀ key ∈ q.sort_pathkeys, ∃ name ∈ q.columns,
    q.relation.LiveColumn (key.attnum {q.relid}) name

/-- The rows give every expression of the query one value, and one value to each sort key. -/
structure Alike (answered row : Row) : Prop where
  eval : ∀ e ∈ q.targets ++ q.clauses, eval S (ρ.withRow q.relid answered) e =
    eval S (ρ.withRow q.relid row) e
  key : ∀ key ∈ q.sort_pathkeys, answered (key.attnum {q.relid}) = row (key.attnum {q.relid})

variable {V q S ρ sys}

/-- Columns outside of the request do not matter. -/
theorem Columns.alike (h : q.Columns) {answered record : Record}
    (hr : ∀ name ∈ q.columns, answered name = record name) :
    q.Alike S ρ (q.row sys answered) (q.row sys record) where
  eval e he := by
    have hrestrict : restrictRow q.columns answered = restrictRow q.columns record := by
      funext name
      unfold restrictRow
      split_ifs with hname
      · exact hr name hname
      · rfl
    have hanswered := eval_restrictRow S h.confined h.covers sys answered ρ he
    have hrecord := eval_restrictRow S h.confined h.covers sys record ρ he
    rw [hrestrict] at hanswered
    exact hanswered.symm.trans hrecord
  key key hkey := by
    obtain ⟨name, hname, hlive⟩ := h.sorted key hkey
    rw [q.row_of_live sys hlive, q.row_of_live sys hlive, hr name hname]

theorem Alike.passes {answered row : Row} (h : q.Alike S ρ answered row) :
    q.passes S ρ answered = q.passes S ρ row := by
  unfold Select.passes
  rw [Bool.eq_iff_iff, List.all_eq_true, List.all_eq_true]
  refine forall₂_congr fun e he => ?_
  rw [decide_eq_true_iff, decide_eq_true_iff, IsTrue, IsTrue,
    h.eval e (List.mem_append_right _ he)]

theorem Alike.output {answered row : Row} (h : q.Alike S ρ answered row) :
    q.output S ρ answered = q.output S ρ row :=
  List.map_congr_left fun e he => h.eval e (List.mem_append_left _ he)

theorem Alike.le {O : OrderSemantics} {answered row answered' row' : Row}
    (h : q.Alike S ρ answered row) (h' : q.Alike S ρ answered' row')
    (hle : q.le O answered answered') : q.le O row row' := by
  have hkeys : ∀ keys : List PathKey, (∀ key ∈ keys, key ∈ q.sort_pathkeys) →
      lexCompare (keys.map (PathKey.order O {q.relid})) answered answered' =
        lexCompare (keys.map (PathKey.order O {q.relid})) row row' := by
    intro keys hkeys
    induction keys with
    | nil => rfl
    | cons key keys ih =>
      rw [List.forall_mem_cons] at hkeys
      have hkey : PathKey.order O {q.relid} key answered answered' =
          PathKey.order O {q.relid} key row row' := by
        simp only [PathKey.order, keyCompare, h.key key hkeys.1, h'.key key hkeys.1]
      simp only [List.map_cons, lexCompare, hkey, ih hkeys.2]
  unfold Select.le at hle ⊢
  rwa [← hkeys _ fun key hkey => hkey]

/-- Sound quals hold on every row that passes the clauses. -/
theorem holds_of_passes (hquals : ∀ e ∈ q.clauses, QualsSound V q.relation.desc S q.relid e) {row : Row}
    (hpass : q.passes S ρ row = true) :
    ∀ c ∈ q.handedQuals S ρ V, c.HoldsOn S (row c.base.varattno) := by
  intro c hc
  obtain ⟨c₀, hc₀, hhanded⟩ := List.mem_filterMap.mp hc
  obtain ⟨b, hb, hexec⟩ := List.mem_filterMap.mp hc₀
  obtain ⟨e, he, hbe⟩ := List.mem_flatMap.mp hb
  have hstart : AtScanStart q.relid (ρ.withRow q.relid row) ρ :=
    ⟨rfl, fun varno hne => by simp [Env.withRow, hne]⟩
  have htrue : IsTrue S (ρ.withRow q.relid row) e :=
    of_decide_eq_true (List.all_eq_true.mp hpass e he)
  have hrow : (ρ.withRow q.relid row).vars q.relid b.varattno = row b.varattno := by
    simp [Env.withRow]
  have hholds := hquals e he _ ρ hstart htrue b hbe c₀ hexec c hhanded
  rw [hrow, ← base_of_executeQual hexec] at hholds
  rwa [handed_base V _ hhanded]

/-- Behind the recheck, an answer is like the rows of the table that pass. -/
theorem Answers.rechecked {O : OrderSemantics} {defaultOpfamily : Oid → Oid}
    {sortkeys : List SortKey} {table answer : List Record}
    (h : q.Answers S O defaultOpfamily ρ sys V sortkeys table answer) (hcolumns : q.Columns)
    (hquals : ∀ e ∈ q.clauses, QualsSound V q.relation.desc S q.relid e) :
    ∃ rows : List Row,
      (rows.filter (q.passes S ρ)).Perm ((table.map (q.row sys)).filter (q.passes S ρ)) ∧
      rows.Pairwise (sortkeysLE O defaultOpfamily q.relation sortkeys) ∧
      List.Forall₂ (q.Alike S ρ) ((answer.map (q.row sys)).filter (q.passes S ρ))
        (rows.filter (q.passes S ρ)) := by
  obtain ⟨rows, hkeeps, hsorted, hrows⟩ := h
  refine ⟨rows.map (q.row sys), ?_, hsorted, ?_⟩
  · rw [List.filter_map, List.filter_map]
    exact (hkeeps.mono fun record _ hpass => holds_of_passes hquals hpass).filter_perm.map _
  · refine List.rel_filter (fun answered row h => Eq.congr h.passes rfl) ?_
    rw [List.forall₂_map_left_iff, List.forall₂_map_right_iff]
    exact (hrows.imp fun record answered h => hcolumns.alike h).flip

/-- What is made of the columns asked for is made of the rows of the table that pass, in some
order. -/
theorem Answers.map_perm {β : Type} {O : OrderSemantics} {defaultOpfamily : Oid → Oid}
    {sortkeys : List SortKey} {table answer : List Record}
    (h : q.Answers S O defaultOpfamily ρ sys V sortkeys table answer) (hcolumns : q.Columns)
    (hquals : ∀ e ∈ q.clauses, QualsSound V q.relation.desc S q.relid e) {f : Row → β}
    (hf : ∀ answered row, q.Alike S ρ answered row → f answered = f row) :
    (((answer.map (q.row sys)).filter (q.passes S ρ)).map f).Perm
      (((table.map (q.row sys)).filter (q.passes S ρ)).map f) := by
  obtain ⟨rows, hperm, -, halike⟩ := h.rechecked hcolumns hquals
  rw [map_eq_of_forall₂ halike hf]
  exact hperm.map _

/-- Only a path that promises every key spares the Sort node. -/
theorem pathkeysContainedIn_take {keys : List PathKey} {n : ℕ}
    (h : pathkeysContainedIn keys ((keys.take n).map some) = true) : keys.take n = keys := by
  have hprefix := List.isPrefixOf_iff_prefix.mp h
  have hlength := hprefix.length_le
  simp only [List.length_map, List.length_take] at hlength
  exact List.take_of_length_le (by omega)

/-- Rows in the order of the sort keys of a scan are in the order that its path promises. -/
theorem sorted_of_path {O : OrderSemantics} {defaultOpfamily : Oid → Oid} {m : ℕ}
    {path : ForeignPath} {planstate : MulticornPlanState} {kwargs : ExecuteKwargs}
    (hsort : SortPushdownFaithful defaultOpfamily q.relation {q.relid} q.sort_pathkeys m)
    (hpath : q.HasPath m path) (hkwargs : scanKwargs planstate path = some kwargs)
    (hcontained : pathkeysContainedIn q.sort_pathkeys path.pathkeys = true) {rows : List Row}
    (hrows : rows.Pairwise
      (sortkeysLE O defaultOpfamily q.relation (kwargs.sortkeys.getD []))) :
    rows.Pairwise (q.le O) := by
  rcases hpath with rfl | ⟨deparsed, hdeparsed, hpath⟩
  · have hnil : q.sort_pathkeys = [] := by
      have hprefix := List.isPrefixOf_iff_prefix.mp hcontained
      simpa using List.prefix_nil.mp hprefix
    refine List.pairwise_of_forall_mem_list fun row _ row' _ => ?_
    unfold le
    rw [hnil]
    rfl
  · obtain ⟨deparsed', hdeparsed', hfaithful⟩ := hsort
    have : deparsed' = deparsed := Except.ok.inj (hdeparsed'.symm.trans hdeparsed)
    subst this
    have hf := hfaithful path hpath
    have hkeys : kwargs.sortkeys = some ((deparsed'.map getSortKey).take m) := by
      have := hf.sortkeys planstate
      rwa [hkwargs] at this
    rw [hkeys] at hrows
    have hordered := hf.ordered O rows hrows
    rw [hf.pathkeys] at hcontained hordered
    rw [pathkeysContainedIn_take hcontained] at hordered
    have hsome : (q.sort_pathkeys.map some).filterMap id = q.sort_pathkeys := by
      simp [List.filterMap_map]
    rwa [hsome] at hordered

/-- For every wrapper that answers as `execute` documents, a SELECT over the path chosen
returns what it means on the whole table: rows that the wrapper lets through too many,
columns it leaves out and a sort that the planner leaves to it do not show. -/
theorem pushdown_invisible {O : OrderSemantics} {defaultOpfamily : Oid → Oid} {m : ℕ}
    {path : ForeignPath} {planstate : MulticornPlanState} {kwargs : ExecuteKwargs}
    {table answer : List Record} {out : List (List (Option Datum))}
    (hcolumns : q.Columns) (hquals : ∀ e ∈ q.clauses, QualsSound V q.relation.desc S q.relid e)
    (hsort : SortPushdownFaithful defaultOpfamily q.relation {q.relid} q.sort_pathkeys m)
    (hpath : q.HasPath m path) (hkwargs : scanKwargs planstate path = some kwargs)
    (hanswer : q.Answers S O defaultOpfamily ρ sys V (kwargs.sortkeys.getD []) table answer)
    (hfinish : q.Finishes S O ρ path (answer.map (q.row sys)) out) :
    q.Returns S O ρ (table.map (q.row sys)) out := by
  obtain ⟨rows, hpassing, hsorted, halike⟩ := hanswer.rechecked hcolumns hquals
  obtain ⟨L, hperm, hL, rfl⟩ := hfinish
  cases hcontained : pathkeysContainedIn q.sort_pathkeys path.pathkeys with
  | true =>
    rw [if_pos hcontained] at hL
    subst hL
    refine ⟨_, hpassing, ?_, map_eq_of_forall₂ halike fun answered row h => h.output⟩
    exact (sorted_of_path hsort hpath hkwargs hcontained hsorted).filter _
  | false =>
    rw [if_neg (by simp [hcontained])] at hL
    obtain ⟨L', hforall, hperm'⟩ := List.perm_comp_forall₂ hperm halike
    refine ⟨L', hperm'.trans hpassing, ?_,
      map_eq_of_forall₂ hforall fun answered row h => h.output⟩
    exact pairwise_of_forall₂ hforall (fun _ _ _ _ h h' hle => h.le h' hle) hL

end Select

/-! `SELECT b FROM t WHERE a = 3 ORDER BY a`, for a wrapper that returns every row. -/

/-- `a` in ascending order of the default integer family. -/
def integerKey : PathKey where
  address := 1
  pk_eclass := ⟨[⟨{1}, .var ⟨1, 1, 23, .invalid⟩⟩], .invalid, by simp [exprCollation]⟩
  pk_opfamily := 1976
  pk_strategy := .less
  pk_nulls_first := false

def varEqConst : Expr :=
  .opExpr 96 boolOid .invalid [.var ⟨1, 1, int4Oid, .invalid⟩, .const int4Oid (some (.int4 3))]

def orderedSelect : Select where
  rt _ := twoColumns
  relid := 1
  targets := [.var ⟨1, 2, 25, .default⟩]
  clauses := [varEqConst]
  sort_pathkeys := [integerKey]

def integerGroup : MulticornDeparsedSortGroup := ⟨"a", 1, false, false, none, some integerKey⟩

def integerPath : ForeignPath := ⟨[some integerKey], some ⟨-1, -1, [integerGroup]⟩⟩

theorem deparse_integerKey :
    deparseSortgroup twoColumns {1} [integerKey] = .ok [integerGroup] := rfl

theorem sortedForeignPath_integerGroup : sortedForeignPath 1 [integerGroup] = some integerPath :=
  rfl

theorem integerKey_faithful :
    SortPushdownFaithful (fun _ => 1976) twoColumns {1} [integerKey] 1 := by
  refine ⟨[integerGroup], deparse_integerKey, fun path hpath => ?_⟩
  rw [sortedForeignPath_integerGroup, Option.some.injEq] at hpath
  subst hpath
  refine ⟨rfl, fun planstate => ?_, fun O rows h => ?_⟩
  · rw [scanKwargs, initializeExecState_serialize]
    rfl
  · have horder : SortKey.order O (fun _ => 1976) twoColumns (getSortKey integerGroup) =
          PathKey.order O {1} integerKey := by
      funext row row'
      exact congrArg (fun cmp => keyCompare false false cmp (fun r : Row => r 1) row row')
        (O.cmp_norm 1976 .invalid)
    change SortedBy [SortKey.order O (fun _ => 1976) twoColumns (getSortKey integerGroup)] rows at h
    rwa [horder] at h

def equalsThree : MulticornBaseQual :=
  makeQual 1 "=" (.const int4Oid (some (.int4 3))) false false (some 96) .invalid

theorem extract_varEqConst :
    extractRestrictions integerSemantics {1} varEqConst = [equalsThree] := by
  simp [extractRestrictions, varEqConst, extractClauseFromOpExpr, canonicalOpExpr, unnestClause,
    swapOperandsAsNeeded, comparisonOn, extractComparison, pushable, containVolatileFunctions,
    pullVarnos, pullVarClause, integerSemantics, equalsThree]

def integerReading : Reading Modify.baseTypes :=
  objectReading Modify.baseTypes (fun _ => []) rfl fun _ _ h => by cases h

/-- Integers are read as themselves. -/
theorem integerReading_handed (n : ℤ) :
    integerReading.handedValue int4Oid (some (.int4 n)) = some (some (.int4 n)) := by
  have hobject : datumToPython Modify.baseTypes int4Oid (some (.int4 n)) =
      some (.int n) := by
    unfold datumToPython
    rfl
  rw [Reading.handedValue, hobject]
  simp [integerReading, objectReading, objectValue]

theorem varEqConst_sound :
    QualsSound integerReading twoColumns.desc integerSemantics 1 varEqConst := by
  intro ρ ρ₀ hstart htrue b hb c hc c' hc'
  rw [extract_varEqConst, List.mem_singleton] at hb
  subst hb
  cases hc
  obtain ⟨value, hvalue, rfl⟩ := Option.map_eq_some_iff.mp hc'
  obtain rfl := Option.some.inj (hvalue.symm.trans (integerReading_handed 3))
  exact htrue

def pair (a : ℤ) (b : List Char) : Record := fun name =>
  if name = "a" then some (.int4 a) else if name = "b" then some (.text b) else none

theorem orderedSelect_columns : orderedSelect.Columns where
  confined := by
    simp only [orderedSelect, varEqConst, OverRelation, List.cons_append, List.nil_append,
      List.forall_mem_cons, pullVarClause, pullVarClauseList, List.append_nil]
    obtain ⟨ha, hb⟩ := twoColumns_live
    exact ⟨⟨⟨trivial, .inr (.inr ⟨"b", hb⟩)⟩, by simp⟩,
      ⟨⟨trivial, .inr (.inr ⟨"a", ha⟩)⟩, by simp⟩, by simp⟩
  covers := twoColumns_covered (by decide) (by decide) _
  sorted := by
    simp only [orderedSelect, List.mem_singleton, forall_eq]
    exact ⟨"a", by decide, twoColumns_live.1⟩

def pairs : List Record := [pair 4 ['x'], pair 3 ['y'], pair 3 ['z']]

def sortedPairs : List Record := [pair 3 ['y'], pair 3 ['z'], pair 4 ['x']]

theorem integerPath_kwargs : scanKwargs unsortedScan integerPath =
    some ⟨some [getSortKey integerGroup], none, none⟩ := by
  rw [scanKwargs, initializeExecState_serialize]
  rfl

theorem sortedPairs_answers :
    orderedSelect.Answers integerSemantics integerOrder (fun _ => 1976) emptyEnv (fun _ => none)
      integerReading [getSortKey integerGroup] pairs sortedPairs := by
  refine ⟨sortedPairs, ⟨[], ?_, by simp⟩, ?_, ?_⟩
  · rw [List.append_nil]
    exact (List.perm_append_singleton (pair 4 ['x']) [pair 3 ['y'], pair 3 ['z']]).symm
  · simp only [sortedPairs, List.map_cons, List.map_nil, List.pairwise_cons, List.forall_mem_cons]
    exact ⟨⟨rfl, rfl, by simp⟩, ⟨rfl, by simp⟩, by simp⟩
  · exact List.forall₂_same.mpr fun _ _ _ _ => rfl

theorem sortedPairs_finishes :
    orderedSelect.Finishes integerSemantics integerOrder emptyEnv integerPath
      (sortedPairs.map (orderedSelect.row fun _ => none))
      [[some (.text ['y'])], [some (.text ['z'])]] :=
  ⟨[pair 3 ['y'], pair 3 ['z']].map (orderedSelect.row fun _ => none), .refl _, rfl, rfl⟩

theorem orderedSelect_returns :
    orderedSelect.Returns integerSemantics integerOrder emptyEnv
      (pairs.map (orderedSelect.row fun _ => none))
      [[some (.text ['y'])], [some (.text ['z'])]] :=
  orderedSelect.pushdown_invisible orderedSelect_columns
    (by
      intro e he
      obtain rfl := List.mem_singleton.mp he
      exact varEqConst_sound) integerKey_faithful
    (.inr ⟨[integerGroup], deparse_integerKey, sortedForeignPath_integerGroup⟩)
    integerPath_kwargs sortedPairs_answers sortedPairs_finishes

end Multicorn.Executor
