import Multicorn.Alchemy.Meaning
import Multicorn.General.Pointwise
import Mathlib.Data.List.ReduceOption

/-! The WHERE clause of a statement keeps every row that the quals keep. -/
namespace Multicorn.Alchemy
open Multicorn.Catalog (Oid TupleDesc)
open Multicorn.Convert
open Multicorn.Executor
open Multicorn.Kleene
open Multicorn.Planner
open Multicorn.Pointwise

/-- The operator names that the extractor itself writes. -/
def ownNames : List String := ["=", "<>", "IS", "IS NOT"]

/-- A qual without an operator of the backend is no list qual and has one of these names. -/
def Spelled (b : MulticornBaseQual) : Prop :=
  b.opno = none → b.isArray = false ∧ b.opname ∈ ownNames

theorem spelled_makeQual (varattno : ℤ) {opname : String} (value : Expr) (collation : Collation)
    (h : opname ∈ ownNames) :
    Spelled (makeQual varattno opname value false false none collation) := by
  intro _
  unfold makeQual
  split <;> exact ⟨rfl, h⟩

theorem spelled_comparison {S : SqlSemantics} {baseRelids : Finset ℕ} {c : Option Comparison}
    {isArray useOr : Bool} {b : MulticornBaseQual}
    (h : b ∈ extractComparison S baseRelids c isArray useOr) : Spelled b := by
  intro hopno
  unfold extractComparison at h
  split at h
  · split_ifs at h
    · rw [List.mem_singleton] at h
      subst h
      unfold makeQual at hopno
      split at hopno <;> cases hopno
    · cases h
  · cases h

/-- What the extractor makes of any clause. -/
theorem spelled_of_extracted {S : SqlSemantics} {baseRelids : Finset ℕ} {e : Expr}
    {b : MulticornBaseQual} (h : b ∈ extractRestrictions S baseRelids e) : Spelled b := by
  unfold extractRestrictions at h
  split at h
  · exact spelled_comparison h
  · unfold extractClauseFromNullTest at h
    split at h
    · split_ifs at h
      · cases h
      · rw [List.mem_singleton.mp h]
        refine spelled_makeQual _ _ _ ?_
        split <;> simp [ownNames]
    · cases h
  · exact spelled_comparison h
  · unfold extractClauseFromBooleanTest at h
    split at h
    · split_ifs at h
      · cases h
      · rw [List.mem_singleton.mp h]
        refine spelled_makeQual _ _ _ ?_
        unfold BoolTestType.opname
        split <;> simp [ownNames]
    · cases h
  · unfold extractClauseFromVar at h
    split_ifs at h
    · rw [List.mem_singleton.mp h]
      exact spelled_makeQual _ _ _ (by simp [ownNames])
    · cases h
  · unfold extractClauseFromBoolExpr at h
    split_ifs at h
    · split at h
      · rw [List.mem_singleton.mp h]
        exact spelled_makeQual _ _ _ (by simp [ownNames])
      · cases h
    · cases h
  · cases h

/-- A list operator that is pushed is IN or NOT IN. -/
theorem lookup_list {opname : String} {any : Bool} {f : ColumnFunction}
    (h : operators.lookup (.list opname any) = some f) :
    (opname = "=" ∧ any = true ∧ f = .op .in_op) ∨
      (opname = "<>" ∧ any = false ∧ f = not_ (.op .in_op)) := by
  obtain ⟨l₁, l₂, hmem, -⟩ := List.lookup_eq_some_iff.mp h
  have hmem : (QualOperator.list opname any, f) ∈ operators := by
    rw [hmem]
    simp
  simpa [operators, and_assoc] using hmem

/-- Conversion goes element by element, NULL to `None`. -/
theorem forall₂_datumArrayToPython {T : TypeSystem} {typelem : Oid} :
    ∀ {elems : List (Option Datum)} {items : List PyObject},
      datumArrayToPython T typelem elems = some items →
        List.Forall₂ (fun elem item => (elem = none ∧ item = .none) ∨
          ∃ d, elem = some d ∧ datumToPython T typelem (some d) = some item) elems items
  | [], items, h => by
    rw [datumArrayToPython, Option.some.injEq] at h
    subst h
    exact .nil
  | none :: elems, items, h => by
    rw [datumArrayToPython] at h
    obtain ⟨items, hitems, rfl⟩ := Option.map_eq_some_iff.mp h
    exact .cons (.inl ⟨rfl, rfl⟩) (forall₂_datumArrayToPython hitems)
  | some elem :: elems, items, h => by
    rw [datumArrayToPython] at h
    obtain ⟨item, hitem, h⟩ := Option.bind_eq_some_iff.mp h
    obtain ⟨items, hitems, h⟩ := Option.bind_eq_some_iff.mp h
    cases h
    exact .cons (.inr ⟨elem, rfl, hitem⟩) (forall₂_datumArrayToPython hitems)

section Agreement

variable {R : Remote} {S : SqlSemantics} {T : TypeSystem} {V : Reading T} {desc : TupleDesc}
  {c : MulticornConstQual}

theorem equals_of_ne {x : Option Datum} {value : PyObject} (h : value ≠ .none) :
    R.equals x value = R.operator .eq x value := by
  unfold Remote.equals
  split
  · exact absurd rfl h
  · rfl

theorem readObject_of_ne {sqlValue : PyObject → Datum} {object : PyObject}
    (h : object ≠ .none) : readObject sqlValue object = some (sqlValue object) := by
  unfold readObject
  split
  · exact absurd rfl h
  · rfl

/-- A null test on `None`. -/
theorem truth_of_none (h : R.Agrees S V desc c) (hspelled : Spelled c.base)
    (harray : c.base.isArray = false) (hvalue : c.value = none) {f : ColumnFunction}
    (hf : operators.lookup (.scalar c.base.opname) = some f) {x : Option Datum}
    (hx : c.HoldsOn S x) : R.truth f x .none = some true := by
  by_cases heq : c.base.opname = "="
  · rw [heq] at hf
    cases hf
    refine h.eq_none x ?_
    simpa [MulticornConstQual.HoldsOn, harray, hvalue, heq] using hx
  · by_cases hne : c.base.opname = "<>"
    · rw [hne] at hf
      cases hf
      refine h.ne_none x ?_
      simpa [MulticornConstQual.HoldsOn, harray, hvalue, hne] using hx
    · cases hopno : c.base.opno with
      | some op =>
        have : S.binary op c.base.collation x none = some true := by
          simpa [MulticornConstQual.HoldsOn, harray, hvalue, heq, hne, hopno] using hx
        exact absurd this (h.strict op x hopno)
      | none =>
        -- IS and IS NOT are not in the table
        have hname := (hspelled hopno).2
        simp only [ownNames, List.mem_cons, heq, hne, List.not_mem_nil, or_false, false_or] at hname
        rcases hname with hname | hname <;> rw [hname] at hf <;> cases hf

/-- A comparison with a value. -/
theorem truth_of_value (h : R.Agrees S V desc c) (harray : c.base.isArray = false) {d : Datum}
    (hvalue : c.value = some d) {f : ColumnFunction}
    (hf : operators.lookup (.scalar c.base.opname) = some f) {object : PyObject}
    (hobject : datumToPython T (qualType desc c.base) (some d) = some object) {x : Option Datum}
    (hx : MulticornConstQual.HoldsOn S
      ⟨c.base, some (V.sqlValue (qualType desc c.base) object)⟩ x) :
    R.truth f x object = some true := by
  refine h.comparison _ object (.value harray hvalue hobject) f hf x ?_
  have hbase : { c.base with isArray := false } = c.base := by rw [← harray]
  rwa [single, hbase]

/-- A comparison with one element of a list. -/
theorem truth_of_element (h : R.Agrees S V desc c) {type : Oid} {item : PyObject}
    (hcomparand : Comparand T desc c type item) {op : Oid} (hopno : c.base.opno = some op)
    {f : ColumnFunction} (hf : operators.lookup (.scalar c.base.opname) = some f)
    {x : Option Datum}
    (hx : S.binary op c.base.collation x (some (V.sqlValue type item)) = some true) :
    R.truth f x item = some true := by
  refine h.comparison type item hcomparand f hf x ?_
  simpa [MulticornConstQual.HoldsOn, single, hopno] using hx

/-- The items of a list that is handed over are comparands, but for the NULLs among them. -/
theorem comparand_of_mem (harray : c.base.isArray = true) {typelem : Oid}
    (htypelem : Modify.elementType T (qualType desc c.base) = some typelem) {dims : List ℕ}
    {elems : List (Option Datum)} (hvalue : c.value = some (.array dims elems))
    {items : List PyObject} (hitems : datumArrayToPython T typelem elems = some items)
    {item : PyObject} (hitem : item ∈ items) (hne : item ≠ .none) :
    Comparand T desc c typelem item := by
  obtain ⟨elem, hmem, ⟨-, hnone⟩ | ⟨d, rfl, hd⟩⟩ :=
    exists_of_mem_right (forall₂_datumArrayToPython hitems) hitem
  · exact absurd hnone hne
  · exact .element harray htypelem hvalue hmem hd

/-- IN and NOT IN. -/
theorem truth_of_list (h : R.Agrees S V desc c) (hspelled : Spelled c.base)
    (harray : c.base.isArray = true) {f : ColumnFunction}
    (hf : operators.lookup (.list c.base.opname c.base.useOr) = some f) {d : Datum}
    (hvalue : c.value = some d) {object : PyObject}
    (hobject : datumToPython T (qualType desc c.base) (some d) = some object)
    {x : Option Datum}
    (hx : MulticornConstQual.HoldsOn S
      ⟨c.base, some (V.sqlValue (qualType desc c.base) object)⟩ x) :
    R.truth f x object = some true := by
  obtain ⟨op, hopno⟩ : ∃ op, c.base.opno = some op := by
    cases hopno : c.base.opno with
    | some op => exact ⟨op, rfl⟩
    | none =>
      have := (hspelled hopno).1
      rw [harray] at this
      cases this
  obtain ⟨⟨typelem, htypelem⟩, dims, elems, rfl⟩ := h.array harray d hvalue
  rw [Modify.datumToPython_array_of_elementType T htypelem] at hobject
  obtain ⟨items, hitems, rfl⟩ := Option.map_eq_some_iff.mp hobject
  have hcomparand : ∀ item ∈ items, item ≠ .none → Comparand T desc c typelem item :=
    fun item hitem hne => comparand_of_mem harray htypelem hvalue hitems hitem hne
  have hx : scalarArrayOp (S.binary op c.base.collation) c.base.useOr
      [x, some (.array [items.length] (items.map (readObject (V.sqlValue typelem))))] =
        some true := by
    rw [← V.sqlValue_list _ typelem items (Option.ite_none_left_eq_some.mp htypelem).2]
    simpa [MulticornConstQual.HoldsOn, harray, hopno] using hx
  have hstrict := fun x => h.strict op x hopno
  rcases lookup_list hf with ⟨hname, hany, rfl⟩ | ⟨hname, hany, rfl⟩
  · -- some element is equal
    simp only [scalarArrayOp, hany, if_true, any3_eq_true, List.mem_map,
      exists_exists_and_eq_and] at hx
    obtain ⟨item, hitem, hequal⟩ := hx
    have hne : item ≠ .none := by
      rintro rfl
      exact hstrict x hequal
    rw [readObject_of_ne hne] at hequal
    have hfunction : operators.lookup (.scalar c.base.opname) = some (.op .eq) := by
      rw [hname]
      rfl
    have heq := truth_of_element h (hcomparand item hitem hne) hopno hfunction hequal
    change R.operator .in_op x (.list items) = some true
    rw [h.in_op, any3_eq_true, List.mem_map]
    refine ⟨item, hitem, ?_⟩
    rwa [equals_of_ne hne]
  · -- every element is different
    simp only [scalarArrayOp, hany, Bool.false_eq_true, if_false, all3_eq_true,
      List.forall_mem_map] at hx
    change not3 (R.operator .in_op x (.list items)) = some true
    rw [not3_eq_true, h.in_op, any3_eq_false, List.forall_mem_map]
    intro item hitem
    have hdiffers := hx item hitem
    have hne : item ≠ .none := by
      rintro rfl
      exact hstrict x hdiffers
    rw [readObject_of_ne hne] at hdiffers
    have hfunction : operators.lookup (.scalar c.base.opname) = some (.op .ne) := by
      rw [hname]
      rfl
    have hne3 := truth_of_element h (hcomparand item hitem hne) hopno hfunction hdiffers
    change R.operator .ne x item = some true at hne3
    rw [h.ne_eq x item hne, not3_eq_true] at hne3
    rwa [equals_of_ne hne]

/-- The clause of a qual holds where the qual does as the wrapper reads it. -/
theorem truth_of_qual {qual : Qual} (hqual : qualdefToPython T desc c = some qual)
    (hspelled : Spelled c.base) {f : ColumnFunction}
    (hf : operators.lookup qual.operator = some f) (h : R.Agrees S V desc c)
    {x : Option Datum} (hx : ∀ c', c.handed V desc = some c' → c'.HoldsOn S x) :
    R.truth f x qual.value = some true := by
  obtain ⟨att, -, hqual⟩ := Option.bind_eq_some_iff.mp hqual
  obtain ⟨object, hobject, hqual⟩ := Option.bind_eq_some_iff.mp hqual
  cases hqual
  have hx : MulticornConstQual.HoldsOn S
      ⟨c.base, readObject (V.sqlValue (qualType desc c.base)) object⟩ x := by
    refine hx _ ?_
    rw [handed_eq_map, hobject, Option.map_some]
  change R.truth f x object = some true
  cases hvalue : c.value with
  | none =>
    rw [hvalue] at hobject
    cases hobject
    cases harray : c.base.isArray with
    | true =>
      exfalso
      cases hopno : c.base.opno with
      | none => simp [(hspelled hopno).1] at harray
      | some op => simp [MulticornConstQual.HoldsOn, harray, hopno, readObject, scalarArrayOp] at hx
    | false =>
      simp only [pythonQual, harray, Bool.false_eq_true, if_false] at hf
      have hc : c = ⟨c.base, none⟩ := by rw [← hvalue]
      refine truth_of_none h hspelled harray hvalue hf ?_
      rw [hc]
      exact hx
  | some d =>
    rw [hvalue] at hobject
    have hobject : datumToPython T (qualType desc c.base) (some d) = some object := hobject
    rw [readObject_of_ne fun hnone => datumToPython_ne_none T _ _ (hnone ▸ hobject)] at hx
    cases harray : c.base.isArray with
    | true =>
      simp only [pythonQual, harray, if_true] at hf
      exact truth_of_list h hspelled harray hf hvalue hobject hx
    | false =>
      simp only [pythonQual, harray, Bool.false_eq_true, if_false] at hf
      exact truth_of_value h harray hvalue hf hobject hx

end Agreement

/-- The column of a qual is the one that its value is compared with. -/
theorem row_of_qual (q : Select) (sys : ℤ → Option Datum) {T : TypeSystem}
    {c : MulticornConstQual} {qual : Qual}
    (hqual : qualdefToPython T q.relation.desc c = some qual) (record : Record) :
    q.row sys record c.base.varattno = record qual.field_name := by
  obtain ⟨att, hatt, hqual⟩ := Option.bind_eq_some_iff.mp hqual
  obtain ⟨value, -, hqual⟩ := Option.bind_eq_some_iff.mp hqual
  cases hqual
  exact q.row_of_live sys (liveColumn_of_cinfoOf hatt) record

/-- No row is left out that every qual keeps. -/
theorem selects_of_holds (w : SqlAlchemyFdw) {R : Remote} (q : Select) {S : SqlSemantics}
    {T : TypeSystem} {V : Reading T} {ρ : Env} {sys : ℤ → Option Datum} {quals : List Qual}
    {clauses : List (Option Clause)} (hquals : q.pythonQuals S T ρ = some quals)
    (hclauses : quals.mapM w.clauseOf = .ok clauses)
    (hagrees : ∀ c ∈ q.constQuals S ρ, R.Agrees S V q.relation.desc c) {record : Record}
    (hholds : ∀ c ∈ q.handedQuals S ρ V, c.HoldsOn S (q.row sys record c.base.varattno)) :
    R.selects clauses.reduceOption record = true := by
  unfold Remote.selects
  rw [List.all_eq_true]
  intro clause hclause
  rw [List.reduceOption_mem_iff] at hclause
  obtain ⟨qual, hmem, hclause⟩ := exists_of_mem_right (forall₂_of_mapM_ok hclauses) hclause
  obtain ⟨c, hc, hqual⟩ := exists_of_mem_right (forall₂_of_mapM_some hquals) hmem
  have hspelled : Spelled c.base := by
    obtain ⟨b, hb, hexec⟩ := List.mem_filterMap.mp hc
    obtain ⟨e, -, hbe⟩ := List.mem_flatMap.mp hb
    rw [base_of_executeQual hexec]
    exact spelled_of_extracted hbe
  obtain ⟨f, hf, rfl⟩ := w.clauseOf_eq_ok hclause
  refine beq_iff_eq.mpr (truth_of_qual hqual hspelled hf (hagrees c hc) fun c' hc' => ?_)
  have hx := hholds c' (List.mem_filterMap.mpr ⟨c, hc, hc'⟩)
  rwa [handed_base V _ hc', row_of_qual q sys hqual] at hx

end Multicorn.Alchemy
