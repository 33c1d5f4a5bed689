import Multicorn.Planner.Handover

/-! When the quals extracted from a clause lose no row that the clause keeps. -/
namespace Multicorn.Planner
open Multicorn.Catalog (Oid TupleDesc)
open Multicorn.Convert
open Multicorn.Kleene

variable {T : TypeSystem} (V : Reading T) (desc : TupleDesc) (S : SqlSemantics)

/-- `unnestClause` drops a conversion from the operand. -/
def isArrayCoerceExpr : Expr → Bool
  | .arrayCoerceExpr .. => true
  | _ => false

/-- The comparison becomes a qual that `execute` passes on. -/
def Comparison.Pushed (relid : ℕ) (c : Comparison) : Prop :=
  pushable S {relid} c.right = true ∧ ∀ v, c.right ≠ .var v

/-- The type that the right side is converted by. -/
def Comparison.rightType (c : Comparison) : Oid :=
  qualType desc (makeQual c.left.varattno (S.oprname c.opno) c.right false false (some c.opno)
    c.left.varcollid)

/-- The right side of the comparison, as the wrapper reads it. -/
def Comparison.handed (ρ : Env) (c : Comparison) : Option (Option Datum) :=
  V.handedValue (c.rightType desc S) (eval S ρ c.right)

/-- The qual against `None` reads as a null test. -/
def Comparison.NullSpelled (ρ : Env) (c : Comparison) : Prop :=
  eval S ρ c.right = none ∧ (S.oprname c.opno = "=" ∨ S.oprname c.opno = "<>")

/-- The qual is another comparison than the clause: an element conversion is dropped, the clause
compares under another collation than the column's, or the value is not read as it was. -/
def Comparison.Altered (ρ : Env) (inputcollid : Collation) (args : List Expr) (c : Comparison) :
    Prop :=
  (∃ a ∈ args, isArrayCoerceExpr a = true) ∨ inputcollid ≠ c.left.varcollid ∨
    c.handed V desc S ρ ≠ some (eval S ρ c.right)

/-- What a pushed operator clause needs beyond its own truth: an `=` or `<>` that holds
with a null right side is a null test, and where the qual is another comparison, it is true
as well. -/
structure OpExprKept (ρ : Env) (inputcollid : Collation) (args : List Expr) (c : Comparison) :
    Prop where
  null_eq : eval S ρ c.right = none → S.oprname c.opno = "=" →
    NullTestType.isNull.test (ρ.vars c.left.varno c.left.varattno) = true
  null_ne : eval S ρ c.right = none → S.oprname c.opno = "<>" →
    NullTestType.isNotNull.test (ρ.vars c.left.varno c.left.varattno) = true
  altered : c.Altered V desc S ρ inputcollid args → ¬ c.NullSpelled S ρ →
    ∀ value, c.handed V desc S ρ = some value →
      S.binary c.opno c.left.varcollid (ρ.vars c.left.varno c.left.varattno) value = some true

/-- The condition on a clause under which its quals are sound. -/
def ClauseKept (relid : ℕ) : Expr → Prop
  | .opExpr opno t inputcollid args => ∀ c, canonicalOpExpr S {relid} opno args = some c →
      c.Pushed S relid → ∀ ρ, IsTrue S ρ (.opExpr opno t inputcollid args) →
        OpExprKept V desc S ρ inputcollid args c
  | .scalarArrayOpExpr opno useOr inputcollid args => ∀ c,
      canonicalScalarArrayOpExpr {relid} opno args = some c → c.Pushed S relid →
      ∀ ρ, IsTrue S ρ (.scalarArrayOpExpr opno useOr inputcollid args) →
        c.Altered V desc S ρ inputcollid args → ∀ value, c.handed V desc S ρ = some value →
          scalarArrayOp (S.binary opno c.left.varcollid) useOr
            [ρ.vars c.left.varno c.left.varattno, value] = some true
  | _ => True

private theorem eval_unnestClause (ρ : Env) {e : Expr} (h : isArrayCoerceExpr e = false) :
    eval S ρ (unnestClause e) = eval S ρ e := by
  cases e <;> simp_all [unnestClause, isArrayCoerceExpr, eval]

private theorem evalList_unnestClause (ρ : Env) {args : List Expr}
    (h : ¬ ∃ a ∈ args, isArrayCoerceExpr a = true) :
    evalList S ρ (args.map unnestClause) = evalList S ρ args := by
  induction args with
  | nil => rfl
  | cons a args ih =>
    simp only [List.mem_cons, exists_eq_or_imp, not_or, Bool.not_eq_true] at h
    simp only [List.map_cons, evalList, eval_unnestClause S ρ h.1, ih h.2]

private theorem comparisonOn_eq_some {baseRelids : Finset ℕ} {opno : Oid} {l r : Expr}
    {c : Comparison} (h : comparisonOn baseRelids opno l r = some c) :
    l = .var c.left ∧ c.right = r ∧ c.opno = opno ∧ c.left.varno ∈ baseRelids ∧
      1 ≤ c.left.varattno := by
  unfold comparisonOn at h
  split at h
  · split_ifs at h with hb
    cases h
    exact ⟨rfl, rfl, rfl, hb.1, hb.2⟩
  · cases h

private theorem swapOperandsAsNeeded_cases (baseRelids : Finset ℕ) (l r : Expr) (opno : Oid) :
    swapOperandsAsNeeded S baseRelids l r opno = (l, r, opno) ∨
      S.oprcom opno ≠ 0 ∧
        swapOperandsAsNeeded S baseRelids l r opno = (r, l, S.oprcom opno) := by
  unfold swapOperandsAsNeeded
  split
  · dsimp only
    split_ifs with hs hc
    · exact .inl rfl
    · exact .inr ⟨hc, rfl⟩
    · exact .inl rfl
  · exact .inl rfl

/-- The canonical comparison computes what the operator computes on the bare operands. -/
private theorem canonicalOpExpr_eq_some {relid : ℕ} {opno : Oid} {args : List Expr}
    {c : Comparison} (h : canonicalOpExpr S {relid} opno args = some c) :
    c.left.varno = relid ∧ ∀ (ρ : Env) (collation : Collation),
      S.binary c.opno collation (ρ.vars relid c.left.varattno) (eval S ρ c.right) =
        asBool (S.operator opno collation (evalList S ρ (args.map unnestClause))) := by
  unfold canonicalOpExpr at h
  split at h
  case h_2 => cases h
  case h_1 a b =>
  rcases swapOperandsAsNeeded_cases S {relid} (unnestClause a) (unnestClause b) opno with
    hs | ⟨hc, hs⟩
  all_goals
    rw [hs] at h
    obtain ⟨hl, hr, ho, hv, -⟩ := comparisonOn_eq_some h
    dsimp only at hl hr ho
    rw [Finset.mem_singleton] at hv
    refine ⟨hv, fun ρ collation => ?_⟩
    simp only [List.map_cons, List.map_nil, evalList, SqlSemantics.binary, hr, ho]
    rw [← hv]
  · rw [hl]
    simp only [eval]
  · rw [S.commutes opno hc, hl]
    simp only [eval]

private theorem canonicalScalarArrayOpExpr_eq_some {relid : ℕ} {opno : Oid}
    {args : List Expr} {c : Comparison}
    (h : canonicalScalarArrayOpExpr {relid} opno args = some c) :
    c.left.varno = relid ∧ c.opno = opno ∧ ∀ ρ : Env,
      evalList S ρ (args.map unnestClause) =
        [ρ.vars relid c.left.varattno, eval S ρ c.right] := by
  unfold canonicalScalarArrayOpExpr at h
  split at h
  case h_2 => cases h
  case h_1 a b =>
  obtain ⟨hl, hr, ho, hv, -⟩ := comparisonOn_eq_some h
  rw [Finset.mem_singleton] at hv
  refine ⟨hv, ho, fun ρ => ?_⟩
  simp only [List.map_cons, List.map_nil, evalList, hl, hr, eval, hv]

/-- A pushed right side has one value for the scan and for the row. -/
private theorem eval_atScanStart {relid : ℕ} {right : Expr} {ρ ρ₀ : Env}
    (hp : pushable S {relid} right = true) (h : AtScanStart relid ρ ρ₀) :
    eval S ρ₀ right = eval S ρ right := by
  simp only [pushable, Bool.not_eq_true', Bool.or_eq_false_iff, decide_eq_false_iff_not,
    Finset.singleton_subset_iff, List.mem_toFinset] at hp
  refine eval_congr S h.1 right (fun v hv => ?_) (.inr hp.1)
  have hne : v.varno ≠ relid := by
    rintro rfl
    exact hp.2 (List.mem_map_of_mem hv)
  rw [h.2 v.varno hne]

@[simp] private theorem makeQual_varattno (n : ℤ) (o : String) (e : Expr) (a u : Bool)
    (p : Option Oid) (k : Collation) : (makeQual n o e a u p k).varattno = n := by
  cases e <;> rfl

@[simp] private theorem makeQual_opname (n : ℤ) (o : String) (e : Expr) (a u : Bool)
    (p : Option Oid) (k : Collation) : (makeQual n o e a u p k).opname = o := by
  cases e <;> rfl

@[simp] private theorem makeQual_isArray (n : ℤ) (o : String) (e : Expr) (a u : Bool)
    (p : Option Oid) (k : Collation) : (makeQual n o e a u p k).isArray = a := by
  cases e <;> rfl

@[simp] private theorem makeQual_useOr (n : ℤ) (o : String) (e : Expr) (a u : Bool)
    (p : Option Oid) (k : Collation) : (makeQual n o e a u p k).useOr = u := by
  cases e <;> rfl

@[simp] private theorem makeQual_opno (n : ℤ) (o : String) (e : Expr) (a u : Bool)
    (p : Option Oid) (k : Collation) : (makeQual n o e a u p k).opno = p := by
  cases e <;> rfl

@[simp] private theorem makeQual_collation (n : ℤ) (o : String) (e : Expr) (a u : Bool)
    (p : Option Oid) (k : Collation) : (makeQual n o e a u p k).collation = k := by
  cases e <;> rfl

private theorem executeQual_makeQual (ρ : Env) (n : ℤ) (o : String) (e : Expr) (a u : Bool)
    (p : Option Oid) (k : Collation) (c : MulticornConstQual) :
    executeQual S ρ (makeQual n o e a u p k) = some c ↔
      (∀ v, e ≠ .var v) ∧ c = ⟨makeQual n o e a u p k, eval S ρ e⟩ := by
  cases e <;> simp [makeQual, executeQual, eval, eq_comm]

/-- The qual of a comparison with a value for its right side. -/
private def Comparison.qual (c : Comparison) (isArray useOr : Bool) (value : Option Datum) :
    MulticornConstQual :=
  ⟨makeQual c.left.varattno (S.oprname c.opno) c.right isArray useOr (some c.opno)
    c.left.varcollid, value⟩

private theorem handed_qual {c : Comparison} {isArray useOr : Bool} {ρ : Env}
    {c' : MulticornConstQual} :
    (c.qual S isArray useOr (eval S ρ c.right)).handed V desc = some c' ↔
      ∃ value, c.handed V desc S ρ = some value ∧ c' = c.qual S isArray useOr value := by
  have htype : qualType desc (makeQual c.left.varattno (S.oprname c.opno) c.right isArray useOr
      (some c.opno) c.left.varcollid) = c.rightType desc S := by
    unfold Comparison.rightType makeQual
    cases c.right <;> rfl
  unfold MulticornConstQual.handed Comparison.handed Comparison.qual
  rw [Option.map_eq_some_iff, htype]
  exact exists_congr fun value => and_congr_right fun _ => eq_comm

/-- The quals of a comparison are sound exactly when, on every row that passes the clause,
the qual that is handed over holds. -/
private theorem extractComparison_sound {relid : ℕ} {e : Expr} {oc : Option Comparison}
    {isArray useOr : Bool}
    (he : extractRestrictions S {relid} e = extractComparison S {relid} oc isArray useOr) :
    QualsSound V desc S relid e ↔ ∀ c, oc = some c → c.Pushed S relid → ∀ ρ, IsTrue S ρ e →
      ∀ value, c.handed V desc S ρ = some value →
        (c.qual S isArray useOr value).HoldsOn S (ρ.vars relid c.left.varattno) := by
  cases oc with
  | none => simp [QualsSound, he, extractComparison]
  | some c =>
    simp only [QualsSound, he, extractComparison, Option.some.injEq, forall_eq']
    constructor
    · intro h hp ρ ht value hvalue
      rw [if_pos hp.1] at h
      have hexec := (executeQual_makeQual S ρ c.left.varattno (S.oprname c.opno) c.right isArray
        useOr (some c.opno) c.left.varcollid _).mpr ⟨hp.2, rfl⟩
      simpa using h ρ ρ ⟨rfl, fun _ _ => rfl⟩ ht _ (List.mem_singleton_self _) _ hexec _
        ((handed_qual V desc S).mpr ⟨value, hvalue, rfl⟩)
    · intro h ρ ρ₀ hs ht q hq c' hc' c'' hc''
      split_ifs at hq with hp
      · rw [List.mem_singleton] at hq
        subst hq
        obtain ⟨hv, rfl⟩ := (executeQual_makeQual S ρ₀ _ _ _ _ _ _ _ _).mp hc'
        rw [eval_atScanStart S hp hs] at hc''
        obtain ⟨value, hvalue, rfl⟩ := (handed_qual V desc S).mp hc''
        rw [makeQual_varattno]
        exact h ⟨hp, hv⟩ ρ ht value hvalue
      · cases hq

/-- What the qual of an operator clause says of a row. -/
private theorem qual_holdsOn_iff {c : Comparison} {x value : Option Datum} :
    (c.qual S false false value).HoldsOn S x ↔
      (value = none → S.oprname c.opno = "=" → NullTestType.isNull.test x = true) ∧
      (value = none → S.oprname c.opno = "<>" → NullTestType.isNotNull.test x = true) ∧
      (¬ (value = none ∧ (S.oprname c.opno = "=" ∨ S.oprname c.opno = "<>")) →
        S.binary c.opno c.left.varcollid x value = some true) := by
  cases value with
  | some v => simp [MulticornConstQual.HoldsOn, Comparison.qual]
  | none =>
    by_cases heq : S.oprname c.opno = "="
    · simp [MulticornConstQual.HoldsOn, Comparison.qual, heq]
    · by_cases hne : S.oprname c.opno = "<>"
      · simp [MulticornConstQual.HoldsOn, Comparison.qual, hne]
      · simp [MulticornConstQual.HoldsOn, Comparison.qual, heq, hne]

/-- The value that is handed over is NULL exactly when the right side is. -/
private theorem handed_null_iff {c : Comparison} {ρ : Env} {value : Option Datum}
    (h : c.handed V desc S ρ = some value) : value = none ↔ eval S ρ c.right = none := by
  unfold Comparison.handed Reading.handedValue at h
  cases hv : eval S ρ c.right with
  | none =>
    rw [hv] at h
    obtain rfl := Option.some.inj h
    exact Iff.rfl
  | some d =>
    rw [hv] at h
    obtain ⟨object, -, rfl⟩ := Option.map_eq_some_iff.mp h
    simp

private theorem handed_of_null_right {c : Comparison} {ρ : Env} (h : eval S ρ c.right = none) :
    c.handed V desc S ρ = some none := by
  rw [Comparison.handed, h, Reading.handedValue]

/-- A comparison that is not altered is as true as its clause. -/
private theorem binary_of_unaltered {ρ : Env} {relid : ℕ} {opno t : Oid} {inputcollid : Collation}
    {args : List Expr} {c : Comparison} (hc : canonicalOpExpr S {relid} opno args = some c)
    (ht : IsTrue S ρ (.opExpr opno t inputcollid args))
    (h : ¬ c.Altered V desc S ρ inputcollid args) {value : Option Datum}
    (hvalue : c.handed V desc S ρ = some value) :
    S.binary c.opno c.left.varcollid (ρ.vars relid c.left.varattno) value = some true := by
  simp only [Comparison.Altered, not_or, not_not] at h
  obtain ⟨hcoerce, hcollation, hread⟩ := h
  obtain rfl := Option.some.inj (hvalue.symm.trans hread)
  rw [(canonicalOpExpr_eq_some S hc).2, ← hcollation, evalList_unnestClause S ρ hcoerce]
  simpa only [IsTrue, eval] using ht

private theorem opExpr_holdsOn_iff {ρ : Env} {relid : ℕ} {opno t : Oid} {inputcollid : Collation}
    {args : List Expr} {c : Comparison} (hc : canonicalOpExpr S {relid} opno args = some c)
    (ht : IsTrue S ρ (.opExpr opno t inputcollid args)) :
    (∀ value, c.handed V desc S ρ = some value →
      (c.qual S false false value).HoldsOn S (ρ.vars relid c.left.varattno)) ↔
      OpExprKept V desc S ρ inputcollid args c := by
  have hrel := (canonicalOpExpr_eq_some S hc).1
  simp only [qual_holdsOn_iff]
  constructor
  · intro h
    refine ⟨fun hnull => ?_, fun hnull => ?_, fun _ hspelled value hvalue => ?_⟩
    · rw [hrel]
      exact (h none (handed_of_null_right V desc S hnull)).1 rfl
    · rw [hrel]
      exact (h none (handed_of_null_right V desc S hnull)).2.1 rfl
    · rw [hrel]
      refine (h value hvalue).2.2 fun hspell => hspelled ?_
      exact ⟨(handed_null_iff V desc S hvalue).mp hspell.1, hspell.2⟩
  · intro h value hvalue
    have hnull := handed_null_iff V desc S hvalue
    refine ⟨fun hv => ?_, fun hv => ?_, fun hspelled => ?_⟩
    · rw [← hrel]
      exact h.null_eq (hnull.mp hv)
    · rw [← hrel]
      exact h.null_ne (hnull.mp hv)
    · by_cases haltered : c.Altered V desc S ρ inputcollid args
      · rw [← hrel]
        exact h.altered haltered (fun hs => hspelled ⟨hnull.mpr hs.1, hs.2⟩) value hvalue
      · exact binary_of_unaltered V desc S hc ht haltered hvalue

private theorem scalarArrayOpExpr_holdsOn_iff {ρ : Env} {relid : ℕ} {opno : Oid}
    {useOr : Bool} {inputcollid : Collation} {args : List Expr} {c : Comparison}
    (hc : canonicalScalarArrayOpExpr {relid} opno args = some c)
    (ht : IsTrue S ρ (.scalarArrayOpExpr opno useOr inputcollid args)) :
    (∀ value, c.handed V desc S ρ = some value →
      (c.qual S true useOr value).HoldsOn S (ρ.vars relid c.left.varattno)) ↔
      (c.Altered V desc S ρ inputcollid args → ∀ value, c.handed V desc S ρ = some value →
        scalarArrayOp (S.binary opno c.left.varcollid) useOr
          [ρ.vars c.left.varno c.left.varattno, value] = some true) := by
  obtain ⟨hrel, ho, hargs⟩ := canonicalScalarArrayOpExpr_eq_some S hc
  have hholds : ∀ value, (c.qual S true useOr value).HoldsOn S (ρ.vars relid c.left.varattno) ↔
      scalarArrayOp (S.binary opno c.left.varcollid) useOr
        [ρ.vars c.left.varno c.left.varattno, value] = some true := by
    intro value
    simp [MulticornConstQual.HoldsOn, Comparison.qual, ho, hrel]
  simp only [hholds]
  constructor
  · exact fun h _ => h
  · intro h value hvalue
    by_cases haltered : c.Altered V desc S ρ inputcollid args
    · exact h haltered value hvalue
    · simp only [Comparison.Altered, not_or, not_not] at haltered
      obtain ⟨hcoerce, hcollation, hread⟩ := haltered
      obtain rfl := Option.some.inj (hvalue.symm.trans hread)
      have htrue : scalarArrayOp (S.binary opno inputcollid) useOr (evalList S ρ args) =
          some true := by simpa only [IsTrue, eval, asBool_ofBool] using ht
      rw [← evalList_unnestClause S ρ hcoerce, hargs] at htrue
      rwa [hrel, ← hcollation]

private theorem nullTest_sound {relid : ℕ} {t : NullTestType} {arg : Expr}
    (hr : OnRelation relid (.nullTest t arg)) :
    QualsSound V desc S relid (.nullTest t arg) := by
  intro ρ ρ₀ _ ht q hq c hc c' hc'
  change q ∈ extractClauseFromNullTest t arg at hq
  unfold extractClauseFromNullTest at hq
  split at hq
  · next v =>
    split_ifs at hq
    · cases hq
    · rw [List.mem_singleton] at hq
      subst hq
      obtain ⟨-, rfl⟩ := (executeQual_makeQual S ρ₀ _ _ _ _ _ _ _ _).mp hc
      obtain rfl := handed_of_null V desc (by rw [eval]) hc'
      have hx : t.test (ρ.vars relid v.varattno) = true := by
        simpa [IsTrue, eval, show v.varno = relid from hr] using ht
      cases t <;> simpa [MulticornConstQual.HoldsOn, eval] using hx
  · cases hq

private theorem booleanTest_sound {relid : ℕ} {t : BoolTestType} {arg : Expr}
    (hr : OnRelation relid (.booleanTest t arg)) :
    QualsSound V desc S relid (.booleanTest t arg) := by
  intro ρ ρ₀ _ ht q hq c hc c' hc'
  change q ∈ extractClauseFromBooleanTest t arg at hq
  unfold extractClauseFromBooleanTest at hq
  split at hq
  · next v =>
    split_ifs at hq
    · cases hq
    · rw [List.mem_singleton] at hq
      subst hq
      obtain ⟨-, rfl⟩ := (executeQual_makeQual S ρ₀ _ _ _ _ _ _ _ _).mp hc
      obtain rfl : c' = _ := by
        cases hconstant : t.constant with
        | none => exact handed_of_null V desc (by simp [eval, ofBool, hconstant]) hc'
        | some b => exact handed_of_bool V desc (b := b) rfl (by simp [eval, ofBool, hconstant]) hc'
      have hx : t.test (asBool (ρ.vars relid v.varattno)) = true := by
        simpa [IsTrue, eval, show v.varno = relid from hr] using ht
      cases t <;>
        simpa [MulticornConstQual.HoldsOn, eval, BoolTestType.opname, BoolTestType.constant,
          ofBool, BoolTestType.test] using hx
  · cases hq

private theorem var_sound (relid : ℕ) (v : Var) : QualsSound V desc S relid (.var v) := by
  intro ρ ρ₀ _ ht q hq c hc c' hc'
  change q ∈ extractClauseFromVar {relid} v at hq
  unfold extractClauseFromVar at hq
  split_ifs at hq with hv
  · rw [List.mem_singleton] at hq
    subst hq
    obtain ⟨-, rfl⟩ := (executeQual_makeQual S ρ₀ _ _ _ _ _ _ _ _).mp hc
    obtain rfl := handed_of_bool V desc (b := true) rfl rfl hc'
    have hrel : v.varno = relid := by simpa [pullVarnos, pullVarClause] using hv
    simpa [MulticornConstQual.HoldsOn, trueExpr, eval, IsTrue, hrel] using ht
  · cases hq

private theorem boolExpr_sound (relid : ℕ) (op : BoolExprType) (args : List Expr) :
    QualsSound V desc S relid (.boolExpr op args) := by
  intro ρ ρ₀ _ ht q hq c hc c' hc'
  change q ∈ extractClauseFromBoolExpr {relid} op args at hq
  unfold extractClauseFromBoolExpr at hq
  split_ifs at hq with hv
  · split at hq
    · next v =>
      rw [List.mem_singleton] at hq
      subst hq
      obtain ⟨-, rfl⟩ := (executeQual_makeQual S ρ₀ _ _ _ _ _ _ _ _).mp hc
      obtain rfl := handed_of_bool V desc (b := true) rfl rfl hc'
      have hrel : v.varno = relid := by
        simpa [pullVarnos, pullVarClause, pullVarClauseList] using hv
      have hx : asBool (ρ.vars relid v.varattno) = some false := by
        simpa [IsTrue, eval, evalList, BoolExprType.eval, hrel] using ht
      simp [MulticornConstQual.HoldsOn, trueExpr, eval, not3, hx]
    · cases hq
  · cases hq

/-- Arrays of numerics, with the float for 1.4. -/
def numericTypes : TypeSystem where
  typelem type := if type = 1231 then some numericOid else none
  output _ _ := none
  parseFloat out := if out = "1.4".toList then 0x3FF6666666666666 else 0
  misread _ _ := none
  misread_ne_none := TypeSystem.crash_ne_none

def numericReading : Reading numericTypes :=
  objectReading numericTypes (fun bits => if bits = 0x3FF6666666666666 then "1.4".toList else ['0'])
    rfl fun _ _ h => by cases h

/-- `x` is an integer column. -/
def integerColumn : TupleDesc := [⟨"x", int4Oid, -1, false, []⟩]

/-- `x = ANY ($1::integer[])` for an integer column `x` and a `numeric[]` parameter. -/
def anyOfCoercedParam : Expr :=
  .scalarArrayOpExpr 96 true .invalid [.var ⟨1, 1, int4Oid, .invalid⟩,
    .arrayCoerceExpr (.param 1 1231) 1744 1007]

/-- The numeric 1.4 is read as itself. -/
theorem numericReading_handed :
    numericReading.handedValue 1231 (some (.array [1] [some (.numeric "1.4".toList)])) =
      some (some (.array [1] [some (.numeric "1.4".toList)])) := by
  have hobject : datumToPython numericTypes 1231 (some (.array [1] [some (.numeric "1.4".toList)])) =
      some (.list [.float 0x3FF6666666666666]) := by
    simp [datumToPython, datumArrayToPython, datumNumberToPython, numericTypes, byteaOid, textOid,
      varcharOid, bpcharOid, numericOid, dateOid, timestampOid, Convert.int4Oid]
  rw [Reading.handedValue, hobject]
  simp [numericReading, objectReading, objectValue, itemValues, numericTypes]

/-- `3 = x` for an integer column `x`. -/
def constEqVar : Expr :=
  .opExpr 96 boolOid .invalid [.const int4Oid (some (.int4 3)), .var ⟨1, 1, int4Oid, .invalid⟩]

/-- Integers are read as themselves. -/
theorem numericReading_integer (n : ℤ) :
    numericReading.handedValue int4Oid (some (.int4 n)) = some (some (.int4 n)) := by
  have hobject : datumToPython numericTypes int4Oid (some (.int4 n)) = some (.int n) := by
    simp [datumToPython, datumIntToPython, int4Oid, byteaOid, textOid, varcharOid, bpcharOid,
      numericOid, dateOid, timestampOid, Convert.int4Oid]
  rw [Reading.handedValue, hobject]
  simp [numericReading, objectReading, objectValue]

end Multicorn.Planner
