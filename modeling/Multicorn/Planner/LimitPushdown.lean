import Multicorn.Planner.Limit

/-! When a pushed LIMIT returns the rows of the Limit node. -/
namespace Multicorn.Planner
open Multicorn.Catalog (Oid PgError)
open Multicorn.KeyOrder
open Multicorn.Window

variable (S : SqlSemantics) (O : OrderSemantics) (defaultOpfamily : Oid → Oid) (r : Relation)
  (relid : ℕ) (ρ : Env) (W : Row → Prop)

private theorem addForeignFinalPaths_eq_some {canLimit : ℤ → ℤ → Bool} {q : SelectQuery}
    {planstate : MulticornPlanState} {path : ForeignPath}
    (h : addForeignFinalPaths canLimit q (some planstate) = some path) :
    q.limitNeeded = true ∧ ∃ limitCount limitOffset,
      pushedCount q.limitCount = some limitCount ∧
      pushedCount q.limitOffset = some limitOffset ∧
      path = ⟨[], some ⟨limitOffset, limitCount, planstate.pathkeys⟩⟩ := by
  unfold addForeignFinalPaths at h
  dsimp only at h
  split_ifs at h with hneeded
  split at h
  · next lc lo hlc hlo =>
    split_ifs at h
    exact ⟨by simpa using hneeded, lc, lo, hlc, hlo, (Option.some.inj h).symm⟩
  · cases h

private theorem finalInputPrivate_eq (q : SelectQuery) (planstate : MulticornPlanState) :
    finalInputPrivate q planstate = none ∨ finalInputPrivate q planstate = some planstate := by
  unfold finalInputPrivate
  split_ifs <;> simp

private theorem planLimit_eq_some {m : ℕ} {canLimit : ℤ → ℤ → Bool} {q : SelectQuery}
    {planstate₀ planstate : MulticornPlanState} {relids : Finset ℕ} {path : ForeignPath}
    (h : planLimit r relids m canLimit q planstate₀ = .ok (some (planstate, path))) :
    addForeignFinalPaths canLimit q (some planstate) = some path := by
  unfold planLimit at h
  cases hp : multicornGetForeignPaths r relids m q planstate₀ with
  | error e => simp [hp, bind, Except.bind] at h
  | ok ps =>
    simp only [hp, bind, Except.bind, pure, Except.pure, Except.ok.injEq,
      Option.map_eq_some_iff, Prod.mk.injEq] at h
    obtain ⟨p, hadd, rfl, rfl⟩ := h
    rcases finalInputPrivate_eq q ps with hf | hf
    · simp [hf, addForeignFinalPaths] at hadd
    · rwa [hf] at hadd

theorem datumGetInt32_of_small {n : ℤ} (h₀ : 0 ≤ n) (h : n < 2 ^ 31) : datumGetInt32 n = n := by
  unfold datumGetInt32
  rw [Int.bmod_def]
  omega

theorem datumGetInt32_lt (n : ℤ) : datumGetInt32 n < 2 ^ 31 := by
  unfold datumGetInt32
  rw [Int.bmod_def]
  omega

/-- The offset that reaches the wrapper is the offset of the query exactly when it fits. -/
private theorem pushedOffset_eq_iff {e : Option LimitExpr} {lo : ℤ} (hpush : pushedCount e = some lo)
    (hnn : ∀ n, constCount e = some n → 0 ≤ n) :
    ((if 0 ≤ lo then some lo else none).map Int.toNat).getD 0 = ((constCount e).getD 0).toNat ↔
      ∀ n, constCount e = some n → n < 2 ^ 31 := by
  rcases e with _ | (_ | n) | _
  · cases hpush
    simp [constCount]
  · cases hpush
  · cases hpush
    have h₀ : 0 ≤ n := hnn n rfl
    simp only [constCount, Option.getD_some, Option.some.injEq, forall_eq']
    constructor
    · intro h
      have hlt := datumGetInt32_lt n
      by_cases hd : 0 ≤ datumGetInt32 n
      · rw [if_pos hd] at h
        simp only [Option.map_some, Option.getD_some] at h
        omega
      · rw [if_neg hd] at h
        simp only [Option.map_none, Option.getD_none] at h
        omega
    · intro h
      rw [datumGetInt32_of_small h₀ h, if_pos h₀]
      rfl
  · cases hpush

private theorem pushedLimit_eq_iff {e : Option LimitExpr} {lc : ℤ} (hpush : pushedCount e = some lc)
    (hnn : ∀ n, constCount e = some n → 0 ≤ n) :
    (if 0 ≤ lc then some lc else none).map Int.toNat = (constCount e).map Int.toNat ↔
      ∀ n, constCount e = some n → n < 2 ^ 31 := by
  rcases e with _ | (_ | n) | _
  · cases hpush
    simp [constCount]
  · cases hpush
  · cases hpush
    have h₀ : 0 ≤ n := hnn n rfl
    simp only [constCount, Option.some.injEq, forall_eq', Option.map_some]
    constructor
    · intro h
      have hlt := datumGetInt32_lt n
      by_cases hd : 0 ≤ datumGetInt32 n
      · rw [if_pos hd] at h
        simp only [Option.map_some, Option.some.injEq] at h
        omega
      · rw [if_neg hd] at h
        simp at h
    · intro h
      rw [datumGetInt32_of_small h₀ h, if_pos h₀]
      rfl
  · cases hpush

private theorem not_countsNonneg {q : SelectQuery} (h : ¬ q.CountsNonneg) :
    (∃ n, constCount q.limitOffset = some n ∧ n < 0) ∨
      ∃ n, constCount q.limitCount = some n ∧ n < 0 := by
  by_contra hnone
  rw [not_or] at hnone
  refine h ⟨fun n hn => ?_, fun n hn => ?_⟩
  · by_contra hneg
    exact hnone.1 ⟨n, hn, by omega⟩
  · by_contra hneg
    exact hnone.2 ⟨n, hn, by omega⟩

/-- A negative count is an error even over an empty table. -/
private theorem not_limitNodeProduces {q : SelectQuery} (h : ¬ q.CountsNonneg) (T out : List Row) :
    ¬ LimitNodeProduces S O relid ρ q T (.ok out) := by
  unfold LimitNodeProduces
  rcases not_countsNonneg h with ho | hc
  · rw [if_pos ho]
    simp
  · split_ifs <;> simp

private theorem limitNodeProduces_iff {q : SelectQuery} (h : q.CountsNonneg) (T out : List Row) :
    LimitNodeProduces S O relid ρ q T (.ok out) ↔
      ∃ L : List Row, L.Perm (T.filter (q.passes S relid ρ)) ∧ L.Pairwise (q.le O relid) ∧
        out = window ((constCount q.limitOffset).getD 0).toNat
          ((constCount q.limitCount).map Int.toNat) (q.projectSet L) := by
  unfold LimitNodeProduces
  rw [if_neg, if_neg]
  · simp only [Except.ok.injEq]
  · rintro ⟨n, hn, hneg⟩
    have := h.2 n hn
    omega
  · rintro ⟨n, hn, hneg⟩
    have := h.1 n hn
    omega

/-- The Limit node does not raise the error of a scan with set-returning functions. -/
private theorem not_limitNodeProduces_of_srfs {q : SelectQuery} (h : q.targetSRFs ≠ none)
    (T rows : List Row) : ¬ LimitNodeProduces S O relid ρ q T (q.scanProduces rows) := by
  unfold LimitNodeProduces SelectQuery.scanProduces
  rw [if_pos (Option.isSome_iff_ne_none.mpr h)]
  split_ifs <;> simp

private theorem scanProduces_of_none {q : SelectQuery} (h : q.targetSRFs = none)
    (rows : List Row) : q.scanProduces rows = .ok rows := by
  simp [SelectQuery.scanProduces, h]

private theorem projectSet_of_none {q : SelectQuery} (h : q.targetSRFs = none)
    (rows : List Row) : q.projectSet rows = rows := by
  simp [SelectQuery.projectSet, h]

private theorem le_refl_of_keys {cs : List (Row → Row → Ordering)}
    (h : ∀ c ∈ cs, Std.TransCmp c) (row : Row) : (lexCompare cs row row).isLE := by
  have := lexCompare_trans cs h
  exact Std.ReflCmp.isLE_rfl

private theorem exists_sorted_of_keys {cs : List (Row → Row → Ordering)}
    (h : ∀ c ∈ cs, Std.TransCmp c) (T : List Row) :
    ∃ L : List Row, L.Perm T ∧ L.Pairwise (fun row row' => (lexCompare cs row row').isLE) := by
  have := lexCompare_trans cs h
  refine ⟨T.mergeSort fun row row' => (lexCompare cs row row').isLE, List.mergeSort_perm _ _,
    List.pairwise_mergeSort (fun a b c => Std.TransCmp.isLE_trans) (fun a b => ?_) T⟩
  have hswap : lexCompare cs b a = (lexCompare cs a b).swap := Std.OrientedCmp.eq_swap
  rw [hswap]
  cases lexCompare cs a b <;> rfl

private theorem pathKey_order_trans (keys : List PathKey) :
    ∀ c ∈ keys.map (PathKey.order O {relid}), Std.TransCmp c := by
  intro c hc
  obtain ⟨key, -, rfl⟩ := List.mem_map.mp hc
  exact keyCompare_trans _ _ _ (O.trans _ _) _

private theorem sortKey_order_trans (keys : List SortKey) :
    ∀ c ∈ keys.map (SortKey.order O defaultOpfamily r), Std.TransCmp c := by
  intro c hc
  obtain ⟨key, -, rfl⟩ := List.mem_map.mp hc
  exact keyCompare_trans _ _ _ (O.trans _ _) _

private theorem scanKwargs_limitPath (planstate : MulticornPlanState) (lo lc : ℤ) :
    scanKwargs planstate ⟨[], some ⟨lo, lc, planstate.pathkeys⟩⟩ =
      some ⟨if planstate.pathkeys.isEmpty then none else some (planstate.pathkeys.map getSortKey),
        if 0 ≤ lc then some lc else none, if 0 ≤ lo then some lo else none⟩ := by
  simp [scanKwargs, foreignPlanState, initializeExecState_serialize, executeKwargs]

private theorem sortkeys_getD (groups : List MulticornDeparsedSortGroup) :
    (if groups.isEmpty then none else some (groups.map getSortKey)).getD [] =
      groups.map getSortKey := by
  cases groups <;> rfl

private theorem limitNeeded_window {q : SelectQuery} (hneeded : q.limitNeeded = true) {lc lo : ℤ}
    (hlc : pushedCount q.limitCount = some lc) (hlo : pushedCount q.limitOffset = some lo)
    (hnn : q.CountsNonneg) :
    (constCount q.limitCount).map Int.toNat ≠ none ∨
      ((constCount q.limitOffset).getD 0).toNat ≠ 0 := by
  unfold SelectQuery.limitNeeded at hneeded
  rcases hc : q.limitCount with _ | (_ | n) | _
  · right
    rcases ho : q.limitOffset with _ | (_ | n) | _
    · simp [hc, ho] at hneeded
    · simp [hc, ho] at hneeded
    · have h₀ : 0 ≤ n := hnn.1 n (by rw [ho]; rfl)
      have hne : n ≠ 0 := by simpa [hc, ho] using hneeded
      simp only [constCount, Option.getD_some]
      omega
    · simp [ho, pushedCount] at hlo
  · simp [hc, pushedCount] at hlc
  · left
    simp [constCount]
  · simp [hc, pushedCount] at hlc

/-- Where a limit is pushed, the scan returns rows of the Limit node exactly when the query
and the sort keys make that safe. -/
theorem limitFaithful_iff {m : ℕ} {canLimit : ℤ → ℤ → Bool} {q : SelectQuery}
    {planstate₀ planstate : MulticornPlanState} {path : ForeignPath}
    (hpath : planLimit r {relid} m canLimit q planstate₀ = .ok (some (planstate, path))) :
    LimitFaithful S O defaultOpfamily r relid ρ W q planstate path ↔
      q.LimitSafe S O defaultOpfamily r relid ρ W planstate := by
  obtain ⟨hneeded, lc, lo, hlc, hlo, rfl⟩ :=
    addForeignFinalPaths_eq_some (planLimit_eq_some r hpath)
  have hempty := fun h : LimitFaithful S O defaultOpfamily r relid ρ W q planstate
      ⟨[], some ⟨lo, lc, planstate.pathkeys⟩⟩ =>
    h [] (by simp) _ (scanKwargs_limitPath planstate lo lc) _ ⟨[], .refl _, .refl _, .nil, rfl⟩
  unfold SelectQuery.LimitSafe
  by_cases hsrfs : q.targetSRFs = none
  case neg =>
    exact iff_of_false (fun h => not_limitNodeProduces_of_srfs S O relid ρ hsrfs [] _ (hempty h))
      fun h => hsrfs h.1
  rw [and_iff_right hsrfs]
  by_cases hnn : q.CountsNonneg
  · rw [and_iff_right hnn]
    have hfaithful : LimitFaithful S O defaultOpfamily r relid ρ W q planstate
          ⟨[], some ⟨lo, lc, planstate.pathkeys⟩⟩ ↔
        PushdownFaithful W (q.passes S relid ρ)
          (sortkeysLE O defaultOpfamily r (planstate.pathkeys.map getSortKey)) (q.le O relid)
          (((if 0 ≤ lo then some lo else none).map Int.toNat).getD 0)
          ((if 0 ≤ lc then some lc else none).map Int.toNat)
          ((constCount q.limitOffset).getD 0).toNat ((constCount q.limitCount).map Int.toNat) := by
      simp only [LimitFaithful, scanKwargs_limitPath, Option.some.injEq, forall_eq',
        HonoursKwargs, sortkeys_getD, scanProduces_of_none hsrfs, projectSet_of_none hsrfs,
        limitNodeProduces_iff S O relid ρ hnn, PushdownFaithful]
      constructor
      · intro h T hT L hsub hperm hsort
        exact h T hT _ ⟨L, hsub, hperm, hsort, rfl⟩
      · rintro h T hT answer ⟨L, hsub, hperm, hsort, rfl⟩
        exact h T hT L hsub hperm hsort
    have hzero : (constCount q.limitCount).map Int.toNat = some 0 ↔
        constCount q.limitCount = some 0 := by
      rcases hc : constCount q.limitCount with _ | n
      · simp
      · have h₀ := hnn.2 n hc
        simp only [Option.map_some, Option.some.injEq]
        omega
    have hzero' : (constCount q.limitCount).map Int.toNat = some 0 →
        (if 0 ≤ lc then some lc else none).map Int.toNat = some 0 := by
      intro h
      rw [(pushedLimit_eq_iff hlc hnn.2).mpr, h]
      intro n hn
      rw [hzero.mp h, Option.some.injEq] at hn
      omega
    have hreflS : ∀ row, sortkeysLE O defaultOpfamily r (planstate.pathkeys.map getSortKey) row row :=
      le_refl_of_keys (sortKey_order_trans O defaultOpfamily r _)
    have hreflO : ∀ row, q.le O relid row row := le_refl_of_keys (pathKey_order_trans O relid _)
    have hsorted : ∀ T : List Row, ∃ L : List Row, L.Perm T ∧ L.Pairwise (q.le O relid) :=
      exists_sorted_of_keys (pathKey_order_trans O relid _)
    rw [hfaithful, pushdownFaithful_iff hreflS hreflO hsorted hzero'
      (limitNeeded_window hneeded hlc hlo hnn), hzero, pushedOffset_eq_iff hlo hnn.1,
      pushedLimit_eq_iff hlc hnn.2]
    rfl
  · refine iff_of_false (fun h => ?_) (fun h => hnn h.1)
    have hout := hempty h
    rw [scanProduces_of_none hsrfs] at hout
    exact not_limitNodeProduces S O relid ρ hnn [] _ hout

/-- Integers in their order, whatever the family and the collation. -/
def integerOrder : OrderSemantics where
  cmp _ _ := compareOn fun | .int4 n => n | _ => 0
  trans _ _ := inferInstance
  invalid_eq _ := rfl

def emptyEnv : Env := ⟨fun _ _ => none, fun _ => none, 0⟩

def unsortedScan : MulticornPlanState := ⟨2, 16384, ["a", "b"], [], -1, -1, true⟩

def limitOne : ForeignPath := ⟨[], some ⟨-1, 1, []⟩⟩

theorem no_pathkeys : false = false → ([] : List PathKey) = [] := fun _ => rfl

/-- `SELECT * FROM (SELECT * FROM t WHERE a = 1) s LIMIT 1`. -/
def limitOverSubquery : SelectQuery where
  commandType := .select
  limitOption := .count
  jointree := .fromExpr (.fromExpr (.rangeTblRef 1) [.opExpr 96 boolOid .invalid
    [.var ⟨1, 1, int4Oid, .invalid⟩, .const int4Oid (some (.int4 1))]]) []
  limitCount := some (.const (some 1))
  limitOffset := none
  sortClause := false
  sort_pathkeys := []
  otherStages := false
  targetSRFs := none
  unsorted := no_pathkeys

/-- Over the rows `a = 2` and `a = 1` the scan stops after the first one, which the recheck
drops; the Limit node returns the second. -/
theorem limitOverSubquery_loses_row :
    planLimit twoColumns {1} 0 (fun _ _ => true) limitOverSubquery unsortedScan =
        .ok (some (unsortedScan, limitOne)) ∧
      ¬ LimitFaithful integerSemantics integerOrder (fun _ => 0) twoColumns 1 emptyEnv
        (fun _ => True) limitOverSubquery unsortedScan limitOne := by
  refine ⟨rfl, fun h => ?_⟩
  let row (a : ℤ) : Row := fun n => if n = 1 then some (.int4 a) else none
  have hpass : ∀ a, limitOverSubquery.passes integerSemantics 1 emptyEnv (row a) = (a == 1) := by
    intro a
    simp [SelectQuery.passes, limitOverSubquery, JoinTree.restrictClauses, IsTrue, eval, evalList,
      integerSemantics, integerEq, Env.withRow, row, Bool.beq_eq_decide_eq]
  have hfilter : [row 2, row 1].filter (limitOverSubquery.passes integerSemantics 1 emptyEnv) =
      [row 1] := by
    simp [hpass]
  have hdropped : [row 2].filter (limitOverSubquery.passes integerSemantics 1 emptyEnv) = [] := by
    simp [hpass]
  have hprod := h [row 2, row 1] (by simp) ⟨none, some 1, none⟩ rfl [row 2]
    ⟨[row 2, row 1], .refl _, .refl _, by simp [sortkeysLE, lexCompare], rfl⟩
  rw [scanProduces_of_none rfl, limitNodeProduces_iff, hfilter, hdropped] at hprod
  · obtain ⟨L, hperm, -, hout⟩ := hprod
    rw [List.perm_singleton.mp hperm] at hout
    simp [window, limitOverSubquery, constCount, SelectQuery.projectSet] at hout
  · exact ⟨(fun n hn => by cases hn), (fun n hn => by cases Option.some.inj hn; decide)⟩

/-- `SELECT * FROM t LIMIT 1`. -/
def limitOverTable : SelectQuery where
  commandType := .select
  limitOption := .count
  jointree := .fromExpr (.rangeTblRef 1) []
  limitCount := some (.const (some 1))
  limitOffset := none
  sortClause := false
  sort_pathkeys := []
  otherStages := false
  targetSRFs := none
  unsorted := no_pathkeys

theorem limitOverTable_faithful :
    LimitFaithful integerSemantics integerOrder (fun _ => 0) twoColumns 1 emptyEnv
      (fun _ => True) limitOverTable unsortedScan limitOne := by
  have hpass : ∀ row, limitOverTable.passes integerSemantics 1 emptyEnv row = true := by
    intro row
    simp [SelectQuery.passes, limitOverTable, JoinTree.restrictClauses]
  have hpath : planLimit twoColumns {1} 0 (fun _ _ => true) limitOverTable unsortedScan =
      .ok (some (unsortedScan, limitOne)) := rfl
  refine (limitFaithful_iff integerSemantics integerOrder (fun _ => 0) twoColumns 1 emptyEnv
    (fun _ => True) hpath).mpr ⟨rfl, ⟨(fun n hn => by cases hn), fun n hn => ?_⟩,
      .inr ⟨fun _ => ⟨(fun n hn => by cases hn), fun n hn => ?_⟩, ?_, ?_⟩⟩
  · cases Option.some.inj hn
    decide
  · cases Option.some.inj hn
    decide
  · intro f p _ _ hf
    simp [hpass] at hf
  · intro p q _ _ _ _ _
    simp [SelectQuery.le, limitOverTable, lexCompare]

end Multicorn.Planner
