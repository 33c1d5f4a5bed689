import Multicorn.Executor.Pushdown
import Multicorn.Executor.Scan

/-! A nested loop over a foreign scan: the inner side is rescanned for each outer row, with the
quals evaluated anew. -/
namespace Multicorn.Executor
open Multicorn.Catalog (Oid PgError)
open Multicorn.Convert (TypeSystem)
open Multicorn.Planner
open Multicorn.Pointwise
open Multicorn.Recheck

inductive JoinType
  | inner
  | left
  | semi
  | anti
  deriving DecidableEq

/-- The node above: `joinqual` holds the recheck of the scan too, and `emit` what is left of
a joined row behind the other quals. -/
structure NestLoop (Outer Slot Tuple : Type) where
  jointype : JoinType
  joinqual : Outer → Slot → Bool
  emit : Outer → Option Slot → List Tuple

section Pending

variable {Row Slot : Type} {answers : ℕ → Answer Row} {convert : Row → Except PgError Slot}

variable (answers) in
/-- A bound on the rows still to come from the current execution. -/
def ScanState.pending (s : ScanState Row) : ℕ :=
  match s.p_iterator with
  | .null =>
    match answers s.executed with
    | .ok (some items) => items.length + 1
    | _ => 0
  | .pyNone => 0
  | .iterator id => (s.left id).length

theorem nextSlot_some {s s' : ScanState Row} {slot : Slot}
    (h : nextSlot convert s = .ok (some slot, s')) :
    ∃ id item items, s.p_iterator = .iterator id ∧ s.left id = item :: items ∧
      s' = s.yielded id items := by
  unfold nextSlot at h
  split at h
  · cases h
  · cases h
  · next id hptr =>
    split at h
    · cases h
    · cases h
    · cases h
    · next r items hleft =>
      obtain ⟨_, _, h⟩ := bind_eq_ok.mp h
      cases h
      exact ⟨id, .row r, items, hptr, hleft, rfl⟩

theorem pending_lt_of_nextSlot {s s' : ScanState Row} {slot : Slot}
    (h : nextSlot convert s = .ok (some slot, s')) : s'.pending answers < s.pending answers := by
  obtain ⟨id, item, items, hptr, hleft, rfl⟩ := nextSlot_some h
  simp [ScanState.pending, ScanState.yielded, hptr, hleft]

/-- Each row delivered is one less to come. -/
theorem pending_lt {s s' : ScanState Row} {slot : Slot}
    (h : multicornIterateForeignScan answers convert s = .ok (some slot, s')) :
    s'.pending answers < s.pending answers := by
  unfold multicornIterateForeignScan at h
  split_ifs at h with hptr
  · obtain ⟨s₁, hexecute, hnext⟩ := bind_eq_ok.mp h
    have hlt : s'.pending answers < s₁.pending answers := pending_lt_of_nextSlot hnext
    unfold execute at hexecute
    obtain ⟨answer, hanswer, hexecute⟩ := bind_eq_ok.mp hexecute
    cases answer with
    | none =>
      cases hexecute
      exact absurd hlt (Nat.not_lt_zero _)
    | some items =>
      cases hexecute
      have hpending : s.pending answers = items.length + 1 := by
        simp [ScanState.pending, hptr, hanswer]
      simp only [ScanState.pending, Function.update_self] at hlt
      rw [hpending]
      exact Nat.lt_succ_of_lt hlt
  · exact pending_lt_of_nextSlot h

end Pending

section Source

variable {Row Outer Slot Tuple : Type} (answers : ℕ → Answer Row)
  (convert : Row → Except PgError Slot) (n : NestLoop Outer Slot Tuple)

/-- The row of an outer row without a match. -/
def NestLoop.unmatched (o : Outer) : List Tuple :=
  match n.jointype with
  | .inner | .semi => []
  | .left | .anti => n.emit o none

/-- The inner rows for one outer row; a semijoin and an antijoin stop at the first match. -/
def probe (o : Outer) (matched : Bool) (s : ScanState Row) :
    Except PgError (List Tuple × ScanState Row) :=
  match _h : multicornIterateForeignScan answers convert s with
  | .error e => .error e
  | .ok (none, s') => .ok (if matched then [] else n.unmatched o, s')
  | .ok (some slot, s') =>
    if n.joinqual o slot then
      match n.jointype with
      | .anti => .ok ([], s')
      | .semi => .ok (n.emit o (some slot), s')
      | _ => do
        let (tuples, s'') ← probe o true s'
        return (n.emit o (some slot) ++ tuples, s'')
    else probe o matched s'
termination_by s.pending answers
decreasing_by all_goals exact pending_lt _h

def nestLoop : List Outer → ScanState Row → Except PgError (List Tuple × ScanState Row)
  | [], s => .ok ([], s)
  | o :: outer, s => do
    let (tuples, s) ← probe answers convert n o false (multicornReScanForeignScan s)
    let (more, s) ← nestLoop outer s
    return (tuples ++ more, s)

end Source

/-! What the loop returns, over lists. -/

namespace NestLoop

variable {Outer Slot Tuple : Type} (n : NestLoop Outer Slot Tuple)

/-- The inner rows that join with an outer row. -/
def matching (o : Outer) (inner : List Slot) : List Slot := inner.filter (n.joinqual o)

/-- The joined rows of one outer row. -/
def join (o : Outer) (inner : List Slot) : List Tuple :=
  match n.jointype with
  | .inner => (n.matching o inner).flatMap fun slot => n.emit o (some slot)
  | .left =>
    if n.matching o inner = [] then n.emit o none
    else (n.matching o inner).flatMap fun slot => n.emit o (some slot)
  | .semi => ((n.matching o inner).take 1).flatMap fun slot => n.emit o (some slot)
  | .anti => if n.matching o inner = [] then n.emit o none else []

/-- The rows that are still to be joined, after a match or before one. -/
def joinRest (o : Outer) (matched : Bool) (inner : List Slot) : List Tuple :=
  if matched then (n.matching o inner).flatMap fun slot => n.emit o (some slot)
  else n.join o inner

theorem joinRest_nil (o : Outer) (matched : Bool) :
    n.joinRest o matched [] = if matched then [] else n.unmatched o := by
  unfold joinRest join matching unmatched
  cases n.jointype <;> rfl

theorem joinRest_of_not (o : Outer) (matched : Bool) {slot : Slot} (inner : List Slot)
    (h : ¬ n.joinqual o slot = true) :
    n.joinRest o matched (slot :: inner) = n.joinRest o matched inner := by
  have hmatching : n.matching o (slot :: inner) = n.matching o inner :=
    List.filter_cons_of_neg h
  unfold joinRest join
  rw [hmatching]

theorem matching_cons (o : Outer) {slot : Slot} (inner : List Slot)
    (h : n.joinqual o slot = true) :
    n.matching o (slot :: inner) = slot :: n.matching o inner :=
  List.filter_cons_of_pos h

/-- An inner join and a left join go on behind a match. -/
theorem joinRest_go_on (o : Outer) (matched : Bool) {slot : Slot} (inner : List Slot)
    (h : n.joinqual o slot = true) (htype : n.jointype = .inner ∨ n.jointype = .left) :
    n.joinRest o matched (slot :: inner) = n.emit o (some slot) ++ n.joinRest o true inner := by
  have hmatching := n.matching_cons o inner h
  rcases htype with htype | htype <;> simp [joinRest, join, htype, hmatching]

/-- A semijoin and an antijoin are done at it. -/
theorem joinRest_of_match (o : Outer) {slot : Slot} (inner : List Slot)
    (h : n.joinqual o slot = true) (htype : ¬ (n.jointype = .inner ∨ n.jointype = .left)) :
    n.joinRest o false (slot :: inner) =
      if n.jointype = .semi then n.emit o (some slot) else [] := by
  have hmatching := n.matching_cons o inner h
  cases hjoin : n.jointype with
  | inner => exact absurd (.inl hjoin) htype
  | left => exact absurd (.inr hjoin) htype
  | semi => simp [joinRest, join, hjoin, hmatching]
  | anti => simp [joinRest, join, hjoin, hmatching]

end NestLoop

section Run

variable {Row Outer Slot Tuple : Type} {answers : ℕ → Answer Row}
  {convert : Row → Except PgError Slot} {n : NestLoop Outer Slot Tuple}

variable (convert) in
/-- The rows that an execution delivers, all converted. -/
def Delivers : Answer Row → List Slot → Prop
  | .error _, _ => False
  | .ok none, rows => rows = []
  | .ok (some items), rows =>
    List.Forall₂ (fun item row => ∃ r, item = .row r ∧ convert r = .ok row) items rows

theorem slotOf_delivered {items : List (PyItem Row)} {rows : List Slot}
    (h : List.Forall₂ (fun item row => ∃ r, item = .row r ∧ convert r = .ok row) items rows)
    (i : ℕ) : slotOf convert items[i]? = .ok rows[i]? := by
  induction h generalizing i with
  | nil => rfl
  | cons hrow _ ih =>
    obtain ⟨r, rfl, hconvert⟩ := hrow
    cases i with
    | zero =>
      show (convert r).map some = _
      rw [hconvert]
      rfl
    | succ i => exact ih i

theorem fetch_delivered {k : ℕ} {rows : List Slot} (h : Delivers convert (answers k) rows)
    (i : ℕ) : (⟨k, i⟩ : Cursor).fetch answers convert = .ok rows[i]? := by
  unfold Cursor.fetch
  cases hanswer : answers k with
  | error e =>
    rw [hanswer] at h
    exact h.elim
  | ok answer =>
    rw [hanswer] at h
    cases answer with
    | none =>
      have hnil : rows = [] := h
      subst hnil
      rfl
    | some items => exact slotOf_delivered h i

/-- A fetch is the next row of the execution, and the node stays in it. -/
theorem iterate_delivered {s : ScanState Row} {k i : ℕ} {rows : List Slot}
    (htracks : Tracks answers s ⟨k, i⟩) (h : Delivers convert (answers k) rows) :
    ∃ s', multicornIterateForeignScan answers convert s = .ok (rows[i]?, s') ∧
      Tracks answers s' ⟨k, i + 1⟩ := by
  obtain ⟨hslot, hnext⟩ := iterate_tracks convert htracks
  rw [fetch_delivered h] at hslot
  cases hiterate : multicornIterateForeignScan answers convert s with
  | error e =>
    rw [hiterate] at hslot
    cases hslot
  | ok result =>
    obtain ⟨slot, s'⟩ := result
    rw [hiterate] at hslot
    have hslot : slot = rows[i]? := Except.ok.inj hslot
    subst slot
    exact ⟨s', rfl, hnext _ _ hiterate⟩

theorem probe_empty {o : Outer} {matched : Bool} {s s' : ScanState Row}
    (h : multicornIterateForeignScan answers convert s = .ok (none, s')) :
    probe answers convert n o matched s = .ok (if matched then [] else n.unmatched o, s') := by
  rw [probe]
  split <;> next hiterate => cases h.symm.trans hiterate <;> rfl

theorem probe_skip {o : Outer} {matched : Bool} {s s' : ScanState Row} {slot : Slot}
    (h : multicornIterateForeignScan answers convert s = .ok (some slot, s'))
    (hqual : ¬ n.joinqual o slot = true) :
    probe answers convert n o matched s = probe answers convert n o matched s' := by
  rw [probe]
  split <;> next hiterate => cases h.symm.trans hiterate <;> exact if_neg hqual

theorem probe_anti {o : Outer} {matched : Bool} {s s' : ScanState Row} {slot : Slot}
    (h : multicornIterateForeignScan answers convert s = .ok (some slot, s'))
    (hqual : n.joinqual o slot = true) (htype : n.jointype = .anti) :
    probe answers convert n o matched s = .ok ([], s') := by
  rw [probe]
  split <;> next hiterate => cases h.symm.trans hiterate <;> simp [hqual, htype]

theorem probe_semi {o : Outer} {matched : Bool} {s s' : ScanState Row} {slot : Slot}
    (h : multicornIterateForeignScan answers convert s = .ok (some slot, s'))
    (hqual : n.joinqual o slot = true) (htype : n.jointype = .semi) :
    probe answers convert n o matched s = .ok (n.emit o (some slot), s') := by
  rw [probe]
  split <;> next hiterate => cases h.symm.trans hiterate <;> simp [hqual, htype]

theorem probe_go_on {o : Outer} {matched : Bool} {s s' s'' : ScanState Row} {slot : Slot}
    {tuples : List Tuple}
    (h : multicornIterateForeignScan answers convert s = .ok (some slot, s'))
    (hqual : n.joinqual o slot = true) (htype : n.jointype = .inner ∨ n.jointype = .left)
    (hrest : probe answers convert n o true s' = .ok (tuples, s'')) :
    probe answers convert n o matched s = .ok (n.emit o (some slot) ++ tuples, s'') := by
  rw [probe]
  split <;> next hiterate =>
    cases h.symm.trans hiterate <;> rcases htype with htype | htype <;>
      simp only [hqual, htype, hrest] <;> rfl

/-- The loop over the inner rows joins what the execution has left. Only an inner join and a
left join go on behind a match. -/
theorem probe_joins {o : Outer} {k : ℕ} {rows rest : List Slot}
    (hrows : Delivers convert (answers k) rows) {s : ScanState Row} {i : ℕ}
    (htracks : Tracks answers s ⟨k, i⟩) (hrest : rows.drop i = rest) {matched : Bool}
    (hmatched : matched = true → n.jointype = .inner ∨ n.jointype = .left) :
    ∃ s' j, probe answers convert n o matched s = .ok (n.joinRest o matched rest, s') ∧
      Tracks answers s' ⟨k, j + 1⟩ := by
  induction rest generalizing s i matched with
  | nil =>
    obtain ⟨s', hiterate, htracks'⟩ := iterate_delivered htracks hrows
    rw [List.getElem?_eq_none (List.drop_eq_nil_iff.mp hrest)] at hiterate
    refine ⟨s', i, ?_, htracks'⟩
    rw [probe_empty hiterate, n.joinRest_nil]
  | cons slot rest ih =>
    obtain ⟨s', hiterate, htracks'⟩ := iterate_delivered htracks hrows
    have hslot : rows[i]? = some slot := by
      rw [← List.head?_drop, hrest, List.head?_cons]
    have hrest' : rows.drop (i + 1) = rest := by
      rw [← List.tail_drop, hrest, List.tail_cons]
    rw [hslot] at hiterate
    by_cases hqual : n.joinqual o slot = true
    · by_cases hgo : n.jointype = .inner ∨ n.jointype = .left
      · obtain ⟨s'', j, hprobe, htracks''⟩ := ih htracks' hrest' fun _ : true = true => hgo
        refine ⟨s'', j, ?_, htracks''⟩
        rw [probe_go_on hiterate hqual hgo hprobe, n.joinRest_go_on o matched rest hqual hgo]
      · have hfirst : matched = false := Bool.eq_false_iff.mpr fun h => hgo (hmatched h)
        refine ⟨s', i, ?_, htracks'⟩
        rw [hfirst, n.joinRest_of_match o rest hqual hgo]
        cases htype : n.jointype with
        | inner => exact absurd (.inl htype) hgo
        | left => exact absurd (.inr htype) hgo
        | semi => simp [probe_semi hiterate hqual htype]
        | anti => simp [probe_anti hiterate hqual htype]
    · obtain ⟨s'', j, hprobe, htracks''⟩ := ih htracks' hrest' hmatched
      refine ⟨s'', j, ?_, htracks''⟩
      rw [probe_skip hiterate hqual, hprobe, n.joinRest_of_not o matched rest hqual]

/-- Each outer row gets an execution of its own. -/
theorem nestLoop_delivered {outer : List Outer} (rows : ℕ → List Slot) {s : ScanState Row}
    {c : Cursor} (htracks : Tracks answers s c)
    (hrows : ∀ i < outer.length,
      Delivers convert (answers (c.executions + i)) (rows (c.executions + i))) :
    ∃ s', nestLoop answers convert n outer s =
      .ok ((outer.zipIdx c.executions).flatMap fun p => n.join p.1 (rows p.2), s') := by
  induction outer generalizing s c with
  | nil => exact ⟨s, rfl⟩
  | cons o outer ih =>
    have hfresh : c.call .rescan = ⟨c.executions, 0⟩ := by
      obtain ⟨k, i⟩ := c
      cases i <;> rfl
    have hrescan : Tracks answers (multicornReScanForeignScan s) ⟨c.executions, 0⟩ :=
      hfresh ▸ rescan_tracks htracks
    obtain ⟨s₁, j, hprobe, htracks₁⟩ := probe_joins (n := n) (o := o)
      (hrows 0 (Nat.succ_pos _)) hrescan List.drop_zero fun h : false = true => nomatch h
    obtain ⟨s₂, hloop⟩ := ih htracks₁ fun i hi => by
      have := hrows (i + 1) (Nat.succ_lt_succ hi)
      rwa [show c.executions + (i + 1) = c.executions + 1 + i by omega] at this
    refine ⟨s₂, bind_eq_ok.mpr ⟨_, hprobe, bind_eq_ok.mpr ⟨_, hloop, rfl⟩⟩⟩

end Run

section Joined

variable {Outer Tuple : Type} {n : NestLoop Outer (List (Option Datum)) Tuple}

/-- The order of the inner rows does not matter, as long as a semijoin shows only its outer
row. -/
theorem NestLoop.join_perm {Slot : Type} {n : NestLoop Outer Slot Tuple} {inner inner' : List Slot}
    (hsemi : n.jointype = .semi → ∀ o slot slot', n.emit o (some slot) = n.emit o (some slot'))
    (h : inner.Perm inner') (o : Outer) : (n.join o inner).Perm (n.join o inner') := by
  have hmatching : (n.matching o inner).Perm (n.matching o inner') := h.filter _
  have hnil : n.matching o inner = [] ↔ n.matching o inner' = [] :=
    ⟨fun h => (h ▸ hmatching).symm.eq_nil, fun h => (h ▸ hmatching).eq_nil⟩
  unfold join
  cases htype : n.jointype with
  | inner => exact hmatching.flatMap_right _
  | left =>
    simp only [hnil]
    split_ifs
    · exact .refl _
    · exact hmatching.flatMap_right _
  | anti =>
    simp only [hnil]
    exact .refl _
  | semi =>
    cases hslots : n.matching o inner with
    | nil =>
      rw [hnil.mp hslots]
    | cons slot slots =>
      cases hslots' : n.matching o inner' with
      | nil => exact absurd (hnil.mpr hslots') (by simp [hslots])
      | cons slot' slots' => simp [hsemi htype o slot slot']

variable {T : TypeSystem} {V : Reading T} (n) (q : Select) (S : SqlSemantics) (ρ : Outer → Env)
  (sys : ℤ → Option Datum)

/-- The loop over the rows of the scan, which it rechecks and projects. -/
def NestLoop.overScan : NestLoop Outer Row Tuple where
  jointype := n.jointype
  joinqual o row := q.passes S (ρ o) row && n.joinqual o (q.output S (ρ o) row)
  emit o row := n.emit o (row.map (q.output S (ρ o)))

/-- The rows of the inner query for an outer row. -/
def Select.inner (o : Outer) (rows : List Row) : List (List (Option Datum)) :=
  (rows.filter (q.passes S (ρ o))).map (q.output S (ρ o))

theorem NestLoop.overScan_join (o : Outer) (rows : List Row) :
    (n.overScan q S ρ).join o rows = n.join o (q.inner S ρ o rows) := by
  have hmatching : n.matching o (q.inner S ρ o rows) =
      ((n.overScan q S ρ).matching o rows).map (q.output S (ρ o)) := by
    unfold matching Select.inner overScan
    rw [List.filter_map, List.filter_filter]
    exact congrArg (List.map _) (List.filter_congr fun row _ => Bool.and_comm _ _)
  unfold join
  rw [hmatching]
  cases htype : n.jointype with
  | inner => simp [overScan, htype, List.flatMap_map]
  | left => simp [overScan, htype, List.flatMap_map]
  | semi => simp [overScan, htype, List.flatMap_map, ← List.map_take]
  | anti => simp [overScan, htype]

/-- For every wrapper that answers each execution as `execute` documents, a nested loop returns
the join of the outer rows with what the inner query means on the whole table: what an
execution was stopped at, or evaluated its quals to, is not seen by the next one. -/
theorem nestLoop_joins {O : OrderSemantics} {defaultOpfamily : Oid → Oid} {outer : List Outer}
    {answers : ℕ → Answer Record} {convert : Record → Except PgError Row} {table : List Record}
    {answered : ℕ → List Record} (hcolumns : q.Columns)
    (hquals : ∀ e ∈ q.clauses, QualsSound V q.relation.desc S q.relid e)
    (hsemi : n.jointype = .semi → ∀ o slot slot', n.emit o (some slot) = n.emit o (some slot'))
    (hdelivers : ∀ k < outer.length,
      Delivers convert (answers k) ((answered k).map (q.row sys)))
    (hanswers : ∀ k o, outer[k]? = some o →
      q.Answers S O defaultOpfamily (ρ o) sys V [] table (answered k)) :
    ∃ out s, nestLoop answers convert (n.overScan q S ρ) outer multicornBeginForeignScan =
        .ok (out, s) ∧
      out.Perm (outer.flatMap fun o => n.join o (q.inner S ρ o (table.map (q.row sys)))) := by
  obtain ⟨s, hloop⟩ : ∃ s,
      nestLoop answers convert (n.overScan q S ρ) outer multicornBeginForeignScan =
        .ok ((outer.zipIdx 0).flatMap fun p =>
          (n.overScan q S ρ).join p.1 ((answered p.2).map (q.row sys)), s) := by
    refine nestLoop_delivered (fun k => (answered k).map (q.row sys)) (.fresh 0 rfl rfl)
      fun k hk => ?_
    rw [show Cursor.executions ⟨0, 0⟩ + k = k from Nat.zero_add k]
    exact hdelivers k hk
  refine ⟨_, s, hloop, ?_⟩
  have houter : outer.flatMap (fun o => n.join o (q.inner S ρ o (table.map (q.row sys)))) =
      (outer.zipIdx 0).flatMap
        fun p => n.join p.1 (q.inner S ρ p.1 (table.map (q.row sys))) := by
    conv_lhs => rw [← List.zipIdx_map_fst 0 outer]
    rw [List.flatMap_map]
  rw [houter]
  refine List.Perm.flatMap_left _ fun p hp => ?_
  rw [n.overScan_join]
  have hanswer := hanswers p.2 p.1 (List.mem_zipIdx_iff_getElem?.mp hp)
  exact NestLoop.join_perm hsemi
    (hanswer.map_perm hcolumns hquals fun answered row h => h.output) p.1

end Joined

/-! `SELECT b FROM t WHERE a = $0` on the inner side. -/

def varEqParam : Expr :=
  .opExpr 96 boolOid .invalid [.var ⟨1, 1, int4Oid, .invalid⟩, .param 0 int4Oid]

def paramSelect : Select where
  rt _ := twoColumns
  relid := 1
  targets := [.var ⟨1, 2, 25, .default⟩]
  clauses := [varEqParam]
  sort_pathkeys := []

def equalsParam : MulticornBaseQual :=
  makeQual 1 "=" (.param 0 int4Oid) false false (some 96) .invalid

theorem extract_varEqParam :
    extractRestrictions integerSemantics {1} varEqParam = [equalsParam] := by
  simp [extractRestrictions, varEqParam, extractClauseFromOpExpr, canonicalOpExpr, unnestClause,
    swapOperandsAsNeeded, comparisonOn, extractComparison, pushable, containVolatileFunctions,
    pullVarnos, pullVarClause, integerSemantics, equalsParam]

/-- Only integers are equal to anything. -/
theorem integer_of_integerEq {x y : Option Datum}
    (h : asBool (integerEq [x, y]) = some true) : ∃ n, y = some (.int4 n) := by
  unfold integerEq at h
  split at h
  · next heq =>
    simp only [List.cons.injEq, and_true] at heq
    exact ⟨_, heq.2⟩
  · cases h
  · cases h

theorem varEqParam_sound :
    QualsSound integerReading twoColumns.desc integerSemantics 1 varEqParam := by
  intro ρ ρ₀ hstart htrue b hb c hc c' hc'
  rw [extract_varEqParam, List.mem_singleton] at hb
  subst hb
  cases hc
  have hparam : eval integerSemantics ρ₀ (.param 0 int4Oid) = ρ.params 0 := congrFun hstart.1 0
  have htrue : asBool (integerEq [ρ.vars 1 1, ρ.params 0]) = some true := htrue
  obtain ⟨n, hn⟩ := integer_of_integerEq htrue
  obtain ⟨value, hvalue, rfl⟩ := Option.map_eq_some_iff.mp hc'
  rw [hparam, hn] at hvalue
  obtain rfl := Option.some.inj (hvalue.symm.trans (integerReading_handed n))
  rw [hn] at htrue
  exact htrue

theorem paramSelect_columns : paramSelect.Columns where
  confined := by
    simp only [paramSelect, varEqParam, OverRelation, List.cons_append, List.nil_append,
      List.forall_mem_cons, pullVarClause, pullVarClauseList, List.append_nil]
    obtain ⟨ha, hb⟩ := twoColumns_live
    exact ⟨⟨⟨trivial, .inr (.inr ⟨"b", hb⟩)⟩, by simp⟩,
      ⟨⟨trivial, .inr (.inr ⟨"a", ha⟩)⟩, by simp⟩, by simp⟩
  covers := twoColumns_covered (by decide) (by decide) _
  sorted _ hkey := absurd hkey List.not_mem_nil

/-- The outer row is the value of the parameter. -/
def withParam (o : ℤ) : Env := { emptyEnv with params := fun _ => some (.int4 o) }

/-- The rows with the number of the outer row, as `answered` for the outer rows 3, 4, 5. -/
def matchesOf : ℕ → List Record
  | 0 => [pair 3 ['y'], pair 3 ['z']]
  | 1 => [pair 4 ['x']]
  | _ => []

theorem paramSelect_constQuals (o : ℤ) :
    paramSelect.constQuals integerSemantics (withParam o) = [⟨equalsParam, some (.int4 o)⟩] := by
  have hextract : extractRestrictions integerSemantics {paramSelect.relid} varEqParam =
      [equalsParam] := extract_varEqParam
  have hquals : paramSelect.clauses.flatMap
      (extractRestrictions integerSemantics {paramSelect.relid}) = [equalsParam] := by
    rw [← hextract]
    exact List.flatMap_singleton ..
  rw [Select.constQuals, hquals]
  rfl

theorem paramSelect_handedQuals (o : ℤ) :
    paramSelect.handedQuals integerSemantics (withParam o) integerReading =
      [⟨equalsParam, some (.int4 o)⟩] := by
  have hhanded : MulticornConstQual.handed integerReading paramSelect.relation.desc
      ⟨equalsParam, some (.int4 o)⟩ = some ⟨equalsParam, some (.int4 o)⟩ :=
    Option.map_eq_some_iff.mpr ⟨_, integerReading_handed o, rfl⟩
  simp [Select.handedQuals, paramSelect_constQuals, hhanded]

/-- Rows with another number may be left out. -/
theorem paramSelect_drops {o a : ℤ} (h : a ≠ o) (b : List Char) :
    ¬ ∀ c ∈ paramSelect.handedQuals integerSemantics (withParam o) integerReading,
      c.HoldsOn integerSemantics
        (paramSelect.row (fun _ => none) (pair a b) c.base.varattno) := by
  rw [paramSelect_handedQuals]
  intro hall
  have hholds : asBool (some (.bool (decide (a = o)))) = some true :=
    hall _ (List.mem_singleton_self _)
  simp [h] at hholds

theorem matchesOf_answers : ∀ k o, [3, 4, 5][k]? = some o →
    paramSelect.Answers integerSemantics integerOrder (fun _ => 1976) (withParam o)
      (fun _ => none) integerReading [] pairs (matchesOf k) := by
  have hanswers : ∀ (o : ℤ) answer (dropped : List (ℤ × List Char)),
      pairs.Perm (answer ++ dropped.map fun p => pair p.1 p.2) → (∀ p ∈ dropped, p.1 ≠ o) →
      paramSelect.Answers integerSemantics integerOrder (fun _ => 1976) (withParam o)
        (fun _ => none) integerReading [] pairs answer := by
    intro o answer dropped hperm hdropped
    refine ⟨answer, ⟨_, hperm, ?_⟩, ?_, List.forall₂_same.mpr fun _ _ _ _ => rfl⟩
    · rw [List.forall_mem_map]
      exact fun p hp => paramSelect_drops (hdropped p hp) p.2
    · exact List.pairwise_of_forall_mem_list fun _ _ _ _ => rfl
  intro k o hk
  rcases k with _ | _ | _ | k <;> cases hk
  · exact hanswers 3 _ [(4, ['x'])] (List.perm_append_singleton _ _).symm (by decide)
  · exact hanswers 4 _ [(3, ['y']), (3, ['z'])] (.refl _) (by decide)
  · exact hanswers 5 [] [(4, ['x']), (3, ['y']), (3, ['z'])] (.refl _) (by decide)

/-- Each outer row with its partners; the third has none. -/
def leftJoin : NestLoop ℤ (List (Option Datum)) (ℤ × Option (List (Option Datum))) where
  jointype := .left
  joinqual _ _ := true
  emit o slot := [(o, slot)]

theorem leftJoin_joins : ∃ out s,
    nestLoop (fun k => .ok (some ((matchesOf k).map .row)))
        (fun record => .ok (paramSelect.row (fun _ => none) record))
        (leftJoin.overScan paramSelect integerSemantics withParam) [3, 4, 5]
        multicornBeginForeignScan = .ok (out, s) ∧
      out.Perm ([3, 4, 5].flatMap fun o => leftJoin.join o (paramSelect.inner integerSemantics
        withParam o (pairs.map (paramSelect.row fun _ => none)))) :=
  nestLoop_joins leftJoin paramSelect integerSemantics withParam (fun _ => none)
    paramSelect_columns (by
      intro e he
      obtain rfl := List.mem_singleton.mp he
      exact varEqParam_sound) (by
      intro htype
      cases htype)
    (fun k _ => by
      show List.Forall₂ _ _ _
      rw [List.forall₂_map_left_iff, List.forall₂_map_right_iff]
      exact List.forall₂_same.mpr fun record _ => ⟨record, rfl, rfl⟩)
    matchesOf_answers

end Multicorn.Executor
