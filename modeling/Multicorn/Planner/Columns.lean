import Mathlib.Data.Finset.Basic
import Multicorn.Planner.Expr

/-! The column set of a scan: the Vars its expressions read, turned into names. -/
namespace Multicorn.Planner
open Multicorn.Catalog (Oid TupleDesc Attribute)

/-- The rows of `pg_attribute` with a negative number, which foreign tables have too. -/
def systemAttribute : ℤ → Option String
  | -1 => some "ctid"
  | -2 => some "xmin"
  | -3 => some "cmin"
  | -4 => some "xmax"
  | -5 => some "cmax"
  | -6 => some "tableoid"
  | _ => none

/-- A foreign table as the planner opens it. `pg_attribute` holds one row a name, and no
column is named like a system column. -/
structure Relation where
  desc : TupleDesc
  trigInsertAfterRow : Bool
  nodup : (desc.map (·.attname)).Nodup
  notSystem : ∀ a ∈ desc, ∀ n, systemAttribute n ≠ some a.attname

/-- `get_attname` with `missing_ok`: it also finds the rows of system and dropped columns. -/
def Relation.getAttname (r : Relation) (attnum : ℤ) : Option String :=
  if attnum < 0 then systemAttribute attnum
  else if attnum = 0 then none
  else (r.desc[attnum.toNat - 1]?).map (·.attname)

def listUnion (l₁ l₂ : List Var) : List Var :=
  l₂.foldl (fun l v => if v ∈ l then l else l ++ [v]) l₁

def extractColumns (reltargetlist restrictinfolist : List Expr) : List Var :=
  restrictinfolist.foldl (fun columns e => listUnion columns (pullVarClause e))
    (reltargetlist.foldl (fun columns e => listUnion columns (pullVarClause e)) [])

/-- `rt` is the range table, by `varno`. -/
def colnameFromVar (rt : ℕ → Relation) (v : Var) : Option String :=
  (rt v.varno).getAttname v.varattno

/-- The target list that `multicornGetForeignRelSize` leaves in the plan state. -/
def relSizeTargetList (rt : ℕ → Relation) (relid : ℕ)
    (reltargetlist restrictinfolist : List Expr) : List String :=
  if (rt relid).trigInsertAfterRow then
    ((rt relid).desc.filter (fun att => !att.attisdropped)).map (·.attname)
  else
    (extractColumns reltargetlist restrictinfolist).filterMap (colnameFromVar rt)

def valuesToPySet (targetlist : List String) : Finset String := targetlist.toFinset

def Relation.LiveColumn (r : Relation) (attnum : ℤ) (name : String) : Prop :=
  ∃ att, 1 ≤ attnum ∧ r.desc[attnum.toNat - 1]? = some att ∧ att.attisdropped = false ∧
    att.attname = name

/-- The expressions of a scan refer to its relation: to a live column, a system column or
the whole row. -/
def OverRelation (rt : ℕ → Relation) (relid : ℕ) (exprs : List Expr) : Prop :=
  ∀ e ∈ exprs, ∀ v ∈ pullVarClause e, v.varno = relid ∧
    (v.varattno = 0 ∨ (v.varattno < 0 ∧ (systemAttribute v.varattno).isSome) ∨
      ∃ name, (rt relid).LiveColumn v.varattno name)

/-- Some expression reads the column, by itself or in a whole row. -/
def ReadsColumn (exprs : List Expr) (attnum : ℤ) : Prop :=
  ∃ e ∈ exprs, ∃ v ∈ pullVarClause e, v.varattno = attnum ∨ v.varattno = 0

/-- Every live column that is read is requested. -/
def CoversReads (r : Relation) (columns : Finset String) (exprs : List Expr) : Prop :=
  ∀ attnum name, r.LiveColumn attnum name → ReadsColumn exprs attnum → name ∈ columns

def OnlyLiveColumns (r : Relation) (columns : Finset String) : Prop :=
  ∀ name ∈ columns, ∃ attnum, r.LiveColumn attnum name

/-- The columns a scan asks for, as `execute` passes them. -/
def scanColumns (rt : ℕ → Relation) (relid : ℕ) (reltargetlist restrictinfolist : List Expr) :
    Finset String :=
  valuesToPySet (relSizeTargetList rt relid reltargetlist restrictinfolist)

@[simp] theorem mem_listUnion (l₁ l₂ : List Var) (v : Var) :
    v ∈ listUnion l₁ l₂ ↔ v ∈ l₁ ∨ v ∈ l₂ := by
  unfold listUnion
  induction l₂ generalizing l₁ with
  | nil => simp
  | cons w l₂ ih =>
    rw [List.foldl_cons, ih]
    split_ifs with hw
    · constructor
      · exact Or.imp_right (List.mem_cons_of_mem w)
      · rintro (h | h)
        · exact .inl h
        · rcases List.mem_cons.mp h with rfl | h
          · exact .inl hw
          · exact .inr h
    · rw [List.mem_append, List.mem_singleton, List.mem_cons, or_assoc]

private theorem mem_foldl_listUnion (es : List Expr) (l : List Var) (v : Var) :
    v ∈ es.foldl (fun columns e => listUnion columns (pullVarClause e)) l ↔
      v ∈ l ∨ ∃ e ∈ es, v ∈ pullVarClause e := by
  induction es generalizing l with
  | nil => simp
  | cons e es ih =>
    rw [List.foldl_cons, ih, mem_listUnion]
    simp only [List.mem_cons, exists_eq_or_imp, or_assoc]

theorem mem_extractColumns (ts rs : List Expr) (v : Var) :
    v ∈ extractColumns ts rs ↔ ∃ e ∈ ts ++ rs, v ∈ pullVarClause e := by
  unfold extractColumns
  rw [mem_foldl_listUnion, mem_foldl_listUnion]
  simp only [List.not_mem_nil, false_or, List.mem_append, or_and_right, exists_or]

private theorem Relation.getAttname_of_pos (r : Relation) {attnum : ℤ} (h : 1 ≤ attnum) :
    r.getAttname attnum = (r.desc[attnum.toNat - 1]?).map (·.attname) := by
  unfold Relation.getAttname
  rw [if_neg (by omega), if_neg (by omega)]

/-- Two positions with one name are one position. -/
private theorem Relation.LiveColumn.attnum_eq {r : Relation} {m n : ℤ} {name : String}
    (hm : r.LiveColumn m name) (hn : r.getAttname n = some name) (hpos : 1 ≤ n) : n = m := by
  obtain ⟨a, hm1, ha, -, han⟩ := hm
  rw [r.getAttname_of_pos hpos] at hn
  have hi : (r.desc.map (·.attname))[m.toNat - 1]? = some name := by
    rw [List.getElem?_map, ha]
    simp [han]
  have hj : (r.desc.map (·.attname))[n.toNat - 1]? = some name := by
    rw [List.getElem?_map]
    exact hn
  have hlt := (List.getElem?_eq_some_iff.mp hi).1
  have := (List.getElem?_inj hlt r.nodup).mp (hi.trans hj.symm)
  omega

private theorem Relation.LiveColumn.getAttname {r : Relation} {n : ℤ} {name : String}
    (h : r.LiveColumn n name) : r.getAttname n = some name := by
  obtain ⟨a, h1, ha, -, rfl⟩ := h
  rw [r.getAttname_of_pos h1, ha]
  rfl

private theorem Relation.LiveColumn.ne_system {r : Relation} {n k : ℤ} {name : String}
    (h : r.LiveColumn n name) : systemAttribute k ≠ some name := by
  obtain ⟨a, -, ha, -, rfl⟩ := h
  exact r.notSystem a (List.mem_of_getElem? ha) k

private theorem mem_scanColumns_trigger {rt : ℕ → Relation} {relid : ℕ} {ts rs : List Expr}
    (ht : (rt relid).trigInsertAfterRow = true) (name : String) :
    name ∈ scanColumns rt relid ts rs ↔ ∃ attnum, (rt relid).LiveColumn attnum name := by
  simp only [scanColumns, valuesToPySet, relSizeTargetList, ht, if_true, List.mem_toFinset,
    List.mem_map, List.mem_filter, Bool.not_eq_true']
  constructor
  · rintro ⟨a, ⟨ha, hd⟩, rfl⟩
    obtain ⟨i, hi, rfl⟩ := List.mem_iff_getElem.mp ha
    exact ⟨i + 1, _, by omega, by simp [hi], hd, rfl⟩
  · rintro ⟨n, a, -, ha, hd, rfl⟩
    exact ⟨a, ⟨List.mem_of_getElem? ha, hd⟩, rfl⟩

private theorem mem_scanColumns {rt : ℕ → Relation} {relid : ℕ} {ts rs : List Expr}
    (ht : (rt relid).trigInsertAfterRow = false) (h : OverRelation rt relid (ts ++ rs))
    (name : String) : name ∈ scanColumns rt relid ts rs ↔
      ∃ e ∈ ts ++ rs, ∃ v ∈ pullVarClause e,
        (rt relid).getAttname v.varattno = some name := by
  simp only [scanColumns, valuesToPySet, relSizeTargetList, ht, Bool.false_eq_true, if_false,
    List.mem_toFinset, List.mem_filterMap, mem_extractColumns, colnameFromVar]
  constructor
  · rintro ⟨v, ⟨e, he, hv⟩, hn⟩
    exact ⟨e, he, v, hv, (h e he v hv).1 ▸ hn⟩
  · rintro ⟨e, he, v, hv, hn⟩
    exact ⟨v, ⟨e, he, hv⟩, (h e he v hv).1 ▸ hn⟩

private theorem onlyLiveColumns_iff {rt : ℕ → Relation} {relid : ℕ} {ts rs : List Expr}
    (ht : (rt relid).trigInsertAfterRow = false) (h : OverRelation rt relid (ts ++ rs)) :
    OnlyLiveColumns (rt relid) (scanColumns rt relid ts rs) ↔
      ∀ e ∈ ts ++ rs, ∀ v ∈ pullVarClause e, 0 ≤ v.varattno := by
  simp only [OnlyLiveColumns, mem_scanColumns ht h]
  constructor
  · intro hl e he v hv
    by_contra hneg
    rcases (h e he v hv).2 with h0 | ⟨-, hs⟩ | ⟨name, a, h1, -⟩
    · omega
    · obtain ⟨name, hname⟩ := Option.isSome_iff_exists.mp hs
      obtain ⟨n, hn⟩ := hl name ⟨e, he, v, hv, by
        rw [Relation.getAttname, if_pos (by omega), hname]⟩
      exact hn.ne_system hname
    · omega
  · rintro hpos name ⟨e, he, v, hv, hn⟩
    rcases (h e he v hv).2 with h0 | ⟨hneg, -⟩ | ⟨name', hl⟩
    · rw [h0] at hn
      simp [Relation.getAttname] at hn
    · exact absurd (hpos e he v hv) (by omega)
    · rw [hl.getAttname, Option.some.injEq] at hn
      exact ⟨_, hn ▸ hl⟩

private theorem coversReads_iff {rt : ℕ → Relation} {relid : ℕ} {ts rs : List Expr}
    (ht : (rt relid).trigInsertAfterRow = false) (h : OverRelation rt relid (ts ++ rs)) :
    CoversReads (rt relid) (scanColumns rt relid ts rs) (ts ++ rs) ↔
      ((∃ e ∈ ts ++ rs, ∃ v ∈ pullVarClause e, v.varattno = 0) →
        ∀ attnum name, (rt relid).LiveColumn attnum name →
          ∃ e ∈ ts ++ rs, ∃ v ∈ pullVarClause e, v.varattno = attnum) := by
  simp only [CoversReads, mem_scanColumns ht h]
  constructor
  · rintro hc ⟨e₀, he₀, v₀, hv₀, h0⟩ n name hl
    obtain ⟨e, he, v, hv, hn⟩ := hc n name hl ⟨e₀, he₀, v₀, hv₀, .inr h0⟩
    refine ⟨e, he, v, hv, ?_⟩
    by_cases hneg : v.varattno < 0
    · rw [Relation.getAttname, if_pos hneg] at hn
      exact absurd hn hl.ne_system
    · by_cases hz : v.varattno = 0
      · simp [Relation.getAttname, hz] at hn
      · exact hl.attnum_eq hn (by omega)
  · rintro hw n name hl ⟨e, he, v, hv, hn | h0⟩
    · exact ⟨e, he, v, hv, hn ▸ hl.getAttname⟩
    · obtain ⟨e', he', v', hv', hn'⟩ := hw ⟨e, he, v, hv, h0⟩ n name hl
      exact ⟨e', he', v', hv', hn' ▸ hl.getAttname⟩

/-- The requested columns are the live ones that are read exactly when a trigger asks for
them all, or no system column is read and a whole-row reference stands next to a reference
to each live column. -/
theorem scanColumns_exact_iff (rt : ℕ → Relation) (relid : ℕ) (ts rs : List Expr)
    (h : OverRelation rt relid (ts ++ rs)) :
    (CoversReads (rt relid) (scanColumns rt relid ts rs) (ts ++ rs) ∧
        OnlyLiveColumns (rt relid) (scanColumns rt relid ts rs)) ↔
      (rt relid).trigInsertAfterRow = true ∨
        (∀ e ∈ ts ++ rs, ∀ v ∈ pullVarClause e, 0 ≤ v.varattno) ∧
        ((∃ e ∈ ts ++ rs, ∃ v ∈ pullVarClause e, v.varattno = 0) →
          ∀ attnum name, (rt relid).LiveColumn attnum name →
            ∃ e ∈ ts ++ rs, ∃ v ∈ pullVarClause e, v.varattno = attnum) := by
  cases ht : (rt relid).trigInsertAfterRow with
  | true =>
    refine iff_of_true ⟨fun n name hl _ => ?_, fun name hn => ?_⟩ (.inl rfl)
    · exact (mem_scanColumns_trigger ht name).mpr ⟨n, hl⟩
    · exact (mem_scanColumns_trigger ht name).mp hn
  | false =>
    rw [coversReads_iff ht h, onlyLiveColumns_iff ht h]
    simp only [Bool.false_eq_true, false_or, and_comm]

/-- The row of a scan: a whole-row Var is the record of its columns, and system columns do
not come from the wrapper. -/
def Relation.rowVars (r : Relation) (sys : ℤ → Option Datum)
    (row : String → Option Datum) (attnum : ℤ) : Option Datum :=
  if attnum < 0 then sys attnum
  else if attnum = 0 then
    some (.record (r.desc.map (fun a => if a.attisdropped then none else row a.attname)))
  else match r.desc[attnum.toNat - 1]? with
    | some a => if a.attisdropped then none else row a.attname
    | none => none

/-- The row of a wrapper that returns only the requested columns. -/
def restrictRow (columns : Finset String) (row : String → Option Datum) :
    String → Option Datum :=
  fun name => if name ∈ columns then row name else none

private theorem rowVars_restrictRow {r : Relation} {columns : Finset String}
    {exprs : List Expr} (hc : CoversReads r columns exprs) (sys : ℤ → Option Datum)
    (row : String → Option Datum) {attnum : ℤ}
    (hread : ∃ e ∈ exprs, ∃ v ∈ pullVarClause e, v.varattno = attnum) :
    r.rowVars sys (restrictRow columns row) attnum = r.rowVars sys row attnum := by
  obtain ⟨e, he, v, hv, hn⟩ := hread
  have hcol : ∀ n a, 1 ≤ n → r.desc[n.toNat - 1]? = some a → a.attisdropped = false →
      (attnum = n ∨ attnum = 0) → restrictRow columns row a.attname = row a.attname := by
    intro n a h1 ha hd hor
    have hm : a.attname ∈ columns :=
      hc n a.attname ⟨a, h1, ha, hd, rfl⟩ ⟨e, he, v, hv, hn ▸ hor⟩
    simp [restrictRow, hm]
  unfold Relation.rowVars
  split_ifs with hneg hz
  · rfl
  · congr 2
    refine List.map_congr_left fun a ha => ?_
    obtain ⟨i, hi, rfl⟩ := List.mem_iff_getElem.mp ha
    cases hd : r.desc[i].attisdropped with
    | true => simp
    | false => simpa using hcol (i + 1) _ (by omega) (by simp [hi]) hd (.inr hz)
  · split
    · next a ha =>
      cases hd : a.attisdropped with
      | true => simp
      | false => simpa using hcol attnum a (by omega) ha hd (.inl rfl)
    · rfl

def Env.withRow (ρ : Env) (relid : ℕ) (row : ℤ → Option Datum) : Env :=
  { ρ with vars := fun varno => if varno = relid then row else ρ.vars varno }

/-- A wrapper that returns only the requested columns gives every expression of the scan
the value it has on the full row, once the request covers what is read. -/
theorem eval_restrictRow (S : SqlSemantics) {rt : ℕ → Relation} {relid : ℕ}
    {exprs : List Expr} (h : OverRelation rt relid exprs) {columns : Finset String}
    (hc : CoversReads (rt relid) columns exprs) (sys : ℤ → Option Datum)
    (row : String → Option Datum) (ρ : Env) {e : Expr} (he : e ∈ exprs) :
    eval S (ρ.withRow relid ((rt relid).rowVars sys (restrictRow columns row))) e =
      eval S (ρ.withRow relid ((rt relid).rowVars sys row)) e := by
  apply eval_congr S
  · rfl
  · intro v hv
    simp only [Env.withRow, (h e he v hv).1, if_true]
    exact rowVars_restrictRow hc sys row ⟨e, he, v, hv, rfl⟩
  · exact .inl rfl

/-- A foreign table `(a, b)` without triggers. -/
def twoColumns : Relation where
  desc := [⟨"a", 23, -1, false, []⟩, ⟨"b", 25, -1, false, []⟩]
  trigInsertAfterRow := false
  nodup := by decide
  notSystem := by
    intro a ha n
    simp only [List.mem_cons, List.not_mem_nil, or_false] at ha
    unfold systemAttribute
    rcases ha with rfl | rfl <;> split <;> simp

theorem twoColumns_live : twoColumns.LiveColumn 1 "a" ∧ twoColumns.LiveColumn 2 "b" :=
  ⟨⟨⟨"a", 23, -1, false, []⟩, by decide, rfl, rfl, rfl⟩,
    ⟨⟨"b", 25, -1, false, []⟩, by decide, rfl, rfl, rfl⟩⟩

theorem twoColumns_covered {columns : Finset String} (ha : "a" ∈ columns) (hb : "b" ∈ columns)
    (exprs : List Expr) : CoversReads twoColumns columns exprs := by
  rintro attnum name ⟨att, h1, hatt, hlive, hname⟩ -
  have hmem : att ∈ twoColumns.desc := List.mem_of_getElem? hatt
  simp only [twoColumns, List.mem_cons, List.not_mem_nil, or_false] at hmem
  rcases hmem with rfl | rfl <;> subst hname
  · exact ha
  · exact hb

/-- `SELECT t FROM t` requests no column. -/
theorem wholeRow_requests_nothing :
    OverRelation (fun _ => twoColumns) 1 [.var ⟨1, 0, 2249, .invalid⟩] ∧
      ¬ (CoversReads twoColumns
            (scanColumns (fun _ => twoColumns) 1 [.var ⟨1, 0, 2249, .invalid⟩] [])
            [.var ⟨1, 0, 2249, .invalid⟩] ∧
          OnlyLiveColumns twoColumns
            (scanColumns (fun _ => twoColumns) 1 [.var ⟨1, 0, 2249, .invalid⟩] [])) := by
  refine ⟨by simp [OverRelation, pullVarClause], fun h => ?_⟩
  have ha := h.1 1 "a" twoColumns_live.1
    ⟨_, List.mem_singleton_self _, _, List.mem_singleton_self _, .inr rfl⟩
  exact absurd ha (by decide)

/-- `SELECT t, upper(b) = text(a) FROM t` reads the row and each of its columns. -/
def rowAndColumns : List Expr :=
  [.var ⟨1, 0, 2249, .invalid⟩, .opExpr 98 16 .default
    [.funcExpr 871 25 [.var ⟨1, 2, 25, .default⟩], .funcExpr 112 25 [.var ⟨1, 1, 23, .invalid⟩]]]

theorem rowAndColumns_vars {P : Var → Prop} : (∀ e ∈ rowAndColumns, ∀ v ∈ pullVarClause e, P v) ↔
    P ⟨1, 0, 2249, .invalid⟩ ∧ P ⟨1, 2, 25, .default⟩ ∧ P ⟨1, 1, 23, .invalid⟩ := by
  simp [rowAndColumns, pullVarClause, pullVarClauseList]

theorem scanColumns_exact_rowAndColumns :
    CoversReads twoColumns (scanColumns (fun _ => twoColumns) 1 rowAndColumns []) rowAndColumns ∧
      OnlyLiveColumns twoColumns (scanColumns (fun _ => twoColumns) 1 rowAndColumns []) := by
  have hover : OverRelation (fun _ => twoColumns) 1 (rowAndColumns ++ []) :=
    rowAndColumns_vars.mpr ⟨⟨rfl, .inl rfl⟩, ⟨rfl, .inr (.inr ⟨"b", twoColumns_live.2⟩)⟩,
      rfl, .inr (.inr ⟨"a", twoColumns_live.1⟩)⟩
  apply (scanColumns_exact_iff (fun _ => twoColumns) 1 rowAndColumns [] hover).mpr
  right
  refine ⟨rowAndColumns_vars.mpr (by decide), fun _ attnum name hlive => ?_⟩
  obtain ⟨att, hpos, hatt, -, -⟩ := hlive
  have hshort : attnum.toNat - 1 < 2 := (List.getElem?_eq_some_iff.mp hatt).1
  obtain rfl | rfl : attnum = 1 ∨ attnum = 2 := by omega
  · exact ⟨_, List.mem_cons_of_mem _ List.mem_cons_self, ⟨1, 1, 23, .invalid⟩, by decide, rfl⟩
  · exact ⟨_, List.mem_cons_of_mem _ List.mem_cons_self, ⟨1, 2, 25, .default⟩, by decide, rfl⟩

end Multicorn.Planner
