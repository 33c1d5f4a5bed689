import Multicorn.Planner.SortKeys

/-! What a pushed sort promises to the planner, against what the wrapper is asked for. -/
namespace Multicorn.Planner
open Multicorn.Catalog (Oid)
open Multicorn.KeyOrder

/-- The comparison of an operator family under a collation. A type without collation
compares the same under the default one. -/
structure OrderSemantics where
  cmp : Oid → Collation → Datum → Datum → Ordering
  trans : ∀ fam coll, Std.TransCmp (cmp fam coll)
  invalid_eq : ∀ fam, cmp fam .invalid = cmp fam .default

def Collation.norm : Collation → Collation
  | .invalid => .default
  | c => c

theorem OrderSemantics.cmp_norm (O : OrderSemantics) (fam : Oid) (c : Collation) :
    O.cmp fam c.norm = O.cmp fam c := by
  cases c
  · exact (O.invalid_eq fam).symm
  · rfl
  · rfl

abbrev Row := ℤ → Option Datum

def Relation.atttypid (r : Relation) (attnum : ℤ) : Oid :=
  ((r.desc[attnum.toNat - 1]?).map (·.atttypid)).getD 0

/-- The collation a wrapper sorts by: the named one, or the default of the database. -/
def SortKey.collation (k : SortKey) : Collation :=
  match k.collate with
  | some collname => .named collname
  | none => .default

/-- The order a `SortKey` documents, on values in the default order of their type. -/
def SortKey.order (O : OrderSemantics) (defaultOpfamily : Oid → Oid) (r : Relation)
    (k : SortKey) : Row → Row → Ordering :=
  keyCompare k.nulls_first k.is_reversed
    (O.cmp (defaultOpfamily (r.atttypid k.attnum)) k.collation) (fun row => row k.attnum)

/-- The column a pathkey sorts by. -/
def PathKey.column (relids : Finset ℕ) (key : PathKey) : Option Var :=
  match multicornGetEmExpr key.pk_eclass relids with
  | some (.var v) => some v
  | some (.relabelType (.var v) _ _) => some v
  | _ => none

def PathKey.attnum (relids : Finset ℕ) (key : PathKey) : ℤ :=
  ((key.column relids).map (·.varattno)).getD 0

/-- The order a pathkey promises. -/
def PathKey.order (O : OrderSemantics) (relids : Finset ℕ) (key : PathKey) :
    Row → Row → Ordering :=
  keyCompare key.pk_nulls_first (decide (key.pk_strategy = .greater))
    (O.cmp key.pk_opfamily key.pk_eclass.ec_collation) (fun row => row (key.attnum relids))

/-- The key sorts by a live column of the relation. -/
def PathKey.OnColumn (r : Relation) (relids : Finset ℕ) (key : PathKey) : Prop :=
  ∃ v att, key.column relids = some v ∧ 1 ≤ v.varattno ∧
    r.desc[v.varattno.toNat - 1]? = some att ∧ att.attisdropped = false ∧
    att.atttypid = v.vartype

/-- The three promises of a path with sort pushdown: its pathkeys, the sort keys the scan is
executed with, and that rows sorted by the latter are sorted by the former. -/
structure SortFaithful (defaultOpfamily : Oid → Oid) (r : Relation) (relids : Finset ℕ)
    (keys : List PathKey) (accepted : List SortKey) (path : ForeignPath) : Prop where
  pathkeys : path.pathkeys = (keys.take accepted.length).map some
  sortkeys : ∀ planstate, (scanKwargs planstate path).bind (·.sortkeys) = some accepted
  ordered : ∀ O rows, SortedBy (accepted.map (SortKey.order O defaultOpfamily r)) rows →
    SortedBy ((path.pathkeys.filterMap id).map (PathKey.order O relids)) rows

/-- For a wrapper that accepts the first `m` keys offered. -/
def SortPushdownFaithful (defaultOpfamily : Oid → Oid) (r : Relation) (relids : Finset ℕ)
    (keys : List PathKey) (m : ℕ) : Prop :=
  ∃ deparsed, deparseSortgroup r relids keys = .ok deparsed ∧
    ∀ path, sortedForeignPath m deparsed = some path →
      SortFaithful defaultOpfamily r relids keys ((deparsed.map getSortKey).take m) path

/-- A column under a binary-compatible type that has no collation, whose name is asked for
all the same. -/
def PathKey.NullCollation (relids : Finset ℕ) (key : PathKey) : Prop :=
  ∃ v type, multicornGetEmExpr key.pk_eclass relids = some (.relabelType (.var v) type .invalid)

/-- A `SortKey` says all there is to the key: no other query key has its column, its
operator family is the default one of the type, and a column that appears bare has no
collation of its own. -/
structure PathKey.Carried (defaultOpfamily : Oid → Oid) (relids : Finset ℕ)
    (keys : List PathKey) (key : PathKey) : Prop where
  unique : keys.countP (fun k => k.attnum relids = key.attnum relids) = 1
  opfamily : ∀ v, key.column relids = some v → key.pk_opfamily = defaultOpfamily v.vartype
  collation : ∀ v, multicornGetEmExpr key.pk_eclass relids = some (.var v) →
    ∀ collname, v.varcollid ≠ .named collname

section Deparse

variable (r : Relation) (relids : Finset ℕ)

private def keyCollate (key : PathKey) : Option String :=
  match multicornGetEmExpr key.pk_eclass relids with
  | some (.relabelType _ _ (.named collname)) => some collname
  | _ => none

private def keyGroup (key : PathKey) : MulticornDeparsedSortGroup where
  attname := (r.getAttname (key.attnum relids)).getD ""
  attnum := key.attnum relids
  reversed := decide (key.pk_strategy = .greater)
  nulls_first := key.pk_nulls_first
  collate := keyCollate relids key
  key := some key

private theorem getAttname_of_desc {attnum : ℤ} {att : Catalog.Attribute} (h : 1 ≤ attnum)
    (ha : r.desc[attnum.toNat - 1]? = some att) : r.getAttname attnum = some att.attname := by
  unfold Relation.getAttname
  rw [if_neg (by omega), if_neg (by omega), ha]
  rfl

private theorem deparsePathKey_of_column {key : PathKey} (h : key.OnColumn r relids) :
    (¬ key.NullCollation relids ∧
      deparsePathKey r relids key = .ok (some (keyGroup r relids key))) ∨
    (key.NullCollation relids ∧ deparsePathKey r relids key = .error .nullPointer) := by
  obtain ⟨v, att, hv, h1, ha, -, -⟩ := h
  have hname := getAttname_of_desc r h1 ha
  unfold PathKey.column at hv
  split at hv
  · next w he =>
    cases hv
    refine .inl ⟨by simp [PathKey.NullCollation, he], ?_⟩
    simp [deparsePathKey, he, hname, strdup, keyGroup, PathKey.attnum, PathKey.column,
      keyCollate]
  · next w type collid he =>
    cases hv
    cases collid with
    | invalid =>
      refine .inr ⟨⟨_, _, he⟩, ?_⟩
      simp [deparsePathKey, he, strdup, getCollationName, bind, Except.bind]
    | default =>
      refine .inl ⟨by simp [PathKey.NullCollation, he], ?_⟩
      simp [deparsePathKey, he, hname, strdup, keyGroup, PathKey.attnum, PathKey.column,
        keyCollate]
    | named collname =>
      refine .inl ⟨by simp [PathKey.NullCollation, he], ?_⟩
      simp [deparsePathKey, he, hname, strdup, keyGroup, PathKey.attnum, PathKey.column,
        keyCollate, getCollationName, bind, Except.bind, pure, Except.pure]
  · cases hv

private theorem deparseSortgroup_go {keys : List PathKey}
    (h : ∀ key ∈ keys, key.OnColumn r relids) (result deparsed) :
    deparseSortgroup.go r relids result keys = .ok deparsed ↔
      (∀ key ∈ keys, ¬ key.NullCollation relids) ∧
        deparsed = result ++ keys.map (keyGroup r relids) := by
  induction keys generalizing result with
  | nil => simp [deparseSortgroup.go, eq_comm]
  | cons key keys ih =>
    rw [List.forall_mem_cons] at h
    unfold deparseSortgroup.go
    rcases deparsePathKey_of_column r relids h.1 with ⟨hn, hd⟩ | ⟨hn, hd⟩
    · simp [hd, bind, Except.bind, ih h.2, hn]
    · simp [hd, bind, Except.bind, hn]

private theorem deparseSortgroup_eq_ok {keys : List PathKey}
    (h : ∀ key ∈ keys, key.OnColumn r relids) (deparsed) :
    deparseSortgroup r relids keys = .ok deparsed ↔
      (∀ key ∈ keys, ¬ key.NullCollation relids) ∧ deparsed = keys.map (keyGroup r relids) := by
  simpa [deparseSortgroup] using deparseSortgroup_go r relids h [] deparsed

end Deparse

section Matching

variable (r : Relation) (relids : Finset ℕ)

private def sameColumn (keys : List PathKey) (key : PathKey) : List PathKey :=
  keys.filter (fun k => k.attnum relids = key.attnum relids)

private theorem computeDeparsedSortGroup_map (m : ℕ) (keys : List PathKey) :
    computeDeparsedSortGroup m (keys.map (keyGroup r relids)) =
      (((keys.take m).flatMap (sameColumn relids keys)).map some,
        ((keys.take m).flatMap (sameColumn relids keys)).map (keyGroup r relids)) := by
  have hwanted : ((canSort m (keys.map (keyGroup r relids))).flatMap fun sortable_md =>
      (keys.map (keyGroup r relids)).filter fun wanted_md =>
        sortable_md.attnum = wanted_md.attnum) =
      ((keys.take m).flatMap (sameColumn relids keys)).map (keyGroup r relids) := by
    simp only [canSort, List.map_map, ← List.map_take, List.flatMap_map,
      List.map_flatMap]
    refine List.flatMap_congr fun key _ => ?_
    simp only [sameColumn, List.filter_map]
    congr 1
    refine List.filter_congr fun k _ => ?_
    simp [getDeparsedSortGroup, getSortKey, keyGroup, eq_comm]
  unfold computeDeparsedSortGroup
  simp only [hwanted, List.map_map]
  rfl

private theorem length_flatMap_ge {α : Type} (f : α → List α) (l : List α)
    (h : ∀ a ∈ l, 1 ≤ (f a).length) : l.length ≤ (l.flatMap f).length := by
  induction l with
  | nil => simp
  | cons a l ih =>
    rw [List.forall_mem_cons] at h
    simp only [List.flatMap_cons, List.length_append, List.length_cons]
    have := ih h.2
    omega

/-- Replacing each element by a nonempty list keeps the length only if each list is a
singleton. -/
private theorem length_eq_one_of_flatMap {α : Type} (f : α → List α) {l : List α}
    (h : ∀ a ∈ l, 1 ≤ (f a).length) (hl : (l.flatMap f).length = l.length) :
    ∀ a ∈ l, (f a).length = 1 := by
  induction l with
  | nil => simp
  | cons a l ih =>
    rw [List.forall_mem_cons] at h
    simp only [List.flatMap_cons, List.length_append, List.length_cons] at hl
    have hge := length_flatMap_ge f l h.2
    rw [List.forall_mem_cons]
    exact ⟨by omega, ih h.2 (by omega)⟩

private theorem flatMap_sameColumn_eq_take {keys : List PathKey} {m : ℕ} :
    (keys.take m).flatMap (sameColumn relids keys) = keys.take m ↔
      ∀ key ∈ keys.take m, keys.countP (fun k => k.attnum relids = key.attnum relids) = 1 := by
  have hself : ∀ key ∈ keys.take m, key ∈ sameColumn relids keys key := fun key hk =>
    List.mem_filter.mpr ⟨List.mem_of_mem_take hk, by simp⟩
  constructor
  · intro h key hk
    rw [List.countP_eq_length_filter]
    exact length_eq_one_of_flatMap _ (fun k hk => List.length_pos_of_mem (hself k hk))
      (congrArg List.length h) key hk
  · intro h
    have hone : ∀ key ∈ keys.take m, sameColumn relids keys key = [key] := by
      intro key hk
      have hlen : (sameColumn relids keys key).length = 1 := by
        rw [sameColumn, ← List.countP_eq_length_filter]
        exact h key hk
      obtain ⟨k, hk'⟩ := List.length_eq_one_iff.mp hlen
      have hmem := hself key hk
      rw [hk', List.mem_singleton] at hmem
      rw [hk', hmem]
    calc (keys.take m).flatMap (sameColumn relids keys)
        = (keys.take m).flatMap (fun key => [key]) := List.flatMap_congr hone
      _ = keys.take m := by simp

end Matching

section Order

variable {defaultOpfamily : Oid → Oid} {r : Relation} {relids : Finset ℕ} {key : PathKey}

private def offeredKey (r : Relation) (relids : Finset ℕ) (key : PathKey) : SortKey :=
  getSortKey (keyGroup r relids key)

private theorem PathKey.OnColumn.column_eq (h : key.OnColumn r relids) :
    ∃ v, key.column relids = some v ∧ key.attnum relids = v.varattno ∧
      r.atttypid (key.attnum relids) = v.vartype := by
  obtain ⟨v, att, hv, -, ha, -, ht⟩ := h
  refine ⟨v, hv, by simp [PathKey.attnum, hv], ?_⟩
  simp [PathKey.attnum, hv, Relation.atttypid, ha, ht]

private theorem ec_collation_eq {e : Expr} {c : Collation}
    (he : multicornGetEmExpr key.pk_eclass relids = some e) (hc : exprCollation e = some c) :
    key.pk_eclass.ec_collation = c := by
  unfold multicornGetEmExpr at he
  rw [Option.map_eq_some_iff] at he
  obtain ⟨em, hem, rfl⟩ := he
  exact (key.pk_eclass.canonical em (List.mem_of_find?_eq_some hem) c hc).symm

/-- The collation of the key survives in the `SortKey` unless a bare column has its own. -/
private theorem offeredKey_collation (h : key.OnColumn r relids)
    (hn : ¬ key.NullCollation relids) :
    (offeredKey r relids key).collation.norm = key.pk_eclass.ec_collation.norm ↔
      ∀ v, multicornGetEmExpr key.pk_eclass relids = some (.var v) →
        ∀ collname, v.varcollid ≠ .named collname := by
  obtain ⟨v, -, hv, -⟩ := h
  unfold PathKey.column at hv
  split at hv
  · next w he =>
    have hec := ec_collation_eq he rfl
    have hnone : (offeredKey r relids key).collation = .default := by
      simp [offeredKey, SortKey.collation, getSortKey, keyGroup, keyCollate, he]
    rw [hec, hnone, he]
    cases hc : w.varcollid <;> simp [Collation.norm, hc]
  · next w type collid he =>
    have hec := ec_collation_eq he rfl
    rw [hec, he]
    cases collid with
    | invalid => exact absurd ⟨w, type, he⟩ hn
    | default =>
      simp [offeredKey, SortKey.collation, getSortKey, keyGroup, keyCollate, he]
    | named collname =>
      simp [offeredKey, SortKey.collation, getSortKey, keyGroup, keyCollate, he]
  · cases hv

private theorem offeredKey_order (O : OrderSemantics) (h : key.OnColumn r relids)
    (hn : ¬ key.NullCollation relids)
    (hfam : ∀ v, key.column relids = some v → key.pk_opfamily = defaultOpfamily v.vartype)
    (hcoll : ∀ v, multicornGetEmExpr key.pk_eclass relids = some (.var v) →
      ∀ collname, v.varcollid ≠ .named collname) :
    SortKey.order O defaultOpfamily r (offeredKey r relids key) = PathKey.order O relids key := by
  obtain ⟨v, hv, hattnum, htype⟩ := h.column_eq
  have hcmp : O.cmp (defaultOpfamily (r.atttypid (key.attnum relids)))
      (offeredKey r relids key).collation =
      O.cmp key.pk_opfamily key.pk_eclass.ec_collation := by
    rw [htype, ← hfam v hv, ← O.cmp_norm, (offeredKey_collation h hn).mpr hcoll, O.cmp_norm]
  funext row row'
  have hk : (offeredKey r relids key).attnum = key.attnum relids := rfl
  simp only [SortKey.order, PathKey.order, hk, hcmp]
  rfl

/-- Integers in their order under one family and collation, in the reverse order under
every other. -/
private def splitSemantics (fam : Oid) (coll : Collation) : OrderSemantics where
  cmp f c := directed (!decide (f = fam ∧ c.norm = coll.norm))
    (compareOn fun | .int4 n => n | _ => 0)
  trans _ _ := inferInstance
  invalid_eq _ := rfl

/-- Two rows that only the column of one key tells apart. -/
private def columnRow (attnum : ℤ) (value : ℤ) : Row :=
  fun n => if n = attnum then some (.int4 value) else none

private theorem sortKey_order_tie (O : OrderSemantics) (k : SortKey) {attnum : ℤ} (x y : ℤ)
    (h : k.attnum ≠ attnum) :
    k.order O defaultOpfamily r (columnRow attnum x) (columnRow attnum y) = .eq :=
  keyCompare_tie (by simp [columnRow, h]) (by simp [columnRow, h])

private theorem pathKey_order_tie (O : OrderSemantics) {attnum : ℤ} (x y : ℤ)
    (h : key.attnum relids ≠ attnum) :
    key.order O relids (columnRow attnum x) (columnRow attnum y) = .eq :=
  keyCompare_tie (by simp [columnRow, h]) (by simp [columnRow, h])

/-- If rows sorted by the offered keys are always sorted by the pathkeys, a key whose column
is in no other key compares by its family and collation on both sides. -/
private theorem carried_of_ordered {before after : List PathKey}
    (hb : ∀ k ∈ before, k.attnum relids ≠ key.attnum relids)
    (ha : ∀ k ∈ after, k.attnum relids ≠ key.attnum relids)
    (hord : ∀ O rows,
      SortedBy (((before ++ key :: after).map (offeredKey r relids)).map
        (SortKey.order O defaultOpfamily r)) rows →
      SortedBy ((before ++ key :: after).map (PathKey.order O relids)) rows) :
    key.pk_opfamily = defaultOpfamily (r.atttypid (key.attnum relids)) ∧
      key.pk_eclass.ec_collation.norm = (offeredKey r relids key).collation.norm := by
  by_contra hne
  let O := splitSemantics (defaultOpfamily (r.atttypid (key.attnum relids)))
    (offeredKey r relids key).collation
  let reversed := decide (key.pk_strategy = .greater)
  let x : ℤ := if reversed then 1 else 0
  let y : ℤ := if reversed then 0 else 1
  have hoffered : (offeredKey r relids key).order O defaultOpfamily r
      (columnRow (key.attnum relids) x) (columnRow (key.attnum relids) y) = .lt := by
    have hk : (offeredKey r relids key).attnum = key.attnum relids := rfl
    have hr : (offeredKey r relids key).is_reversed = reversed := rfl
    simp only [SortKey.order, keyCompare, hk, hr, columnRow, if_true, nullsCompare, O, splitSemantics,
      and_self, decide_true, Bool.not_true, x, y]
    cases reversed <;> rfl
  have hpromised : key.order O relids
      (columnRow (key.attnum relids) x) (columnRow (key.attnum relids) y) = .gt := by
    simp only [PathKey.order, keyCompare, columnRow, if_true, nullsCompare, O, splitSemantics, hne,
      decide_false, Bool.not_false, x, y]
    change directed reversed _ _ _ = _
    cases reversed <;> rfl
  have hsorted := hord O [columnRow (key.attnum relids) x, columnRow (key.attnum relids) y]
  rw [sortedBy_pair, sortedBy_pair] at hsorted
  simp only [List.map_append, List.map_cons] at hsorted
  rw [lexCompare_of_tie, lexCompare_of_tie, hoffered, hpromised] at hsorted
  · exact absurd (hsorted rfl) (by decide)
  · intro d hd
    obtain ⟨k, hk, rfl⟩ := List.mem_map.mp hd
    exact pathKey_order_tie O x y (hb k hk)
  · intro d hd
    obtain ⟨k, hk, rfl⟩ := List.mem_map.mp hd
    exact pathKey_order_tie O x y (ha k hk)
  · intro d hd
    obtain ⟨sk, hsk, rfl⟩ := List.mem_map.mp hd
    obtain ⟨k, hk, rfl⟩ := List.mem_map.mp hsk
    exact sortKey_order_tie O _ x y (hb k hk)
  · intro d hd
    obtain ⟨sk, hsk, rfl⟩ := List.mem_map.mp hd
    obtain ⟨k, hk, rfl⟩ := List.mem_map.mp hsk
    exact sortKey_order_tie O _ x y (ha k hk)

end Order

section Main

variable {defaultOpfamily : Oid → Oid} {r : Relation} {relids : Finset ℕ}

/-- The path built from deparsed columns: every query key of an accepted column. -/
private theorem sortedForeignPath_map (m : ℕ) (keys : List PathKey) :
    sortedForeignPath m (keys.map (keyGroup r relids)) =
      if ((keys.take m).flatMap (sameColumn relids keys)).isEmpty then none
      else some ⟨((keys.take m).flatMap (sameColumn relids keys)).map some,
        some ⟨-1, -1, ((keys.take m).flatMap (sameColumn relids keys)).map
          (keyGroup r relids)⟩⟩ := by
  simp [sortedForeignPath, computeDeparsedSortGroup_map]

private theorem scanKwargs_sortkeys (planstate : MulticornPlanState) (pathkeys offset limit)
    (groups : List MulticornDeparsedSortGroup) :
    (scanKwargs planstate ⟨pathkeys, some ⟨offset, limit, groups⟩⟩).bind (·.sortkeys) =
      if groups.isEmpty then none else some (groups.map getSortKey) := by
  simp [scanKwargs, foreignPlanState, initializeExecState_serialize, executeKwargs]

private theorem take_offered (m : ℕ) (keys : List PathKey) :
    (((keys.map (keyGroup r relids)).map getSortKey).take m) =
      (keys.take m).map (offeredKey r relids) := by
  rw [List.map_map, ← List.map_take]
  rfl

private theorem take_length_take {α : Type} (m : ℕ) (l : List α) :
    l.take (l.take m).length = l.take m := by
  rw [List.length_take, List.take_eq_take_min]
  simp

private theorem filterMap_id_map_some {α : Type} (l : List α) :
    (l.map some).filterMap id = l := by
  induction l with
  | nil => rfl
  | cons a l ih => simp

/-- A pushed sort is faithful exactly when no key asks for the name of a missing collation
and each accepted key is all said by its `SortKey`. -/
theorem sortPushdownFaithful_iff (keys : List PathKey) (m : ℕ)
    (hcol : ∀ key ∈ keys, key.OnColumn r relids) :
    SortPushdownFaithful defaultOpfamily r relids keys m ↔
      (∀ key ∈ keys, ¬ key.NullCollation relids) ∧
        ∀ key ∈ keys.take m, key.Carried defaultOpfamily relids keys := by
  have hfaithful : SortPushdownFaithful defaultOpfamily r relids keys m ↔
      (∀ key ∈ keys, ¬ key.NullCollation relids) ∧
        ∀ path, sortedForeignPath m (keys.map (keyGroup r relids)) = some path →
          SortFaithful defaultOpfamily r relids keys
            ((keys.take m).map (offeredKey r relids)) path := by
    simp only [SortPushdownFaithful, deparseSortgroup_eq_ok r relids hcol]
    constructor
    · rintro ⟨deparsed, ⟨hn, rfl⟩, h⟩
      exact ⟨hn, by simpa only [take_offered] using h⟩
    · rintro ⟨hn, h⟩
      exact ⟨_, ⟨hn, rfl⟩, by simpa only [take_offered] using h⟩
  rw [hfaithful, sortedForeignPath_map]
  refine and_congr_right fun hn => ?_
  constructor
  · intro h key hkey
    have hne : ((keys.take m).flatMap (sameColumn relids keys)).isEmpty = false := by
      rw [List.isEmpty_eq_false_iff_exists_mem]
      exact ⟨key, List.mem_flatMap.mpr ⟨key, hkey,
        List.mem_filter.mpr ⟨List.mem_of_mem_take hkey, by simp⟩⟩⟩
    rw [hne] at h
    obtain ⟨hpath, -, hord⟩ := h _ rfl
    rw [List.length_map, take_length_take] at hpath
    have htake := (List.map_injective_iff.mpr (Option.some_injective _)) hpath
    have huniq := (flatMap_sameColumn_eq_take relids).mp htake
    have hkeyCol := hcol key (List.mem_of_mem_take hkey)
    have hnkey := hn key (List.mem_of_mem_take hkey)
    obtain ⟨before, after, hsplit⟩ := List.append_of_mem hkey
    have hcount : (keys.take m).countP (fun k => k.attnum relids = key.attnum relids) ≤ 1 := by
      rw [← huniq key hkey]
      exact (List.take_sublist m keys).countP_le
    rw [hsplit, List.countP_append, List.countP_cons] at hcount
    simp only [decide_true, if_true] at hcount
    have hb := List.countP_eq_zero.mp (by omega :
      before.countP (fun k => k.attnum relids = key.attnum relids) = 0)
    have ha := List.countP_eq_zero.mp (by omega :
      after.countP (fun k => k.attnum relids = key.attnum relids) = 0)
    rw [htake] at hord
    simp only [filterMap_id_map_some] at hord
    rw [hsplit] at hord
    have hc := carried_of_ordered (by simpa using hb) (by simpa using ha) hord
    obtain ⟨v, hv, -, htype⟩ := hkeyCol.column_eq
    refine ⟨huniq key hkey, ?_, (offeredKey_collation hkeyCol hnkey).mp hc.2.symm⟩
    intro w hw
    rw [hv, Option.some.injEq] at hw
    rw [hc.1, htype, hw]
  · intro hcarried path hpath
    have htake : (keys.take m).flatMap (sameColumn relids keys) = keys.take m :=
      (flatMap_sameColumn_eq_take relids).mpr fun key hk => (hcarried key hk).unique
    rw [htake] at hpath
    split_ifs at hpath with he
    cases hpath
    refine ⟨?_, fun planstate => ?_, fun O rows hs => ?_⟩
    · rw [List.length_map, take_length_take]
    · rw [scanKwargs_sortkeys, List.isEmpty_map, if_neg he, List.map_map]
      rfl
    · have horder : ((keys.take m).map (offeredKey r relids)).map
          (SortKey.order O defaultOpfamily r) = (keys.take m).map (PathKey.order O relids) := by
        rw [List.map_map]
        refine List.map_congr_left fun key hk => ?_
        have hmem := List.mem_of_mem_take hk
        exact offeredKey_order O (hcol key hmem) (hn key hmem) (hcarried key hk).opfamily
          (hcarried key hk).collation
      rw [horder] at hs
      rw [filterMap_id_map_some]
      exact hs

end Main

/-- `b` of `twoColumns` in ascending order of the default text family. -/
def defaultKey : PathKey where
  address := 1
  pk_eclass := ⟨[⟨{1}, .var ⟨1, 2, 25, .default⟩⟩], .default, by simp [exprCollation]⟩
  pk_opfamily := 1994
  pk_strategy := .less
  pk_nulls_first := false

/-- `b COLLATE "C"`. -/
def collateKey : PathKey where
  address := 2
  pk_eclass := ⟨[⟨{1}, .relabelType (.var ⟨1, 2, 25, .default⟩) 25 (.named "C")⟩], .named "C",
    by simp [exprCollation]⟩
  pk_opfamily := 1994
  pk_strategy := .less
  pk_nulls_first := false

private theorem defaultKey_onColumn : defaultKey.OnColumn twoColumns {1} :=
  ⟨⟨1, 2, 25, .default⟩, ⟨"b", 25, -1, false, []⟩, rfl, by decide, rfl, rfl, rfl⟩

private theorem collateKey_onColumn : collateKey.OnColumn twoColumns {1} :=
  ⟨⟨1, 2, 25, .default⟩, ⟨"b", 25, -1, false, []⟩, rfl, by decide, rfl, rfl, rfl⟩

/-- `ORDER BY b COLLATE "C", b` with the first key accepted: the path promises both. -/
theorem collateKey_promises_more :
    (∀ key ∈ [collateKey, defaultKey], key.OnColumn twoColumns {1}) ∧
      ¬ SortPushdownFaithful (fun _ => 1994) twoColumns {1} [collateKey, defaultKey] 1 := by
  refine ⟨by simp [collateKey_onColumn, defaultKey_onColumn], ?_⟩
  rintro ⟨deparsed, hd, h⟩
  obtain rfl : [collateKey, defaultKey].map (keyGroup twoColumns {1}) = deparsed :=
    Except.ok.inj hd
  have hpath := (h _ rfl).pathkeys
  exact absurd (congrArg List.length hpath) (by decide)

theorem sortPushdownFaithful_defaultKey :
    SortPushdownFaithful (fun _ => 1994) twoColumns {1} [defaultKey] 1 := by
  refine (sortPushdownFaithful_iff [defaultKey] 1 (by simp [defaultKey_onColumn])).mpr ⟨?_, ?_⟩
  · rintro key hkey ⟨v, type, he⟩
    obtain rfl := List.mem_singleton.mp hkey
    exact Expr.noConfusion (Option.some.inj he)
  · intro key hkey
    obtain rfl := List.mem_singleton.mp hkey
    refine ⟨rfl, fun _ _ => rfl, fun v he collname => ?_⟩
    obtain rfl : v = ⟨1, 2, 25, .default⟩ := (Expr.var.inj (Option.some.inj he)).symm
    simp

end Multicorn.Planner
