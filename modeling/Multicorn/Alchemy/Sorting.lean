import Multicorn.Alchemy.Meaning
import Multicorn.General.Pointwise
import Multicorn.Planner.LimitPushdown

/-! The ORDER BY clause of a statement sorts as the sort keys ask. -/
namespace Multicorn.Alchemy
open Multicorn.Catalog (Oid)
open Multicorn.Convert (PyObject)
open Multicorn.Executor
open Multicorn.KeyOrder
open Multicorn.Kleene
open Multicorn.Planner
open Multicorn.Pointwise
open SqlAlchemyFdw (orderColumn quotedCollation)

/-- `desc` comes before `collate`, which then has no column to be applied to. -/
def DescCollated (key : SortKey) : Prop :=
  key.is_reversed = true ∧ quotedCollation key ≠ none

/-- The element of a key, read as SQL. -/
def itemOf (support : SortSupport) (key : SortKey) : OrderItem where
  column := key.attname
  collation := quotedCollation key
  reversed := key.is_reversed
  nulls := needExplicitNullOrdering support key

theorem toDirected_orderColumn (key : SortKey) :
    (DescCollated key → (orderColumn key).toDirected = none) ∧
      (¬ DescCollated key → (orderColumn key).toDirected =
        some ⟨key.attname, quotedCollation key, key.is_reversed, none⟩) := by
  unfold DescCollated orderColumn
  cases key.is_reversed <;> cases quotedCollation key <;>
    simp [OrderExpr.toDirected, OrderExpr.toValue]

theorem toItem_orderColumn (key : SortKey) :
    (orderColumn key).toItem = (orderColumn key).toDirected := by
  unfold orderColumn
  cases key.is_reversed <;> cases quotedCollation key <;> rfl

/-- What SQL makes of the element built for a key. -/
theorem toItem_of_key {w : SqlAlchemyFdw} {support : SortSupport}
    (hsupport : sortSupport.lookup w.dialect = some support) {key : SortKey} {e : OrderExpr}
    (h : w.orderOf key = .ok e) :
    (DescCollated key → e.toItem = none) ∧
      (¬ DescCollated key → e.toItem = some (itemOf support key)) := by
  have he := w.orderOf_eq_ok hsupport h
  obtain ⟨hbad, hgood⟩ := toDirected_orderColumn key
  unfold itemOf
  cases hnulls : needExplicitNullOrdering support key with
  | none =>
    rw [hnulls] at he
    subst he
    rw [toItem_orderColumn]
    exact ⟨hbad, hgood⟩
  | some ordering =>
    rw [hnulls] at he
    subst he
    refine ⟨fun h => ?_, fun h => ?_⟩
    · simp only [OrderExpr.toItem, hbad h, Option.map_none]
    · simp only [OrderExpr.toItem, hgood h, Option.map_some]

section Order

variable {w : SqlAlchemyFdw} {R : Remote} {support : SortSupport} {key : SortKey}

/-- The NULLs of an item are where the key wants them. -/
theorem nullsFirst_itemOf (hdefault : R.default = support.default) :
    R.nullsFirst (itemOf support key) = key.nulls_first := by
  obtain ⟨attname, attnum, is_reversed, nulls_first, collate⟩ := key
  obtain ⟨default, supports⟩ := support
  simp only at hdefault
  unfold Remote.nullsFirst itemOf needExplicitNullOrdering
  rw [hdefault]
  cases default <;> cases is_reversed <;> cases nulls_first <;> rfl

/-- A clause is only spelled where the dialect has it. -/
theorem nullsClause_of_canSort (hspeaks : R.Speaks w.dialect)
    (hsupport : sortSupport.lookup w.dialect = some support) {offered : List SortKey}
    (hkey : key ∈ canSort w.dialect offered)
    (hnulls : needExplicitNullOrdering support key ≠ none) : R.nullsClause = true := by
  refine hspeaks.nullsClause support hsupport ?_
  by_contra hno
  unfold canSort at hkey
  simp only [hsupport] at hkey
  split_ifs at hkey with hany
  · cases hkey
  · refine hany ?_
    rw [Bool.and_eq_true, List.any_eq_true]
    exact ⟨⟨key, hkey, Option.isSome_iff_ne_none.mpr hnulls⟩, by simpa using hno⟩

/-- The order of an item is the documented order of its key. -/
theorem order_itemOf (q : Select) (sys : ℤ → Option Datum) {O : OrderSemantics}
    {defaultOpfamily : Oid → Oid} (hdefault : R.default = support.default)
    (hsorts : R.Sorts O defaultOpfamily q.relation)
    (hlive : q.relation.LiveColumn key.attnum key.attname) (hplain : key.collate = none)
    (record record' : Record) : R.order (itemOf support key) record record' =
      SortKey.order O defaultOpfamily q.relation key (q.row sys record) (q.row sys record') := by
  have hcompare : R.compare key.attname (quotedCollation key) =
      O.cmp (defaultOpfamily (q.relation.atttypid key.attnum)) key.collation := by
    unfold quotedCollation SortKey.collation
    rw [hplain]
    exact hsorts _ _ hlive
  unfold Remote.order SortKey.order keyCompare
  rw [nullsFirst_itemOf hdefault]
  simp only [itemOf, hcompare, q.row_of_live sys hlive]

end Order

section OrderBy

variable {w : SqlAlchemyFdw} {R : Remote} {sortkeys : List SortKey} {orders : List OrderExpr}
  {items : List OrderItem}

/-- The item is the one of the key, under the entry of the dialect. -/
def Itemizes (w : SqlAlchemyFdw) (key : SortKey) (item : OrderItem) : Prop :=
  ¬ DescCollated key ∧
    ∃ support, sortSupport.lookup w.dialect = some support ∧ item = itemOf support key

theorem itemizes_of_toItem {key : SortKey} {e : OrderExpr} {item : OrderItem}
    (h : w.orderOf key = .ok e) (hitem : e.toItem = some item) : Itemizes w key item := by
  obtain ⟨support, hsupport⟩ := w.support_of_orderOf h
  obtain ⟨hbad, hgood⟩ := toItem_of_key hsupport h
  have hdesc : ¬ DescCollated key := fun hdesc => by
    rw [hbad hdesc] at hitem
    cases hitem
  rw [hgood hdesc, Option.some.injEq] at hitem
  exact ⟨hdesc, support, hsupport, hitem.symm⟩

/-- The text is read back as the items of the keys. -/
theorem itemizes_of_build (hbuild : sortkeys.mapM w.orderOf = .ok orders)
    (hread : orders.map OrderExpr.toItem = items.map some) :
    List.Forall₂ (Itemizes w) sortkeys items := by
  have hitems : List.Forall₂ (fun e item => OrderExpr.toItem e = some item) orders items := by
    rw [← List.forall₂_map_right_iff, ← List.forall₂_map_left_iff, List.forall₂_eq_eq_eq]
    exact hread
  exact (forall₂_comp (forall₂_of_mapM_ok hbuild) hitems).imp
    fun key item ⟨e, he, hitem⟩ => itemizes_of_toItem he hitem

/-- The quotes of the wrapper are quoted again, so no name after COLLATE is known. -/
theorem plain_of_accepts (hspeaks : R.Speaks w.dialect)
    (hnamed : ∀ key ∈ sortkeys, key.collate ≠ some "")
    (hbuild : sortkeys.mapM w.orderOf = .ok orders) (haccepts : R.Accepts orders items) :
    ∀ key ∈ sortkeys, key.collate = none := by
  intro key hkey
  obtain ⟨item, hmem, -, support, -, rfl⟩ :=
    exists_of_mem_left (itemizes_of_build hbuild haccepts.1) hkey
  cases hcollate : key.collate with
  | none => rfl
  | some collname =>
    have hne : collname ≠ "" := fun h => hnamed key hkey (h ▸ hcollate)
    have hquoted : quotedCollation key = some ("\"" ++ collname ++ "\"") := by
      simp [quotedCollation, hcollate, hne]
    have hknown := (haccepts.2 _ hmem).2 _ hquoted
    rw [hspeaks.unquoted] at hknown
    cases hknown

theorem not_descCollated {key : SortKey} (hplain : key.collate = none) : ¬ DescCollated key := by
  simp [DescCollated, quotedCollation, hplain]

theorem exists_items (hbuild : sortkeys.mapM w.orderOf = .ok orders)
    (h : ∀ key ∈ sortkeys, ¬ DescCollated key) :
    ∃ items : List OrderItem, orders.map OrderExpr.toItem = items.map some := by
  have hforall := forall₂_of_mapM_ok hbuild
  clear hbuild
  induction hforall with
  | nil => exact ⟨[], rfl⟩
  | @cons key e sortkeys orders he _ ih =>
    rw [List.forall_mem_cons] at h
    obtain ⟨items, hitems⟩ := ih h.2
    obtain ⟨support, hsupport⟩ := w.support_of_orderOf he
    refine ⟨itemOf support key :: items, ?_⟩
    rw [List.map_cons, List.map_cons, hitems, (toItem_of_key hsupport he).2 h.1]

/-- Rows in the order of the items are in the documented order of the keys. -/
theorem sortedBy_items (q : Select) (sys : ℤ → Option Datum) {O : OrderSemantics}
    {defaultOpfamily : Oid → Oid} (hspeaks : R.Speaks w.dialect)
    (hsorts : R.Sorts O defaultOpfamily q.relation)
    (hkeys : ∀ key ∈ sortkeys, q.relation.LiveColumn key.attnum key.attname ∧
      key.collate = none)
    (hitems : List.Forall₂ (Itemizes w) sortkeys items) (rows : List Record) :
    SortedBy (items.map R.order) rows ↔
      SortedBy (sortkeys.map (SortKey.order O defaultOpfamily q.relation))
        (rows.map (q.row sys)) := by
  have hlex : ∀ record record', lexCompare (items.map R.order) record record' =
      lexCompare (sortkeys.map (SortKey.order O defaultOpfamily q.relation))
        (q.row sys record) (q.row sys record') := by
    intro record record'
    induction hitems with
    | nil => rfl
    | cons hitem _ ih =>
      rw [List.forall_mem_cons] at hkeys
      obtain ⟨-, support, hsupport, rfl⟩ := hitem
      have horder := order_itemOf q sys (hspeaks.default support hsupport) hsorts hkeys.1.1
        hkeys.1.2 record record'
      simp only [List.map_cons, lexCompare, horder, ih hkeys.2]
  unfold SortedBy
  rw [List.pairwise_map]
  simp only [hlex]

/-- The remote database sorts as the keys ask exactly when none of them has a collation. -/
theorem orderBy_faithful_iff (q : Select) (sys : ℤ → Option Datum) {O : OrderSemantics}
    {defaultOpfamily : Oid → Oid} (hspeaks : R.Speaks w.dialect)
    (hsorts : R.Sorts O defaultOpfamily q.relation) {offered : List SortKey}
    (hcan : ∀ key ∈ sortkeys, key ∈ canSort w.dialect offered)
    (hkeys : ∀ key ∈ sortkeys, q.relation.LiveColumn key.attnum key.attname ∧
      key.collate ≠ some "")
    (hbuild : sortkeys.mapM w.orderOf = .ok orders) :
    (∃ items, R.Accepts orders items ∧ ∀ rows, SortedBy (items.map R.order) rows ↔
      SortedBy (sortkeys.map (SortKey.order O defaultOpfamily q.relation))
        (rows.map (q.row sys))) ↔
      ∀ key ∈ sortkeys, key.collate = none := by
  constructor
  · rintro ⟨items, haccepts, -⟩
    exact plain_of_accepts hspeaks (fun key hkey => (hkeys key hkey).2) hbuild haccepts
  · intro hplain
    obtain ⟨items, hitems⟩ :=
      exists_items hbuild fun key hkey => not_descCollated (hplain key hkey)
    have hforall := itemizes_of_build hbuild hitems
    refine ⟨items, ⟨hitems, fun item hitem => ?_⟩, sortedBy_items q sys hspeaks hsorts
      (fun key hkey => ⟨(hkeys key hkey).1, hplain key hkey⟩) hforall⟩
    obtain ⟨key, hkey, -, support, hsupport, rfl⟩ := exists_of_mem_right hforall hitem
    refine ⟨nullsClause_of_canSort hspeaks hsupport (hcan key hkey), ?_⟩
    intro collation hcollation
    simp [itemOf, quotedCollation, hplain key hkey] at hcollation

end OrderBy

/-! `(a integer, b text)` on PostgreSQL. -/

def integerEqual : Option Datum → PyObject → Option Bool
  | x, .none => some (NullTestType.isNull.test x)
  | some (.int4 a), .int b => some (a == b)
  | _, _ => none

def integerElement (x : Option Datum) : PyObject → Option Bool
  | .none => none
  | item => integerEqual x item

def integerOperator : Sqlop → Option Datum → PyObject → Option Bool
  | .eq, x, value => integerEqual x value
  | .ne, x, .none => some (NullTestType.isNotNull.test x)
  | .ne, x, value => not3 (integerEqual x value)
  | .in_op, x, .list items => any3 (items.map (integerElement x))
  | _, _, _ => none

def postgresql : Remote where
  operator := integerOperator
  collations name := name = "C"
  compare _ _ := integerOrder.cmp 1976 .default
  default := .higher
  nullsClause := true

def pairFdw : SqlAlchemyFdw := ⟨["a", "b"], "postgresql", fun _ _ => true⟩

/-- No quoted name is `C`. -/
theorem postgresql_unquoted (collname : String) :
    postgresql.collations ("\"" ++ collname ++ "\"") = false := by
  simp only [postgresql, decide_eq_false_iff_not]
  intro h
  have hlength := congrArg String.length h
  simp only [String.length_append] at hlength
  have hquote : "\"".length = 1 := rfl
  have hc : "C".length = 1 := rfl
  omega

theorem postgresql_speaks : postgresql.Speaks "postgresql" := by
  constructor
  · intro support h
    cases h
    rfl
  · intro _ _ _
    rfl
  · exact postgresql_unquoted

theorem postgresql_sorts : postgresql.Sorts integerOrder (fun _ => 1976) twoColumns :=
  fun _ _ _ => rfl

/-- `b`, then `a DESC NULLS LAST`. -/
def mixedKeys : List SortKey := [⟨"b", 2, false, false, none⟩, ⟨"a", 1, true, false, none⟩]

def mixedOrders : List OrderExpr :=
  [.column "b", .nulls .nullslast (OrderExpr.column "a").desc]

def twoColumnSelect : Select := ⟨fun _ => twoColumns, 1, [], [], []⟩

theorem mixedKeys_live : ∀ key ∈ mixedKeys,
    twoColumnSelect.relation.LiveColumn key.attnum key.attname ∧ key.collate ≠ some "" := by
  simp only [mixedKeys, List.forall_mem_cons, List.not_mem_nil, false_imp_iff, implies_true,
    and_true]
  exact ⟨⟨twoColumns_live.2, by decide⟩, twoColumns_live.1, by decide⟩

theorem mixedOrders_faithful :
    ∃ items, postgresql.Accepts mixedOrders items ∧
      ∀ rows, SortedBy (items.map postgresql.order) rows ↔
        SortedBy (mixedKeys.map (SortKey.order integerOrder (fun _ => 1976) twoColumns))
          (rows.map (twoColumnSelect.row fun _ => none)) :=
  (orderBy_faithful_iff (w := pairFdw) twoColumnSelect _ postgresql_speaks postgresql_sorts
    (show ∀ key ∈ mixedKeys, key ∈ canSort "postgresql" mixedKeys by decide) mixedKeys_live
    rfl).mpr (by simp [mixedKeys])

end Multicorn.Alchemy
