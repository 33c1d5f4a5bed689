import Multicorn.General.Pointwise
import Multicorn.Modify.Returning

/-! INSERT row by row, and in batches through `bulk_insert`. -/
namespace Multicorn.Modify
open Multicorn.Catalog (PgError)
open Multicorn.Planner (Datum)
open Multicorn.Convert
open Multicorn.ArrayLiteral (Bytes)
open Multicorn.Pointwise

/-- The dictionary of a row, by column name. -/
abbrev Values := String → Option PyObject

inductive InsertError
  | crash
  | python (e : PgError)
  | conversion (f : Failure)
  | listSize
  deriving DecidableEq

inductive BulkReturn
  | none
  | list (items : List (Option PyRow))
  | other

/-- The rows that the single inserts return, `None` among them. -/
def insertMany {W : Type} (insert : Values → W → Except PgError (Option PyRow × W)) :
    List Values → W → Except PgError (List (Option PyRow) × W)
  | [], w => .ok ([], w)
  | values :: all, w => do
    let (row, w) ← insert values w
    let (rows, w) ← insertMany insert all w
    return (row :: rows, w)

/-- A wrapper whose `bulk_insert` inserts one row after the other. It returns what the single
inserts do, or `None` where they all return that. -/
structure BulkWrapper (W : Type) where
  insert : Values → W → Except PgError (Option PyRow × W)
  report : List (Option PyRow) → BulkReturn
  report_exact : ∀ rows, report rows = .list rows ∨
    report rows = .none ∧ ∀ row ∈ rows, row = none

def BulkWrapper.bulk_insert {W : Type} (wrapper : BulkWrapper W) (all : List Values) (w : W) :
    Except PgError (BulkReturn × W) := do
  let (rows, w) ← insertMany wrapper.insert all w
  return (wrapper.report rows, w)

/-- No `None` among the rows, where the rows are returned at all. -/
def BulkWrapper.Unmixed {W : Type} (wrapper : BulkWrapper W) (rows : List (Option PyRow)) :
    Prop :=
  wrapper.report rows = .none ∨ none ∉ rows

/-- What the single inserts return, batch by batch. -/
def insertEach {W : Type} (insert : Values → W → Except PgError (Option PyRow × W)) :
    List (List Values) → W → Except PgError (List (List (Option PyRow)) × W)
  | [], w => .ok ([], w)
  | all :: batches, w => do
    let (rows, w) ← insertMany insert all w
    let (more, w) ← insertEach insert batches w
    return (rows :: more, w)

/-- What the modify state keeps for conversions. -/
structure ConversionState where
  cinfos : ℕ → Option ConversionInfo
  buffer : Bytes

structure InsertState (W : Type) where
  conversion : ConversionState
  remote : W

section Source

variable {W : Type} (T : TypeSystem) (C : Charset) (I : InputFunctions Datum)
  (desc : List FormAttribute) (wrapper : BulkWrapper W)

/-- The object for a column of a slot. -/
def columnObject (slot : TupleTableSlot Datum) (i : ℕ) (cinfo : ConversionInfo) :
    Option PyObject :=
  match slotGetattr slot i with
  | none => some .none
  | some d => datumToPython T cinfo.atttypoid (some d)

/-- One round of the loop of `tupleTableSlotToPyObject`. -/
def putColumn (slot : TupleTableSlot Datum) (dict : Values) (i : ℕ) : Option Values :=
  match initConversioninfo desc i with
  | none => some dict
  | some cinfo => do
    let item ← columnObject T slot i cinfo
    return Function.update dict cinfo.attrname (some item)

/-- `tupleTableSlotToPyObject` on a slot of the table; `none` is a crash. -/
def slotToPyObject (slot : TupleTableSlot Datum) : Option Values :=
  (List.range desc.length).foldlM (putColumn T desc slot) fun _ => none

/-- `pythonResultToTuple` into a cleared slot. -/
def storeRow (row : PyRow) (slot : TupleTableSlot Datum) (m : ConversionState) :
    Except InsertError (TupleTableSlot Datum × ConversionState) :=
  match pythonResultToTuple C I desc.length row ⟨slot, m.cinfos, m.buffer⟩ with
  | .ok () st => .ok (st.slot, ⟨st.cinfos, st.buffer⟩)
  | .error f _ => .error (.conversion f)

def multicornExecForeignInsert (slot : TupleTableSlot Datum) (s : InsertState W) :
    Except InsertError (TupleTableSlot Datum × InsertState W) := do
  let values ← (slotToPyObject T desc slot).elim (.error .crash) .ok
  let (p_new_value, remote) ← (wrapper.insert values s.remote).mapError .python
  match p_new_value with
  | none => return (slot, ⟨s.conversion, remote⟩)
  | some row =>
    let (slot, conversion) ← storeRow C I desc row slot s.conversion
    return (slot, ⟨conversion, remote⟩)

/-- The loop over the returned list: a `None` in it is converted like any other object. -/
def storeItems : List (Option PyRow) → List (TupleTableSlot Datum) → ConversionState →
    Except InsertError (List (TupleTableSlot Datum) × ConversionState)
  | item :: items, slot :: slots, m => do
    let (slot, m) ← storeRow C I desc (item.getD .other) slot m
    let (slots, m) ← storeItems items slots m
    return (slot :: slots, m)
  | _, _, m => .ok ([], m)

def multicornExecForeignBatchInsert (slots : List (TupleTableSlot Datum)) (s : InsertState W) :
    Except InsertError (List (TupleTableSlot Datum) × InsertState W) := do
  let all ← (slots.mapM (slotToPyObject T desc)).elim (.error .crash) .ok
  let (p_return_values, remote) ← (wrapper.bulk_insert all s.remote).mapError .python
  match p_return_values with
  | .none => return (slots, ⟨s.conversion, remote⟩)
  | .list items =>
    if items.length = slots.length then
      let (slots, conversion) ← storeItems C I desc items slots s.conversion
      return (slots, ⟨conversion, remote⟩)
    else throw .listSize
  | .other => throw .listSize

/-- The rows of a statement with a batch size of 1. -/
def insertRows : List (TupleTableSlot Datum) → InsertState W →
    Except InsertError (List (TupleTableSlot Datum) × InsertState W)
  | [], s => .ok ([], s)
  | slot :: slots, s => do
    let (slot, s) ← multicornExecForeignInsert T C I desc wrapper slot s
    let (slots, s) ← insertRows slots s
    return (slot :: slots, s)

/-- The rows of a statement cut into batches. -/
def insertBatches : List (List (TupleTableSlot Datum)) → InsertState W →
    Except InsertError (List (TupleTableSlot Datum) × InsertState W)
  | [], s => .ok ([], s)
  | batch :: batches, s => do
    let (slots, s) ← multicornExecForeignBatchInsert T C I desc wrapper batch s
    let (more, s) ← insertBatches batches s
    return (slots ++ more, s)

end Source

section Values

variable {T : TypeSystem} {desc : List FormAttribute} {slot : TupleTableSlot Datum}

/-- The position of the live column with a name. -/
def columnIndex (desc : List FormAttribute) (name : String) : Option ℕ :=
  (List.range desc.length).find? fun i =>
    (initConversioninfo desc i).any fun cinfo => cinfo.attrname == name

theorem columnIndex_eq_some {name : String} {i : ℕ} (h : columnIndex desc name = some i) :
    ∃ cinfo, initConversioninfo desc i = some cinfo ∧ cinfo.attrname = name := by
  have hany := List.find?_some h
  cases hcinfo : initConversioninfo desc i with
  | none => simp [hcinfo] at hany
  | some cinfo => exact ⟨cinfo, rfl, by simpa [hcinfo] using hany⟩

theorem columnIndex_eq_none {name : String} (h : columnIndex desc name = none) {i : ℕ}
    {cinfo : ConversionInfo} (hcinfo : initConversioninfo desc i = some cinfo) :
    cinfo.attrname ≠ name := by
  have hlt := List.mem_range.mpr (initConversioninfo_lt hcinfo)
  have hany := List.find?_eq_none.mp h i hlt
  simpa [hcinfo] using hany

/-- Names tell the live columns apart. -/
theorem initConversioninfo_inj (hnodup : (desc.map (·.attname)).Nodup) {i j : ℕ}
    {cinfo cinfo' : ConversionInfo} (hi : initConversioninfo desc i = some cinfo)
    (hj : initConversioninfo desc j = some cinfo') (hname : cinfo.attrname = cinfo'.attrname) :
    i = j := by
  have hattname : ∀ {k cinfo}, initConversioninfo desc k = some cinfo →
      (desc.map (·.attname))[k]? = some cinfo.attrname := by
    intro k cinfo h
    unfold initConversioninfo at h
    cases hk : desc[k]? with
    | none => simp [hk] at h
    | some attr =>
      simp only [hk] at h
      split_ifs at h
      cases h
      rw [List.getElem?_map, hk]
      rfl
  have hlt : i < (desc.map (·.attname)).length := by
    simpa using initConversioninfo_lt hi
  exact (List.getElem?_inj hlt hnodup).mp (by rw [hattname hi, hattname hj, hname])

/-- The loop sets the columns at its positions and leaves the other names alone. -/
theorem foldlM_putColumn (hnodup : (desc.map (·.attname)).Nodup) {is : List ℕ} (his : is.Nodup)
    {dict dict' : Values} (h : is.foldlM (putColumn T desc slot) dict = some dict') :
    (∀ i ∈ is, ∀ cinfo, initConversioninfo desc i = some cinfo →
      ∃ item, columnObject T slot i cinfo = some item ∧ dict' cinfo.attrname = some item) ∧
    ∀ name, (∀ i ∈ is, ∀ cinfo, initConversioninfo desc i = some cinfo →
      cinfo.attrname ≠ name) → dict' name = dict name := by
  induction is generalizing dict with
  | nil =>
    cases h
    exact ⟨nofun, fun name _ => rfl⟩
  | cons i is ih =>
    obtain ⟨hi, his⟩ := List.nodup_cons.mp his
    rw [List.foldlM_cons] at h
    obtain ⟨dict₁, hput, h⟩ := Option.bind_eq_some_iff.mp h
    obtain ⟨hset, hkept⟩ := ih his h
    unfold putColumn at hput
    cases hcinfo : initConversioninfo desc i with
    | none =>
      simp only [hcinfo] at hput
      cases hput
      refine ⟨List.forall_mem_cons.mpr ⟨?_, hset⟩, fun name hname => ?_⟩
      · intro cinfo hcinfo'
        cases hcinfo.symm.trans hcinfo'
      · exact hkept name fun j hj => hname j (List.mem_cons_of_mem _ hj)
    | some cinfo =>
      simp only [hcinfo] at hput
      obtain ⟨item, hitem, hput⟩ := Option.bind_eq_some_iff.mp hput
      cases hput
      refine ⟨List.forall_mem_cons.mpr ⟨?_, hset⟩, fun name hname => ?_⟩
      · intro cinfo' hcinfo'
        cases hcinfo.symm.trans hcinfo'
        refine ⟨item, hitem, ?_⟩
        rw [hkept, Function.update_self]
        intro j hj cinfo' hj' hname
        exact hi (initConversioninfo_inj hnodup hj' hcinfo hname ▸ hj)
      · rw [hkept name fun j hj => hname j (List.mem_cons_of_mem _ hj),
          Function.update_of_ne (hname i List.mem_cons_self cinfo hcinfo).symm]

/-- The dictionary has the live columns, each with its object. -/
theorem slotToPyObject_eq_some (hnodup : (desc.map (·.attname)).Nodup) {values : Values}
    (h : slotToPyObject T desc slot = some values) (name : String) :
    (columnIndex desc name = none → values name = none) ∧
    ∀ i, columnIndex desc name = some i → ∃ cinfo item,
      initConversioninfo desc i = some cinfo ∧ cinfo.attrname = name ∧
        columnObject T slot i cinfo = some item ∧ values name = some item := by
  obtain ⟨hset, hkept⟩ := foldlM_putColumn hnodup List.nodup_range h
  refine ⟨fun hindex => ?_, fun i hindex => ?_⟩
  · exact hkept name fun i _ cinfo hcinfo => columnIndex_eq_none hindex hcinfo
  · obtain ⟨cinfo, hcinfo, rfl⟩ := columnIndex_eq_some hindex
    obtain ⟨item, hitem, hvalue⟩ :=
      hset i (List.mem_range.mpr (initConversioninfo_lt hcinfo)) cinfo hcinfo
    exact ⟨cinfo, item, hcinfo, rfl, hitem, hvalue⟩

end Values

section Fission

variable {W : Type} {T : TypeSystem} {C : Charset} {I : InputFunctions Datum}
  {desc : List FormAttribute} {wrapper : BulkWrapper W}

variable (C I desc) in
/-- What a single insert does with the object returned. -/
def keepItem (item : Option PyRow) (slot : TupleTableSlot Datum) (m : ConversionState) :
    Except InsertError (TupleTableSlot Datum × ConversionState) :=
  match item with
  | none => .ok (slot, m)
  | some row => storeRow C I desc row slot m

variable (C I desc) in
def keepItems : List (Option PyRow) → List (TupleTableSlot Datum) → ConversionState →
    Except InsertError (List (TupleTableSlot Datum) × ConversionState)
  | item :: items, slot :: slots, m => do
    let (slot, m) ← keepItem C I desc item slot m
    let (slots, m) ← keepItems items slots m
    return (slot :: slots, m)
  | _, _, m => .ok ([], m)

theorem elim_eq_ok {α : Type} {x : Option α} {a : α} :
    x.elim (.error InsertError.crash) Except.ok = .ok a ↔ x = some a := by
  cases x <;> simp

/-- A single insert: the values go out, the remote state changes, the slot is kept or
overwritten. -/
theorem execForeignInsert_eq_ok {slot slot' : TupleTableSlot Datum} {s s' : InsertState W} :
    multicornExecForeignInsert T C I desc wrapper slot s = .ok (slot', s') ↔
      ∃ values item, slotToPyObject T desc slot = some values ∧
        wrapper.insert values s.remote = .ok (item, s'.remote) ∧
        keepItem C I desc item slot s.conversion = .ok (slot', s'.conversion) := by
  obtain ⟨m', w'⟩ := s'
  unfold multicornExecForeignInsert
  simp only [bind_eq_ok, elim_eq_ok, mapError_eq_ok, Prod.exists]
  constructor
  · rintro ⟨values, hvalues, item, remote, hinsert, h⟩
    cases item with
    | none =>
      cases h
      exact ⟨values, none, hvalues, hinsert, rfl⟩
    | some row =>
      obtain ⟨result, hstore, h⟩ := bind_eq_ok.mp h
      cases h
      exact ⟨values, some row, hvalues, hinsert, hstore⟩
  · rintro ⟨values, item, hvalues, hinsert, hkeep⟩
    refine ⟨values, hvalues, item, w', hinsert, ?_⟩
    cases item with
    | none =>
      cases hkeep
      rfl
    | some row => exact bind_eq_ok.mpr ⟨_, hkeep, rfl⟩

/-- The rows can as well be inserted first and their slots written afterwards. -/
theorem insertRows_eq_ok {slots slots' : List (TupleTableSlot Datum)} {s s' : InsertState W} :
    insertRows T C I desc wrapper slots s = .ok (slots', s') ↔
      ∃ all items, slots.mapM (slotToPyObject T desc) = some all ∧
        insertMany wrapper.insert all s.remote = .ok (items, s'.remote) ∧
        keepItems C I desc items slots s.conversion = .ok (slots', s'.conversion) := by
  induction slots generalizing slots' s s' with
  | nil =>
    constructor
    · intro h
      cases h
      exact ⟨[], [], rfl, rfl, rfl⟩
    · rintro ⟨all, items, hall, hinsert, hkeep⟩
      obtain ⟨m', w'⟩ := s'
      cases hall
      cases hinsert
      cases hkeep
      rfl
  | cons slot slots ih =>
    constructor
    · intro h
      obtain ⟨⟨slot₁, s₁⟩, hfirst, h⟩ := bind_eq_ok.mp h
      obtain ⟨⟨slots₁, s₂⟩, hrest, h⟩ := bind_eq_ok.mp h
      cases h
      obtain ⟨values, item, hvalues, hinsert, hkeep⟩ := execForeignInsert_eq_ok.mp hfirst
      obtain ⟨all, items, hall, hmany, hkeeps⟩ := ih.mp hrest
      refine ⟨values :: all, item :: items, ?_, ?_, ?_⟩
      · rw [List.mapM_cons, hvalues, hall]
        rfl
      · exact bind_eq_ok.mpr ⟨_, hinsert, bind_eq_ok.mpr ⟨_, hmany, rfl⟩⟩
      · exact bind_eq_ok.mpr ⟨_, hkeep, bind_eq_ok.mpr ⟨_, hkeeps, rfl⟩⟩
    · rintro ⟨all, items, hall, hinsert, hkeep⟩
      rw [List.mapM_cons] at hall
      obtain ⟨values, hvalues, hall⟩ := Option.bind_eq_some_iff.mp hall
      obtain ⟨all', hall', hall⟩ := Option.bind_eq_some_iff.mp hall
      cases hall
      obtain ⟨m', w'⟩ := s'
      obtain ⟨⟨item, w₁⟩, hfirst, hinsert⟩ := bind_eq_ok.mp hinsert
      obtain ⟨⟨items', w₂⟩, hmany, hinsert⟩ := bind_eq_ok.mp hinsert
      cases hinsert
      obtain ⟨⟨slot₁, m₁⟩, hkeep₁, hkeep⟩ := bind_eq_ok.mp hkeep
      obtain ⟨⟨slots₁, m₂⟩, hkeeps, hkeep⟩ := bind_eq_ok.mp hkeep
      cases hkeep
      have hone : multicornExecForeignInsert T C I desc wrapper slot s =
          .ok (slot₁, ⟨m₁, w₁⟩) :=
        execForeignInsert_eq_ok.mpr ⟨values, item, hvalues, hfirst, hkeep₁⟩
      have hrest : insertRows T C I desc wrapper slots ⟨m₁, w₁⟩ = .ok (slots₁, ⟨m', w'⟩) :=
        ih.mpr ⟨all', items', hall', hmany, hkeeps⟩
      exact bind_eq_ok.mpr ⟨_, hone, bind_eq_ok.mpr ⟨_, hrest, rfl⟩⟩

theorem insertRows_append {slots more : List (TupleTableSlot Datum)} {s : InsertState W} :
    insertRows T C I desc wrapper (slots ++ more) s = do
      let (first, s) ← insertRows T C I desc wrapper slots s
      let (second, s) ← insertRows T C I desc wrapper more s
      return (first ++ second, s) := by
  induction slots generalizing s with
  | nil =>
    exact (bind_pure (insertRows T C I desc wrapper more s)).symm
  | cons slot slots ih => simp only [List.cons_append, insertRows, ih, bind_assoc, pure_bind]

theorem insertMany_length {insert : Values → W → Except PgError (Option PyRow × W)}
    {all : List Values} {items : List (Option PyRow)} {w w' : W}
    (h : insertMany insert all w = .ok (items, w')) : items.length = all.length := by
  induction all generalizing items w with
  | nil =>
    cases h
    rfl
  | cons values all ih =>
    obtain ⟨⟨item, w₁⟩, _, h⟩ := bind_eq_ok.mp h
    obtain ⟨⟨rows, w₂⟩, hrest, h⟩ := bind_eq_ok.mp h
    cases h
    exact congrArg (· + 1) (ih hrest)

theorem keepItems_of_none {items : List (Option PyRow)} {slots : List (TupleTableSlot Datum)}
    {m : ConversionState} (hnone : ∀ item ∈ items, item = none)
    (hlen : items.length = slots.length) : keepItems C I desc items slots m = .ok (slots, m) := by
  induction items generalizing slots with
  | nil =>
    have : slots = [] := List.eq_nil_of_length_eq_zero hlen.symm
    subst slots
    rfl
  | cons item items ih =>
    cases slots with
    | nil => cases hlen
    | cons slot slots =>
      have hitem : item = none := hnone item List.mem_cons_self
      subst item
      have hrest : keepItems C I desc items slots m = .ok (slots, m) :=
        ih (fun item hitem => hnone item (List.mem_cons_of_mem _ hitem)) (Nat.succ.inj hlen)
      exact bind_eq_ok.mpr ⟨_, rfl, bind_eq_ok.mpr ⟨_, hrest, rfl⟩⟩

/-- The loop over a returned list fails on the first `None`; before it, it does what the single
inserts do. -/
theorem storeItems_eq_ok {items : List (Option PyRow)} {slots : List (TupleTableSlot Datum)}
    {m : ConversionState} {r : List (TupleTableSlot Datum) × ConversionState}
    (hlen : items.length = slots.length) :
    storeItems C I desc items slots m = .ok r ↔
      keepItems C I desc items slots m = .ok r ∧ none ∉ items := by
  induction items generalizing slots m r with
  | nil =>
    have : slots = [] := List.eq_nil_of_length_eq_zero hlen.symm
    subst slots
    exact ⟨fun h => ⟨h, List.not_mem_nil⟩, fun h => h.1⟩
  | cons item items ih =>
    cases slots with
    | nil => cases hlen
    | cons slot slots =>
      have hlen' : items.length = slots.length := Nat.succ.inj hlen
      cases item with
      | none =>
        constructor
        · intro h
          obtain ⟨_, hstore, _⟩ := bind_eq_ok.mp h
          cases hstore
        · exact fun h => absurd List.mem_cons_self h.2
      | some row =>
        constructor
        · intro h
          obtain ⟨⟨slot₁, m₁⟩, hstore, h⟩ := bind_eq_ok.mp h
          obtain ⟨⟨slots₁, m₂⟩, hrest, h⟩ := bind_eq_ok.mp h
          cases h
          obtain ⟨hkeep, hnone⟩ := (ih hlen').mp hrest
          exact ⟨bind_eq_ok.mpr ⟨_, hstore, bind_eq_ok.mpr ⟨_, hkeep, rfl⟩⟩,
            by simpa using hnone⟩
        · intro ⟨h, hnone⟩
          obtain ⟨⟨slot₁, m₁⟩, hstore, h⟩ := bind_eq_ok.mp h
          obtain ⟨⟨slots₁, m₂⟩, hkeep, h⟩ := bind_eq_ok.mp h
          cases h
          have hrest : storeItems C I desc items slots m₁ = .ok (slots₁, m₂) :=
            (ih hlen').mpr ⟨hkeep, fun hmem => hnone (List.mem_cons_of_mem _ hmem)⟩
          exact bind_eq_ok.mpr ⟨_, hstore, bind_eq_ok.mpr ⟨_, hrest, rfl⟩⟩

/-- A batch: the values go out and the rows come back in the order of the slots, and then the
slots are written. -/
theorem execForeignBatchInsert_eq_ok {slots slots' : List (TupleTableSlot Datum)}
    {s s' : InsertState W} :
    multicornExecForeignBatchInsert T C I desc wrapper slots s = .ok (slots', s') ↔
      ∃ all items, slots.mapM (slotToPyObject T desc) = some all ∧
        insertMany wrapper.insert all s.remote = .ok (items, s'.remote) ∧
        keepItems C I desc items slots s.conversion = .ok (slots', s'.conversion) ∧
        wrapper.Unmixed items := by
  obtain ⟨m', w'⟩ := s'
  constructor
  · intro h
    obtain ⟨all, hall, h⟩ := bind_eq_ok.mp h
    obtain ⟨⟨returned, w₁⟩, hbulk, h⟩ := bind_eq_ok.mp h
    rw [mapError_eq_ok] at hbulk
    obtain ⟨⟨items, w₂⟩, hmany, hbulk⟩ := bind_eq_ok.mp hbulk
    cases hbulk
    have hall := elim_eq_ok.mp hall
    have hlen : items.length = slots.length :=
      (insertMany_length hmany).trans (forall₂_of_mapM_some hall).length_eq.symm
    rcases wrapper.report_exact items with hreport | ⟨hreport, hnone⟩
    · simp only [hreport, if_pos hlen] at h
      obtain ⟨⟨slots₁, m₁⟩, hstore, h⟩ := bind_eq_ok.mp h
      cases h
      obtain ⟨hkeep, hmixed⟩ := (storeItems_eq_ok hlen).mp hstore
      exact ⟨all, items, hall, hmany, hkeep, .inr hmixed⟩
    · simp only [hreport] at h
      cases h
      exact ⟨all, items, hall, hmany, keepItems_of_none hnone hlen, .inl hreport⟩
  · intro ⟨all, items, hall, hmany, hkeep, hunmixed⟩
    have hlen : items.length = slots.length :=
      (insertMany_length hmany).trans (forall₂_of_mapM_some hall).length_eq.symm
    have hbulk : wrapper.bulk_insert all s.remote = .ok (wrapper.report items, w') :=
      bind_eq_ok.mpr ⟨_, hmany, rfl⟩
    refine bind_eq_ok.mpr ⟨_, elim_eq_ok.mpr hall,
      bind_eq_ok.mpr ⟨_, mapError_eq_ok.mpr hbulk, ?_⟩⟩
    rcases wrapper.report_exact items with hreport | ⟨hreport, hnone⟩
    · have hmixed : none ∉ items := hunmixed.resolve_left (by rw [hreport]; nofun)
      simp only [hreport, if_pos hlen]
      exact bind_eq_ok.mpr ⟨_, (storeItems_eq_ok hlen).mpr ⟨hkeep, hmixed⟩, rfl⟩
    · rw [keepItems_of_none hnone hlen] at hkeep
      cases hkeep
      simp only [hreport]
      rfl

variable (T desc wrapper) in
/-- No batch of the statement mixes rows and `None`. -/
def UnmixedBatches (batches : List (List (TupleTableSlot Datum))) (w : W) : Prop :=
  ∀ alls results w', batches.mapM (List.mapM (slotToPyObject T desc)) = some alls →
    insertEach wrapper.insert alls w = .ok (results, w') → ∀ rows ∈ results, wrapper.Unmixed rows

/-- Where all rows are inserted, so are they batch by batch. -/
theorem exists_insertEach {batches : List (List (TupleTableSlot Datum))}
    {slots' : List (TupleTableSlot Datum)} {s s' : InsertState W}
    (h : insertRows T C I desc wrapper batches.flatten s = .ok (slots', s')) :
    ∃ alls results, batches.mapM (List.mapM (slotToPyObject T desc)) = some alls ∧
      insertEach wrapper.insert alls s.remote = .ok (results, s'.remote) := by
  induction batches generalizing slots' s with
  | nil =>
    cases h
    exact ⟨[], [], rfl, rfl⟩
  | cons batch batches ih =>
    rw [List.flatten_cons, insertRows_append] at h
    obtain ⟨⟨first, s₁⟩, hfirst, h⟩ := bind_eq_ok.mp h
    obtain ⟨⟨second, s₂⟩, hsecond, h⟩ := bind_eq_ok.mp h
    cases h
    obtain ⟨all, items, hall, hmany, _⟩ := insertRows_eq_ok.mp hfirst
    obtain ⟨alls, results, halls, heach⟩ := ih hsecond
    refine ⟨all :: alls, items :: results, ?_, ?_⟩
    · rw [List.mapM_cons, hall, halls]
      rfl
    · exact bind_eq_ok.mpr ⟨_, hmany, bind_eq_ok.mpr ⟨_, heach, rfl⟩⟩

theorem unmixedBatches_cons {batch : List (TupleTableSlot Datum)}
    {batches : List (List (TupleTableSlot Datum))} {all : List Values}
    {items : List (Option PyRow)} {w w₁ : W} (hall : batch.mapM (slotToPyObject T desc) = some all)
    (hmany : insertMany wrapper.insert all w = .ok (items, w₁)) (hitems : wrapper.Unmixed items)
    (hrest : UnmixedBatches T desc wrapper batches w₁) :
    UnmixedBatches T desc wrapper (batch :: batches) w := by
  intro alls results w' halls heach rows hrows
  rw [List.mapM_cons] at halls
  obtain ⟨all', hall', halls⟩ := Option.bind_eq_some_iff.mp halls
  obtain ⟨alls', halls', halls⟩ := Option.bind_eq_some_iff.mp halls
  cases halls
  cases hall.symm.trans hall'
  obtain ⟨⟨items', w₂⟩, hmany', heach⟩ := bind_eq_ok.mp heach
  obtain ⟨⟨more, w₃⟩, hmore, heach⟩ := bind_eq_ok.mp heach
  cases heach
  cases hmany.symm.trans hmany'
  rcases List.mem_cons.mp hrows with rfl | hrows
  · exact hitems
  · exact hrest alls' more _ halls' hmore rows hrows

/-- For every way of cutting the rows of a statement into batches, the batches succeed as the
single inserts do, with the same slots and the same remote state, exactly when no batch mixes
rows and `None`. -/
theorem insertBatches_agree_iff (T : TypeSystem) (C : Charset) (I : InputFunctions Datum)
    (desc : List FormAttribute) (wrapper : BulkWrapper W)
    (batches : List (List (TupleTableSlot Datum))) (s : InsertState W)
    (r : List (TupleTableSlot Datum) × InsertState W) :
    insertBatches T C I desc wrapper batches s = .ok r ↔
      insertRows T C I desc wrapper batches.flatten s = .ok r ∧
        UnmixedBatches T desc wrapper batches s.remote := by
  induction batches generalizing s r with
  | nil =>
    refine ⟨fun h => ⟨h, fun alls results w' halls heach rows hrows => ?_⟩, fun h => h.1⟩
    cases halls
    cases heach
    cases hrows
  | cons batch batches ih =>
    rw [List.flatten_cons, insertRows_append]
    constructor
    · intro h
      obtain ⟨⟨first, s₁⟩, hbatch, h⟩ := bind_eq_ok.mp h
      obtain ⟨⟨second, s₂⟩, hrest, h⟩ := bind_eq_ok.mp h
      obtain ⟨all, items, hall, hmany, hkeep, hitems⟩ := execForeignBatchInsert_eq_ok.mp hbatch
      obtain ⟨hsecond, hunmixed⟩ := (ih _ _).mp hrest
      have hfirst : insertRows T C I desc wrapper batch s = .ok (first, s₁) :=
        insertRows_eq_ok.mpr ⟨all, items, hall, hmany, hkeep⟩
      exact ⟨bind_eq_ok.mpr ⟨_, hfirst, bind_eq_ok.mpr ⟨_, hsecond, h⟩⟩,
        unmixedBatches_cons hall hmany hitems hunmixed⟩
    · intro ⟨h, hunmixed⟩
      obtain ⟨⟨first, s₁⟩, hfirst, h⟩ := bind_eq_ok.mp h
      obtain ⟨⟨second, s₂⟩, hsecond, h⟩ := bind_eq_ok.mp h
      obtain ⟨all, items, hall, hmany, hkeep⟩ := insertRows_eq_ok.mp hfirst
      have hcons : ∀ {alls}, batches.mapM (List.mapM (slotToPyObject T desc)) = some alls →
          (batch :: batches).mapM (List.mapM (slotToPyObject T desc)) = some (all :: alls) := by
        intro alls halls
        rw [List.mapM_cons, hall, halls]
        rfl
      have heach : ∀ {alls results w'},
          insertEach wrapper.insert alls s₁.remote = .ok (results, w') →
          insertEach wrapper.insert (all :: alls) s.remote = .ok (items :: results, w') :=
        fun heach => bind_eq_ok.mpr ⟨_, hmany, bind_eq_ok.mpr ⟨_, heach, rfl⟩⟩
      obtain ⟨alls, results, halls, hresults⟩ := exists_insertEach hsecond
      have hitems : wrapper.Unmixed items :=
        hunmixed _ _ _ (hcons halls) (heach hresults) items List.mem_cons_self
      have hrest : UnmixedBatches T desc wrapper batches s₁.remote :=
        fun alls results w' halls hresults rows hrows =>
          hunmixed _ _ _ (hcons halls) (heach hresults) rows (List.mem_cons_of_mem _ hrows)
      have hbatch : multicornExecForeignBatchInsert T C I desc wrapper batch s =
          .ok (first, s₁) :=
        execForeignBatchInsert_eq_ok.mpr ⟨all, items, hall, hmany, hkeep, hitems⟩
      exact bind_eq_ok.mpr ⟨_, hbatch,
        bind_eq_ok.mpr ⟨_, (ih _ _).mpr ⟨hsecond, hrest⟩, h⟩⟩

/-- Returns the second row only. -/
def secondRow : BulkWrapper Bool where
  insert _ seen := .ok (if seen then some (.mapping fun _ => none) else none, true)
  report := .list
  report_exact _ := .inl rfl

example (T : TypeSystem) (C : Charset) (I : InputFunctions Datum) (slot : TupleTableSlot Datum)
    (m : ConversionState) :
    (insertBatches T C I [] secondRow [[slot], [slot, slot]] ⟨m, false⟩).toOption.isNone ∧
      (insertRows T C I [] secondRow [slot, slot, slot] ⟨m, false⟩).toOption.isSome :=
  ⟨rfl, rfl⟩

end Fission

end Multicorn.Modify
