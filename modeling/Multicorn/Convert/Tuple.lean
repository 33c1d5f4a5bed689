import Mathlib.Logic.Function.Basic
import Multicorn.Catalog.Options
import Multicorn.Convert.CString

/-! Rows returned by a wrapper, written into a tuple slot column by column. -/
namespace Multicorn.Convert
open Multicorn.Catalog
open Multicorn.ArrayLiteral (Bytes)
open Multicorn.StateMonad

/-- The attributes of a relation with their dimensions; `attnum` is the position plus one. -/
structure FormAttribute extends Attribute where
  attndims : ℕ

/-- `initConversioninfo`: a dropped column has no record. -/
def initConversioninfo (desc : List FormAttribute) (i : ℕ) : Option ConversionInfo :=
  match desc[i]? with
  | none => none
  | some attr =>
    if attr.attisdropped then none
    else some ⟨attr.attname, attr.atttypid, attr.atttypmod, i + 1, attr.attndims, false⟩

/-- A datum is `none` when it is the zero word. -/
structure TupleTableSlot (D : Type) where
  values : ℕ → Option D
  isnull : ℕ → Bool

structure RowState (D : Type) where
  slot : TupleTableSlot D
  cinfos : ℕ → Option ConversionInfo
  buffer : Bytes

abbrev RowM (D : Type) := EStateM Failure (RowState D)

/-- What a wrapper returns for a row, told apart by `PySequence_Check` and
`PyMapping_Check`. -/
inductive PyRow
  | sequence (items : List PyValue)
  | mapping (item : String → Option PyValue)
  | other

section Source

variable {D : Type} (C : Charset) (I : InputFunctions D)

def putValue (i : ℕ) (d : D) : RowM D Unit :=
  modify fun st => { st with
    slot := ⟨Function.update st.slot.values i (some d), Function.update st.slot.isnull i false⟩ }

def putNull (i : ℕ) : RowM D Unit :=
  modify fun st => { st with
    slot := ⟨Function.update st.slot.values i none, Function.update st.slot.isnull i true⟩ }

/-- The conversion of an object for column `i`, on a buffer that was reset. -/
def convertColumn (i : ℕ) (cinfo : ConversionInfo) (object : PyValue) : RowM D D := fun st =>
  match pyobjectToDatum C I object ⟨cinfo, []⟩ with
  | .ok d c =>
    .ok d { st with cinfos := Function.update st.cinfos i (some c.cinfo), buffer := c.buffer }
  | .error e c =>
    .error e { st with cinfos := Function.update st.cinfos i (some c.cinfo), buffer := c.buffer }

/-- The branch both loops have on the object found for a column. -/
def storeItem (i : ℕ) (cinfo : ConversionInfo) : Option PyValue → RowM D Unit
  | none => putNull i
  | some .none => putNull i
  | some object => do putValue i (← convertColumn C I i cinfo object)

def storeColumn (i : ℕ) (item : ConversionInfo → Option PyValue) : RowM D Unit := do
  match (← get).cinfos i with
  | none => pure ()
  | some cinfo => storeItem C I i cinfo (item cinfo)

/-- The loop of `pythonDictToTuple` over the positions left. -/
def pythonDictToTuple (item : String → Option PyValue) : List ℕ → RowM D Unit
  | [] => pure ()
  | i :: is => do
    storeColumn C I i fun cinfo => item cinfo.attrname
    pythonDictToTuple item is

/-- The loop of `pythonSequenceToTuple`; a missing item is found by the error check, when
the column is already marked null. -/
def pythonSequenceToTuple (items : List PyValue) : List ℕ → ℕ → RowM D Unit
  | [], _ => pure ()
  | i :: is, j => do
    match (← get).cinfos i with
    | none => pythonSequenceToTuple items is j
    | some cinfo =>
      storeItem C I i cinfo items[j]?
      if items[j]?.isNone then throw .indexError
      else pythonSequenceToTuple items is (j + 1)

def pythonResultToTuple (natts : ℕ) : PyRow → RowM D Unit
  | .sequence items => pythonSequenceToTuple C I items (List.range natts) 0
  | .mapping item => pythonDictToTuple C I item (List.range natts)
  | .other => throw .notARow

end Source

/-! A conversion that succeeds leaves the column's record as it found it. -/

def KeepsCinfo {α : Type} (x : M α) : Prop := ∀ a s s', x s = .ok a s' → s'.cinfo = s.cinfo

theorem KeepsCinfo.bind {α β : Type} {x : M α} {f : α → M β} (hx : KeepsCinfo x)
    (hf : ∀ a, KeepsCinfo (f a)) : KeepsCinfo (x >>= f) := by
  intro b s s' h
  obtain ⟨a, s₁, h₁, h₂⟩ := bind_eq_ok.mp h
  exact (hf a _ _ _ h₂).trans (hx _ _ _ h₁)

theorem keepsCinfo_pure {α : Type} (a : α) : KeepsCinfo (pure a : M α) := by
  intro b s s' h
  rw [(pure_eq_ok.mp h).2]

theorem keepsCinfo_append (text : Bytes) : KeepsCinfo (append text) := by
  intro _ s s' h
  rw [← modify_eq_ok.mp h]

theorem keepsCinfo_appendQuote (text : Bytes) : KeepsCinfo (appendQuote text) := by
  intro _ s s' h
  rw [← modify_eq_ok.mp h]

theorem keepsCinfo_asEncodedString (C : Charset) (s : List Char) :
    KeepsCinfo (asEncodedString C s) := by
  unfold asEncodedString
  split
  · exact keepsCinfo_pure _
  · exact fun _ _ _ h => absurd h throw_ne_ok

theorem keepsCinfo_appendSeparator (last : Bool) : KeepsCinfo (appendSeparator last) := by
  cases last with
  | true => exact keepsCinfo_pure ()
  | false => exact keepsCinfo_append _

mutual

theorem pyobjectToCString_keeps (C : Charset) :
    ∀ value, KeepsCinfo (pyobjectToCString C value)
  | .none => by
    rw [pyobjectToCString]
    exact keepsCinfo_pure ()
  | .number str => by
    rw [pyobjectToCString]
    exact (keepsCinfo_asEncodedString C str).bind keepsCinfo_append
  | .unicode s => by
    rw [pyobjectToCString]
    exact (keepsCinfo_asEncodedString C s).bind keepsCinfo_appendQuote
  | .bytes b => by
    rw [pyobjectToCString]
    exact keepsCinfo_appendQuote b
  | .sequence items str => by
    rw [pyobjectToCString]
    intro _ s s' h
    obtain ⟨s₀, s₁, hget, h⟩ := bind_eq_ok.mp h
    obtain ⟨rfl, rfl⟩ := get_eq_ok.mp hget
    split at h
    · exact ((keepsCinfo_asEncodedString C str).bind keepsCinfo_appendQuote) _ _ _ h
    · obtain ⟨_, s₁, h₁, h⟩ := bind_eq_ok.mp h
      obtain ⟨_, s₂, h₂, h⟩ := bind_eq_ok.mp h
      obtain ⟨_, s₃, h₃, h⟩ := bind_eq_ok.mp h
      obtain ⟨_, s₄, h₄, h⟩ := bind_eq_ok.mp h
      have hitems := pysequenceItems_keeps C items _ _ _ h₃
      rw [← modify_eq_ok.mp h, ← modify_eq_ok.mp h₄]
      simp only [hitems, ← modify_eq_ok.mp h₂, ← modify_eq_ok.mp h₁]
  | .mapping items => by
    rw [pyobjectToCString]
    intro _ s s' h
    obtain ⟨s₀, s₁, hget, h⟩ := bind_eq_ok.mp h
    obtain ⟨rfl, rfl⟩ := get_eq_ok.mp hget
    obtain ⟨_, s₁, h₁, h⟩ := bind_eq_ok.mp h
    obtain ⟨_, s₂, h₂, h⟩ := bind_eq_ok.mp h
    obtain ⟨s₃, s₄, hget, h⟩ := bind_eq_ok.mp h
    obtain ⟨rfl, rfl⟩ := get_eq_ok.mp hget
    have hitems := pymappingItems_keeps C items _ _ _ h₂
    rw [← modify_eq_ok.mp h]
    simp only [hitems, ← modify_eq_ok.mp h₁]
  | .date isoformat => by
    rw [pyobjectToCString]
    exact (keepsCinfo_asEncodedString C isoformat).bind keepsCinfo_append
  | .unknown str => by
    rw [pyobjectToCString]
    exact (keepsCinfo_asEncodedString C str).bind keepsCinfo_appendQuote

theorem pysequenceItems_keeps (C : Charset) : ∀ items, KeepsCinfo (pysequenceItems C items)
  | [] => by
    rw [pysequenceItems]
    exact keepsCinfo_pure ()
  | item :: items => by
    rw [pysequenceItems]
    exact (pyobjectToCString_keeps C item).bind fun _ =>
      (keepsCinfo_appendSeparator items.isEmpty).bind fun _ => pysequenceItems_keeps C items

theorem pymappingItems_keeps (C : Charset) : ∀ items, KeepsCinfo (pymappingItems C items)
  | [] => by
    rw [pymappingItems]
    exact keepsCinfo_pure ()
  | item :: items => by
    rw [pymappingItems]
    exact (pymappingItem_keeps C item).bind fun _ =>
      (keepsCinfo_appendSeparator items.isEmpty).bind fun _ => pymappingItems_keeps C items

theorem pymappingItem_keeps (C : Charset) : ∀ item, KeepsCinfo (pymappingItem C item)
  | (key, value) => by
    rw [pymappingItem]
    exact (pyobjectToCString_keeps C key).bind fun _ =>
      (keepsCinfo_append _).bind fun _ => pyobjectToCString_keeps C value

end

theorem pyobjectToDatum_keeps {D : Type} (C : Charset) (I : InputFunctions D) (object : PyValue) :
    KeepsCinfo (pyobjectToDatum C I object) := by
  refine (pyobjectToCString_keeps C object).bind fun _ => ?_
  intro d s s' h
  obtain ⟨s₀, s₁, hget, h⟩ := bind_eq_ok.mp h
  obtain ⟨rfl, rfl⟩ := get_eq_ok.mp hget
  dsimp only at h
  split at h
  · rw [(pure_eq_ok.mp h).2]
  · cases hd : I.inputFunctionCall s.cinfo.atttypoid s.cinfo.atttypmod (cstring s.buffer) with
    | none =>
      rw [hd] at h
      exact absurd h throw_ne_ok
    | some d' =>
      rw [hd] at h
      rw [(pure_eq_ok.mp h).2]

section Loops

variable {D : Type} {C : Charset} {I : InputFunctions D}

/-- What a position holds for the object found for its column. -/
def Column (C : Charset) (I : InputFunctions D) (cinfo : ConversionInfo) :
    Option PyValue → Option D → Bool → Prop
  | none, value, isnull => value = none ∧ isnull = true
  | some .none, value, isnull => value = none ∧ isnull = true
  | some object, value, isnull =>
    isnull = false ∧
      ∃ d s, pyobjectToDatum C I object ⟨cinfo, []⟩ = .ok d s ∧ value = some d

theorem storeItem_some {object : PyValue} (i : ℕ) (cinfo : ConversionInfo) (h : object ≠ .none) :
    storeItem C I i cinfo (some object) = convertColumn C I i cinfo object >>= putValue i := by
  cases object with
  | none => exact absurd rfl h
  | _ => rfl

theorem column_some {object : PyValue} {cinfo : ConversionInfo} {value : Option D} {isnull : Bool}
    (h : object ≠ .none) : Column C I cinfo (some object) value isnull ↔ isnull = false ∧
      ∃ d s, pyobjectToDatum C I object ⟨cinfo, []⟩ = .ok d s ∧ value = some d := by
  cases object with
  | none => exact absurd rfl h
  | _ => rfl

/-- Position `i` was written, nothing else was. -/
structure Stored (C : Charset) (I : InputFunctions D) (i : ℕ)
    (item : ConversionInfo → Option PyValue) (st st' : RowState D) : Prop where
  cinfos : st'.cinfos = st.cinfos
  others : ∀ k, k ≠ i → st'.slot.values k = st.slot.values k ∧ st'.slot.isnull k = st.slot.isnull k
  skipped : st.cinfos i = none → st'.slot = st.slot
  written : ∀ cinfo, st.cinfos i = some cinfo →
    Column C I cinfo (item cinfo) (st'.slot.values i) (st'.slot.isnull i)

theorem convertColumn_ok {i : ℕ} {cinfo : ConversionInfo} {object : PyValue} {d : D}
    {st st' : RowState D} (hi : st.cinfos i = some cinfo)
    (h : convertColumn C I i cinfo object st = .ok d st') :
    st'.cinfos = st.cinfos ∧ st'.slot = st.slot ∧
      ∃ s, pyobjectToDatum C I object ⟨cinfo, []⟩ = .ok d s := by
  unfold convertColumn at h
  cases hd : pyobjectToDatum C I object ⟨cinfo, []⟩ with
  | error e c =>
    rw [hd] at h
    cases h
  | ok d' c =>
    rw [hd] at h
    cases h
    have hc : c.cinfo = cinfo := pyobjectToDatum_keeps C I object _ _ _ hd
    exact ⟨by rw [hc, ← hi, Function.update_eq_self], rfl, c, rfl⟩

theorem putNull_stored {i : ℕ} {item : ConversionInfo → Option PyValue} {cinfo : ConversionInfo}
    {st st' : RowState D} (hi : st.cinfos i = some cinfo)
    (hitem : item cinfo = none ∨ item cinfo = some .none) (h : putNull i st = .ok () st') :
    Stored C I i item st st' := by
  rw [← modify_eq_ok.mp h]
  refine ⟨rfl, fun k hk => ?_, fun hnone => ?_, fun cinfo' hc => ?_⟩
  · simp [Function.update_of_ne hk]
  · rw [hi] at hnone
    cases hnone
  · obtain rfl := Option.some.inj (hi.symm.trans hc)
    rcases hitem with hitem | hitem <;> simp [hitem, Column]

theorem storeItem_stored {i : ℕ} {item : ConversionInfo → Option PyValue} {cinfo : ConversionInfo}
    {st st' : RowState D} (hi : st.cinfos i = some cinfo)
    (h : storeItem C I i cinfo (item cinfo) st = .ok () st') : Stored C I i item st st' := by
  cases hitem : item cinfo with
  | none =>
    rw [hitem] at h
    exact putNull_stored hi (.inl hitem) h
  | some object =>
    rw [hitem] at h
    by_cases hne : object = .none
    · subst hne
      exact putNull_stored hi (.inr hitem) h
    rw [storeItem_some i cinfo hne] at h
    obtain ⟨d, st₁, hconv, hput⟩ := bind_eq_ok.mp h
    obtain ⟨hcinfos, hslot, s, hd⟩ := convertColumn_ok hi hconv
    rw [← modify_eq_ok.mp hput]
    refine ⟨hcinfos, fun k hk => ?_, fun hnone => ?_, fun cinfo' hc => ?_⟩
    · simp [Function.update_of_ne hk, hslot]
    · rw [hi] at hnone
      cases hnone
    · obtain rfl := Option.some.inj (hi.symm.trans hc)
      rw [hitem, column_some hne]
      exact ⟨by simp, d, s, hd, by simp⟩

theorem storeColumn_stored {i : ℕ} {item : ConversionInfo → Option PyValue}
    {st st' : RowState D} (h : storeColumn C I i item st = .ok () st') :
    Stored C I i item st st' := by
  obtain ⟨s, s₁, hget, h⟩ := bind_eq_ok.mp h
  obtain ⟨rfl, rfl⟩ := get_eq_ok.mp hget
  cases hi : st.cinfos i with
  | none =>
    rw [hi] at h
    obtain ⟨-, rfl⟩ := pure_eq_ok.mp h
    refine ⟨rfl, fun _ _ => ⟨rfl, rfl⟩, fun _ => rfl, fun cinfo hc => ?_⟩
    rw [hi] at hc
    cases hc
  | some cinfo =>
    rw [hi] at h
    exact storeItem_stored hi h

/-- The positions `is` were written, nothing else was. -/
structure StoredAll (C : Charset) (I : InputFunctions D) (is : List ℕ)
    (item : ℕ → ConversionInfo → Option PyValue) (st st' : RowState D) : Prop where
  cinfos : st'.cinfos = st.cinfos
  kept : ∀ k, k ∉ is ∨ st.cinfos k = none →
    st'.slot.values k = st.slot.values k ∧ st'.slot.isnull k = st.slot.isnull k
  written : ∀ k ∈ is, ∀ cinfo, st.cinfos k = some cinfo →
    Column C I cinfo (item k cinfo) (st'.slot.values k) (st'.slot.isnull k)

theorem StoredAll.nil (item : ℕ → ConversionInfo → Option PyValue) (st : RowState D) :
    StoredAll C I [] item st st :=
  ⟨rfl, fun _ _ => ⟨rfl, rfl⟩, fun _ h => absurd h List.not_mem_nil⟩

theorem StoredAll.cons {i : ℕ} {is : List ℕ} {item : ℕ → ConversionInfo → Option PyValue}
    {st st₁ st' : RowState D} (hi : i ∉ is) (h : Stored C I i (item i) st st₁)
    (hs : StoredAll C I is item st₁ st') : StoredAll C I (i :: is) item st st' where
  cinfos := hs.cinfos.trans h.cinfos
  kept k hk := by
    have hkeep : k ≠ i ∨ st.cinfos i = none := by
      rcases hk with hk | hk
      · exact .inl fun h => hk (h ▸ List.mem_cons_self)
      · by_cases hki : k = i
        · exact .inr (hki ▸ hk)
        · exact .inl hki
    have hfirst : st₁.slot.values k = st.slot.values k ∧ st₁.slot.isnull k = st.slot.isnull k := by
      rcases hkeep with hki | hnone
      · exact h.others k hki
      · rw [h.skipped hnone]
        exact ⟨rfl, rfl⟩
    have hrest := hs.kept k (by
      rw [h.cinfos]
      exact hk.imp_left fun hk hm => hk (List.mem_cons_of_mem _ hm))
    exact ⟨hrest.1.trans hfirst.1, hrest.2.trans hfirst.2⟩
  written k hk cinfo hc := by
    rcases List.mem_cons.mp hk with rfl | hk
    · obtain ⟨hvalue, hnull⟩ := hs.kept k (.inl hi)
      rw [hvalue, hnull]
      exact h.written cinfo hc
    · exact hs.written k hk cinfo (by rw [h.cinfos, hc])

theorem pythonDictToTuple_stored {item : String → Option PyValue} {is : List ℕ} (hnodup : is.Nodup)
    {st st' : RowState D} (h : pythonDictToTuple C I item is st = .ok () st') :
    StoredAll C I is (fun _ cinfo => item cinfo.attrname) st st' := by
  induction is generalizing st with
  | nil =>
    obtain ⟨-, rfl⟩ := pure_eq_ok.mp h
    exact .nil _ _
  | cons i is ih =>
    obtain ⟨hi, hnodup⟩ := List.nodup_cons.mp hnodup
    obtain ⟨_, st₁, h₁, h⟩ := bind_eq_ok.mp h
    exact .cons hi (storeColumn_stored h₁) (ih hnodup h)

/-- An object that some column content can come of is stored without an error. -/
theorem storeItem_runs {i : ℕ} {cinfo : ConversionInfo} {item : Option PyValue}
    (h : ∃ value isnull, Column C I cinfo item value isnull) (st : RowState D) :
    ∃ st', storeItem C I i cinfo item st = .ok () st' := by
  obtain ⟨value, isnull, h⟩ := h
  cases item with
  | none => exact ⟨_, rfl⟩
  | some object =>
    by_cases hne : object = .none
    · subst hne
      exact ⟨_, rfl⟩
    obtain ⟨-, d, s, hd, -⟩ := (column_some hne).mp h
    rw [storeItem_some i cinfo hne]
    simp only [bind, EStateM.bind, convertColumn, hd]
    exact ⟨_, rfl⟩

theorem pythonDictToTuple_runs {item : String → Option PyValue} {is : List ℕ} {st : RowState D}
    (h : ∀ i ∈ is, ∀ cinfo, st.cinfos i = some cinfo →
      ∃ value isnull, Column C I cinfo (item cinfo.attrname) value isnull) :
    ∃ st', pythonDictToTuple C I item is st = .ok () st' := by
  induction is generalizing st with
  | nil => exact ⟨st, rfl⟩
  | cons i is ih =>
    have hcolumn : ∃ st₁, storeColumn C I i (fun cinfo => item cinfo.attrname) st = .ok () st₁ := by
      simp only [storeColumn, bind, EStateM.bind, get, getThe, MonadStateOf.get, run_get]
      cases hc : st.cinfos i with
      | none => exact ⟨st, rfl⟩
      | some cinfo => exact storeItem_runs (h i List.mem_cons_self cinfo hc) st
    obtain ⟨st₁, h₁⟩ := hcolumn
    have hcinfos := (storeColumn_stored h₁).cinfos
    obtain ⟨st', h'⟩ := @ih st₁ fun k hk cinfo hc =>
      h k (List.mem_cons_of_mem _ hk) cinfo (by rw [← hcinfos, hc])
    refine ⟨st', ?_⟩
    simp only [pythonDictToTuple, bind, EStateM.bind, h₁, h']

/-- How many columns before a position are live: the index of its item in a sequence. -/
def rank (cinfos : ℕ → Option ConversionInfo) : ℕ → ℕ
  | 0 => 0
  | i + 1 => if (cinfos i).isSome then rank cinfos i + 1 else rank cinfos i

theorem rank_live {cinfos : ℕ → Option ConversionInfo} {i : ℕ} {cinfo : ConversionInfo}
    (h : cinfos i = some cinfo) : rank cinfos (i + 1) = rank cinfos i + 1 := by
  simp [rank, h]

theorem rank_dropped {cinfos : ℕ → Option ConversionInfo} {i : ℕ} (h : cinfos i = none) :
    rank cinfos (i + 1) = rank cinfos i := by
  simp [rank, h]

/-- The next step of the sequence loop at a dropped column. -/
theorem pythonSequenceToTuple_dropped (items : List PyValue) (is : List ℕ) (j : ℕ) {i : ℕ}
    {st : RowState D} (h : st.cinfos i = none) :
    pythonSequenceToTuple C I items (i :: is) j st = pythonSequenceToTuple C I items is j st := by
  simp [pythonSequenceToTuple, bind, EStateM.bind, get, getThe, MonadStateOf.get, run_get, h]

/-- The next step of the sequence loop at a live column. -/
theorem pythonSequenceToTuple_live (items : List PyValue) (is : List ℕ) (j : ℕ) {i : ℕ}
    {cinfo : ConversionInfo} {st : RowState D} (h : st.cinfos i = some cinfo) :
    pythonSequenceToTuple C I items (i :: is) j st =
      (storeItem C I i cinfo items[j]? >>= fun _ =>
        if items[j]?.isNone then throw .indexError
        else pythonSequenceToTuple C I items is (j + 1)) st := by
  simp [pythonSequenceToTuple, bind, EStateM.bind, get, getThe, MonadStateOf.get, run_get, h]

theorem pythonSequenceToTuple_stored {items : List PyValue} {n i : ℕ} {st st' : RowState D}
    (h : pythonSequenceToTuple C I items (List.range' i n) (rank st.cinfos i) st = .ok () st') :
    StoredAll C I (List.range' i n) (fun k _ => items[rank st.cinfos k]?) st st' := by
  induction n generalizing i st with
  | zero =>
    obtain ⟨-, rfl⟩ := pure_eq_ok.mp h
    exact .nil _ _
  | succ n ih =>
    rw [List.range'_succ] at h ⊢
    have hi : i ∉ List.range' (i + 1) n := by simp
    cases hc : st.cinfos i with
    | none =>
      rw [pythonSequenceToTuple_dropped _ _ _ hc, ← rank_dropped hc] at h
      refine .cons hi ⟨rfl, fun _ _ => ⟨rfl, rfl⟩, fun _ => rfl, fun cinfo h => ?_⟩ (ih h)
      rw [hc] at h
      cases h
    | some cinfo =>
      rw [pythonSequenceToTuple_live _ _ _ hc] at h
      obtain ⟨_, st₁, hitem, h⟩ := bind_eq_ok.mp h
      have hstored : Stored C I i (fun _ => items[rank st.cinfos i]?) st st₁ :=
        storeItem_stored hc hitem
      split at h
      · exact absurd h throw_ne_ok
      · rw [← rank_live hc, ← hstored.cinfos] at h
        have hrest := ih h
        rw [hstored.cinfos] at hrest
        exact .cons hi hstored hrest

/-- Both loops run alike on a sequence that lists the mapping's values column by column. -/
theorem pythonSequenceToTuple_eq_dict {items : List PyValue} {item : String → Option PyValue}
    {n i : ℕ} {st : RowState D}
    (h : ∀ k cinfo, i ≤ k → k < i + n → st.cinfos k = some cinfo →
      items[rank st.cinfos k]? = some ((item cinfo.attrname).getD .none)) :
    pythonSequenceToTuple C I items (List.range' i n) (rank st.cinfos i) st =
      pythonDictToTuple C I item (List.range' i n) st := by
  induction n generalizing i st with
  | zero => rfl
  | succ n ih =>
    rw [List.range'_succ]
    have hdict : pythonDictToTuple C I item (i :: List.range' (i + 1) n) st =
        (storeColumn C I i (fun cinfo => item cinfo.attrname) >>= fun _ =>
          pythonDictToTuple C I item (List.range' (i + 1) n)) st := rfl
    rw [hdict]
    cases hc : st.cinfos i with
    | none =>
      have hskip : storeColumn C I i (fun cinfo => item cinfo.attrname) st = .ok () st := by
        simp [storeColumn, bind, EStateM.bind, get, getThe, MonadStateOf.get, run_get, hc, pure,
          EStateM.pure]
      rw [pythonSequenceToTuple_dropped _ _ _ hc, ← rank_dropped hc]
      simp only [bind, EStateM.bind, hskip]
      exact ih fun k cinfo hk hk' => h k cinfo (by omega) (by omega)
    | some cinfo =>
      have hitem := h i cinfo le_rfl (by omega) hc
      have hsame : storeColumn C I i (fun cinfo => item cinfo.attrname) st =
          storeItem C I i cinfo items[rank st.cinfos i]? st := by
        rw [hitem]
        simp only [storeColumn, bind, EStateM.bind, get, getThe, MonadStateOf.get, run_get, hc]
        cases item cinfo.attrname <;> rfl
      rw [pythonSequenceToTuple_live _ _ _ hc]
      simp only [bind, EStateM.bind, hsame]
      cases hrun : storeItem C I i cinfo items[rank st.cinfos i]? st with
      | error e st₁ => rfl
      | ok u st₁ =>
        have hstored : Stored C I i (fun _ => items[rank st.cinfos i]?) st st₁ :=
          storeItem_stored hc hrun
        have hcinfos := hstored.cinfos
        simp only [hitem, Option.isNone_some, Bool.false_eq_true, if_false]
        rw [← rank_live hc, ← hcinfos]
        refine ih fun k cinfo' hk hk' hk'' => ?_
        rw [hcinfos] at hk'' ⊢
        exact h k cinfo' (by omega) (by omega) hk''

theorem pythonSequenceToTuple_short {items : List PyValue} {n i : ℕ} {st : RowState D}
    (hle : rank st.cinfos i ≤ items.length) (hlt : items.length < rank st.cinfos (i + n)) :
    ∃ e st', pythonSequenceToTuple C I items (List.range' i n) (rank st.cinfos i) st =
      .error e st' := by
  induction n generalizing i st with
  | zero => exact absurd hlt (Nat.not_lt.mpr hle)
  | succ n ih =>
    rw [List.range'_succ]
    rw [show i + (n + 1) = i + 1 + n by omega] at hlt
    cases hc : st.cinfos i with
    | none =>
      rw [pythonSequenceToTuple_dropped _ _ _ hc, ← rank_dropped hc]
      exact ih (by rwa [rank_dropped hc]) hlt
    | some cinfo =>
      rw [pythonSequenceToTuple_live _ _ _ hc]
      simp only [bind, EStateM.bind]
      cases hrun : storeItem C I i cinfo items[rank st.cinfos i]? st with
      | error e st₁ => exact ⟨e, st₁, rfl⟩
      | ok u st₁ =>
        have hstored : Stored C I i (fun _ => items[rank st.cinfos i]?) st st₁ :=
          storeItem_stored hc hrun
        cases hitem : items[rank st.cinfos i]? with
        | none => exact ⟨.indexError, st₁, rfl⟩
        | some v =>
          obtain ⟨hlen, -⟩ := List.getElem?_eq_some_iff.mp hitem
          simp only [Option.isNone_some, Bool.false_eq_true, if_false]
          rw [← rank_live hc, ← hstored.cinfos]
          refine ih ?_ ?_
          · rw [hstored.cinfos, rank_live hc]
            exact hlen
          · rwa [hstored.cinfos]

theorem length_filterMap_range (cinfos : ℕ → Option ConversionInfo) (n : ℕ) :
    ((List.range n).filterMap cinfos).length = rank cinfos n := by
  induction n with
  | zero => rfl
  | succ n ih =>
    rw [List.range_succ, List.filterMap_append, List.length_append, ih, rank]
    cases h : cinfos n <;> simp [h]

theorem getElem?_filterMap_range (cinfos : ℕ → Option ConversionInfo) {n k : ℕ} (hk : k < n)
    {cinfo : ConversionInfo} (h : cinfos k = some cinfo) :
    ((List.range n).filterMap cinfos)[rank cinfos k]? = some cinfo := by
  have hsplit : List.range n = List.range k ++ k :: List.range' (k + 1) (n - k - 1) := by
    rw [List.range_eq_range', List.range_eq_range', ← List.range'_succ,
      show n - k - 1 + 1 = n - k by omega]
    have := List.range'_append_1 (s := 0) (m := k) (n := n - k)
    rw [Nat.zero_add, show k + (n - k) = n by omega] at this
    exact this.symm
  rw [hsplit, List.filterMap_append, List.getElem?_append_right (by
    rw [length_filterMap_range]), length_filterMap_range, Nat.sub_self,
    List.filterMap_cons_some h]
  rfl

end Loops

section Rows

variable {D : Type} (C : Charset) (I : InputFunctions D) (desc : List FormAttribute)

/-- The slot of a relation as the scan hands it over, whatever it held before. -/
def startRow (slot : TupleTableSlot D) : RowState D := ⟨slot, initConversioninfo desc, []⟩

def liveColumns : List ConversionInfo := (List.range desc.length).filterMap (initConversioninfo desc)

/-- The object a row has for a column. -/
def PyRow.itemOf (row : PyRow) (i : ℕ) (cinfo : ConversionInfo) : Option PyValue :=
  match row with
  | .sequence items => items[rank (initConversioninfo desc) i]?
  | .mapping item => item cinfo.attrname
  | .other => none

/-- Every position was written: a dropped column is null, a live one holds the conversion of
its own object. -/
structure Complete (row : PyRow) (slot : TupleTableSlot D) : Prop where
  dropped : ∀ i attr, desc[i]? = some attr → attr.attisdropped = true → slot.isnull i = true
  live : ∀ i cinfo, initConversioninfo desc i = some cinfo →
    Column C I cinfo (row.itemOf desc i cinfo) (slot.values i) (slot.isnull i)

/-- The null flags of the dropped columns were set before. -/
def DroppedNull (slot : TupleTableSlot D) : Prop :=
  ∀ i attr, desc[i]? = some attr → attr.attisdropped = true → slot.isnull i = true

variable {C I desc}

theorem initConversioninfo_dropped {i : ℕ} {attr : FormAttribute} (h : desc[i]? = some attr)
    (hd : attr.attisdropped = true) : initConversioninfo desc i = none := by
  simp [initConversioninfo, h, hd]

theorem initConversioninfo_lt {i : ℕ} {cinfo : ConversionInfo}
    (h : initConversioninfo desc i = some cinfo) : i < desc.length := by
  by_contra hi
  simp [initConversioninfo, List.getElem?_eq_none (Nat.le_of_not_lt hi)] at h

theorem pythonResultToTuple_stored {row : PyRow} {slot : TupleTableSlot D} {st' : RowState D}
    (h : pythonResultToTuple C I desc.length row (startRow desc slot) = .ok () st') :
    StoredAll C I (List.range desc.length) (row.itemOf desc) (startRow desc slot) st' := by
  cases row with
  | sequence items =>
    rw [pythonResultToTuple, List.range_eq_range'] at h
    rw [List.range_eq_range']
    exact pythonSequenceToTuple_stored h
  | mapping item => exact pythonDictToTuple_stored List.nodup_range h
  | other => exact absurd h throw_ne_ok

/-- A row that is converted fills the slot exactly when the dropped columns were null
before; both row shapes agree, and a sequence that is too short is an error. -/
theorem pythonResultToTuple_complete_iff (C : Charset) (I : InputFunctions D)
    (desc : List FormAttribute) (slot : TupleTableSlot D) :
    (∀ row st', pythonResultToTuple C I desc.length row (startRow desc slot) = .ok () st' →
      (Complete C I desc row st'.slot ↔ DroppedNull desc slot)) ∧
    (∀ item, pythonResultToTuple C I desc.length
        (.sequence ((liveColumns desc).map fun cinfo => (item cinfo.attrname).getD .none))
        (startRow desc slot) =
      pythonResultToTuple C I desc.length (.mapping item) (startRow desc slot)) ∧
    ∀ items, items.length < (liveColumns desc).length →
      ∃ e st', pythonResultToTuple C I desc.length (.sequence items) (startRow desc slot) =
        .error e st' := by
  refine ⟨fun row st' h => ?_, fun item => ?_, fun items hlen => ?_⟩
  · have hstored := pythonResultToTuple_stored h
    have hkept : ∀ i attr, desc[i]? = some attr → attr.attisdropped = true →
        st'.slot.isnull i = slot.isnull i := fun i attr hi hd =>
      (hstored.kept i (.inr (initConversioninfo_dropped hi hd))).2
    constructor
    · intro hcomplete i attr hi hd
      rw [← hkept i attr hi hd]
      exact hcomplete.dropped i attr hi hd
    · intro hnull
      refine ⟨fun i attr hi hd => ?_, fun i cinfo hc => ?_⟩
      · rw [hkept i attr hi hd]
        exact hnull i attr hi hd
      · exact hstored.written i (List.mem_range.mpr (initConversioninfo_lt hc)) cinfo hc
  · simp only [pythonResultToTuple, List.range_eq_range']
    refine @pythonSequenceToTuple_eq_dict D C I _ item desc.length 0 (startRow desc slot) ?_
    intro k cinfo _ hk hc
    rw [List.getElem?_map, liveColumns, Nat.zero_add] at *
    simp only [startRow] at hc ⊢
    rw [getElem?_filterMap_range _ hk hc, Option.map_some]
  · simp only [pythonResultToTuple, List.range_eq_range']
    refine @pythonSequenceToTuple_short D C I items desc.length 0 (startRow desc slot)
      (Nat.zero_le _) ?_
    rw [liveColumns, length_filterMap_range] at hlen
    rwa [Nat.zero_add]

/-- The first column was dropped and its flag reads "not null" as the scan starts. -/
theorem pythonResultToTuple_dropped_column :
    let desc : List FormAttribute :=
      [⟨⟨"old", 0, -1, true, []⟩, 0⟩, ⟨⟨"name", textOid, -1, false, []⟩, 0⟩]
    let row := PyRow.sequence [.unicode ['x']]
    let I : InputFunctions Bytes := ⟨fun _ _ text => some text, id⟩
    ∃ st', pythonResultToTuple asciiCharset I 2 row
        (startRow desc ⟨fun _ => none, fun _ => false⟩) = .ok () st' ∧
      ¬ Complete asciiCharset I desc row st'.slot := by
  intro desc row I
  refine ⟨_, rfl, fun h => ?_⟩
  have := h.dropped 0 _ rfl rfl
  exact absurd this (by decide)

end Rows

end Multicorn.Convert
