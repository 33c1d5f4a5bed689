import Multicorn.General.StateMonad
import Multicorn.Xact.Session

/-! What the operations on the instance cache do, in particular when no Python call raises. -/
namespace Multicorn.Xact
open Multicorn.StateMonad (run_get run_set run_modifyGet run_throw)
open Multicorn.Catalog

/-- The hooks one instance saw. -/
def callsOf (inst : ℕ) (trace : List (ℕ × Hook)) : List Hook :=
  trace.filterMap fun c => if c.1 = inst then some c.2 else none

def callsTo (value : Pointer) (hooks : List Hook) : List (ℕ × Hook) :=
  match value with
  | .obj inst => hooks.map (inst, ·)
  | _ => []

@[simp] theorem callsOf_nil (inst : ℕ) : callsOf inst [] = [] := rfl

@[simp] theorem callsOf_append (inst : ℕ) (t t' : List (ℕ × Hook)) :
    callsOf inst (t ++ t') = callsOf inst t ++ callsOf inst t' := by
  simp [callsOf]

@[simp] theorem callsOf_callsTo (inst : ℕ) (hooks : List Hook) :
    callsOf inst (callsTo (.obj inst) hooks) = hooks := by
  simp [callsOf, callsTo, List.filterMap_map]

theorem callsOf_callsTo_ne {inst : ℕ} {value : Pointer} (h : value ≠ .obj inst)
    (hooks : List Hook) : callsOf inst (callsTo value hooks) = [] := by
  cases value with
  | obj i =>
    have hi : i ≠ inst := fun he => h (by rw [he])
    simp [callsOf, callsTo, hi]
  | null => rfl
  | wild => rfl

@[simp] theorem callsTo_nil (value : Pointer) : callsTo value [] = [] := by
  cases value <;> rfl

theorem mem_callsTo {c : ℕ × Hook} {value : Pointer} {hooks : List Hook}
    (h : c ∈ callsTo value hooks) : c.2 ∈ hooks := by
  cases value with
  | obj i =>
    obtain ⟨k, hk, rfl⟩ := List.mem_map.mp h
    exact hk
  | null => cases h
  | wild => cases h

variable {s : Session}

theorem pyCall_raises (h : s.faults.headD false = true) :
    pyCall s = .error .raised { s with faults := s.faults.tail } := by
  obtain ⟨catalogs, entries, instances, released, phase, stack, nextSubid, faults, trace,
    outcomes⟩ := s
  cases faults with
  | nil => cases h
  | cons fault faults =>
    cases h
    rfl

theorem pyCall_returns (h : s.faults.headD false = false) :
    pyCall s = .ok () { s with faults := s.faults.tail } := by
  obtain ⟨catalogs, entries, instances, released, phase, stack, nextSubid, faults, trace,
    outcomes⟩ := s
  cases faults with
  | nil => rfl
  | cons fault faults =>
    cases h
    rfl

theorem callHook_obj (hs : s.faults = []) (inst : ℕ) (h : Hook) :
    callHook (.obj inst) h s = .ok () { s with trace := s.trace ++ callsTo (.obj inst) [h] } := by
  simp [callHook, callsTo, pyCall, hs, bind, EStateM.bind, modify, modifyGet,
    MonadStateOf.modifyGet, run_modifyGet]

/-- A visit that changes the entry by `f` and calls `hooks` does so for all entries. -/
theorem forEntries_ok {visit : Oid → CacheEntry → M CacheEntry} (f : CacheEntry → CacheEntry)
    (hooks : CacheEntry → List Hook) {rest : List (Oid × CacheEntry)}
    (hvisit : ∀ p ∈ rest, ∀ s : Session, s.faults = [] → ∃ entries, visit p.1 p.2 s =
      .ok (f p.2) { s with entries, trace := s.trace ++ callsTo p.2.value (hooks p.2) })
    (visited : List (Oid × CacheEntry)) (hs : s.faults = []) (he : s.entries = visited ++ rest) :
    forEntries visit visited rest s = .ok ()
      { s with
        entries := visited ++ rest.map (fun p => (p.1, f p.2))
        trace := s.trace ++ rest.flatMap (fun p => callsTo p.2.value (hooks p.2)) } := by
  induction rest generalizing s visited with
  | nil =>
    rw [List.append_nil] at he
    simp [forEntries, pure, EStateM.pure, ← he]
  | cons p rest ih =>
    obtain ⟨oid, entry⟩ := p
    rw [List.forall_mem_cons] at hvisit
    obtain ⟨entries, hfirst⟩ := hvisit.1 s hs
    simp only [forEntries, bind, EStateM.bind, hfirst, modify, modifyGet,
      MonadStateOf.modifyGet, run_modifyGet]
    rw [ih hvisit.2]
    · simp
    · exact hs
    · simp

/-- Every entry holds an instance. -/
def Initialized (entries : List (Oid × CacheEntry)) : Prop :=
  ∀ p ∈ entries, ∃ inst, p.2.value = .obj inst

def subEnded (level : ℕ) (entry : CacheEntry) : CacheEntry :=
  if entry.xact_depth < level then entry else { entry with xact_depth := entry.xact_depth - 1 }

def subEndHooks (level : ℕ) (h : Hook) (entry : CacheEntry) : List Hook :=
  if entry.xact_depth < level then [] else [h]

private theorem subxactVisit_ok (hs : s.faults = []) {entry : CacheEntry} {curlevel : ℕ}
    (hready : (∃ inst, entry.value = .obj inst) ∨ entry.xact_depth < curlevel)
    (event : SubXactEvent) (mySubid : SubTransactionId) :
    subxactVisit event curlevel mySubid entry s = .ok (subEnded curlevel entry)
      { s with
        trace := s.trace ++ callsTo entry.value
          (subEndHooks curlevel (event.hook curlevel mySubid) entry) } := by
  unfold subxactVisit subEnded subEndHooks
  split_ifs with hd
  · simp [pure, EStateM.pure]
  · obtain ⟨inst, hinst⟩ := hready.resolve_right hd
    simp [hinst, bind, EStateM.bind, callHook_obj hs, pure, EStateM.pure]

theorem multicornSubxactCallback_ok (hs : s.faults = [])
    (hready : ∀ p ∈ s.entries, (∃ inst, p.2.value = .obj inst) ∨ p.2.xact_depth < s.nestLevel)
    {event : SubXactEvent} (hevent : event = .preCommitSub ∨ event = .abortSub)
    (mySubid : SubTransactionId) :
    multicornSubxactCallback event mySubid s = .ok ()
      { s with
        entries := s.entries.map (fun p => (p.1, subEnded s.nestLevel p.2))
        trace := s.trace ++ s.entries.flatMap (fun p =>
          callsTo p.2.value (subEndHooks s.nestLevel (event.hook s.nestLevel mySubid) p.2)) } := by
  have hne : ¬ (event = .commitSub ∨ event = .startSub) := by
    rcases hevent with rfl | rfl <;> decide
  have hloop := @forEntries_ok s (fun _ => subxactVisit event s.nestLevel mySubid)
    (subEnded s.nestLevel)
    (subEndHooks s.nestLevel (event.hook s.nestLevel mySubid)) _
    (fun p hp s' hs' => ⟨_, subxactVisit_ok hs' (hready p hp) event mySubid⟩) [] hs rfl
  unfold multicornSubxactCallback
  simp only [hne, if_false]
  exact hloop

theorem multicornSubxactCallback_skip {event : SubXactEvent}
    (hevent : event = .commitSub ∨ event = .startSub) (mySubid : SubTransactionId) :
    multicornSubxactCallback event mySubid s = .ok () s := by
  simp [multicornSubxactCallback, hevent, pure, EStateM.pure]

def xactEnded (event : XactEvent) (entry : CacheEntry) : CacheEntry :=
  if event = .commit ∨ event = .abort then { entry with xact_depth := 0 } else entry

/-- The hook a top-level event calls. -/
def XactEvent.hooks : XactEvent → List Hook
  | .preCommit => [.preCommit]
  | .commit => [.commit]
  | .abort => [.rollback]
  | .prePrepare => []
  | .prepare => []

def xactHooks (event : XactEvent) (entry : CacheEntry) : List Hook :=
  if entry.xact_depth = 0 then [] else event.hooks

private theorem xactVisit_ok (hs : s.faults = []) (oid : Oid) {entry : CacheEntry}
    (hready : (∃ inst, entry.value = .obj inst) ∨ entry.xact_depth = 0) (event : XactEvent) :
    ∃ entries, xactVisit event oid entry s = .ok (xactEnded event entry)
      { s with entries, trace := s.trace ++ callsTo entry.value (xactHooks event entry) } := by
  obtain ⟨value, options, columns, depth⟩ := entry
  obtain ⟨catalogs, entries, instances, released, phase, stack, nextSubid, faults, trace,
    outcomes⟩ := s
  subst hs
  by_cases hd : depth = 0
  · subst hd
    refine ⟨entries, ?_⟩
    cases event <;> simp [xactVisit, xactHooks, xactEnded, pure, EStateM.pure]
  · obtain ⟨inst, hinst⟩ := hready.resolve_right hd
    simp only at hinst
    subst hinst
    refine ⟨if event = .commit ∨ event = .abort then updateEntry oid (withDepth 0) entries
      else entries, ?_⟩
    cases event <;>
      simp [xactVisit, hd, xactHooks, xactEnded, withDepth, XactEvent.hooks, setEntry, modify, modifyGet,
        MonadStateOf.modifyGet, run_modifyGet, bind, EStateM.bind, callHook_obj, pure,
        EStateM.pure, callsTo]

theorem multicornXactCallback_ok (hs : s.faults = [])
    (hready : ∀ p ∈ s.entries, (∃ inst, p.2.value = .obj inst) ∨ p.2.xact_depth = 0)
    (event : XactEvent) :
    multicornXactCallback event s = .ok ()
      { s with
        entries := s.entries.map (fun p => (p.1, xactEnded event p.2))
        trace := s.trace ++ s.entries.flatMap (fun p =>
          callsTo p.2.value (xactHooks event p.2)) } :=
  forEntries_ok (xactEnded event) (xactHooks event)
    (fun p hp _ hs' => xactVisit_ok hs' p.1 (hready p hp) event) [] hs rfl

section Begin

variable (oid : Oid)

@[simp] theorem updateEntry_updateEntry (f g : CacheEntry → CacheEntry)
    (entries : List (Oid × CacheEntry)) :
    updateEntry oid f (updateEntry oid g entries) = updateEntry oid (f ∘ g) entries := by
  simp only [updateEntry, List.map_map]
  refine List.map_congr_left fun p _ => ?_
  by_cases hp : p.1 = oid <;> simp [hp]

theorem updateEntry_eq_self {f : CacheEntry → CacheEntry} {entries : List (Oid × CacheEntry)}
    (h : ∀ p ∈ entries, p.1 = oid → f p.2 = p.2) : updateEntry oid f entries = entries := by
  refine (List.map_congr_left fun p hp => ?_).trans (List.map_id entries)
  by_cases ho : p.1 = oid
  · rw [if_pos ho, h p hp ho]
    rfl
  · rw [if_neg ho]
    rfl

/-- The hooks that take an instance from one depth to the current level. -/
def joinHooks (s : Session) (depth : ℕ) : List Hook :=
  (if depth = 0 then [.begin] else []) ++
    (List.range' (max depth 1 + 1) (s.nestLevel - max depth 1)).map
      fun level => .subBegin level (s.subidAt level)

private theorem joinLevels_ok (inst : ℕ) (entries : List (Oid × CacheEntry)) (n : ℕ) :
    ∀ (depth : ℕ) (s : Session), s.faults = [] →
      s.entries = updateEntry oid (withDepth depth) entries →
      (List.range' (depth + 1) n).forM (joinLevel oid (.obj inst)) s = .ok ()
        { s with
          entries := updateEntry oid (withDepth (depth + n)) entries
          trace := s.trace ++ callsTo (.obj inst)
            ((List.range' (depth + 1) n).map fun level => .subBegin level (s.subidAt level)) } := by
  induction n with
  | zero =>
    intro depth s _ he
    simp [pure, EStateM.pure, callsTo, ← he]
  | succ n ih =>
    intro depth s hs he
    have hstep : joinLevel oid (.obj inst) (depth + 1) s = .ok ()
        { s with
          entries := updateEntry oid (withDepth (depth + 1)) entries
          trace := s.trace ++ callsTo (.obj inst) [.subBegin (depth + 1) (s.subidAt (depth + 1))] } := by
      have hcall := callHook_obj (s := { s with
          entries := updateEntry oid (withDepth (depth + 1)) s.entries }) hs inst
        (.subBegin (depth + 1) (s.subidAt (depth + 1)))
      have hentries : updateEntry oid (withDepth (depth + 1)) s.entries =
          updateEntry oid (withDepth (depth + 1)) entries := by
        rw [he, updateEntry_updateEntry]
        rfl
      rw [hentries] at hcall
      rw [← hcall, ← hentries]
      rfl
    have hcons : (List.range' (depth + 1) (n + 1)).forM (joinLevel oid (.obj inst)) =
        joinLevel oid (.obj inst) (depth + 1) >>= fun _ =>
          (List.range' (depth + 1 + 1) n).forM (joinLevel oid (.obj inst)) := rfl
    rw [hcons]
    simp only [bind, EStateM.bind, hstep]
    rw [ih (depth + 1)]
    · simp [callsTo, Session.subidAt, List.range'_succ, Nat.add_assoc, Nat.add_comm 1 n]
    · exact hs
    · rfl

/-- An access joins the instance to every level up to the current one. -/
theorem beginRemoteXact_ok (hs : s.faults = []) {entry : CacheEntry} {inst : ℕ}
    (hinst : entry.value = .obj inst) (hdepth : entry.xact_depth ≤ s.nestLevel)
    (hlevel : 1 ≤ s.nestLevel)
    (hentry : ∀ p ∈ s.entries, p.1 = oid → p.2 = entry) :
    beginRemoteXact oid entry s = .ok ()
      { s with
        entries := updateEntry oid (withDepth s.nestLevel) s.entries
        trace := s.trace ++ callsTo entry.value (joinHooks s entry.xact_depth) } := by
  unfold beginRemoteXact joinHooks
  rw [hinst]
  by_cases hd : entry.xact_depth = 0
  · have hloop := joinLevels_ok oid inst s.entries (s.nestLevel - 1) 1
      { s with
        entries := updateEntry oid (withDepth 1) s.entries
        trace := s.trace ++ callsTo (.obj inst) [.begin] } hs rfl
    simp only [hd, if_true, bind, EStateM.bind, get, getThe, MonadStateOf.get, run_get,
      callHook_obj hs, setEntry, modify, modifyGet, MonadStateOf.modifyGet, run_modifyGet,
      Nat.zero_max]
    refine hloop.trans ?_
    simp [callsTo, Session.subidAt, Nat.add_sub_cancel' hlevel]
  · have hself : updateEntry oid (withDepth entry.xact_depth) s.entries = s.entries :=
      updateEntry_eq_self oid fun p hp ho => by rw [hentry p hp ho]; rfl
    have hmax : max entry.xact_depth 1 = entry.xact_depth := by omega
    have hloop := joinLevels_ok oid inst s.entries (s.nestLevel - entry.xact_depth)
      entry.xact_depth s hs hself.symm
    simp only [hd, if_false, bind, EStateM.bind, get, getThe, MonadStateOf.get, run_get, hmax]
    refine hloop.trans ?_
    simp [Nat.add_sub_cancel' hdepth]

end Begin

section Access

variable {oid : Oid} {entries : List (Oid × CacheEntry)} {entry : CacheEntry}

theorem mem_of_lookupEntry (h : lookupEntry oid entries = some entry) : (oid, entry) ∈ entries := by
  obtain ⟨⟨oid', entry'⟩, hfind, heq⟩ := Option.map_eq_some_iff.mp h
  have ho : oid' = oid := by simpa using List.find?_some hfind
  subst ho
  obtain rfl : entry' = entry := heq
  exact List.mem_of_find?_eq_some hfind

theorem eq_of_key (hkeys : (entries.map (·.1)).Nodup) {p q : Oid × CacheEntry}
    (hp : p ∈ entries) (hq : q ∈ entries) (h : p.1 = q.1) : p = q :=
  List.inj_on_of_nodup_map hkeys hp hq h

theorem lookupEntry_of_mem (hkeys : (entries.map (·.1)).Nodup) (h : (oid, entry) ∈ entries) :
    lookupEntry oid entries = some entry := by
  cases hl : lookupEntry oid entries with
  | none =>
    have hnone := List.find?_eq_none.mp (Option.map_eq_none_iff.mp hl) (oid, entry) h
    simp at hnone
  | some entry' =>
    have heq := eq_of_key hkeys h (mem_of_lookupEntry hl) rfl
    rw [(Prod.mk.inj heq).2]

theorem lookupEntry_eq_none : lookupEntry oid entries = none ↔ oid ∉ entries.map (·.1) := by
  simp only [lookupEntry, Option.map_eq_none_iff, List.find?_eq_none, List.mem_map, not_exists,
    not_and, decide_eq_true_eq]

@[simp] theorem keys_updateEntry (f : CacheEntry → CacheEntry) :
    (updateEntry oid f entries).map (·.1) = entries.map (·.1) := by
  rw [updateEntry, List.map_map]
  refine List.map_congr_left fun p _ => ?_
  by_cases hp : p.1 = oid <;> simp [hp]

theorem mem_updateEntry {f : CacheEntry → CacheEntry} {q : Oid × CacheEntry} :
    q ∈ updateEntry oid f entries ↔
      q ∈ entries ∧ q.1 ≠ oid ∨ ∃ e, (oid, e) ∈ entries ∧ q = (oid, f e) := by
  rw [updateEntry, List.mem_map]
  constructor
  · rintro ⟨p, hp, rfl⟩
    by_cases ho : p.1 = oid
    · obtain rfl := ho
      right
      exact ⟨p.2, hp, by simp⟩
    · left
      simp [ho, hp]
  · rintro (⟨hq, ho⟩ | ⟨e, he, rfl⟩)
    · exact ⟨q, hq, by simp [ho]⟩
    · exact ⟨_, he, by simp⟩

theorem mem_insertEntry {slot : ℕ} {q : Oid × CacheEntry} :
    q ∈ insertEntry oid slot entries ↔ q = (oid, ⟨.wild, [], [], 0⟩) ∨ q ∈ entries := by
  have hsplit : q ∈ entries ↔ q ∈ entries.take slot ∨ q ∈ entries.drop slot := by
    rw [← List.mem_append, List.take_append_drop]
  rw [hsplit, insertEntry, List.mem_append, List.mem_cons]
  tauto

theorem keys_insertEntry (slot : ℕ) (hkeys : (entries.map (·.1)).Nodup)
    (hnew : oid ∉ entries.map (·.1)) : ((insertEntry oid slot entries).map (·.1)).Nodup := by
  have hperm : (insertEntry oid slot entries).Perm ((oid, ⟨.wild, [], [], 0⟩) :: entries) := by
    have hmiddle := @List.perm_middle _ (oid, (⟨.wild, [], [], 0⟩ : CacheEntry))
      (entries.take slot) (entries.drop slot)
    rwa [List.take_append_drop] at hmiddle
  rw [(hperm.map _).nodup_iff]
  simpa using ⟨by simpa using hnew, hkeys⟩

section Lookup

variable {oid' : Oid} {f : CacheEntry → CacheEntry}

theorem lookupEntry_map :
    lookupEntry oid (entries.map fun p => (p.1, f p.2)) = (lookupEntry oid entries).map f := by
  induction entries with
  | nil => rfl
  | cons p entries ih =>
    by_cases ho : p.1 = oid
    · simp [lookupEntry, ho]
    · simpa [lookupEntry, ho] using ih

theorem lookupEntry_updateEntry_self :
    lookupEntry oid (updateEntry oid f entries) = (lookupEntry oid entries).map f := by
  induction entries with
  | nil => rfl
  | cons p entries ih =>
    by_cases ho : p.1 = oid
    · simp [lookupEntry, updateEntry, ho]
    · simpa [lookupEntry, updateEntry, ho] using ih

theorem lookupEntry_updateEntry_ne (hne : oid ≠ oid') :
    lookupEntry oid (updateEntry oid' f entries) = lookupEntry oid entries := by
  induction entries with
  | nil => rfl
  | cons p entries ih =>
    by_cases ho : p.1 = oid'
    · have hne' : p.1 ≠ oid := fun h => hne (h.symm.trans ho)
      simpa [lookupEntry, updateEntry, ho, hne.symm] using ih
    · by_cases hp : p.1 = oid
      · simp [lookupEntry, updateEntry, hp, hne]
      · simpa [lookupEntry, updateEntry, ho, hp] using ih

theorem lookupEntry_insertEntry_ne (hne : oid ≠ oid') (slot : ℕ) :
    lookupEntry oid (insertEntry oid' slot entries) = lookupEntry oid entries := by
  unfold lookupEntry insertEntry
  conv_rhs => rw [← List.take_append_drop slot entries]
  rw [List.find?_append, List.find?_append, List.find?_cons_of_neg (by simpa using hne.symm)]

end Lookup

/-- The entry of the table holds this instance, constructed from this. -/
def Holding (oid : Oid) (inst : ℕ) (options : List DefElem)
    (keys : List (String × Oid × ℤ × List DefElem)) (s : Session) : Prop :=
  ∃ entry, lookupEntry oid s.entries = some entry ∧ entry.value = .obj inst ∧
    entry.options = options ∧ entry.columns.map columnKey = keys

/-- The entry is not the one that the catalogs ask for. -/
def Stale (s : Session) (oid : Oid) (entry : CacheEntry) : Prop :=
  getOptions s.catalogs oid ≠ some entry.options ∨
    (tableColumns s.catalogs oid).map columnKey ≠ entry.columns.map columnKey

/-! Where an access goes, by the entry that it finds. -/

/-- An entry gets an instance, which joins the transaction. -/
def fillEntry (oid : Oid) (options : List DefElem) (columns : List Attribute) (p_columns : Bool) :
    M Unit := do
  initializeEntry oid options columns p_columns
  enterXact oid

section Entry

variable {slot inst : ℕ} {options : List DefElem} (hoptions : getOptions s.catalogs oid = some options)

include hoptions

theorem getCacheEntry_new (hl : lookupEntry oid s.entries = none) :
    getCacheEntry oid slot s = fillEntry oid options (tableColumns s.catalogs oid) false
      { s with entries := insertEntry oid slot s.entries } := by
  simp [getCacheEntry, fillEntry, bind, EStateM.bind, get, getThe, MonadStateOf.get, run_get,
    hoptions, hl, set, run_set, pure, EStateM.pure]

variable (hl : lookupEntry oid s.entries = some entry)

include hl

theorem getCacheEntry_some : getCacheEntry oid slot s =
    (do let (init, p_columns) ← needInitialization oid entry options (tableColumns s.catalogs oid)
        if init then initializeEntry oid options (tableColumns s.catalogs oid) p_columns
        enterXact oid : M Unit) s := by
  simp only [getCacheEntry, bind, EStateM.bind, get, getThe, MonadStateOf.get, run_get,
    hoptions, hl]

theorem getCacheEntry_null (hnull : entry.value = .null) :
    getCacheEntry oid slot s = fillEntry oid options (tableColumns s.catalogs oid) false
      { s with entries := updateEntry oid (fun e => ⟨e.value, [], [], 0⟩) s.entries } := by
  simp [getCacheEntry_some hoptions hl, fillEntry, bind, EStateM.bind, needInitialization, hnull,
    setEntry, modify, modifyGet, MonadStateOf.modifyGet, run_modifyGet, pure, EStateM.pure]

variable (hinst : entry.value = .obj inst)

include hinst

/-- Where the options have changed, the instance is given up. -/
theorem getCacheEntry_options (ho : entry.options ≠ options) :
    getCacheEntry oid slot s = fillEntry oid options (tableColumns s.catalogs oid) false
      { s with released := s.released ++ [inst] } := by
  simp [getCacheEntry_some hoptions hl, fillEntry, bind, EStateM.bind, needInitialization, hinst,
    ho, compareOptions, releaseValue, modify, modifyGet, MonadStateOf.modifyGet, run_modifyGet,
    pure, EStateM.pure]

variable (ho : entry.options = options)

include ho

/-- The column definitions are made before anything is given up. -/
theorem getCacheEntry_raises (hfault : s.faults.headD false = true) :
    getCacheEntry oid slot s = .error .raised { s with faults := s.faults.tail } := by
  simp [getCacheEntry_some hoptions hl, bind, EStateM.bind, needInitialization, hinst, ho,
    compareOptions, getColumnsFromTable, pyCall_raises hfault]

variable (hfault : s.faults.headD false = false)

include hfault

theorem getCacheEntry_nil (hempty : tableColumns s.catalogs oid = [] ∨ entry.columns = []) :
    getCacheEntry oid slot s = .error .crashed { s with faults := s.faults.tail } := by
  simp [getCacheEntry_some hoptions hl, bind, EStateM.bind, needInitialization, hinst, ho,
    compareOptions, getColumnsFromTable, pyCall_returns hfault, compareColumns, hempty, throw,
    throwThe, MonadExceptOf.throw, run_throw]

variable (hcolumns : ¬ (tableColumns s.catalogs oid = [] ∨ entry.columns = []))

include hcolumns

theorem getCacheEntry_current
    (hc : (tableColumns s.catalogs oid).map columnKey = entry.columns.map columnKey) :
    getCacheEntry oid slot s = enterXact oid { s with faults := s.faults.tail } := by
  simp [getCacheEntry_some hoptions hl, bind, EStateM.bind, needInitialization, hinst, ho,
    compareOptions, getColumnsFromTable, pyCall_returns hfault, compareColumns, hcolumns, hc, pure,
    EStateM.pure]

/-- Where the columns have changed, the instance is given up, and the definitions are there. -/
theorem getCacheEntry_columns
    (hc : (tableColumns s.catalogs oid).map columnKey ≠ entry.columns.map columnKey) :
    getCacheEntry oid slot s = fillEntry oid options (tableColumns s.catalogs oid) true
      { s with faults := s.faults.tail, released := s.released ++ [inst] } := by
  simp [getCacheEntry_some hoptions hl, fillEntry, bind, EStateM.bind, needInitialization, hinst,
    ho, compareOptions, getColumnsFromTable, pyCall_returns hfault, compareColumns, hcolumns, hc,
    pure, EStateM.pure, releaseValue, modify, modifyGet, MonadStateOf.modifyGet, run_modifyGet]

end Entry

/-- The session after an entry was filled with a new instance that joined the transaction. -/
def Session.built (s : Session) (oid : Oid) (options : List DefElem) (released : List ℕ)
    (entries : List (Oid × CacheEntry)) : Session :=
  { s with
    instances := s.instances ++
      [((optionsListToPyDict options).erase "wrapper", tableColumns s.catalogs oid)]
    released
    entries := updateEntry oid (fun _ => ⟨.obj s.instances.length, options,
      tableColumns s.catalogs oid, s.nestLevel⟩) entries
    trace := s.trace ++ callsTo (.obj s.instances.length) (joinHooks s 0) }

theorem mem_built {options : List DefElem} {released : List ℕ} {q : Oid × CacheEntry} :
    q ∈ (s.built oid options released entries).entries ↔ q ∈ entries ∧ q.1 ≠ oid ∨
      ∃ e, (oid, e) ∈ entries ∧ q = (oid, ⟨.obj s.instances.length, options,
        tableColumns s.catalogs oid, s.nestLevel⟩) := by
  rw [Session.built, mem_updateEntry]

/-- What an access does when no call raises. -/
inductive Access (oid : Oid) (slot : ℕ) (s : Session) : Session → Prop
  | reused {entry inst} (hentry : lookupEntry oid s.entries = some entry)
      (hinst : entry.value = .obj inst) (hfresh : ¬ Stale s oid entry) :
      Access oid slot s
        { s with
          entries := updateEntry oid (withDepth s.nestLevel) s.entries
          trace := s.trace ++ callsTo entry.value (joinHooks s entry.xact_depth) }
  | inserted {options} (hentry : lookupEntry oid s.entries = none) :
      Access oid slot s (s.built oid options s.released (insertEntry oid slot s.entries))
  | rebuilt {entry inst options} (hentry : lookupEntry oid s.entries = some entry)
      (hinst : entry.value = .obj inst) (hstale : Stale s oid entry) :
      Access oid slot s (s.built oid options (s.released ++ [inst]) s.entries)

private theorem initialize_ok (hs : s.faults = []) (hlevel : 1 ≤ s.nestLevel)
    (hkeys : (s.entries.map (·.1)).Nodup) (hmem : oid ∈ s.entries.map (·.1))
    (options : List DefElem) (p_columns : Bool) :
    fillEntry oid options (tableColumns s.catalogs oid) p_columns s =
      .ok () (s.built oid options s.released s.entries) := by
  let new : CacheEntry := ⟨.obj s.instances.length, options, tableColumns s.catalogs oid, 0⟩
  let s₁ : Session := { s with
    instances := s.instances ++
      [((optionsListToPyDict options).erase "wrapper", tableColumns s.catalogs oid)]
    entries := updateEntry oid (fun _ => new) s.entries }
  have hinit : initializeEntry oid options (tableColumns s.catalogs oid) p_columns s =
      .ok () s₁ := by
    cases p_columns <;>
      simp [initializeEntry, getColumnsFromTable, pyCall, setEntry, hs, pure, EStateM.pure, bind,
        EStateM.bind, modify, modifyGet, MonadStateOf.modifyGet, run_modifyGet, get, getThe,
        MonadStateOf.get, run_get, set, run_set, s₁, new, Function.comp_def]
  obtain ⟨p, hp, rfl⟩ := List.mem_map.mp hmem
  have hnew : (p.1, new) ∈ s₁.entries :=
    mem_updateEntry (f := fun _ => new).mpr (.inr ⟨p.2, hp, rfl⟩)
  have hkeys' : (s₁.entries.map (·.1)).Nodup := by simpa [s₁] using hkeys
  have hbegin := @beginRemoteXact_ok s₁ p.1 hs new _ rfl (Nat.zero_le _) hlevel
    (fun q hq ho => by rw [eq_of_key hkeys' hq hnew ho])
  simp only [fillEntry, bind, EStateM.bind, hinit, enterXact, get, getThe, MonadStateOf.get, run_get,
    lookupEntry_of_mem hkeys' hnew, hbegin]
  simp [Session.built, s₁, new, withDepth, Function.comp_def, Session.nestLevel, joinHooks,
    Session.subidAt]

/-- An access compares an empty list of columns and crashes, or does one of three things. -/
theorem getCacheEntry_cases (hs : s.faults = []) (hinit : Initialized s.entries)
    (hkeys : (s.entries.map (·.1)).Nodup) (hlevel : 1 ≤ s.nestLevel)
    (hdepth : ∀ p ∈ s.entries, p.2.xact_depth ≤ s.nestLevel) (slot : ℕ) {options : List DefElem}
    (hoptions : getOptions s.catalogs oid = some options) :
    (∃ entry, lookupEntry oid s.entries = some entry ∧ entry.options = options ∧
        (tableColumns s.catalogs oid = [] ∨ entry.columns = []) ∧
        getCacheEntry oid slot s = .error .crashed s) ∨
      ∃ s', getCacheEntry oid slot s = .ok () s' ∧ Access oid slot s s' ∧
        ∃ inst, Holding oid inst options ((tableColumns s.catalogs oid).map columnKey) s' := by
  have hfilled : ∀ (released : List ℕ) {entries : List (Oid × CacheEntry)},
      (entries.map (·.1)).Nodup → oid ∈ entries.map (·.1) →
      ∃ inst, Holding oid inst options ((tableColumns s.catalogs oid).map columnKey)
        (s.built oid options released entries) := by
    intro released entries hnodup hmem
    obtain ⟨p, hp, rfl⟩ := List.mem_map.mp hmem
    refine ⟨_, _, lookupEntry_of_mem ?_ (mem_built.mpr (.inr ⟨p.2, hp, rfl⟩)), rfl, rfl, rfl⟩
    simpa [Session.built] using hnodup
  cases hl : lookupEntry oid s.entries with
  | none =>
    have hnew := lookupEntry_eq_none.mp hl
    have hins := initialize_ok (s := { s with entries := insertEntry oid slot s.entries }) hs hlevel
      (keys_insertEntry slot hkeys hnew)
      (List.mem_map.mpr ⟨_, mem_insertEntry.mpr (.inl rfl), rfl⟩) options false
    right
    refine ⟨s.built oid options s.released (insertEntry oid slot s.entries), ?_, .inserted hl,
      hfilled _ (keys_insertEntry slot hkeys hnew)
        (List.mem_map.mpr ⟨_, mem_insertEntry.mpr (.inl rfl), rfl⟩)⟩
    exact (getCacheEntry_new hoptions hl).trans hins
  | some entry =>
    have hmem := mem_of_lookupEntry hl
    obtain ⟨inst, hinst⟩ : ∃ inst, entry.value = .obj inst := hinit _ hmem
    have hkey : oid ∈ s.entries.map (·.1) := List.mem_map.mpr ⟨_, hmem, rfl⟩
    have hrebuild := initialize_ok (s := { s with released := s.released ++ [inst] }) hs hlevel
      hkeys hkey options
    have hfault : s.faults.headD false = false := by rw [hs]; rfl
    have htail : { s with faults := s.faults.tail } = s := by rw [hs, List.tail_nil, ← hs]
    by_cases ho : entry.options = options
    · by_cases hempty : tableColumns s.catalogs oid = [] ∨ entry.columns = []
      · left
        refine ⟨entry, rfl, ho, hempty, ?_⟩
        rw [getCacheEntry_nil hoptions hl hinst ho hfault hempty, htail]
      · right
        by_cases hc : (tableColumns s.catalogs oid).map columnKey = entry.columns.map columnKey
        · have hbegin := beginRemoteXact_ok oid hs hinst (hdepth _ hmem) hlevel
            (fun q hq hk => by rw [eq_of_key hkeys hq hmem hk])
          refine ⟨_, ?_, .reused hl hinst (by simp [Stale, hoptions, ho, hc]),
            inst, withDepth s.nestLevel entry, ?_, hinst, ho, hc.symm⟩
          swap
          · rw [lookupEntry_updateEntry_self, hl]
            rfl
          rw [getCacheEntry_current hoptions hl hinst ho hfault hempty hc, htail]
          refine Eq.trans ?_ hbegin
          simp only [enterXact, bind, EStateM.bind, get, getThe, MonadStateOf.get, run_get, hl]
        · refine ⟨s.built oid options (s.released ++ [inst]) s.entries, ?_,
            .rebuilt hl hinst (.inr hc), hfilled _ hkeys hkey⟩
          rw [getCacheEntry_columns hoptions hl hinst ho hfault hempty hc, hs, List.tail_nil, ← hs]
          exact hrebuild true
    · right
      refine ⟨s.built oid options (s.released ++ [inst]) s.entries, ?_,
        .rebuilt hl hinst (.inl (by simpa [hoptions] using Ne.symm ho)), hfilled _ hkeys hkey⟩
      exact (getCacheEntry_options hoptions hl hinst ho).trans (hrebuild false)

end Access

end Multicorn.Xact
