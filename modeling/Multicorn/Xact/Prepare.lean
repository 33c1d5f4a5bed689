import Multicorn.Xact.Runs

/-! Transactions that end by commit, abort or PREPARE TRANSACTION, and what each of them finds
of the one before. -/
namespace Multicorn.Xact
open Multicorn.StateMonad (run_modifyGet)
open Multicorn.Catalog

/-- An event of a backend, or PREPARE TRANSACTION in place of a commit. -/
inductive TopEvent
  | event (e : Event)
  | prepareTransaction

def execTop : TopEvent → M Unit
  | .event e => exec e
  | .prepareTransaction => do
    multicornXactCallback .prePrepare
    multicornXactCallback .prepare
    endXact

def TopEvent.Enabled (s : Session) : TopEvent → Prop
  | .event e => e.Enabled s
  | .prepareTransaction => s.phase = .inProgress ∧ s.nestLevel = 1

def execTops : List TopEvent → M Unit
  | [] => pure ()
  | e :: events => do
    execTop e
    execTops events

/-- Every step of a run meets `P` in the state it is taken in. -/
def AllTops (P : Session → TopEvent → Prop) (s : Session) : List TopEvent → Prop
  | [] => True
  | e :: events => P s e ∧ ∀ s', execTop e s = .ok () s' → AllTops P s' events

/-- A transaction is prepared in which some instance takes part. -/
def PreparesRemote (s : Session) : TopEvent → Prop
  | .prepareTransaction => ∃ p ∈ s.entries, 0 < p.2.xact_depth
  | _ => False

variable {s s' : Session}

/-- An instance is called only after its `begin` of this transaction. -/
structure Begun (s : Session) : Prop extends Core s where
  first : ∀ inst, callsOf inst s.trace = [] ∨ (callsOf inst s.trace).head? = some .begin
  joined : ∀ inst, 0 < depthOf s.entries inst → callsOf inst s.trace ≠ []

theorem begun_start (catalogs : Catalogs) : Begun (.start catalogs) :=
  ⟨core_start catalogs, fun _ => .inl rfl, fun _ h => absurd h (Nat.lt_irrefl 0)⟩

theorem head_append {calls more : List Hook} (h : calls.head? = some .begin) :
    (calls ++ more).head? = some .begin := by
  cases calls with
  | nil => cases h
  | cons c calls => exact h

/-- What a round through the hash table adds comes after `begin`. -/
theorem Begun.visit (hs : Begun s) (hcore : Core s') (hooks : ℕ → List Hook)
    (hzero : hooks 0 = [])
    (hcalls : ∀ inst, callsOf inst s'.trace =
      callsOf inst s.trace ++ hooks (depthOf s.entries inst))
    (hdepth : ∀ inst, depthOf s'.entries inst ≤ depthOf s.entries inst) : Begun s' := by
  refine ⟨hcore, ?_, ?_⟩
  · intro inst
    rw [hcalls]
    by_cases hd : depthOf s.entries inst = 0
    · rw [hd, hzero, List.append_nil]
      exact hs.first inst
    · right
      have hfirst := (hs.first inst).resolve_left (hs.joined inst (Nat.pos_of_ne_zero hd))
      exact head_append hfirst
  · intro inst hpos hnil
    have hle := hdepth inst
    rw [hcalls, List.append_eq_nil_iff] at hnil
    exact hs.joined inst (by omega) hnil.1

/-- An instance joins by `begin`, or has joined before. -/
theorem joinHooks_head {depth : ℕ} {calls : List Hook}
    (h : calls = [] ∨ calls.head? = some .begin) (hpos : 0 < depth → calls ≠ []) :
    (calls ++ joinHooks s depth).head? = some .begin := by
  obtain rfl | h := h
  · have hd : depth = 0 := by
      by_contra hd
      exact hpos (Nat.pos_of_ne_zero hd) rfl
    subst hd
    rfl
  · exact head_append h

theorem callsOf_append_callsTo (trace : List (ℕ × Hook)) (inst i : ℕ) (hooks : List Hook) :
    callsOf inst (trace ++ callsTo (.obj i) hooks) =
      callsOf inst trace ++ if inst = i then hooks else [] := by
  rw [callsOf_append]
  by_cases hi : inst = i
  · rw [if_pos hi, hi, callsOf_callsTo]
  · rw [if_neg hi, callsOf_callsTo_ne]
    intro he
    exact hi (Pointer.obj.inj he).symm

/-- After an access the entry of the table holds an instance that has seen `begin`. -/
theorem Begun.access (hs : Begun s) {oid : Oid} {slot : ℕ} (hphase : s.phase = .inProgress)
    (h : Access oid slot s s') : Begun s' := by
  have hcore : Core s' := hs.toCore.step (.access hphase h)
  have hstep : ∃ i depth, (0 < depth → callsOf i s.trace ≠ []) ∧
      (∀ inst, callsOf inst s'.trace =
        callsOf inst s.trace ++ if inst = i then joinHooks s depth else []) ∧
      ∀ inst, inst ≠ i → 0 < depthOf s'.entries inst → 0 < depthOf s.entries inst := by
    have hkept : ∀ i, (∀ p ∈ s'.entries, p.2.value = .obj i ∨ p ∈ s.entries) →
        ∀ inst, inst ≠ i → 0 < depthOf s'.entries inst → 0 < depthOf s.entries inst := by
      intro i hmem inst hne hpos
      obtain ⟨p, hp, hv, hd⟩ | ⟨-, hd⟩ := depthOf_cases hcore.keyed inst
      · obtain hi | hold := hmem p hp
        · rw [hv] at hi
          exact absurd (Pointer.obj.inj hi) hne
        · rw [depthOf_of_mem hs.keyed hold hv, ← hd]
          exact hpos
      · omega
    cases h with
    | @reused entry i hentry hinst hfresh =>
      have hmem := mem_of_lookupEntry hentry
      refine ⟨i, entry.xact_depth, ?_, ?_, hkept i ?_⟩
      · intro hpos
        apply hs.joined
        rw [depthOf_of_mem hs.keyed hmem hinst]
        exact hpos
      · intro inst
        rw [hinst]
        exact callsOf_append_callsTo _ _ _ _
      · intro p hp
        obtain ⟨hp, -⟩ | ⟨e, he, rfl⟩ := mem_updateEntry.mp hp
        · exact Or.inr hp
        · left
          have hee := eq_of_key hs.keyed.keys he hmem rfl
          rw [(Prod.mk.inj hee).2]
          exact hinst
    | inserted hentry =>
      refine ⟨s.instances.length, 0, fun h => absurd h (Nat.lt_irrefl 0),
        fun inst => callsOf_append_callsTo _ _ _ _, hkept _ ?_⟩
      intro p hp
      obtain ⟨hp, ho⟩ | ⟨e, -, rfl⟩ := mem_built.mp hp
      · obtain rfl | hp := mem_insertEntry.mp hp
        · exact absurd rfl ho
        · exact Or.inr hp
      · exact Or.inl rfl
    | rebuilt hentry hinst hstale =>
      refine ⟨s.instances.length, 0, fun h => absurd h (Nat.lt_irrefl 0),
        fun inst => callsOf_append_callsTo _ _ _ _, hkept _ ?_⟩
      intro p hp
      obtain ⟨hp, -⟩ | ⟨e, -, rfl⟩ := mem_built.mp hp
      · exact Or.inr hp
      · exact Or.inl rfl
  obtain ⟨i, depth, hpos, hcalls, hothers⟩ := hstep
  have hi : (callsOf i s'.trace).head? = some .begin := by
    rw [hcalls, if_pos rfl]
    exact joinHooks_head (hs.first i) hpos
  refine ⟨hcore, ?_, ?_⟩
  · intro inst
    by_cases he : inst = i
    · rw [he]
      exact Or.inr hi
    · rw [hcalls, if_neg he, List.append_nil]
      exact hs.first inst
  · intro inst hd hnil
    by_cases he : inst = i
    · rw [he] at hnil
      rw [hnil] at hi
      cases hi
    · rw [hcalls, if_neg he, List.append_nil] at hnil
      exact hs.joined inst (hothers inst he hd) hnil

/-- The entry that an access leaves is in the current level. -/
theorem Access.entered {oid : Oid} {slot : ℕ} (h : Access oid slot s s') (hs' : Core s') :
    ∃ entry inst, lookupEntry oid s'.entries = some entry ∧ entry.value = .obj inst ∧
      entry.xact_depth = s.nestLevel := by
  cases h with
  | @reused entry inst hentry hinst hfresh =>
    refine ⟨withDepth s.nestLevel entry, inst, ?_, hinst, rfl⟩
    rw [lookupEntry_updateEntry_self, hentry]
    rfl
  | inserted hentry =>
    have hnew : (oid, (⟨.wild, [], [], 0⟩ : CacheEntry)) ∈ insertEntry oid slot s.entries :=
      mem_insertEntry.mpr (.inl rfl)
    exact ⟨_, _, lookupEntry_of_mem hs'.keyed.keys (mem_built.mpr (.inr ⟨_, hnew, rfl⟩)), rfl, rfl⟩
  | rebuilt hentry hinst hstale =>
    exact ⟨_, _, lookupEntry_of_mem hs'.keyed.keys
      (mem_built.mpr (.inr ⟨_, mem_of_lookupEntry hentry, rfl⟩)), rfl, rfl⟩

theorem Begun.step (hs : Begun s) {e : Event} (h : Step s e s') : Begun s' := by
  have hcore := hs.toCore.step h
  have htop : ∀ (top : XactEvent) (phase : Phase) (stack : List SubTransactionId),
      Core (s.xactEvent top phase stack) → Begun (s.xactEvent top phase stack) := by
    intro top phase stack hcore
    refine hs.visit hcore (fun depth => if depth = 0 then [] else top.hooks) rfl
      (callsOf_xactEvent top phase stack hs.toCore) ?_
    intro inst
    rw [depthOf_xactEvent top phase stack hs.toCore]
    split_ifs
    · exact Nat.zero_le _
    · exact Nat.le_refl _
  have hsub : ∀ (event : SubXactEvent) (outcome : SubOutcome), 2 ≤ s.nestLevel →
      Core (s.subEnd event outcome) → Begun (s.subEnd event outcome) := by
    intro event outcome hlevel hcore
    refine hs.visit hcore (fun depth => if depth < s.nestLevel then []
      else [event.hook s.nestLevel (s.stack.headD 0)]) (if_pos (by omega))
      (callsOf_subEnd event outcome hs.toCore (by omega)) ?_
    intro inst
    rw [depthOf_subEnd event outcome hs.toCore]
    split_ifs
    · exact Nat.le_refl _
    · exact Nat.sub_le _ _
  cases h with
  | beginXact hphase =>
    refine ⟨hcore, fun _ => .inl rfl, ?_⟩
    intro inst hpos
    have hlevels := hs.levels
    have hdepth := depthOf_le hs.toCore inst
    simp only [Session.LevelsFit, hphase] at hlevels
    have hpos' : 0 < depthOf s.entries inst := hpos
    omega
  | access hphase haccess => exact hs.access hphase haccess
  | ddl => exact ⟨hcore, hs.first, hs.joined⟩
  | subStart => exact ⟨hcore, hs.first, hs.joined⟩
  | subCommit hphase hlevel => exact hsub _ _ hlevel hcore
  | subAbort hphase hlevel => exact hsub _ _ hlevel hcore
  | preCommit => exact htop _ _ _ hcore
  | commit => exact htop _ _ _ hcore
  | abort => exact htop _ _ _ hcore

/-- Nothing is called for PREPARE TRANSACTION, and no depth changes. -/
theorem prepare_ok (hs : Core s) : execTop .prepareTransaction s =
    .ok () { s with phase := .idle, stack := [] } := by
  have hidle : ∀ (event : XactEvent), event = .prePrepare ∨ event = .prepare →
      multicornXactCallback event s = .ok () s := by
    rintro event hevent
    rw [multicornXactCallback_ok hs.faults (hs.ready _)]
    have hhooks : ∀ e, xactHooks event e = [] := by
      intro e
      unfold xactHooks
      obtain rfl | rfl := hevent <;> simp [XactEvent.hooks]
    have hended : ∀ e, xactEnded event e = e := by
      intro e
      obtain rfl | rfl := hevent <;> simp [xactEnded]
    have hnone : s.entries.flatMap (fun _ => ([] : List (ℕ × Hook))) = [] :=
      List.flatMap_eq_nil_iff.mpr fun _ _ => rfl
    simp [hhooks, hended, hnone]
  simp [execTop, bind, EStateM.bind, hidle, endXact, modify, modifyGet, MonadStateOf.modifyGet,
    run_modifyGet]

theorem Begun.execTop (hs : Begun s) {e : TopEvent} (he : e.Enabled s)
    (hprepare : ¬ PreparesRemote s e) (h : execTop e s = .ok () s') : Begun s' := by
  cases e with
  | event e => exact hs.step (step_of_exec hs.toCore he h)
  | prepareTransaction =>
    rw [prepare_ok hs.toCore] at h
    cases h
    have hnone : ∀ p ∈ s.entries, p.2.xact_depth = 0 := by
      intro p hp
      by_contra hd
      exact hprepare ⟨p, hp, Nat.pos_of_ne_zero hd⟩
    refine ⟨⟨hs.faults, hs.keyed, hs.built, ?_, rfl⟩, hs.first, hs.joined⟩
    intro p hp
    rw [hnone p hp]
    exact Nat.zero_le _

theorem execTops_preserves {P : Session → TopEvent → Prop} {I : Session → Prop}
    (hI : ∀ s e s', I s → P s e → execTop e s = .ok () s' → I s') {events : List TopEvent}
    (hs : I s) (hrun : AllTops P s events) (h : execTops events s = .ok () s') : I s' := by
  induction events generalizing s with
  | nil =>
    cases h
    exact hs
  | cons e events ih =>
    simp only [execTops, bind, EStateM.bind] at h
    cases hexec : execTop e s with
    | ok u s₁ =>
      rw [hexec] at h
      exact ih (hI s e s₁ hs hrun.1 hexec) (hrun.2 s₁ hexec) h
    | error err s₁ =>
      rw [hexec] at h
      cases h

theorem AllTops.cons_of_ok {P : Session → TopEvent → Prop} {e : TopEvent} {events : List TopEvent}
    (hP : P s e) (hexec : execTop e s = .ok () s') (hrest : AllTops P s' events) :
    AllTops P s (e :: events) := by
  refine ⟨hP, fun s'' h => ?_⟩
  rw [hexec] at h
  cases h
  exact hrest

/-- In a session that prepares no transaction with an instance in it, every instance called in a
transaction has seen `begin` first, so has the one that an access uses, and between transactions
all depths are 0. -/
theorem transactions_apart (catalogs : Catalogs) {events : List TopEvent}
    (hrun : AllTops (fun s e => e.Enabled s ∧ ¬ PreparesRemote s e) (.start catalogs) events)
    (h : execTops events (.start catalogs) = .ok () s) :
    (∀ inst, callsOf inst s.trace = [] ∨ (callsOf inst s.trace).head? = some .begin) ∧
    (s.phase = .idle → ∀ p ∈ s.entries, p.2.xact_depth = 0) ∧
    ∀ oid slot s', (Event.access oid slot).Enabled s → exec (.access oid slot) s = .ok () s' →
      ∃ entry inst, lookupEntry oid s'.entries = some entry ∧ entry.value = .obj inst ∧
        (callsOf inst s'.trace).head? = some .begin := by
  have hbegun : Begun s :=
    execTops_preserves (fun _ _ _ hs he hexec => hs.execTop he.1 he.2 hexec)
      (begun_start catalogs) hrun h
  refine ⟨hbegun.first, ?_, ?_⟩
  · intro hidle p hp
    have hlevels := hbegun.levels
    have hbounded := hbegun.bounded p hp
    simp only [Session.LevelsFit, hidle] at hlevels
    omega
  · intro oid slot s' he hexec
    have haccess : Access oid slot s s' := by
      cases step_of_exec hbegun.toCore he hexec with
      | access hphase haccess => exact haccess
    have hbegun' := hbegun.access he.1 haccess
    have hlevel : 1 ≤ s.nestLevel := by
      have hlevels := hbegun.levels
      simpa [Session.LevelsFit, he.1] using hlevels
    obtain ⟨entry, inst, hl, hv, hd⟩ := haccess.entered hbegun'.toCore
    refine ⟨entry, inst, hl, hv, ?_⟩
    apply (hbegun'.first inst).resolve_left
    apply hbegun'.joined
    rw [depthOf_of_mem hbegun'.keyed (mem_of_lookupEntry hl) hv]
    change 0 < entry.xact_depth
    omega

/-- A transaction that no table was accessed in is prepared, and the next one commits. -/
theorem transactions_apart_empty : ∃ s,
    execTops [.event .beginXact, .prepareTransaction, .event .beginXact, .event (.access 7 0),
      .event .preCommit, .event .commit] (.start (oneTable [])) = .ok () s ∧
    (∀ inst, callsOf inst s.trace = [] ∨ (callsOf inst s.trace).head? = some .begin) ∧
    ∀ p ∈ s.entries, p.2.xact_depth = 0 := by
  have hrun : AllTops (fun s e => e.Enabled s ∧ ¬ PreparesRemote s e) (.start (oneTable []))
      [.event .beginXact, .prepareTransaction, .event .beginXact, .event (.access 7 0),
        .event .preCommit, .event .commit] := by
    refine .cons_of_ok ⟨rfl, id⟩ rfl <| .cons_of_ok ⟨⟨rfl, rfl⟩, ?_⟩ rfl <|
      .cons_of_ok ⟨rfl, id⟩ rfl <| .cons_of_ok ⟨⟨rfl, rfl⟩, id⟩ rfl <|
      .cons_of_ok ⟨⟨rfl, rfl⟩, id⟩ rfl <| .cons_of_ok ⟨rfl, id⟩ rfl trivial
    rintro ⟨p, hp, -⟩
    cases hp
  have hall := transactions_apart (oneTable []) hrun rfl
  exact ⟨_, rfl, hall.1, hall.2.1 rfl⟩

/-- After PREPARE TRANSACTION the depth stays 1, and in the next transaction the instance is
used and committed without a `begin`. -/
theorem prepared_stays_begun : ∃ s s',
    AllTops TopEvent.Enabled (.start (oneTable []))
      [.event .beginXact, .event (.access 7 0), .prepareTransaction, .event .beginXact,
        .event (.access 7 0), .event .preCommit, .event .commit] ∧
    execTops [.event .beginXact, .event (.access 7 0), .prepareTransaction]
      (.start (oneTable [])) = .ok () s ∧
    s.phase = .idle ∧ (∃ p ∈ s.entries, p.2.xact_depth = 1) ∧
    execTops [.event .beginXact, .event (.access 7 0), .event .preCommit, .event .commit] s =
      .ok () s' ∧
    callsOf 0 s'.trace = [.preCommit, .commit] := by
  refine ⟨_, _, ?_, rfl, rfl, ⟨_, List.mem_singleton_self _, rfl⟩, rfl, rfl⟩
  refine .cons_of_ok rfl rfl <| .cons_of_ok ⟨rfl, rfl⟩ rfl <| .cons_of_ok ⟨rfl, rfl⟩ rfl <|
    .cons_of_ok rfl rfl <| .cons_of_ok ⟨rfl, rfl⟩ rfl <| .cons_of_ok ⟨rfl, rfl⟩ rfl <|
    .cons_of_ok rfl rfl trivial

end Multicorn.Xact
