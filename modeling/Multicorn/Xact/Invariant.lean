import Multicorn.Xact.Step

/-! The invariant that ties the depth of every instance to the hooks it has seen. -/
namespace Multicorn.Xact
open Multicorn.Catalog

variable {s s' : Session}

/-- An access is about to give up an instance that takes part in the transaction. -/
def Abandons (s : Session) : Event → Prop
  | .access oid _ => ∃ entry, lookupEntry oid s.entries = some entry ∧ 0 < entry.xact_depth ∧
      Stale s oid entry
  | _ => False

section Access

variable {oid : Oid} {slot : ℕ}

theorem Access.keyed (hs : Core s) (h : Access oid slot s s') :
    Keyed s'.entries := by
  have hfill : ∀ (new : CacheEntry) (entries : List (Oid × CacheEntry)),
      (entries.map (·.1)).Nodup → new.value = .obj s.instances.length →
      (∀ p ∈ entries, p.1 ≠ oid → p ∈ s.entries) → Keyed (updateEntry oid (fun _ => new) entries) := by
    intro new entries hkeys hnew hold
    constructor
    · simpa using hkeys
    · intro p hp q hq hv
      rcases mem_updateEntry.mp hp with ⟨hp, hpo⟩ | ⟨e, -, rfl⟩ <;>
        rcases mem_updateEntry.mp hq with ⟨hq, hqo⟩ | ⟨e', -, rfl⟩
      · exact hs.keyed.owners p (hold p hp hpo) q (hold q hq hqo) hv
      · obtain ⟨i, hi, hpv⟩ := hs.built p (hold p hp hpo)
        rw [hnew, hpv] at hv
        cases hv
        omega
      · obtain ⟨i, hi, hqv⟩ := hs.built q (hold q hq hqo)
        rw [hnew, hqv] at hv
        cases hv
        omega
      · rfl
  cases h with
  | reused hentry hinst hfresh =>
    constructor
    · simpa using hs.keyed.keys
    · intro p hp q hq hv
      have hback : ∀ p ∈ updateEntry oid (withDepth s.nestLevel) s.entries,
          ∃ p' ∈ s.entries, p'.1 = p.1 ∧ p'.2.value = p.2.value := by
        intro p hp
        obtain ⟨p', hp', rfl⟩ := List.mem_map.mp hp
        refine ⟨p', hp', ?_⟩
        by_cases ho : p'.1 = oid <;> simp [ho, withDepth]
      obtain ⟨p', hp', hpk, hpv⟩ := hback p hp
      obtain ⟨q', hq', hqk, hqv⟩ := hback q hq
      rw [← hpk, ← hqk]
      exact hs.keyed.owners p' hp' q' hq' (by rw [hpv, hqv, hv])
  | inserted hentry =>
    have hnew := lookupEntry_eq_none.mp hentry
    refine hfill _ _ (keys_insertEntry slot hs.keyed.keys hnew) rfl fun p hp ho => ?_
    rcases mem_insertEntry.mp hp with rfl | hp
    · exact absurd rfl ho
    · exact hp
  | rebuilt hentry hinst hstale => exact hfill _ _ hs.keyed.keys rfl fun p hp _ => hp

theorem Access.built (hs : Core s) (h : Access oid slot s s') :
    ∀ p ∈ s'.entries, ∃ inst < s'.instances.length, p.2.value = .obj inst := by
  have hfill : ∀ {new : CacheEntry} {entries : List (Oid × CacheEntry)},
      new.value = .obj s.instances.length → (∀ p ∈ entries, p.1 ≠ oid → p ∈ s.entries) →
      ∀ p ∈ updateEntry oid (fun _ => new) entries,
        ∃ inst < s.instances.length + 1, p.2.value = .obj inst := by
    intro new entries hnew hold p hp
    rcases mem_updateEntry.mp hp with ⟨hp, ho⟩ | ⟨e, -, rfl⟩
    · obtain ⟨inst, hi, hv⟩ := hs.built p (hold p hp ho)
      exact ⟨inst, by omega, hv⟩
    · exact ⟨_, Nat.lt_succ_self _, hnew⟩
  cases h with
  | reused hentry hinst hfresh =>
    intro p hp
    rcases mem_updateEntry.mp hp with ⟨hp, -⟩ | ⟨e, he, rfl⟩
    · exact hs.built p hp
    · exact hs.built (oid, e) he
  | inserted hentry =>
    have hold : ∀ p ∈ insertEntry oid slot s.entries, p.1 ≠ oid → p ∈ s.entries := by
      intro p hp ho
      rcases mem_insertEntry.mp hp with rfl | hp
      · exact absurd rfl ho
      · exact hp
    simpa [Session.built] using hfill rfl hold
  | rebuilt hentry hinst hstale =>
    have hold : ∀ p ∈ s.entries, p.1 ≠ oid → p ∈ s.entries := fun p hp _ => hp
    simpa [Session.built] using hfill rfl hold

theorem Access.bounded (hs : Core s) (h : Access oid slot s s') :
    ∀ p ∈ s'.entries, p.2.xact_depth ≤ s.nestLevel := by
  intro p hp
  cases h with
  | reused hentry hinst hfresh =>
    rcases mem_updateEntry.mp hp with ⟨hp, -⟩ | ⟨e, he, rfl⟩
    · exact hs.bounded p hp
    · exact Nat.le_refl _
  | inserted hentry =>
    rcases mem_built.mp hp with ⟨hp, ho⟩ | ⟨e, he, rfl⟩
    · rcases mem_insertEntry.mp hp with rfl | hp
      · exact absurd rfl ho
      · exact hs.bounded p hp
    · exact Nat.le_refl _
  | rebuilt hentry hinst hstale =>
    rcases mem_built.mp hp with ⟨hp, -⟩ | ⟨e, he, rfl⟩
    · exact hs.bounded p hp
    · exact Nat.le_refl _

/-- Nothing but the cache, the instances and the trace changes. -/
theorem Access.frame (h : Access oid slot s s') :
    s'.phase = s.phase ∧ s'.stack = s.stack ∧ s'.nextSubid = s.nextSubid ∧
      s'.faults = s.faults ∧ s'.outcomes = s.outcomes := by
  cases h <;> exact ⟨rfl, rfl, rfl, rfl, rfl⟩

/-- What an access means for an instance: nothing, or it joins the current level. -/
def Unmoved (s s' : Session) (inst : ℕ) : Prop :=
  depthOf s'.entries inst = depthOf s.entries inst ∧ callsOf inst s'.trace = callsOf inst s.trace

def Joins (s s' : Session) (inst : ℕ) : Prop :=
  depthOf s'.entries inst = s.nestLevel ∧
    callsOf inst s'.trace = callsOf inst s.trace ++ joinHooks s (depthOf s.entries inst)

private theorem built_instance (hs : Core s) {entries : List (Oid × CacheEntry)}
    {options : List DefElem} {released : List ℕ} (hoid : ∃ e, (oid, e) ∈ entries)
    (hothers : ∀ p, p.1 ≠ oid → (p ∈ entries ↔ p ∈ s.entries))
    (hidle : ∀ p ∈ s.entries, p.1 = oid → p.2.xact_depth = 0)
    (hkeyed : Keyed (s.built oid options released entries).entries) (inst : ℕ) :
    Unmoved s (s.built oid options released entries) inst ∨
      Joins s (s.built oid options released entries) inst := by
  obtain ⟨e, he⟩ := hoid
  by_cases hnew : inst = s.instances.length
  · subst hnew
    right
    have hdepth : depthOf s.entries s.instances.length = 0 := by
      refine depthOf_of_not_mem fun p hp hv => ?_
      obtain ⟨i, hi, hv'⟩ := hs.built p hp
      rw [hv] at hv'
      cases hv'
      omega
    constructor
    · have hmem : (oid, (⟨.obj s.instances.length, options, tableColumns s.catalogs oid,
        s.nestLevel⟩ : CacheEntry)) ∈ (s.built oid options released entries).entries :=
        mem_built.mpr (.inr ⟨e, he, rfl⟩)
      exact depthOf_of_mem hkeyed hmem rfl
    · simp [Session.built, hdepth]
  · left
    have hne : Pointer.obj s.instances.length ≠ .obj inst := fun h => hnew (Pointer.obj.inj h).symm
    constructor
    · obtain ⟨p, hp, hv, hd⟩ | ⟨hnot, hd⟩ := depthOf_cases hs.keyed inst
      · by_cases ho : p.1 = oid
        · rw [hd, hidle p hp ho]
          refine depthOf_of_not_mem fun q hq hqv => ?_
          rcases mem_built.mp hq with ⟨hq, hqo⟩ | ⟨e', -, rfl⟩
          · have hpq := hs.keyed.eq_of_value hp ((hothers q hqo).mp hq) (hv.trans hqv.symm)
            exact hqo (hpq ▸ ho)
          · exact hne hqv
        · rw [hd]
          exact depthOf_of_mem hkeyed
            (mem_built.mpr (.inl ⟨(hothers p ho).mpr hp, ho⟩)) hv
      · rw [hd]
        refine depthOf_of_not_mem fun q hq hqv => ?_
        rcases mem_built.mp hq with ⟨hq, hqo⟩ | ⟨e', -, rfl⟩
        · exact hnot q ((hothers q hqo).mp hq) hqv
        · exact hne hqv
    · simp [Session.built, callsOf_callsTo_ne hne]

theorem Access.instance_cases (hs : Core s) (h : Access oid slot s s')
    (hkeep : ¬ Abandons s (.access oid slot)) (inst : ℕ) : Unmoved s s' inst ∨ Joins s s' inst := by
  have hkeyed := h.keyed hs
  cases h with
  | @reused entry i hentry hinst hfresh =>
    have hmem := mem_of_lookupEntry hentry
    by_cases hi : inst = i
    · subst hi
      right
      constructor
      · exact depthOf_of_mem hkeyed (mem_updateEntry.mpr (.inr ⟨entry, hmem, rfl⟩)) hinst
      · rw [depthOf_of_mem hs.keyed hmem hinst]
        simp [hinst]
    · left
      have hne : entry.value ≠ .obj inst := by
        rw [hinst]
        exact fun h => hi (Pointer.obj.inj h).symm
      constructor
      · obtain ⟨p, hp, hv, hd⟩ | ⟨hnot, hd⟩ := depthOf_cases hs.keyed inst
        · have ho : p.1 ≠ oid := by
            intro ho
            have hpe := eq_of_key hs.keyed.keys hp hmem ho
            exact hne (by rw [← hv, hpe])
          rw [hd]
          exact depthOf_of_mem hkeyed (mem_updateEntry.mpr (.inl ⟨hp, ho⟩)) hv
        · rw [hd]
          refine depthOf_of_not_mem fun q hq hqv => ?_
          rcases mem_updateEntry.mp hq with ⟨hq, -⟩ | ⟨e, he, rfl⟩
          · exact hnot q hq hqv
          · exact hnot _ he hqv
      · simp [callsOf_callsTo_ne hne]
  | inserted hentry =>
    have hnew := lookupEntry_eq_none.mp hentry
    refine built_instance hs ⟨_, mem_insertEntry.mpr (.inl rfl)⟩ ?_ ?_ hkeyed inst
    · intro p ho
      rw [mem_insertEntry]
      exact ⟨fun h => h.resolve_left fun he => ho (by rw [he]), .inr⟩
    · intro p hp ho
      exact absurd (List.mem_map.mpr ⟨p, hp, ho⟩) hnew
  | @rebuilt entry i options hentry hinst hstale =>
    have hmem := mem_of_lookupEntry hentry
    refine built_instance hs ⟨_, hmem⟩ (fun p _ => Iff.rfl) ?_ hkeyed inst
    intro p hp ho
    obtain rfl := eq_of_key hs.keyed.keys hp hmem ho
    by_contra hd
    exact hkeep ⟨entry, hentry, Nat.pos_of_ne_zero hd, hstale⟩

end Access

section Ends

variable (event : SubXactEvent) (outcome : SubOutcome)

theorem depthOf_subEnd (hs : Core s) (inst : ℕ) :
    depthOf (s.subEnd event outcome).entries inst =
      if depthOf s.entries inst < s.nestLevel then depthOf s.entries inst
      else depthOf s.entries inst - 1 := by
  refine depthOf_visit (fun e => ?_) hs.keyed
    (g := fun depth => if depth < s.nestLevel then depth else depth - 1) ?_ (fun e => ?_) inst
  · unfold subEnded
    split_ifs <;> rfl
  · simp
  · unfold subEnded
    split_ifs <;> rfl

theorem callsOf_subEnd (hs : Core s) (hlevel : 1 ≤ s.nestLevel) (inst : ℕ) :
    callsOf inst (s.subEnd event outcome).trace = callsOf inst s.trace ++
      if depthOf s.entries inst < s.nestLevel then []
      else [event.hook s.nestLevel (s.stack.headD 0)] := by
  rw [Session.subEnd, callsOf_append]
  congr 1
  exact callsOf_visit hs.keyed (fun depth => if depth < s.nestLevel then []
    else [event.hook s.nestLevel (s.stack.headD 0)]) (by simp; omega) inst

variable (top : XactEvent) (phase : Phase) (stack : List SubTransactionId)

theorem depthOf_xactEvent (hs : Core s) (inst : ℕ) :
    depthOf (s.xactEvent top phase stack).entries inst =
      if top = .commit ∨ top = .abort then 0 else depthOf s.entries inst := by
  refine depthOf_visit (fun e => ?_) hs.keyed
    (g := fun depth => if top = .commit ∨ top = .abort then 0 else depth) ?_ (fun e => ?_) inst
  · unfold xactEnded
    split_ifs <;> rfl
  · simp
  · unfold xactEnded
    split_ifs <;> rfl

theorem callsOf_xactEvent (hs : Core s) (inst : ℕ) :
    callsOf inst (s.xactEvent top phase stack).trace = callsOf inst s.trace ++
      if depthOf s.entries inst = 0 then [] else top.hooks := by
  rw [Session.xactEvent, callsOf_append]
  congr 1
  exact callsOf_visit hs.keyed (fun depth => if depth = 0 then [] else top.hooks)
    (by simp) inst

end Ends

theorem Core.subEnd (hs : Core s) (hphase : s.phase = .inProgress) (hlevel : 2 ≤ s.nestLevel)
    (event : SubXactEvent) (outcome : SubOutcome) : Core (s.subEnd event outcome) := by
  have hvalue : ∀ e, (subEnded s.nestLevel e).value = e.value := by
    intro e
    unfold subEnded
    split_ifs <;> rfl
  have hnest : (s.subEnd event outcome).nestLevel = s.nestLevel - 1 := List.length_tail
  refine ⟨hs.faults, hs.keyed.visit hvalue, ?_, ?_, ?_⟩
  · intro p' hp'
    obtain ⟨p, hp, rfl⟩ := List.mem_map.mp hp'
    obtain ⟨inst, hi, hv⟩ := hs.built p hp
    exact ⟨inst, hi, (hvalue p.2).trans hv⟩
  · intro p' hp'
    obtain ⟨p, hp, rfl⟩ := List.mem_map.mp hp'
    have hbounded := hs.bounded p hp
    rw [hnest]
    simp only [subEnded]
    split_ifs
    · omega
    · simp only
      omega
  · have hfit : 1 ≤ s.nestLevel - 1 := by omega
    simpa [Session.LevelsFit, Session.subEnd, hphase, Session.nestLevel] using hfit

theorem Core.xactEvent (hs : Core s) {top : XactEvent} {phase : Phase}
    {stack : List SubTransactionId}
    (hend : phase = .idle ∧ stack = [] ∧ (top = .commit ∨ top = .abort) ∨
      phase = .committing ∧ stack = s.stack ∧ s.nestLevel = 1) :
    Core (s.xactEvent top phase stack) := by
  have hvalue : ∀ e, (xactEnded top e).value = e.value := by
    intro e
    unfold xactEnded
    split_ifs <;> rfl
  refine ⟨hs.faults, hs.keyed.visit hvalue, ?_, ?_, ?_⟩
  · intro p' hp'
    obtain ⟨p, hp, rfl⟩ := List.mem_map.mp hp'
    obtain ⟨inst, hi, hv⟩ := hs.built p hp
    exact ⟨inst, hi, (hvalue p.2).trans hv⟩
  · intro p' hp'
    obtain ⟨p, hp, rfl⟩ := List.mem_map.mp hp'
    obtain ⟨rfl, rfl, htop⟩ | ⟨rfl, rfl, hlevel⟩ := hend
    · simp [xactEnded, htop]
    · have hbounded := hs.bounded p hp
      simp only [xactEnded]
      split_ifs
      · exact Nat.zero_le _
      · exact hbounded
  · obtain ⟨rfl, rfl, -⟩ | ⟨rfl, rfl, hlevel⟩ := hend
    · rfl
    · exact hlevel

/-- Every step of a session keeps the cache in shape, also one that abandons an instance. -/
theorem Core.step {e : Event} (hs : Core s) (h : Step s e s') : Core s' := by
  have hlevels := hs.levels
  unfold Session.LevelsFit at hlevels
  cases h with
  | beginXact hphase =>
    refine ⟨hs.faults, hs.keyed, hs.built, fun p hp => ?_, Nat.le_refl _⟩
    have hbounded := hs.bounded p hp
    simp only [hphase] at hlevels
    simp only [hlevels, Nat.le_zero] at hbounded
    rw [hbounded]
    exact Nat.zero_le _
  | access hphase haccess =>
    obtain ⟨hp, hstack, -, hfaults, -⟩ := haccess.frame
    have hnest : s'.nestLevel = s.nestLevel := by rw [Session.nestLevel, hstack]; rfl
    refine ⟨hfaults.trans hs.faults, haccess.keyed hs, haccess.built hs, ?_, ?_⟩
    · rw [hnest]
      exact haccess.bounded hs
    · rw [hphase] at hp hlevels
      simpa [Session.LevelsFit, hp, hnest] using hlevels
  | ddl => exact ⟨hs.faults, hs.keyed, hs.built, hs.bounded, hs.levels⟩
  | subStart hphase =>
    refine ⟨hs.faults, hs.keyed, hs.built, fun p hp => ?_, ?_⟩
    · exact Nat.le_succ_of_le (hs.bounded p hp)
    · simp [Session.LevelsFit, hphase, Session.nestLevel]
  | subCommit hphase hlevel => exact hs.subEnd hphase hlevel _ _
  | subAbort hphase hlevel => exact hs.subEnd hphase hlevel _ _
  | preCommit hphase hlevel => exact hs.xactEvent (.inr ⟨rfl, rfl, hlevel⟩)
  | commit hphase => exact hs.xactEvent (.inl ⟨rfl, rfl, .inl rfl⟩)
  | abort hphase => exact hs.xactEvent (.inl ⟨rfl, rfl, .inr rfl⟩)

/-- What an instance of some depth has seen in the current transaction. -/
def Session.Joined (s : Session) (depth : ℕ) (calls : List Hook) : Prop :=
  match s.phase with
  | .idle => depth = 0 ∧ (calls = [] ∨ WellBracketed calls)
  | .inProgress => depth = 0 ∧ calls = [] ∨ 0 < depth ∧ OpenAt calls (openLevels s depth)
  | .committing => depth = 0 ∧ calls = [] ∨
      depth = 1 ∧ ∃ body, calls = body ++ [.preCommit] ∧ OpenAt body []

/-- The end that a hook reports is the end the subtransaction had. -/
def Agrees (outcomes : List (SubTransactionId × SubOutcome)) : Hook → Prop
  | .subCommit _ subid => outcomes.lookup subid = some .committed
  | .subRollback _ subid => outcomes.lookup subid = some .aborted
  | _ => True

structure Inv (s : Session) : Prop extends Core s where
  joined : ∀ inst, s.Joined (depthOf s.entries inst) (callsOf inst s.trace)
  agrees : ∀ c ∈ s.trace, Agrees s.outcomes c.2
  ids : (s.stack ++ s.outcomes.map (·.1)).Nodup
  fresh : ∀ x ∈ s.stack ++ s.outcomes.map (·.1), x < s.nextSubid

theorem depthOf_le (hs : Core s) (inst : ℕ) : depthOf s.entries inst ≤ s.nestLevel := by
  obtain ⟨p, hp, -, hd⟩ | ⟨-, hd⟩ := depthOf_cases hs.keyed inst
  · rw [hd]
    exact hs.bounded p hp
  · rw [hd]
    exact Nat.zero_le _

section Trace

variable {outcomes : List (SubTransactionId × SubOutcome)}

theorem agrees_append {entries : List (Oid × CacheEntry)} {hooks : CacheEntry → List Hook}
    {trace : List (ℕ × Hook)} (hold : ∀ c ∈ trace, Agrees outcomes c.2)
    (hnew : ∀ e, ∀ h ∈ hooks e, Agrees outcomes h) :
    ∀ c ∈ trace ++ entries.flatMap (fun p => callsTo p.2.value (hooks p.2)),
      Agrees outcomes c.2 := by
  intro c hc
  rcases List.mem_append.mp hc with hc | hc
  · exact hold c hc
  · obtain ⟨p, -, hc⟩ := List.mem_flatMap.mp hc
    exact hnew p.2 c.2 (mem_callsTo hc)

theorem agrees_joinHooks {depth : ℕ} {h : Hook} (hh : h ∈ joinHooks s depth) :
    Agrees outcomes h := by
  rcases List.mem_append.mp hh with hh | hh
  · have hbegin : h = .begin := by
      split_ifs at hh
      · exact List.mem_singleton.mp hh
      · cases hh
    rw [hbegin]
    trivial
  · obtain ⟨level, -, rfl⟩ := List.mem_map.mp hh
    trivial

theorem Agrees.concat {h : Hook} (hh : Agrees outcomes h) (o : SubTransactionId × SubOutcome) :
    Agrees (outcomes ++ [o]) h := by
  cases h with
  | subCommit level subid =>
    have hlookup : outcomes.lookup subid = some .committed := hh
    simp [Agrees, List.lookup_append, hlookup]
  | subRollback level subid =>
    have hlookup : outcomes.lookup subid = some .aborted := hh
    simp [Agrees, List.lookup_append, hlookup]
  | _ => trivial

theorem lookup_concat_self {subid : SubTransactionId} (h : subid ∉ outcomes.map (·.1))
    (outcome : SubOutcome) : (outcomes ++ [(subid, outcome)]).lookup subid = some outcome := by
  have hnone : outcomes.lookup subid = none := by
    rw [List.lookup_eq_none_iff]
    intro p hp
    have hne : subid ≠ p.1 := fun he => h (List.mem_map.mpr ⟨p, hp, he.symm⟩)
    simpa using hne
  simp [List.lookup_append, hnone]

end Trace

end Multicorn.Xact
