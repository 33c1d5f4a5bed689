import Multicorn.Xact.Runs

/-! A `sub_commit` that raises: which instances learn that the subtransaction was rolled
back. -/
namespace Multicorn.Xact
open Multicorn.StateMonad (run_get run_modifyGet)
open Multicorn.Catalog

variable {s s' : Session}

/-- How many instances take part in the innermost subtransaction. -/
def participants (level : ℕ) (entries : List (Oid × CacheEntry)) : ℕ :=
  entries.countP fun p => level ≤ p.2.xact_depth

/-- The local subtransaction ends when its commit is tried with some Python calls raising: a
failure aborts it. Then every instance that took part has last seen the rollback. -/
def OutcomeAgrees (s : Session) (faults : List Bool) : Prop :=
  match exec .subCommit { s with faults } with
  | .ok _ _ => True
  | .error .raised s₁ => ∃ s₂, exec .subAbort { s₁ with faults := [] } = .ok () s₂ ∧
      ∀ inst, s.nestLevel ≤ depthOf s.entries inst →
        (callsOf inst s₂.trace).getLast? = some (.subRollback s.nestLevel (s.stack.headD 0))
  | .error .crashed _ => False

/-- No call raises, or the first one does. -/
def FailsFirst (s : Session) (faults : List Bool) : Prop :=
  true ∉ faults.take (participants s.nestLevel s.entries) ∨ faults.head? = some true

/-- The entries up to the one whose call raises are moved to the level below, and the rest is as
it was. -/
def halfway (level : ℕ) (before : List (Oid × CacheEntry)) (p : Oid × CacheEntry)
    (after : List (Oid × CacheEntry)) : List (Oid × CacheEntry) :=
  before.map (fun p => (p.1, subEnded level p.2)) ++ p :: after

def endCalls (level : ℕ) (h : Hook) (entries : List (Oid × CacheEntry)) : List (ℕ × Hook) :=
  entries.flatMap fun p => callsTo p.2.value (subEndHooks level h p.2)

section Loop

variable {level : ℕ} {subid : SubTransactionId}

/-- The loop over the hash table passes all entries or stops at the first call that raises. -/
theorem forEntries_cases {rest : List (Oid × CacheEntry)} (hinit : Initialized rest)
    (visited : List (Oid × CacheEntry)) (he : s.entries = visited ++ rest) :
    (true ∉ s.faults.take (participants level rest) ∧
      forEntries (fun _ => subxactVisit .preCommitSub level subid) visited rest s = .ok ()
        { s with
          entries := visited ++ rest.map (fun p => (p.1, subEnded level p.2))
          faults := s.faults.drop (participants level rest)
          trace := s.trace ++ endCalls level (.subCommit level subid) rest }) ∨
    ∃ before p after inst faults, rest = before ++ p :: after ∧ p.2.value = .obj inst ∧
      level ≤ p.2.xact_depth ∧ true ∉ s.faults.take (participants level before) ∧
      s.faults[participants level before]? = some true ∧
      forEntries (fun _ => subxactVisit .preCommitSub level subid) visited rest s = .error .raised
        { s with
          entries := visited ++ halfway level before p after
          faults
          trace := s.trace ++ endCalls level (.subCommit level subid) before ++
            [(inst, .subCommit level subid)] } := by
  induction rest generalizing s visited with
  | nil =>
    left
    rw [List.append_nil] at he
    simp [participants, forEntries, pure, EStateM.pure, endCalls, ← he]
  | cons p rest ih =>
    obtain ⟨inst, hinst⟩ := hinit p (by simp)
    have hinit' : Initialized rest := fun q hq => hinit q (List.mem_cons_of_mem p hq)
    by_cases hlow : p.2.xact_depth < level
    · -- The entry does not take part and is passed.
      have hnot : ¬ level ≤ p.2.xact_depth := by omega
      have hcount : ∀ l, participants level (p :: l) = participants level l := by
        intro l
        simp [participants, hnot]
      have hended : subEnded level p.2 = p.2 := if_pos hlow
      have hcalls : ∀ l, endCalls level (.subCommit level subid) (p :: l) =
          endCalls level (.subCommit level subid) l := by
        intro l
        simp [endCalls, subEndHooks, hlow]
      have hstep : forEntries (fun _ => subxactVisit .preCommitSub level subid) visited (p :: rest) s =
          forEntries (fun _ => subxactVisit .preCommitSub level subid) (visited ++ [p]) rest s := by
        simp [forEntries, subxactVisit, hlow, bind, EStateM.bind, pure, EStateM.pure, modify,
          modifyGet, MonadStateOf.modifyGet, run_modifyGet, ← he]
      have he' : s.entries = visited ++ [p] ++ rest := by simp [he]
      rw [hstep]
      obtain ⟨hno, hrun⟩ | ⟨before, q, after, i, faults, rfl, hv, hq, hno, hyes, hrun⟩ :=
        ih hinit' (visited ++ [p]) he'
      · left
        refine ⟨by rw [hcount]; exact hno, ?_⟩
        rw [hrun, hcount, hcalls]
        simp [hended]
      · right
        refine ⟨p :: before, q, after, i, faults, rfl, hv, hq, by rw [hcount]; exact hno,
          by rw [hcount]; exact hyes, ?_⟩
        rw [hrun, hcalls]
        simp [halfway, hended]
    · -- The entry takes part; its call raises or the loop goes on.
      have hle : level ≤ p.2.xact_depth := by omega
      have hcount : ∀ l, participants level (p :: l) = participants level l + 1 := by
        intro l
        simp [participants, hle]
      have hcalls : ∀ l, endCalls level (.subCommit level subid) (p :: l) =
          (inst, .subCommit level subid) :: endCalls level (.subCommit level subid) l := by
        intro l
        simp [endCalls, subEndHooks, hlow, hinst, callsTo]
      by_cases hraise : s.faults.head? = some true
      · right
        obtain ⟨faults, hfaults⟩ := List.head?_eq_some_iff.mp hraise
        refine ⟨[], p, rest, inst, faults, rfl, hinst, hle, by simp [participants], ?_, ?_⟩
        · simp [participants, hfaults]
        · simp [forEntries, subxactVisit, hlow, hinst, callHook, pyCall, hfaults, bind,
            EStateM.bind, modify, modifyGet, MonadStateOf.modifyGet, run_modifyGet, halfway,
            endCalls, SubXactEvent.hook, ← he]
      · let s₁ : Session := { s with
          entries := visited ++ (p.1, subEnded level p.2) :: rest
          faults := s.faults.tail
          trace := s.trace ++ [(inst, .subCommit level subid)] }
        have hended : subEnded level p.2 = { p.2 with xact_depth := p.2.xact_depth - 1 } :=
          if_neg hlow
        have hstep : forEntries (fun _ => subxactVisit .preCommitSub level subid) visited (p :: rest) s =
            forEntries (fun _ => subxactVisit .preCommitSub level subid)
              (visited ++ [(p.1, subEnded level p.2)]) rest s₁ := by
          cases hf : s.faults with
          | nil =>
            simp [forEntries, subxactVisit, hlow, hinst, callHook, pyCall, hf, bind, EStateM.bind,
              pure, EStateM.pure, modify, modifyGet, MonadStateOf.modifyGet, run_modifyGet,
              SubXactEvent.hook, hended, s₁]
          | cons fault faults =>
            cases fault with
            | true => simp [hf] at hraise
            | false =>
              simp [forEntries, subxactVisit, hlow, hinst, callHook, pyCall, hf, bind,
                EStateM.bind, pure, EStateM.pure, modify, modifyGet, MonadStateOf.modifyGet,
                run_modifyGet, SubXactEvent.hook, hended, s₁]
        have hfirst : ∀ n, true ∉ s₁.faults.take n → true ∉ s.faults.take (n + 1) := by
          intro n hn
          cases hf : s.faults with
          | nil => simp
          | cons fault faults =>
            have htail : s₁.faults = faults := by simp [s₁, hf]
            rw [htail] at hn
            have hfault : fault = false := by
              cases fault with
              | true => simp [hf] at hraise
              | false => rfl
            simp [hfault, hn]
        have he' : s₁.entries = visited ++ [(p.1, subEnded level p.2)] ++ rest := by simp [s₁]
        rw [hstep]
        obtain ⟨hno, hrun⟩ | ⟨before, q, after, i, faults, rfl, hv, hq, hno, hyes, hrun⟩ :=
          ih hinit' _ he'
        · left
          refine ⟨by rw [hcount]; exact hfirst _ hno, ?_⟩
          rw [hrun, hcount, hcalls]
          simp [s₁]
        · right
          refine ⟨p :: before, q, after, i, faults, rfl, hv, hq, by rw [hcount]; exact hfirst _ hno,
            ?_, ?_⟩
          · rw [hcount]
            simpa [s₁] using hyes
          · rw [hrun, hcalls]
            simp [halfway, s₁]

end Loop

/-- Entries that keep their keys and values stay keyed. -/
theorem keyed_congr {entries entries' : List (Oid × CacheEntry)} (hk : Keyed entries)
    (h : entries'.map (fun p => (p.1, p.2.value)) = entries.map fun p => (p.1, p.2.value)) :
    Keyed entries' := by
  have hback : ∀ p' ∈ entries', ∃ p ∈ entries, p.1 = p'.1 ∧ p.2.value = p'.2.value := by
    intro p' hp'
    have hmem : (p'.1, p'.2.value) ∈ entries.map fun p => (p.1, p.2.value) :=
      h ▸ List.mem_map.mpr ⟨p', hp', rfl⟩
    obtain ⟨p, hp, hpp⟩ := List.mem_map.mp hmem
    exact ⟨p, hp, (Prod.mk.inj hpp).1, (Prod.mk.inj hpp).2⟩
  constructor
  · have hkeys : entries'.map (·.1) = entries.map (·.1) := by
      have hfst := congrArg (List.map Prod.fst) h
      simpa [List.map_map, Function.comp_def] using hfst
    rw [hkeys]
    exact hk.keys
  · intro p' hp' q' hq' hv
    obtain ⟨p, hp, hpk, hpv⟩ := hback p' hp'
    obtain ⟨q, hq, hqk, hqv⟩ := hback q' hq'
    rw [← hpk, ← hqk]
    exact hk.owners p hp q hq (by rw [hpv, hqv, hv])

theorem halfway_values (level : ℕ) (before : List (Oid × CacheEntry)) (p : Oid × CacheEntry)
    (after : List (Oid × CacheEntry)) :
    (halfway level before p after).map (fun p => (p.1, p.2.value)) =
      (before ++ p :: after).map fun p => (p.1, p.2.value) := by
  have hvalue : ∀ e, (subEnded level e).value = e.value := by
    intro e
    unfold subEnded
    split_ifs <;> rfl
  simp [halfway, hvalue, Function.comp_def]

theorem callsOf_endCalls {entries : List (Oid × CacheEntry)} (hk : Keyed entries) {level : ℕ}
    (hlevel : 0 < level) (h : Hook) (inst : ℕ) : callsOf inst (endCalls level h entries) =
      if depthOf entries inst < level then [] else [h] :=
  callsOf_visit hk (fun depth => if depth < level then [] else [h]) (if_pos hlevel) inst

theorem participants_eq_zero {level : ℕ} {entries : List (Oid × CacheEntry)} :
    participants level entries = 0 ↔ ∀ p ∈ entries, p.2.xact_depth < level := by
  simp [participants, List.countP_eq_zero]

section Commit

variable {faults : List Bool} {before after : List (Oid × CacheEntry)} {p : Oid × CacheEntry}

/-- Where the loop of the commit stopped. -/
def Session.stopped (s : Session) (before : List (Oid × CacheEntry)) (p : Oid × CacheEntry)
    (after : List (Oid × CacheEntry)) (inst : ℕ) (faults : List Bool) : Session :=
  { s with
    entries := halfway s.nestLevel before p after
    faults
    trace := s.trace ++ endCalls s.nestLevel (.subCommit s.nestLevel (s.stack.headD 0)) before ++
      [(inst, .subCommit s.nestLevel (s.stack.headD 0))] }

private theorem subCommit_ok {s s₁ : Session}
    (h : multicornSubxactCallback .preCommitSub (s.stack.headD 0) s = .ok () s₁) :
    ∃ s', exec .subCommit s = .ok () s' := by
  have hskip := multicornSubxactCallback_skip (s := s₁) (Or.inl rfl : SubXactEvent.commitSub =
    .commitSub ∨ SubXactEvent.commitSub = .startSub) (s₁.stack.headD 0)
  refine ⟨{ s₁ with
    stack := s₁.stack.tail, outcomes := s₁.outcomes ++ [(s₁.stack.headD 0, .committed)] }, ?_⟩
  simp only [exec, bind, EStateM.bind, get, getThe, MonadStateOf.get, run_get, h, hskip,
    popSub, modify, modifyGet, MonadStateOf.modifyGet, run_modifyGet]

/-- The commit goes through, or stops at the first call that raises. -/
theorem subCommit_cases (hs : Core s) (faults : List Bool) :
    (true ∉ faults.take (participants s.nestLevel s.entries) ∧
      ∃ s', exec .subCommit { s with faults } = .ok () s') ∨
    ∃ before p after inst rest, s.entries = before ++ p :: after ∧ p.2.value = .obj inst ∧
      s.nestLevel ≤ p.2.xact_depth ∧ true ∉ faults.take (participants s.nestLevel before) ∧
      faults[participants s.nestLevel before]? = some true ∧
      exec .subCommit { s with faults } =
        .error .raised (s.stopped before p after inst rest) := by
  have hloop := @forEntries_cases { s with faults } s.nestLevel (s.stack.headD 0) _ hs.initialized [] rfl
  have hcallback : multicornSubxactCallback .preCommitSub (s.stack.headD 0) { s with faults } =
      forEntries (fun _ => subxactVisit .preCommitSub s.nestLevel (s.stack.headD 0)) [] s.entries
        { s with faults } := rfl
  obtain ⟨hno, hrun⟩ | ⟨before, p, after, inst, rest, hsplit, hv, hp, hno, hyes, hrun⟩ := hloop
  · left
    refine ⟨hno, ?_⟩
    rw [← hcallback] at hrun
    exact subCommit_ok hrun
  · right
    refine ⟨before, p, after, inst, rest, hsplit, hv, hp, hno, hyes, ?_⟩
    rw [← hcallback] at hrun
    simp only [exec, bind, EStateM.bind, get, getThe, MonadStateOf.get, run_get, hrun]
    rfl

/-- The abort that follows calls the entries that are still at the level. -/
theorem subAbort_stopped (hs : Core s) (hlevel : 2 ≤ s.nestLevel)
    (hsplit : s.entries = before ++ p :: after) (inst : ℕ) (rest : List Bool) :
    ∃ s₂, exec .subAbort { s.stopped before p after inst rest with faults := [] } = .ok () s₂ ∧
      ∀ i, callsOf i s₂.trace = callsOf i (s.stopped before p after inst rest).trace ++
        if depthOf (halfway s.nestLevel before p after) i < s.nestLevel then []
        else [.subRollback s.nestLevel (s.stack.headD 0)] := by
  have hkeyed : Keyed (halfway s.nestLevel before p after) :=
    keyed_congr hs.keyed (by rw [halfway_values, hsplit])
  let s₁ : Session := { s.stopped before p after inst rest with faults := [] }
  have hready : ∀ q ∈ s₁.entries, (∃ i, q.2.value = .obj i) ∨ q.2.xact_depth < s₁.nestLevel := by
    intro q hq
    left
    have hmem : (q.1, q.2.value) ∈ s.entries.map fun p => (p.1, p.2.value) := by
      rw [hsplit, ← halfway_values s.nestLevel]
      exact List.mem_map.mpr ⟨q, hq, rfl⟩
    obtain ⟨q', hq', hqq⟩ := List.mem_map.mp hmem
    obtain ⟨i, hi⟩ := hs.initialized q' hq'
    exact ⟨i, by rw [← hi]; exact (Prod.mk.inj hqq).2.symm⟩
  have hcallback := multicornSubxactCallback_ok (s := s₁) rfl hready (.inr rfl) (s.stack.headD 0)
  refine ⟨s₁.subEnd .abortSub .aborted, ?_, ?_⟩
  · have hstack : s₁.stack.headD 0 = s.stack.headD 0 := rfl
    change exec .subAbort s₁ = _
    simp only [exec, bind, EStateM.bind, get, getThe, MonadStateOf.get, run_get, hstack,
      hcallback, popSub, modify, modifyGet, MonadStateOf.modifyGet, run_modifyGet,
      Session.subEnd]
  · intro i
    rw [Session.subEnd, callsOf_append]
    congr 1
    have hpos : 0 < s.nestLevel := by omega
    exact callsOf_endCalls hkeyed hpos (.subRollback s.nestLevel (s.stack.headD 0)) i

/-- A failure is reported to all that took part exactly when it is the first of their calls that
fails; a later one leaves the instances before it committed. -/
theorem outcomeAgrees_iff (hs : Core s) (hlevel : 2 ≤ s.nestLevel) (faults : List Bool) :
    OutcomeAgrees s faults ↔ FailsFirst s faults := by
  obtain ⟨hno, s', hrun⟩ | ⟨before, p, after, inst, rest, hsplit, hv, hp, hno, hyes, hrun⟩ :=
    subCommit_cases hs faults
  · rw [OutcomeAgrees, hrun]
    exact ⟨fun _ => Or.inl hno, fun _ => trivial⟩
  · obtain ⟨s₂, habort, hcalls⟩ := subAbort_stopped hs hlevel hsplit inst rest
    rw [OutcomeAgrees, hrun]
    have hkeyed : Keyed (halfway s.nestLevel before p after) :=
      keyed_congr hs.keyed (by rw [halfway_values, hsplit])
    by_cases hnone : participants s.nestLevel before = 0
    · -- No entry was moved before the failure.
      have hkept : halfway s.nestLevel before p after = s.entries := by
        have hall := participants_eq_zero.mp hnone
        have hmap : before.map (fun p => (p.1, subEnded s.nestLevel p.2)) = before := by
          conv_rhs => rw [← List.map_id before]
          apply List.map_congr_left
          intro q hq
          rw [subEnded, if_pos (hall q hq)]
          rfl
        rw [halfway, hmap, hsplit]
      rw [hnone] at hyes
      constructor
      · intro _
        right
        rw [List.head?_eq_getElem?]
        exact hyes
      · intro _
        refine ⟨s₂, habort, ?_⟩
        intro i hi
        rw [hcalls, hkept, if_neg (by omega)]
        simp
    · constructor
      · rintro ⟨s₂', habort', hlast⟩
        exfalso
        rw [habort] at habort'
        cases habort'
        have hsome : ∃ q ∈ before, s.nestLevel ≤ q.2.xact_depth := by
          by_contra hall
          apply hnone
          rw [participants_eq_zero]
          intro q hq
          by_contra hge
          exact hall ⟨q, hq, by omega⟩
        obtain ⟨q, hq, hqd⟩ := hsome
        have hqmem : q ∈ s.entries := by
          rw [hsplit]
          exact List.mem_append_left _ hq
        have hpmem : p ∈ s.entries := by
          rw [hsplit]
          simp
        obtain ⟨i, -, hi⟩ := hs.built q hqmem
        have hdepth : depthOf s.entries i = q.2.xact_depth := depthOf_of_mem hs.keyed hqmem hi
        have hbound := hs.bounded q hqmem
        have hne : (Pointer.obj inst) ≠ .obj i := by
          intro he
          have hpq := hs.keyed.eq_of_value hpmem hqmem (by rw [hv, hi, he])
          have hnodup := hs.keyed.values_nodup
          rw [hsplit, List.map_append, List.nodup_append] at hnodup
          have hdisjoint := hnodup.2.2 q.2.value (List.mem_map.mpr ⟨q, hq, rfl⟩) p.2.value
            (List.mem_map.mpr ⟨p, by simp, rfl⟩)
          exact hdisjoint (by rw [hpq])
        have hbefore : Keyed before := by
          have hsub : ∀ r ∈ before, r ∈ s.entries := by
            intro r hr
            rw [hsplit]
            exact List.mem_append_left _ hr
          refine ⟨?_, fun r hr r' hr' => hs.keyed.owners r (hsub r hr) r' (hsub r' hr')⟩
          have hkeys := hs.keyed.keys
          rw [hsplit, List.map_append] at hkeys
          exact hkeys.of_append_left
        have hdown : depthOf (halfway s.nestLevel before p after) i < s.nestLevel := by
          have hmem : (q.1, subEnded s.nestLevel q.2) ∈ halfway s.nestLevel before p after :=
            List.mem_append_left _ (List.mem_map.mpr ⟨q, hq, rfl⟩)
          have hended : subEnded s.nestLevel q.2 =
              { q.2 with xact_depth := q.2.xact_depth - 1 } := if_neg (by omega)
          rw [depthOf_of_mem hkeyed hmem (by rw [hended]; exact hi), hended]
          simp only
          omega
        have hcalled : callsOf i (endCalls s.nestLevel
            (.subCommit s.nestLevel (s.stack.headD 0)) before) =
            [.subCommit s.nestLevel (s.stack.headD 0)] := by
          rw [callsOf_endCalls hbefore (by omega), depthOf_of_mem hbefore hq hi, if_neg (by omega)]
        have hother : callsOf i [(inst, .subCommit s.nestLevel (s.stack.headD 0))] = [] :=
          callsOf_callsTo_ne hne [.subCommit s.nestLevel (s.stack.headD 0)]
        have hfinal := hlast i (by omega)
        rw [hcalls, if_pos hdown, List.append_nil, Session.stopped, callsOf_append, hother,
          List.append_nil, callsOf_append, hcalled] at hfinal
        simp at hfinal
      · rintro (hall | hhead)
        · -- The failing call is among those of the entries that take part.
          exfalso
          apply hall
          have hlt : participants s.nestLevel before < participants s.nestLevel s.entries := by
            rw [hsplit, participants, participants, List.countP_append, List.countP_cons]
            simp [hp]
          rw [List.mem_iff_getElem?]
          exact ⟨participants s.nestLevel before, by rw [List.getElem?_take_of_lt hlt]; exact hyes⟩
        · exfalso
          apply hno
          obtain ⟨fs, rfl⟩ := List.head?_eq_some_iff.mp hhead
          obtain ⟨n, hn⟩ := Nat.exists_eq_succ_of_ne_zero hnone
          rw [hn]
          simp

end Commit

/-- A subtransaction that two instances take part in. -/
def twoJoined : Session where
  catalogs := ⟨fun _ => none, fun _ => none, fun _ _ => none, 10⟩
  entries := [(7, ⟨.obj 0, [], [], 2⟩), (8, ⟨.obj 1, [], [], 2⟩)]
  instances := [(∅, []), (∅, [])]
  released := []
  phase := .inProgress
  stack := [2, 1]
  nextSubid := 3
  faults := []
  trace := []
  outcomes := []

theorem core_twoJoined : Core twoJoined where
  faults := rfl
  keyed := by
    constructor
    · decide
    · simp [twoJoined]
  built := by simp [twoJoined]
  bounded := by simp [twoJoined, Session.nestLevel]
  levels := by
    change 1 ≤ 2
    omega

/-- The call on the first of two instances raises. -/
theorem outcomeAgrees_first : OutcomeAgrees twoJoined [true] := by
  have hlevel : 2 ≤ twoJoined.nestLevel := le_refl 2
  apply (outcomeAgrees_iff core_twoJoined hlevel [true]).mpr
  right
  rfl

/-- The call on the second of two instances raises. The first one has then seen the commit of a
subtransaction that is aborted. -/
theorem second_fails : ¬∀ (s : Session) (faults : List Bool), Core s → 2 ≤ s.nestLevel →
    OutcomeAgrees s faults := by
  intro h
  have hagrees := h twoJoined [false, true] core_twoJoined (le_refl 2)
  obtain ⟨s₂, habort, hlast⟩ := hagrees
  cases habort
  have hseen := hlast 0 (le_refl 2)
  revert hseen
  decide

end Multicorn.Xact
