import Multicorn.Xact.Invariant

/-! Every step that abandons no instance keeps the hooks bracketed. -/
namespace Multicorn.Xact
open Multicorn.Brackets Multicorn.Catalog

variable {s s' : Session}

section Preserve

theorem bracket_hook (event : SubXactEvent) (level : ℕ) (subid : SubTransactionId) :
    (event.hook level subid).bracket = some (.closing (level, subid)) := by
  unfold SubXactEvent.hook
  split_ifs <;> rfl

private theorem joined_of_stack {stack : List SubTransactionId} {depth : ℕ} {calls : List Hook}
    (h : s.Joined depth calls) (hphase : s.phase = .inProgress) (hphase' : s'.phase = .inProgress)
    (hstack : s'.stack = stack)
    (hsubids : ∀ level, 1 ≤ level → level ≤ depth →
      stack.reverse.getD (level - 1) 0 = s.subidAt level) : s'.Joined depth calls := by
  have hlevels : openLevels s' depth = openLevels s depth := by
    refine openLevels_congr fun level hpos hle => ?_
    rw [Session.subidAt, hstack]
    exact hsubids level hpos hle
  simpa only [Session.Joined, hphase, hphase', hlevels] using h

/-- The end of a subtransaction reaches the instances that joined it, and no others. -/
theorem Inv.subEnd (hs : Inv s) (hphase : s.phase = .inProgress) (hlevel : 2 ≤ s.nestLevel)
    {event : SubXactEvent} {outcome : SubOutcome}
    (hpair : event = .preCommitSub ∧ outcome = .committed ∨
      event = .abortSub ∧ outcome = .aborted) : Inv (s.subEnd event outcome) := by
  have hnest : (s.subEnd event outcome).nestLevel = s.nestLevel - 1 := List.length_tail
  have hhead := subidAt_nestLevel s (by omega)
  obtain ⟨subid, rest, hstack⟩ : ∃ subid rest, s.stack = subid :: rest := by
    cases hs' : s.stack with
    | nil => simp [Session.nestLevel, hs'] at hlevel
    | cons subid rest => exact ⟨subid, rest, rfl⟩
  have hlength : s.nestLevel = rest.length + 1 := by simp [Session.nestLevel, hstack]
  have hids := hs.ids
  rw [hstack] at hids
  have hnew : subid ∉ s.outcomes.map (·.1) := by
    have hnodup := (List.nodup_cons.mp hids).1
    exact fun h => hnodup (List.mem_append_right _ h)
  have hperm : (rest ++ (s.outcomes ++ [(subid, outcome)]).map (·.1)).Perm
      (subid :: rest ++ s.outcomes.map (·.1)) := by
    rw [List.map_append, ← List.append_assoc]
    exact List.perm_append_singleton _ _
  have hkept : ∀ level, 1 ≤ level → level ≤ s.nestLevel - 1 →
      rest.reverse.getD (level - 1) 0 = s.subidAt level := by
    intro level hpos hle
    rw [Session.subidAt, hstack]
    exact (subidAt_push subid hpos (by omega)).symm
  refine ⟨hs.toCore.subEnd hphase hlevel event outcome, fun inst => ?_, ?_, ?_, ?_⟩
  · have hbound := depthOf_le hs.toCore inst
    have hj := hs.joined inst
    rw [depthOf_subEnd event outcome hs.toCore, callsOf_subEnd event outcome hs.toCore (by omega)]
    have hstack' : (s.subEnd event outcome).stack = rest := by simp [Session.subEnd, hstack]
    by_cases hd : depthOf s.entries inst < s.nestLevel
    · rw [if_pos hd, if_pos hd, List.append_nil]
      exact joined_of_stack hj hphase hphase hstack' fun level hpos hle =>
        hkept level hpos (by omega)
    · -- The instance has joined the level that ends, which is on top of its open levels.
      rw [if_neg hd, if_neg hd]
      have hd' : depthOf s.entries inst = s.nestLevel := by omega
      rw [hd'] at hj ⊢
      have hopen : OpenAt (callsOf inst s.trace) (openLevels s s.nestLevel) := by
        simp only [Session.Joined, hphase] at hj
        rcases hj with ⟨hzero, -⟩ | ⟨-, hopen⟩
        · omega
        · exact hopen
      have htop := openLevels_succ s (s.nestLevel - 1) (by omega)
      rw [Nat.sub_add_cancel (by omega), hhead] at htop
      rw [htop] at hopen
      have hclosed := hopen.append_closing (bracket_hook event s.nestLevel (s.stack.headD 0))
      have hj' : s.Joined (s.nestLevel - 1)
          (callsOf inst s.trace ++ [event.hook s.nestLevel (s.stack.headD 0)]) := by
        simp only [Session.Joined, hphase]
        exact .inr ⟨by omega, hclosed⟩
      exact joined_of_stack hj' hphase hphase hstack' hkept
  · refine agrees_append (fun c hc => (hs.agrees c hc).concat _) fun e h hh => ?_
    unfold subEndHooks at hh
    split_ifs at hh
    · cases hh
    · obtain rfl := List.mem_singleton.mp hh
      have hlookup := lookup_concat_self hnew outcome
      obtain ⟨rfl, rfl⟩ | ⟨rfl, rfl⟩ := hpair
      · simpa [Agrees, SubXactEvent.hook, Session.subEnd, hstack] using hlookup
      · simpa [Agrees, SubXactEvent.hook, Session.subEnd, hstack] using hlookup
  · have hnodup := hperm.nodup_iff.mpr hids
    simpa [Session.subEnd, hstack] using hnodup
  · intro x hx
    refine hs.fresh x ?_
    have hmem := hperm.mem_iff (a := x)
    simp only [Session.subEnd, hstack, List.tail_cons, List.headD_cons] at hx
    rw [hstack]
    exact hmem.mp hx

theorem Inv.access (hs : Inv s) {oid : Oid} {slot : ℕ} (hphase : s.phase = .inProgress)
    (h : Access oid slot s s') (hkeep : ¬ Abandons s (.access oid slot)) : Inv s' := by
  obtain ⟨hp, hstack, hnext, -, houtcomes⟩ := h.frame
  have hphase' : s'.phase = .inProgress := hp.trans hphase
  have hlevel : 1 ≤ s.nestLevel := by
    have hlevels := hs.levels
    simpa [Session.LevelsFit, hphase] using hlevels
  have hlevels : ∀ depth, openLevels s' depth = openLevels s depth := fun depth =>
    openLevels_congr fun level _ _ => by rw [Session.subidAt, hstack, Session.subidAt]
  refine ⟨hs.toCore.step (.access hphase h), fun inst => ?_, fun c hc => ?_, ?_, ?_⟩
  · have hj := hs.joined inst
    obtain ⟨hdepth, hcalls⟩ | ⟨hdepth, hcalls⟩ := h.instance_cases hs.toCore hkeep inst
    · rw [hdepth, hcalls]
      simpa only [Session.Joined, hphase, hphase', hlevels] using hj
    · rw [hdepth, hcalls]
      simp only [Session.Joined, hphase, hphase', hlevels] at hj ⊢
      have hopen := OpenAt.append_joinHooks hlevel (depthOf_le hs.toCore inst) hj
      exact .inr ⟨hlevel, hopen⟩
  · rw [houtcomes]
    cases h with
    | reused hentry hinst hfresh =>
      rcases List.mem_append.mp hc with hc | hc
      · exact hs.agrees c hc
      · exact agrees_joinHooks (mem_callsTo hc)
    | inserted hentry =>
      rcases List.mem_append.mp hc with hc | hc
      · exact hs.agrees c hc
      · exact agrees_joinHooks (mem_callsTo hc)
    | rebuilt hentry hinst hstale =>
      rcases List.mem_append.mp hc with hc | hc
      · exact hs.agrees c hc
      · exact agrees_joinHooks (mem_callsTo hc)
  · rw [hstack, houtcomes]
    exact hs.ids
  · rw [hstack, houtcomes, hnext]
    exact hs.fresh

/-- A top-level callback calls its hooks on the instances in the transaction. -/
private theorem Inv.xactEvent (hs : Inv s) {top : XactEvent} {phase : Phase}
    {stack : List SubTransactionId} (hcore : Core (s.xactEvent top phase stack))
    (hstack : stack.Sublist s.stack)
    (hidle : ∀ inst, depthOf s.entries inst = 0 →
      (s.xactEvent top phase stack).Joined 0 (callsOf inst s.trace))
    (hin : ∀ inst, 0 < depthOf s.entries inst → (s.xactEvent top phase stack).Joined
      (if top = .commit ∨ top = .abort then 0 else depthOf s.entries inst)
      (callsOf inst s.trace ++ top.hooks)) : Inv (s.xactEvent top phase stack) := by
  have hsub : (stack ++ s.outcomes.map (·.1)).Sublist (s.stack ++ s.outcomes.map (·.1)) :=
    hstack.append_right _
  refine ⟨hcore, fun inst => ?_, ?_, hs.ids.sublist hsub, fun x hx => hs.fresh x (hsub.subset hx)⟩
  · rw [depthOf_xactEvent top phase stack hs.toCore, callsOf_xactEvent top phase stack hs.toCore]
    by_cases hd : depthOf s.entries inst = 0
    · rw [hd, if_pos rfl, List.append_nil, ite_self]
      exact hidle inst hd
    · rw [if_neg hd]
      exact hin inst (Nat.pos_of_ne_zero hd)
  · refine agrees_append hs.agrees fun e h hh => ?_
    unfold xactHooks at hh
    split_ifs at hh
    · cases hh
    · cases top <;> simp only [XactEvent.hooks, List.mem_singleton, List.not_mem_nil] at hh <;>
        rw [hh] <;> trivial

/-- A new transaction starts afresh, also after one that abandoned an instance. -/
theorem inv_beginXact (hs : Core s) (hstep : Step s .beginXact s') : Inv s' := by
  have hcore := hs.step hstep
  cases hstep with
  | beginXact hphase =>
    refine ⟨hcore, fun inst => ?_, fun c hc => ?_, by simp, by simp⟩
    · have hlevels := hs.levels
      have hdepth := depthOf_le hs inst
      simp only [Session.LevelsFit, hphase] at hlevels
      have hzero : depthOf s.entries inst = 0 := by omega
      exact .inl ⟨hzero, rfl⟩
    · cases hc

theorem Inv.step {e : Event} (hs : Inv s) (h : Step s e s') (hkeep : ¬ Abandons s e) :
    Inv s' := by
  have hcore := hs.toCore.step h
  cases h with
  | beginXact hphase => exact inv_beginXact hs.toCore (.beginXact hphase)
  | access hphase haccess => exact hs.access hphase haccess hkeep
  | ddl => exact ⟨hcore, hs.joined, hs.agrees, hs.ids, hs.fresh⟩
  | subStart hphase =>
    refine ⟨hcore, fun inst => ?_, hs.agrees, ?_, ?_⟩
    · refine joined_of_stack (hs.joined inst) hphase hphase rfl fun level hpos hle => ?_
      have hbound := depthOf_le hs.toCore inst
      exact subidAt_push _ hpos (Nat.le_trans hle hbound)
    · rw [List.cons_append, List.nodup_cons]
      refine ⟨fun hmem => ?_, hs.ids⟩
      exact Nat.lt_irrefl _ (hs.fresh _ hmem)
    · intro x hx
      rw [List.cons_append, List.mem_cons] at hx
      rcases hx with rfl | hx
      · exact Nat.lt_succ_self _
      · exact Nat.lt_succ_of_lt (hs.fresh x hx)
  | subCommit hphase hlevel => exact hs.subEnd hphase hlevel (.inl ⟨rfl, rfl⟩)
  | subAbort hphase hlevel => exact hs.subEnd hphase hlevel (.inr ⟨rfl, rfl⟩)
  | preCommit hphase hlevel =>
    refine hs.xactEvent hcore (List.Sublist.refl _) (fun inst hd => ?_) (fun inst hd => ?_)
    · have hj := hs.joined inst
      simp only [Session.Joined, hphase] at hj
      rcases hj with ⟨-, hcalls⟩ | ⟨hpos, -⟩
      · exact .inl ⟨rfl, hcalls⟩
      · omega
    · have hj := hs.joined inst
      have hbound := depthOf_le hs.toCore inst
      simp only [Session.Joined, hphase] at hj
      rcases hj with ⟨hzero, -⟩ | ⟨-, hopen⟩
      · omega
      · have hone : depthOf s.entries inst = 1 := by omega
        rw [hone] at hopen ⊢
        exact .inr ⟨rfl, _, rfl, hopen⟩
  | commit hphase =>
    refine hs.xactEvent hcore (List.nil_sublist _) (fun inst hd => ?_) (fun inst hd => ?_)
    · have hj := hs.joined inst
      simp only [Session.Joined, hphase] at hj
      rcases hj with ⟨-, hcalls⟩ | ⟨hpos, -⟩
      · exact ⟨rfl, .inl hcalls⟩
      · omega
    · have hj := hs.joined inst
      simp only [Session.Joined, hphase] at hj
      rcases hj with ⟨hzero, -⟩ | ⟨-, body, hcalls, hopen⟩
      · omega
      · refine ⟨rfl, .inr ⟨body, [.preCommit, .commit], ?_, hopen, .committed⟩⟩
        rw [hcalls, List.append_assoc]
        rfl
  | abort hphase =>
    refine hs.xactEvent hcore (List.nil_sublist _) (fun inst hd => ?_) (fun inst hd => ?_)
    · have hj := hs.joined inst
      rcases hphase with hphase | ⟨hphase, -⟩ <;> simp only [Session.Joined, hphase] at hj
      · rcases hj with ⟨-, hcalls⟩ | ⟨hpos, -⟩
        · exact ⟨rfl, .inl hcalls⟩
        · omega
      · rcases hj with ⟨-, hcalls⟩ | ⟨hpos, -⟩
        · exact ⟨rfl, .inl hcalls⟩
        · omega
    · have hj := hs.joined inst
      have hbound := depthOf_le hs.toCore inst
      rcases hphase with hphase | ⟨hphase, hlevel⟩ <;> simp only [Session.Joined, hphase] at hj
      · rcases hj with ⟨hzero, -⟩ | ⟨-, body, hcalls, hopen⟩
        · omega
        · refine ⟨rfl, .inr ⟨body, [.preCommit, .rollback], ?_, hopen, .abortedLate⟩⟩
          rw [hcalls, List.append_assoc]
          rfl
      · rcases hj with ⟨hzero, -⟩ | ⟨-, hopen⟩
        · omega
        · have hone : depthOf s.entries inst = 1 := by omega
          rw [hone] at hopen
          exact ⟨rfl, .inr ⟨_, [.rollback], rfl, hopen, .aborted⟩⟩

end Preserve

end Multicorn.Xact
