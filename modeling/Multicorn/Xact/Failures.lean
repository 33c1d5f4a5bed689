import Multicorn.General.StateMonad
import Multicorn.Xact.Runs

/-! What is left in the instance cache when a class cannot be loaded, a constructor fails or a
hook raises. -/
namespace Multicorn.Xact
open Multicorn.Catalog
open Multicorn.StateMonad (Leaves run_get run_modifyGet run_set run_throw)

variable {s s' : Session}

/-- Constructed, and the cache still has its reference. -/
def Session.Live (s : Session) (inst : ℕ) : Prop := inst < s.instances.length ∧ inst ∉ s.released

/-- Every entry is empty or has an instance of its own, which is live. -/
structure Sound (s : Session) : Prop where
  keys : (s.entries.map (·.1)).Nodup
  values : ∀ p ∈ s.entries, p.2.value = .null ∨ ∃ inst, p.2.value = .obj inst ∧ s.Live inst
  owners : ∀ p ∈ s.entries, ∀ q ∈ s.entries, ∀ inst, p.2.value = .obj inst →
    q.2.value = .obj inst → p.1 = q.1
  depths : ∀ p ∈ s.entries, 0 < p.2.xact_depth → p.2.value ≠ .null
  released : ∀ inst ∈ s.released, inst < s.instances.length

/-- What a step does to instances: it releases live ones, each once, and the hooks it calls go
to instances that are live then. -/
structure Proper (s s' : Session) : Prop where
  released : ∃ given, s'.released = s.released ++ given ∧ given.Nodup ∧ ∀ inst ∈ given, s.Live inst
  calls : ∃ before calls, s'.trace = before ++ calls ∧ (before = s.trace ∨ before = []) ∧
    ∀ c ∈ calls, s'.Live c.1

/-- A step with the Python calls in it that raise. -/
def attempt (s : Session) (e : Event) (faults : List Bool) : EStateM.Result Failure Session Unit :=
  exec e { s with faults }

/-- The session after a step, also after one that raised; a crash ends it. -/
def resume : EStateM.Result Failure Session Unit → Option Session
  | .ok _ s => some { s with faults := [] }
  | .error .raised s => some { s with faults := [] }
  | .error .crashed _ => none

def attempts : List (Event × List Bool) → Session → Option Session
  | [], s => some s
  | (e, faults) :: events, s => (resume (attempt s e faults)).bind (attempts events)

/-- Every step of a run with failures meets `P` in the state it is taken in. -/
def AllAttempts (P : Session → Event → List Bool → Prop) (s : Session) :
    List (Event × List Bool) → Prop
  | [] => True
  | (e, faults) :: events => P s e faults ∧
      ∀ s', resume (attempt s e faults) = some s' → AllAttempts P s' events

/-- Only accesses run code of the wrapper that may raise. -/
def Admissible (s : Session) (e : Event) (faults : List Bool) : Prop :=
  e.Enabled s ∧ (faults ≠ [] → ∃ oid slot, e = .access oid slot)

/-- The class is loaded for an instance that is to be replaced; and if this instance is in the
transaction, the column definitions that are not there yet and its replacement are made too. -/
def Replaces (entry : CacheEntry) (p_columns : Bool) (faults : List Bool) : Prop :=
  faults.headD false = false ∧
    (0 < entry.xact_depth → true ∉ faults.take (if p_columns then 2 else 3))

/-- Loading the class does not fail for a new entry, and an instance that is given up is replaced.
Where the options are unchanged the column definitions come first, and may fail. -/
def Careful (s : Session) (e : Event) (faults : List Bool) : Prop :=
  match e with
  | .access oid _ =>
    match lookupEntry oid s.entries with
    | none => faults.headD false = false
    | some entry => entry.value ≠ .null →
        (getOptions s.catalogs oid ≠ some entry.options → Replaces entry false faults) ∧
        (getOptions s.catalogs oid = some entry.options → Stale s oid entry →
          faults.headD false = false → Replaces entry true faults.tail)
  | _ => True

def Fine (s s' : Session) : Prop := Sound s' ∧ Proper s s'

/-- The step neither breaks the cache nor uses an instance that is not there. A crash is the one
of comparing an empty list of columns. -/
def Survives (s : Session) (e : Event) (faults : List Bool) : Prop :=
  Leaves (fun failure => failure = .raised ∨ ComparesNil s e) (Fine s) (fun _ => Fine s)
    (attempt s e faults)

theorem Proper.refl (s : Session) : Proper s s :=
  ⟨⟨[], by simp, List.nodup_nil, by simp⟩, ⟨s.trace, [], by simp, .inl rfl, by simp⟩⟩

/-- The cache is sound up to the entry of one table. -/
structure SoundBut (oid : Oid) (s : Session) : Prop where
  keys : (s.entries.map (·.1)).Nodup
  values : ∀ p ∈ s.entries, p.1 ≠ oid →
    p.2.value = .null ∨ ∃ inst, p.2.value = .obj inst ∧ s.Live inst
  owners : ∀ p ∈ s.entries, ∀ q ∈ s.entries, p.1 ≠ oid → q.1 ≠ oid → ∀ inst,
    p.2.value = .obj inst → q.2.value = .obj inst → p.1 = q.1
  depths : ∀ p ∈ s.entries, p.1 ≠ oid → 0 < p.2.xact_depth → p.2.value ≠ .null
  released : ∀ inst ∈ s.released, inst < s.instances.length

theorem Sound.but (h : Sound s) (oid : Oid) : SoundBut oid s :=
  ⟨h.keys, fun p hp _ => h.values p hp, fun p hp q hq _ _ => h.owners p hp q hq,
    fun p hp _ => h.depths p hp, h.released⟩

/-- What an entry may be made without breaking the cache. -/
def Fits (s : Session) (oid : Oid) (entry : CacheEntry) : Prop :=
  entry.value = .null ∧ entry.xact_depth = 0 ∨
    ∃ inst, entry.value = .obj inst ∧ s.Live inst ∧
      ∀ p ∈ s.entries, p.1 ≠ oid → p.2.value ≠ .obj inst

theorem SoundBut.update {oid : Oid} (h : SoundBut oid s) {f : CacheEntry → CacheEntry}
    (hf : ∀ e, (oid, e) ∈ s.entries → Fits s oid (f e)) :
    Sound { s with entries := updateEntry oid f s.entries } := by
  constructor
  · simpa using h.keys
  · intro p hp
    obtain ⟨hp, ho⟩ | ⟨e, he, rfl⟩ := mem_updateEntry.mp hp
    · exact h.values p hp ho
    · obtain ⟨hnull, -⟩ | ⟨inst, hv, hlive, -⟩ := hf e he
      · exact Or.inl hnull
      · exact Or.inr ⟨inst, hv, hlive⟩
  · intro p hp q hq inst hpv hqv
    obtain ⟨hp, hpo⟩ | ⟨e, he, rfl⟩ := mem_updateEntry.mp hp
    · obtain ⟨hq, hqo⟩ | ⟨e', he', rfl⟩ := mem_updateEntry.mp hq
      · exact h.owners p hp q hq hpo hqo inst hpv hqv
      · obtain ⟨hnull, -⟩ | ⟨i, hv, -, hothers⟩ := hf e' he'
        · rw [hnull] at hqv
          cases hqv
        · exact absurd (hpv.trans (hqv.symm.trans hv)) (hothers p hp hpo)
    · obtain ⟨hq, hqo⟩ | ⟨e', he', rfl⟩ := mem_updateEntry.mp hq
      · obtain ⟨hnull, -⟩ | ⟨i, hv, -, hothers⟩ := hf e he
        · rw [hnull] at hpv
          cases hpv
        · exact absurd (hqv.trans (hpv.symm.trans hv)) (hothers q hq hqo)
      · rfl
  · intro p hp hpos
    obtain ⟨hp, ho⟩ | ⟨e, he, rfl⟩ := mem_updateEntry.mp hp
    · exact h.depths p hp ho hpos
    · obtain ⟨-, hzero⟩ | ⟨inst, hv, -, -⟩ := hf e he
      · change 0 < (f e).xact_depth at hpos
        omega
      · change (f e).value ≠ .null
        rw [hv]
        exact Pointer.noConfusion
  · exact h.released

/-! Accesses. -/

section Access

variable {s₀ : Session} {oid : Oid} {inst : ℕ} {E : Failure → Prop}

/-- In the middle of an access the entry holds an instance that is live. -/
structure Serving (s₀ : Session) (oid : Oid) (inst : ℕ) (s : Session) : Prop where
  fine : Fine s₀ s
  live : s.Live inst
  mem : oid ∈ s.entries.map (·.1)
  value : ∀ p ∈ s.entries, p.1 = oid → p.2.value = .obj inst

theorem pyCall_leaves {I : Session → Prop} {Q : Unit → Session → Prop}
    (hraise : s.faults.headD false = true → E .raised ∧ I { s with faults := s.faults.tail })
    (hok : s.faults.headD false = false → Q () { s with faults := s.faults.tail }) :
    Leaves E I Q (pyCall s) := by
  cases hfault : s.faults.headD false with
  | true => exact .of_error (pyCall_raises hfault) (hraise hfault).1 (hraise hfault).2
  | false => exact .of_ok (pyCall_returns hfault) (hok hfault)

theorem calls_succeed {faults : List Bool} {n : ℕ} (h : true ∉ faults.take (n + 1)) :
    faults.headD false = false ∧ true ∉ faults.tail.take n := by
  cases faults with
  | nil => exact ⟨rfl, by simp⟩
  | cons fault faults => simpa [eq_comm] using h

theorem Serving.faults (h : Serving s₀ oid inst s) (faults : List Bool) :
    Serving s₀ oid inst { s with faults } :=
  ⟨⟨⟨h.fine.1.keys, h.fine.1.values, h.fine.1.owners, h.fine.1.depths,
    h.fine.1.released⟩,
    ⟨h.fine.2.released, h.fine.2.calls⟩⟩, h.live, h.mem, h.value⟩

theorem Serving.call (h : Serving s₀ oid inst s) (hook : Hook) :
    Serving s₀ oid inst { s with trace := s.trace ++ [(inst, hook)] } := by
  refine ⟨⟨⟨h.fine.1.keys, h.fine.1.values, h.fine.1.owners, h.fine.1.depths,
    h.fine.1.released⟩,
    ⟨h.fine.2.released, ?_⟩⟩, h.live, h.mem, h.value⟩
  obtain ⟨before, calls, htrace, hbefore, hlive⟩ := h.fine.2.calls
  refine ⟨before, calls ++ [(inst, hook)], by simp [htrace], hbefore, ?_⟩
  intro c hc
  obtain hc | hc := List.mem_append.mp hc
  · exact hlive c hc
  · rw [List.mem_singleton.mp hc]
    exact h.live

theorem Serving.depth (h : Serving s₀ oid inst s) (depth : ℕ) :
    Serving s₀ oid inst { s with entries := updateEntry oid (withDepth depth) s.entries } := by
  refine ⟨⟨?_, ⟨h.fine.2.released, h.fine.2.calls⟩⟩, h.live, by simpa using h.mem, ?_⟩
  · apply (h.fine.1.but oid).update
    intro e he
    have hv : e.value = .obj inst := h.value (oid, e) he rfl
    right
    refine ⟨inst, hv, h.live, ?_⟩
    intro p hp ho hpv
    exact ho (h.fine.1.owners p hp (oid, e) he inst hpv hv)
  · intro p hp ho
    obtain ⟨-, hne⟩ | ⟨e, he, rfl⟩ := mem_updateEntry.mp hp
    · exact absurd ho hne
    · exact h.value (oid, e) he rfl

theorem callHook_leaves (hE : E .raised) (h : Serving s₀ oid inst s) (hook : Hook) :
    Leaves E (Fine s₀) (fun _ => Serving s₀ oid inst) (callHook (.obj inst) hook s) := by
  apply Leaves.bind (P := fun _ => Serving s₀ oid inst)
  · exact h.call hook
  · intro _ s₁ hs₁
    apply pyCall_leaves
    · intro _
      exact ⟨hE, (hs₁.faults _).fine⟩
    · intro _
      exact hs₁.faults _

theorem joinLevel_leaves (hE : E .raised) (h : Serving s₀ oid inst s) (level : ℕ) :
    Leaves E (Fine s₀) (fun _ => Serving s₀ oid inst) (joinLevel oid (.obj inst) level s) :=
  callHook_leaves hE (h.depth level) _

theorem beginRemoteXact_leaves (hE : E .raised) (h : Serving s₀ oid inst s) {entry : CacheEntry}
    (hvalue : entry.value = .obj inst) :
    Leaves E (Fine s₀) (fun _ => Serving s₀ oid inst) (beginRemoteXact oid entry s) := by
  unfold beginRemoteXact
  rw [hvalue]
  have hjoin : ∀ (s : Session) (levels : List ℕ), Serving s₀ oid inst s →
      Leaves E (Fine s₀) (fun _ => Serving s₀ oid inst)
        (levels.forM (joinLevel oid (.obj inst)) s) :=
    fun s levels hs => Leaves.forM (fun level _ s hs => joinLevel_leaves hE hs level) hs
  apply Leaves.bind (P := fun a s₁ => a = s₁ ∧ Serving s₀ oid inst s₁)
  · exact ⟨rfl, h⟩
  · rintro _ s₁ ⟨rfl, hs₁⟩
    by_cases hd : entry.xact_depth = 0
    · simp only [hd, if_true]
      apply Leaves.bind (callHook_leaves hE hs₁ .begin)
      intro _ s₂ hs₂
      exact hjoin _ _ (hs₂.depth 1)
    · simp only [hd, if_false]
      exact hjoin _ _ hs₁

theorem SoundBut.faults (h : SoundBut oid s) (faults : List Bool) :
    SoundBut oid { s with faults } :=
  ⟨h.keys, h.values, h.owners, h.depths, h.released⟩

theorem Proper.faults (h : Proper s₀ s) (faults : List Bool) : Proper s₀ { s with faults } :=
  ⟨h.released, h.calls⟩

theorem SoundBut.cleared (h : SoundBut oid s) {f : CacheEntry → CacheEntry}
    (hvalue : ∀ e, (f e).value = .null)
    (hdepth : ∀ e, (oid, e) ∈ s.entries → (f e).xact_depth = 0) :
    Sound { s with entries := updateEntry oid f s.entries } :=
  h.update fun e he => Or.inl ⟨hvalue e, hdepth e he⟩

/-- A construction that succeeds leaves a new instance in the entry. -/
theorem serving_new (hbut : SoundBut oid s) (hproper : Proper s₀ s)
    (hmem : oid ∈ s.entries.map (·.1)) (options : List DefElem)
    (columns : List Attribute) (made : PyDict × List Attribute) :
    Serving s₀ oid s.instances.length
      { s with
        instances := s.instances ++ [made]
        entries := updateEntry oid (fun _ => ⟨.obj s.instances.length, options, columns, 0⟩)
          s.entries } := by
  let s₁ : Session := { s with instances := s.instances ++ [made] }
  have hlength : s₁.instances.length = s.instances.length + 1 := by simp [s₁]
  have hlive : ∀ inst, s.Live inst → s₁.Live inst := by
    rintro inst ⟨hlt, hnot⟩
    exact ⟨by omega, hnot⟩
  have hnew : s₁.Live s.instances.length := by
    refine ⟨by omega, ?_⟩
    intro hm
    have hlt := hbut.released _ hm
    omega
  have hbut' : SoundBut oid s₁ := by
    refine ⟨hbut.keys, ?_, hbut.owners, hbut.depths, ?_⟩
    · intro p hp ho
      obtain hnull | ⟨i, hv, hi⟩ := hbut.values p hp ho
      · exact Or.inl hnull
      · exact Or.inr ⟨i, hv, hlive i hi⟩
    · intro i hi
      have hlt := hbut.released i hi
      omega
  refine ⟨⟨?_, hproper.released, ?_⟩, hnew, by simpa using hmem, ?_⟩
  · apply hbut'.update
    intro e _
    right
    refine ⟨_, rfl, hnew, ?_⟩
    intro p hp ho hpv
    obtain hnull | ⟨i, hv, hi⟩ := hbut.values p hp ho
    · rw [hnull] at hpv
      cases hpv
    · rw [hv] at hpv
      cases hpv
      exact absurd hi.1 (Nat.lt_irrefl _)
  · obtain ⟨before, calls, htrace, hbefore, hcalls⟩ := hproper.calls
    exact ⟨before, calls, htrace, hbefore, fun c hc => hlive _ (hcalls c hc)⟩
  · intro p hp ho
    have hp' : p ∈ updateEntry oid (fun _ => (⟨.obj s.instances.length, options, columns, 0⟩ :
        CacheEntry)) s.entries := hp
    obtain ⟨-, hne⟩ | ⟨e, -, rfl⟩ := mem_updateEntry.mp hp'
    · exact absurd ho hne
    · rfl

/-- The entry is trusted only when the class fails; a failure behind that empties it, which is
harmless if it is in no transaction. -/
theorem initializeEntry_leaves (hE : E .raised) (hbut : SoundBut oid s) (hproper : Proper s₀ s)
    (hmem : oid ∈ s.entries.map (·.1)) {p_columns : Bool}
    (hclass : s.faults.headD false = true → Sound s)
    (hrest : (∀ e, (oid, e) ∈ s.entries → e.xact_depth = 0) ∨
      true ∉ s.faults.take (if p_columns then 2 else 3))
    (options : List DefElem) (columns : List Attribute) :
    Leaves E (Fine s₀) (fun _ s' => ∃ inst, Serving s₀ oid inst s')
      (initializeEntry oid options columns p_columns s) := by
  let clear : CacheEntry → CacheEntry := fun e => { e with value := .null }
  let Idle : Prop := ∀ e, (oid, e) ∈ s.entries → e.xact_depth = 0
  have hcleared : Idle → ∀ faults : List Bool,
      Fine s₀ { s with faults, entries := updateEntry oid clear s.entries } := by
    intro hdepth faults
    exact ⟨(hbut.faults faults).cleared (fun _ => rfl) hdepth, hproper.released, hproper.calls⟩
  have hbut' : ∀ faults : List Bool,
      SoundBut oid { s with faults, entries := updateEntry oid clear s.entries } := by
    intro faults
    have hback : ∀ p ∈ updateEntry oid clear s.entries, p.1 ≠ oid → p ∈ s.entries := by
      intro p hp ho
      obtain ⟨hp, -⟩ | ⟨e, -, rfl⟩ := mem_updateEntry.mp hp
      · exact hp
      · exact absurd rfl ho
    refine ⟨by simpa using hbut.keys, ?_, ?_, ?_, hbut.released⟩
    · exact fun p hp ho => hbut.values p (hback p hp ho) ho
    · exact fun p hp q hq hpo hqo =>
        hbut.owners p (hback p hp hpo) q (hback q hq hqo) hpo hqo
    · exact fun p hp ho => hbut.depths p (hback p hp ho) ho
  have hmem' : oid ∈ (updateEntry oid clear s.entries).map (·.1) := by simpa using hmem
  -- a call on the emptied entry fails only where the entry is in no transaction
  have hcall : ∀ (n : ℕ) (faults : List Bool), Idle ∨ true ∉ faults.take (n + 1) →
      Leaves E (Fine s₀) (fun _ s₁ => (Idle ∨ true ∉ faults.tail.take n) ∧ s₁ =
          { s with faults := faults.tail, entries := updateEntry oid clear s.entries })
        (pyCall { s with faults, entries := updateEntry oid clear s.entries }) := by
    intro n faults hrest
    apply pyCall_leaves
    · intro hraise
      obtain hidle | hnone := hrest
      · exact ⟨hE, hcleared hidle _⟩
      · cases (calls_succeed hnone).1.symm.trans hraise
    · intro _
      exact ⟨hrest.imp_right fun hnone => (calls_succeed hnone).2, rfl⟩
  unfold initializeEntry
  apply Leaves.bind (P := fun _ s₁ => s₁ = { s with faults := s.faults.tail })
  · apply pyCall_leaves
    · intro hraise
      have hs := hclass hraise
      exact ⟨hE, ⟨hs.keys, hs.values, hs.owners, hs.depths, hs.released⟩, hproper.faults _⟩
    · intro _
      rfl
  · rintro _ _ rfl
    apply Leaves.bind (P := fun _ s₁ => s₁ =
      { s with faults := s.faults.tail, entries := updateEntry oid clear s.entries })
    · exact rfl
    · rintro _ _ rfl
      apply Leaves.bind (P := fun _ s₁ => ∃ faults, (Idle ∨ true ∉ faults.take 1) ∧ s₁ =
        { s with faults, entries := updateEntry oid clear s.entries })
      · unfold getColumnsFromTable
        cases p_columns with
        | true => exact ⟨_, hrest.imp_right fun hnone => (calls_succeed hnone).2, rfl⟩
        | false =>
          refine (hcall 1 s.faults.tail ?_).mono fun _ _ h => ⟨_, h⟩
          exact hrest.imp_right fun hnone => (calls_succeed hnone).2
      · rintro _ _ ⟨faults, hrest, rfl⟩
        apply Leaves.bind (hcall 0 faults hrest)
        rintro _ _ ⟨-, rfl⟩
        exact ⟨_, serving_new (hbut' _) ⟨hproper.released, hproper.calls⟩ hmem' options columns _⟩

theorem enterXact_leaves (hE : E .raised) (h : Serving s₀ oid inst s) :
    Leaves E (Fine s₀) (fun _ s' => Serving s₀ oid inst s') (enterXact oid s) := by
  cases hl : lookupEntry oid s.entries with
  | none => exact absurd h.mem (lookupEntry_eq_none.mp hl)
  | some entry =>
    have hv : entry.value = .obj inst := h.value _ (mem_of_lookupEntry hl) rfl
    have hbegin := beginRemoteXact_leaves hE h hv
    simpa only [enterXact, bind, EStateM.bind, get, getThe, MonadStateOf.get, run_get, hl]
      using hbegin

theorem construct_leaves (hE : E .raised) (hbut : SoundBut oid s) (hproper : Proper s₀ s)
    (hmem : oid ∈ s.entries.map (·.1)) {p_columns : Bool}
    (hclass : s.faults.headD false = true → Sound s)
    (hrest : (∀ e, (oid, e) ∈ s.entries → e.xact_depth = 0) ∨
      true ∉ s.faults.take (if p_columns then 2 else 3))
    (options : List DefElem) (columns : List Attribute) :
    Leaves E (Fine s₀) (fun _ => Fine s₀)
      (fillEntry oid options columns p_columns s) := by
  apply Leaves.bind (initializeEntry_leaves hE hbut hproper hmem hclass hrest options columns)
  rintro _ s₁ ⟨inst, hs₁⟩
  exact (enterXact_leaves hE hs₁).mono fun _ _ hs => hs.fine

/-- Giving up the instance of an entry leaves the others as they are. -/
theorem SoundBut.release (hs : Sound s) {entry : CacheEntry} (hentry : (oid, entry) ∈ s.entries)
    (hinst : entry.value = .obj inst) (faults : List Bool) :
    SoundBut oid { s with faults, released := s.released ++ [inst] } := by
  have hlive : s.Live inst := by
    obtain hnull | ⟨i, hv, hi⟩ := hs.values _ hentry
    · rw [hinst] at hnull
      cases hnull
    · rw [hinst] at hv
      cases hv
      exact hi
  refine ⟨hs.keys, ?_, (hs.but oid).owners, (hs.but oid).depths, ?_⟩
  · intro p hp ho
    obtain hnull | ⟨i, hv, hi⟩ := hs.values p hp
    · exact Or.inl hnull
    · right
      refine ⟨i, hv, hi.1, ?_⟩
      intro hm
      obtain hm | hm := List.mem_append.mp hm
      · exact hi.2 hm
      · obtain rfl := List.mem_singleton.mp hm
        exact ho (hs.owners p hp _ hentry _ hv hinst)
  · intro i hi
    obtain hi | hi := List.mem_append.mp hi
    · exact hs.released i hi
    · rw [List.mem_singleton.mp hi]
      exact hlive.1

theorem Proper.release {inst : ℕ} (hlive : s.Live inst) (faults : List Bool) :
    Proper s { s with faults, released := s.released ++ [inst] } :=
  ⟨⟨[inst], rfl, List.nodup_singleton _, by simpa using hlive⟩,
    ⟨s.trace, [], by simp, .inl rfl, by simp⟩⟩

theorem Sound.faults (h : Sound s) (faults : List Bool) : Sound { s with faults } :=
  ⟨h.keys, h.values, h.owners, h.depths, h.released⟩

/-- An access that needs an entry fails at most while it fills it. -/
theorem access_new (hs : Sound s) (slot : ℕ) {faults : List Bool} {options : List DefElem}
    (hoptions : getOptions s.catalogs oid = some options) (hE : E .raised)
    (hl : lookupEntry oid s.entries = none) (hclass : faults.headD false = false) :
    Leaves E (Fine s) (fun _ => Fine s) (getCacheEntry oid slot { s with faults }) := by
  have hnew := lookupEntry_eq_none.mp hl
  let s₁ : Session := { s with faults, entries := insertEntry oid slot s.entries }
  have hold : ∀ p ∈ insertEntry oid slot s.entries, p.1 ≠ oid → p ∈ s.entries := by
    intro p hp ho
    obtain rfl | hp := mem_insertEntry.mp hp
    · exact absurd rfl ho
    · exact hp
  have hbut : SoundBut oid s₁ := by
    refine ⟨keys_insertEntry slot hs.keys hnew, ?_, ?_, ?_, hs.released⟩
    · exact fun p hp ho => hs.values p (hold p hp ho)
    · exact fun p hp q hq hpo hqo => hs.owners p (hold p hp hpo) q (hold q hq hqo)
    · exact fun p hp ho => hs.depths p (hold p hp ho)
  have hidle : ∀ e, (oid, e) ∈ s₁.entries → e.xact_depth = 0 := by
    intro e he
    obtain he | he := mem_insertEntry.mp he
    · rw [(Prod.mk.inj he).2]
    · exact absurd (List.mem_map.mpr ⟨_, he, rfl⟩) hnew
  rw [@getCacheEntry_new { s with faults } oid slot options hoptions hl]
  apply construct_leaves hE hbut
  · exact ⟨⟨[], by simp [s₁], List.nodup_nil, by simp⟩,
      ⟨s.trace, [], by simp [s₁], .inl rfl, by simp⟩⟩
  · exact List.mem_map.mpr ⟨_, mem_insertEntry.mpr (.inl rfl), rfl⟩
  · intro hraise
    rw [show s₁.faults = faults from rfl, hclass] at hraise
    cases hraise
  · exact Or.inl hidle

/-- An empty entry is filled again. -/
theorem access_null (hs : Sound s) (slot : ℕ) {faults : List Bool} {options : List DefElem}
    (hoptions : getOptions s.catalogs oid = some options) (hE : E .raised) {entry : CacheEntry}
    (hl : lookupEntry oid s.entries = some entry) (hnull : entry.value = .null) :
    Leaves E (Fine s) (fun _ => Fine s) (getCacheEntry oid slot { s with faults }) := by
  have hmem := mem_of_lookupEntry hl
  have hkey : oid ∈ s.entries.map (·.1) := List.mem_map.mpr ⟨_, hmem, rfl⟩
  let clear : CacheEntry → CacheEntry := fun e => ⟨e.value, [], [], 0⟩
  let s₁ : Session := { s with faults, entries := updateEntry oid clear s.entries }
  have hsound : Sound s₁ := by
    apply ((hs.faults faults).but oid).update
    intro e he
    left
    rw [(Prod.mk.inj (eq_of_key hs.keys he hmem rfl)).2]
    exact ⟨hnull, rfl⟩
  rw [@getCacheEntry_null { s with faults } oid entry slot options hoptions hl hnull]
  apply construct_leaves hE (hsound.but oid)
  · exact ⟨⟨[], by simp [s₁], List.nodup_nil, by simp⟩,
      ⟨s.trace, [], by simp [s₁], .inl rfl, by simp⟩⟩
  · simpa [s₁] using hkey
  · intro _
    exact hsound
  · left
    intro e he
    obtain ⟨-, hne⟩ | ⟨e', -, he'⟩ := mem_updateEntry.mp he
    · exact absurd rfl hne
    · rw [(Prod.mk.inj he').2]

/-- Filling an entry whose instance has just been given up. -/
theorem replace_leaves (hs : Sound s) (hE : E .raised) {entry : CacheEntry}
    (hl : lookupEntry oid s.entries = some entry) (hinst : entry.value = .obj inst)
    (hlive : s.Live inst) {p_columns : Bool} {faults : List Bool}
    (hreplaces : Replaces entry p_columns faults) (options : List DefElem)
    (columns : List Attribute) :
    Leaves E (Fine s) (fun _ => Fine s) (fillEntry oid options columns p_columns
      { s with faults, released := s.released ++ [inst] }) := by
  have hmem := mem_of_lookupEntry hl
  obtain ⟨hclass, hrest⟩ := hreplaces
  apply construct_leaves hE (SoundBut.release hs hmem hinst faults) (Proper.release hlive faults)
    (List.mem_map.mpr ⟨_, hmem, rfl⟩)
  · intro hraise
    rw [hclass] at hraise
    cases hraise
  · by_cases hd : entry.xact_depth = 0
    · left
      intro e he
      rw [(Prod.mk.inj (eq_of_key hs.keys he hmem rfl)).2]
      exact hd
    · exact Or.inr (hrest (Nat.pos_of_ne_zero hd))

/-- A careful access leaves a sound cache, wherever it fails. -/
theorem access_survives (hs : Sound s) (slot : ℕ) {faults : List Bool}
    (hoptions : (getOptions s.catalogs oid).isSome)
    (hcareful : Careful s (.access oid slot) faults) : Survives s (.access oid slot) faults := by
  obtain ⟨options, hoptions⟩ := Option.isSome_iff_exists.mp hoptions
  change Leaves _ (Fine s) (fun _ => Fine s) (getCacheEntry oid slot { s with faults })
  cases hl : lookupEntry oid s.entries with
  | none =>
    have hclass : faults.headD false = false := by
      simpa only [Careful, hl] using hcareful
    exact access_new hs slot hoptions (.inl rfl) hl hclass
  | some entry =>
    have hmem := mem_of_lookupEntry hl
    obtain hnull | ⟨inst, hinst, hlive⟩ := hs.values _ hmem
    · exact access_null hs slot hoptions (.inl rfl) hl hnull
    · change entry.value = .obj inst at hinst
      have hne : entry.value ≠ .null := by
        rw [hinst]
        exact Pointer.noConfusion
      have hcase := by
        simp only [Careful, hl] at hcareful
        exact hcareful hne
      let s₁ : Session := { s with faults }
      by_cases ho : entry.options = options
      · cases hfault : faults.headD false with
        | true =>
          -- The column definitions fail, and nothing has been given up.
          rw [@getCacheEntry_raises s₁ oid entry slot inst options hoptions hl hinst ho hfault]
          exact ⟨Or.inl rfl, hs.faults _, (Proper.refl s).faults _⟩
        | false =>
          by_cases hempty : tableColumns s.catalogs oid = [] ∨ entry.columns = []
          · rw [@getCacheEntry_nil s₁ oid entry slot inst options hoptions hl hinst ho hfault
              hempty]
            refine ⟨Or.inr ⟨entry, hl, by rw [ho, hoptions], hempty⟩, hs.faults _, ?_⟩
            exact (Proper.refl s).faults _
          · by_cases hc : (tableColumns s.catalogs oid).map columnKey =
                entry.columns.map columnKey
            · rw [@getCacheEntry_current s₁ oid entry slot inst options hoptions hl hinst ho hfault
                hempty hc]
              have hserving : Serving s oid inst { s with faults := faults.tail } := by
                refine ⟨⟨hs.faults _, (Proper.refl s).faults _⟩, hlive,
                  List.mem_map.mpr ⟨_, hmem, rfl⟩, ?_⟩
                intro p hp hpo
                rw [eq_of_key hs.keys hp hmem hpo]
                exact hinst
              exact (enterXact_leaves (.inl rfl) hserving).mono fun _ _ h => h.fine
            · rw [@getCacheEntry_columns s₁ oid entry slot inst options hoptions hl hinst ho hfault
                hempty hc]
              exact replace_leaves hs (.inl rfl) hl hinst hlive
                (hcase.2 (by rw [hoptions, ho]) (.inr hc) hfault) _ _
      · rw [@getCacheEntry_options s₁ oid entry slot inst options hoptions hl hinst ho]
        exact replace_leaves hs (.inl rfl) hl hinst hlive
          (hcase.1 (by simpa [hoptions] using Ne.symm ho)) _ _

end Access

/-! Callbacks. -/

theorem Sound.ready (hs : Sound s) {level : ℕ} (hlevel : 0 < level) :
    ∀ p ∈ s.entries, (∃ inst, p.2.value = .obj inst) ∨ p.2.xact_depth < level := by
  intro p hp
  obtain hnull | ⟨inst, hv, -⟩ := hs.values p hp
  · right
    have hzero : p.2.xact_depth = 0 := by
      by_contra hd
      exact hs.depths p hp (Nat.pos_of_ne_zero hd) hnull
    omega
  · exact Or.inl ⟨inst, hv⟩

/-- A round through the hash table calls live instances only, and takes no depth up. -/
theorem fine_visit (hs : Sound s) {f : CacheEntry → CacheEntry} (hvalue : ∀ e, (f e).value = e.value)
    (hdepth : ∀ e, (f e).xact_depth ≤ e.xact_depth) (hooks : CacheEntry → List Hook)
    (hentries : s'.entries = s.entries.map fun p => (p.1, f p.2))
    (htrace : s'.trace = s.trace ++ s.entries.flatMap fun p => callsTo p.2.value (hooks p.2))
    (hinstances : s'.instances = s.instances) (hreleased : s'.released = s.released) :
    Fine s s' := by
  have hlive : ∀ inst, s.Live inst → s'.Live inst := by
    rintro inst ⟨hlt, hnot⟩
    exact ⟨by rw [hinstances]; exact hlt, by rw [hreleased]; exact hnot⟩
  have hback : ∀ p' ∈ s'.entries, ∃ p ∈ s.entries, p' = (p.1, f p.2) := by
    intro p' hp'
    rw [hentries] at hp'
    obtain ⟨p, hp, rfl⟩ := List.mem_map.mp hp'
    exact ⟨p, hp, rfl⟩
  constructor
  · constructor
    · rw [hentries, List.map_map]
      exact hs.keys
    · intro p' hp'
      obtain ⟨p, hp, rfl⟩ := hback p' hp'
      simp only [hvalue]
      obtain hnull | ⟨inst, hv, hi⟩ := hs.values p hp
      · exact Or.inl hnull
      · exact Or.inr ⟨inst, hv, hlive inst hi⟩
    · intro p' hp' q' hq' inst hpv hqv
      obtain ⟨p, hp, rfl⟩ := hback p' hp'
      obtain ⟨q, hq, rfl⟩ := hback q' hq'
      simp only [hvalue] at hpv hqv
      exact hs.owners p hp q hq inst hpv hqv
    · intro p' hp' hpos
      obtain ⟨p, hp, rfl⟩ := hback p' hp'
      simp only [hvalue]
      have hle := hdepth p.2
      have hpos' : 0 < (f p.2).xact_depth := hpos
      exact hs.depths p hp (by omega)
    · rw [hreleased, hinstances]
      exact hs.released
  · refine ⟨⟨[], by simp [hreleased], List.nodup_nil, by simp⟩, ⟨s.trace, _, htrace, .inl rfl, ?_⟩⟩
    intro c hc
    obtain ⟨p, hp, hc⟩ := List.mem_flatMap.mp hc
    obtain hnull | ⟨inst, hv, hi⟩ := hs.values p hp
    · rw [hnull] at hc
      cases hc
    · rw [hv] at hc
      obtain ⟨hook, -, rfl⟩ := List.mem_map.mp hc
      exact hlive inst hi

theorem fine_subEnd (hs : Sound s) (event : SubXactEvent) (outcome : SubOutcome) :
    Fine s (s.subEnd event outcome) := by
  refine fine_visit hs (f := subEnded s.nestLevel) ?_ ?_
    (subEndHooks s.nestLevel (event.hook s.nestLevel (s.stack.headD 0))) rfl rfl rfl rfl
  · intro e
    unfold subEnded
    split_ifs <;> rfl
  · intro e
    unfold subEnded
    split_ifs
    · exact Nat.le_refl _
    · exact Nat.sub_le _ _

theorem fine_xactEvent (hs : Sound s) (event : XactEvent) (phase : Phase)
    (stack : List SubTransactionId) : Fine s (s.xactEvent event phase stack) := by
  refine fine_visit hs (f := xactEnded event) ?_ ?_ (xactHooks event) rfl rfl rfl rfl
  · intro e
    unfold xactEnded
    split_ifs <;> rfl
  · intro e
    unfold xactEnded
    split_ifs
    · exact Nat.zero_le _
    · exact Nat.le_refl _

theorem Fine.faults {faults : List Bool} (h : Fine { s with faults } s') : Fine s s' :=
  ⟨h.1, ⟨h.2.released, h.2.calls⟩⟩

/-- An event that is no access is not going to fail. -/
theorem callback_fine (hs : Sound s) (hfaults : s.faults = []) {e : Event} (he : e.Enabled s)
    (hother : ∀ oid slot, e ≠ .access oid slot) : ∃ s', exec e s = .ok () s' ∧ Fine s s' := by
  have hsub : 2 ≤ s.nestLevel → ∀ p ∈ s.entries,
      (∃ inst, p.2.value = .obj inst) ∨ p.2.xact_depth < s.nestLevel :=
    fun hlevel => hs.ready (by omega)
  have htop : ∀ p ∈ s.entries, (∃ inst, p.2.value = .obj inst) ∨ p.2.xact_depth = 0 := by
    intro p hp
    obtain hinst | hlt := hs.ready Nat.one_pos p hp
    · exact Or.inl hinst
    · exact Or.inr (by omega)
  cases e with
  | access oid slot => exact absurd rfl (hother oid slot)
  | beginXact =>
    refine ⟨_, rfl, ⟨hs.keys, hs.values, hs.owners, hs.depths, hs.released⟩, ?_⟩
    exact ⟨⟨[], by simp, List.nodup_nil, by simp⟩, ⟨[], [], rfl, .inr rfl, by simp⟩⟩
  | ddl catalogs =>
    refine ⟨_, rfl, ⟨hs.keys, hs.values, hs.owners, hs.depths, hs.released⟩, ?_⟩
    exact ⟨(Proper.refl s).released, (Proper.refl s).calls⟩
  | subStart =>
    refine ⟨{ s with stack := s.nextSubid :: s.stack, nextSubid := s.nextSubid + 1 }, ?_,
      ⟨hs.keys, hs.values, hs.owners, hs.depths, hs.released⟩, ?_⟩
    · simp [exec, bind, EStateM.bind, modify, modifyGet, MonadStateOf.modifyGet, run_modifyGet,
        get, getThe, MonadStateOf.get, run_get, multicornSubxactCallback_skip]
    · exact ⟨(Proper.refl s).released, (Proper.refl s).calls⟩
  | subCommit =>
    refine ⟨_, ?_, fine_subEnd hs .preCommitSub .committed⟩
    simp [exec, bind, EStateM.bind, get, getThe, MonadStateOf.get, run_get,
      multicornSubxactCallback_ok hfaults (hsub he.2), multicornSubxactCallback_skip, popSub,
      modify, modifyGet, MonadStateOf.modifyGet, run_modifyGet, Session.subEnd]
  | subAbort =>
    refine ⟨_, ?_, fine_subEnd hs .abortSub .aborted⟩
    simp [exec, bind, EStateM.bind, get, getThe, MonadStateOf.get, run_get,
      multicornSubxactCallback_ok hfaults (hsub he.2), popSub, modify, modifyGet,
      MonadStateOf.modifyGet, run_modifyGet, Session.subEnd]
  | preCommit =>
    refine ⟨_, ?_, fine_xactEvent hs .preCommit .committing s.stack⟩
    simp [exec, bind, EStateM.bind, multicornXactCallback_ok hfaults htop, modify, modifyGet,
      MonadStateOf.modifyGet, run_modifyGet, Session.xactEvent]
  | commit =>
    refine ⟨_, ?_, fine_xactEvent hs .commit .idle []⟩
    simp [exec, bind, EStateM.bind, multicornXactCallback_ok hfaults htop, endXact, modify,
      modifyGet, MonadStateOf.modifyGet, run_modifyGet, Session.xactEvent]
  | abort =>
    refine ⟨_, ?_, fine_xactEvent hs .abort .idle []⟩
    simp [exec, bind, EStateM.bind, multicornXactCallback_ok hfaults htop, endXact, modify,
      modifyGet, MonadStateOf.modifyGet, run_modifyGet, Session.xactEvent]

/-- One step from a sound cache. -/
theorem step_survives (hs : Sound s) {e : Event} {faults : List Bool}
    (he : Admissible s e faults) (hcareful : Careful s e faults) : Survives s e faults := by
  obtain ⟨henabled, hfaults⟩ := he
  by_cases hcase : ∃ oid slot, e = .access oid slot
  · obtain ⟨oid, slot, rfl⟩ := hcase
    exact access_survives hs slot henabled.2 hcareful
  · have hnone : faults = [] := by
      by_contra hne
      exact hcase (hfaults hne)
    subst hnone
    have henabled' : e.Enabled { s with faults := [] } := by
      cases e <;> exact henabled
    obtain ⟨s', hexec, hfine⟩ := callback_fine (hs.faults []) rfl henabled'
      fun oid slot he => hcase ⟨oid, slot, he⟩
    rw [Survives, attempt, hexec]
    exact hfine.faults

theorem sound_start (catalogs : Catalogs) : Sound (.start catalogs) := by
  refine ⟨List.nodup_nil, ?_, ?_, ?_, ?_⟩ <;> simp [Session.start]

theorem sound_resume {e : Event} {faults : List Bool} (h : Survives s e faults)
    (hresume : resume (attempt s e faults) = some s') : Sound s' := by
  rw [Survives] at h
  cases hrun : attempt s e faults with
  | ok u s₁ =>
    rw [hrun] at h hresume
    cases hresume
    exact h.1.faults []
  | error failure s₁ =>
    rw [hrun] at h hresume
    cases failure with
    | raised =>
      cases hresume
      exact h.2.1.faults []
    | crashed => cases hresume

/-- In a run whose steps are careful the cache is sound in every state, and every step uses only
instances that are there, whatever else fails. -/
theorem cache_survives (catalogs : Catalogs) {events : List (Event × List Bool)}
    (hrun : AllAttempts (fun s e faults => Admissible s e faults ∧ Careful s e faults)
      (.start catalogs) events) :
    AllAttempts (fun s e faults => Sound s ∧ Survives s e faults) (.start catalogs) events ∧
      ∀ s, attempts events (.start catalogs) = some s → Sound s := by
  have hall : ∀ s, Sound s →
      AllAttempts (fun s e faults => Admissible s e faults ∧ Careful s e faults) s events →
      AllAttempts (fun s e faults => Sound s ∧ Survives s e faults) s events ∧
        ∀ s', attempts events s = some s' → Sound s' := by
    clear hrun
    induction events with
    | nil =>
      intro s hs _
      refine ⟨trivial, ?_⟩
      intro s' h
      cases h
      exact hs
    | cons step events ih =>
      obtain ⟨e, faults⟩ := step
      rintro s hs ⟨⟨he, hcareful⟩, hrest⟩
      have hstep := step_survives hs he hcareful
      constructor
      · refine ⟨⟨hs, hstep⟩, ?_⟩
        intro s₁ h₁
        exact (ih s₁ (sound_resume hstep h₁) (hrest s₁ h₁)).1
      · intro s' h
        obtain ⟨s₁, h₁, h⟩ := Option.bind_eq_some_iff.mp h
        exact (ih s₁ (sound_resume hstep h₁) (hrest s₁ h₁)).2 s' h
  exact hall _ (sound_start catalogs) hrun

theorem AllAttempts.cons_of_eq {P : Session → Event → List Bool → Prop} {e : Event}
    {faults : List Bool} {events : List (Event × List Bool)} (hP : P s e faults)
    (hresume : resume (attempt s e faults) = some s') (hrest : AllAttempts P s' events) :
    AllAttempts P s ((e, faults) :: events) := by
  refine ⟨hP, ?_⟩
  intro s'' h
  rw [hresume] at h
  cases h
  exact hrest

theorem attempts_cons_of_eq {e : Event} {faults : List Bool} {events : List (Event × List Bool)}
    (hresume : resume (attempt s e faults) = some s') :
    attempts ((e, faults) :: events) s = attempts events s' := by
  rw [attempts, hresume, Option.bind_some]

/-- The first transaction of a backend, with one entry in the cache. -/
def begun (value : Pointer) : Session :=
  { Session.start (oneTable []) with
    phase := .inProgress, stack := [1], nextSubid := 2, entries := [(7, ⟨value, [], [], 0⟩)] }

/-- A constructor fails, and the next access fills the entry. -/
theorem cache_survives_constructor : ∃ s,
    attempts [(.beginXact, []), (.access 7 0, [false, false, true]), (.access 7 0, [])]
      (.start (oneTable [])) = some s ∧ Sound s := by
  have hbegin : resume (attempt (.start (oneTable [])) .beginXact []) =
      some { begun .null with entries := [] } := rfl
  have hfail : resume (attempt { begun .null with entries := [] } (.access 7 0)
      [false, false, true]) = some (begun .null) := rfl
  obtain ⟨s, haccess⟩ : ∃ s, resume (attempt (begun .null) (.access 7 0) []) = some s := ⟨_, rfl⟩
  have hrun : attempts [(.beginXact, []), (.access 7 0, [false, false, true]), (.access 7 0, [])]
      (.start (oneTable [])) = some s := by
    rw [attempts_cons_of_eq hbegin, attempts_cons_of_eq hfail, attempts_cons_of_eq haccess]
    rfl
  refine ⟨s, hrun, (cache_survives (oneTable []) ?_).2 s hrun⟩
  refine .cons_of_eq ⟨⟨rfl, by simp⟩, trivial⟩ hbegin <|
    .cons_of_eq ⟨⟨⟨rfl, rfl⟩, fun _ => ⟨7, 0, rfl⟩⟩, rfl⟩ hfail <|
    .cons_of_eq ⟨⟨⟨rfl, rfl⟩, by simp⟩, ?_⟩ haccess trivial
  intro hne
  exact absurd rfl hne

/-- When the class of a new table cannot be loaded, its entry stays in the hash table with a
value nobody has written, and the next access reads it. -/
theorem class_fails :
    AllAttempts Admissible (.start (oneTable [])) [(.beginXact, []), (.access 7 0, [true])] ∧
    attempts [(.beginXact, []), (.access 7 0, [true])] (.start (oneTable [])) =
      some (begun .wild) ∧
    ¬ Sound (begun .wild) ∧ ¬ Survives (begun .wild) (.access 7 0) [] := by
  have hbegin : resume (attempt (.start (oneTable [])) .beginXact []) =
      some { begun .null with entries := [] } := rfl
  have hfail : resume (attempt { begun .null with entries := [] } (.access 7 0) [true]) =
      some (begun .wild) := rfl
  refine ⟨?_, ?_, ?_, ?_⟩
  · refine .cons_of_eq ⟨rfl, by simp⟩ hbegin <|
      .cons_of_eq ⟨⟨rfl, rfl⟩, fun _ => ⟨7, 0, rfl⟩⟩ hfail trivial
  · rw [attempts_cons_of_eq hbegin, attempts_cons_of_eq hfail]
    rfl
  · intro hsound
    obtain hnull | ⟨inst, hv, -⟩ := hsound.values (7, ⟨.wild, [], [], 0⟩) (by simp [begun])
    · cases hnull
    · cases hv
  · intro hsurvives
    have hcrash : attempt (begun .wild) (.access 7 0) [] = .error .crashed (begun .wild) := rfl
    rw [Survives, hcrash] at hsurvives
    obtain ⟨hraised | ⟨entry, hentry, hoptions, -⟩, -⟩ := hsurvives
    · cases hraised
    · cases hentry
      cases hoptions

end Multicorn.Xact
