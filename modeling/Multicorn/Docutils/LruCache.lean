import Mathlib.Data.Nat.Basic
import Mathlib.Order.Lattice
import Multicorn.General.OrderedDict

/-! The cache of file metadata, called from several threads while files are modified. -/
namespace Multicorn.Docutils
open Multicorn.Ordered

variable {File Content Meta Mtime Tid : Type*} [DecidableEq File] [LinearOrder Mtime]
  [DecidableEq Tid]

abbrev Cache (File Mtime Meta : Type*) := OrderedDict File (Mtime × Meta)

/-- The first section under the lock: a value that is still valid is moved to the end, and
another one is dropped. -/
def lookup (cache : Cache File Mtime Meta) (filename : File) (mtime : Mtime) :
    Cache File Mtime Meta × Option Meta :=
  match cache.get? filename with
  | none => (cache, none)
  | some (oldMtime, result) =>
    if oldMtime = mtime then
      ((cache.pop filename).assign filename (oldMtime, result), some result)
    else (cache.pop filename, none)

/-- The second section under the lock. -/
def store (maxSize : ℕ) (cache : Cache File Mtime Meta) (filename : File) (mtime : Mtime)
    (result : Meta) : Cache File Mtime Meta :=
  let cache := cache.assign filename (mtime, result)
  if maxSize < cache.entries.length then cache.popFirst else cache

/-- Where a thread is in its call of `wrapper`. -/
inductive Pc (File Mtime Meta : Type*)
  | idle
  | called (filename : File)
  | timed (filename : File) (mtime : Mtime)
  | missed (filename : File) (mtime : Mtime)
  | computed (filename : File) (mtime : Mtime) (result : Meta)

/-- `versions` has what each file contained since its modification times, newest first. -/
structure State (File Content Meta Mtime Tid : Type*) where
  versions : File → List (Mtime × Content)
  cache : Cache File Mtime Meta
  threads : Tid → Pc File Mtime Meta

def State.goto (s : State File Content Meta Mtime Tid) (t : Tid) (pc : Pc File Mtime Meta) :
    State File Content Meta Mtime Tid :=
  { s with threads := fun t' => if t' = t then pc else s.threads t' }

/-- What a thread does. A call returns with the modification time it has observed, and whether
the value is a cached one. -/
inductive Action (File Mtime Meta : Type*)
  | call (filename : File)
  | getmtime
  | getmtimeRaises
  | miss
  | function
  | functionRaises
  | returns (filename : File) (mtime : Mtime) (result : Meta) (cached : Bool)

inductive Label (File Mtime Meta Tid : Type*)
  | modify
  | thread (t : Tid) (a : Action File Mtime Meta)

/-- One step of a thread or a modification of files. A section under the lock is one step, and so
is the moment at which the wrapped function reads the file. -/
inductive Step (function : Content → Meta) (maxSize : ℕ) :
    State File Content Meta Mtime Tid → Label File Mtime Meta Tid →
      State File Content Meta Mtime Tid → Prop
  | modify {s versions}
      (h : ∀ f, versions f = s.versions f ∨ ∃ v, versions f = v :: s.versions f ∧
        ∀ u ∈ s.versions f, u.1 < v.1) :
      Step function maxSize s .modify { s with versions }
  | call {s t f} (h : s.threads t = .idle) :
      Step function maxSize s (.thread t (.call f)) (s.goto t (.called f))
  | getmtime {s t f v} (h : s.threads t = .called f) (hv : (s.versions f).head? = some v) :
      Step function maxSize s (.thread t .getmtime) (s.goto t (.timed f v.1))
  | getmtimeRaises {s t f} (h : s.threads t = .called f) :
      Step function maxSize s (.thread t .getmtimeRaises) (s.goto t .idle)
  | hit {s t f mtime cache result} (h : s.threads t = .timed f mtime)
      (hlookup : lookup s.cache f mtime = (cache, some result)) :
      Step function maxSize s (.thread t (.returns f mtime result true))
        ({ s with cache }.goto t .idle)
  | miss {s t f mtime cache} (h : s.threads t = .timed f mtime)
      (hlookup : lookup s.cache f mtime = (cache, none)) :
      Step function maxSize s (.thread t .miss) ({ s with cache }.goto t (.missed f mtime))
  | function {s t f mtime v} (h : s.threads t = .missed f mtime)
      (hv : (s.versions f).head? = some v) :
      Step function maxSize s (.thread t .function) (s.goto t (.computed f mtime (function v.2)))
  | functionRaises {s t f mtime} (h : s.threads t = .missed f mtime) :
      Step function maxSize s (.thread t .functionRaises) (s.goto t .idle)
  | store {s t f mtime result} (h : s.threads t = .computed f mtime result) :
      Step function maxSize s (.thread t (.returns f mtime result false))
        ({ s with cache := store maxSize s.cache f mtime result }.goto t .idle)

inductive Run (function : Content → Meta) (maxSize : ℕ) (s₀ : State File Content Meta Mtime Tid) :
    List (Label File Mtime Meta Tid) → State File Content Meta Mtime Tid → Prop
  | start : Run function maxSize s₀ [] s₀
  | step {labels s l s'} (hrun : Run function maxSize s₀ labels s)
      (hstep : Step function maxSize s l s') : Run function maxSize s₀ (labels ++ [l]) s'

/-- An empty cache and no running calls. -/
structure State.Initial (s : State File Content Meta Mtime Tid) : Prop where
  cache : s.cache.entries = []
  threads : ∀ t, s.threads t = .idle

/-- The value was computed from what the file contained at this time or later. -/
def State.Fresh (function : Content → Meta) (s : State File Content Meta Mtime Tid) (f : File)
    (mtime : Mtime) (result : Meta) : Prop :=
  ∃ v ∈ s.versions f, mtime ≤ v.1 ∧ result = function v.2

/-- The files of the calls that returned, in order. -/
def uses (labels : List (Label File Mtime Meta Tid)) : List File :=
  labels.filterMap fun
    | .thread _ (.returns f _ _ _) => some f
    | _ => none

/-- The labels of a single thread whose function does not raise, and of modifications. -/
def Sequential (t : Tid) (labels : List (Label File Mtime Meta Tid)) : Prop :=
  ∀ l ∈ labels, l = .modify ∨ ∃ a, l = .thread t a ∧ a ≠ .functionRaises

section Invariant

variable {function : Content → Meta} {maxSize : ℕ} {s s' : State File Content Meta Mtime Tid}
  {cache : Cache File Mtime Meta} {f : File} {mtime : Mtime}

variable {cache' : Cache File Mtime Meta} {result : Meta}

theorem lookup_some (h : lookup cache f mtime = (cache', some result)) :
    (f, mtime, result) ∈ cache.entries ∧ cache' = (cache.pop f).assign f (mtime, result) := by
  unfold lookup at h
  cases hget : cache.get? f with
  | none =>
    rw [hget] at h
    cases h
  | some p =>
    obtain ⟨oldMtime, old⟩ := p
    rw [hget] at h
    simp only at h
    split_ifs at h with ht
    · cases h
      rw [← ht]
      exact ⟨mem_of_get? hget, rfl⟩
    · cases h

theorem lookup_none (h : lookup cache f mtime = (cache', none)) :
    cache' = cache ∧ f ∉ cache.keys ∨ cache' = cache.pop f := by
  unfold lookup at h
  cases hget : cache.get? f with
  | none =>
    rw [hget] at h
    cases h
    left
    exact ⟨rfl, get?_eq_none.mp hget⟩
  | some p =>
    obtain ⟨oldMtime, old⟩ := p
    rw [hget] at h
    simp only at h
    split_ifs at h with ht
    · cases h
    · cases h
      right
      rfl

/-- A thread that has observed a modification time will read that version or a later one. -/
def State.Timed (s : State File Content Meta Mtime Tid) (f : File) (mtime : Mtime) : Prop :=
  ∃ v, (s.versions f).head? = some v ∧ mtime ≤ v.1

def State.PcSound (function : Content → Meta) (s : State File Content Meta Mtime Tid) :
    Pc File Mtime Meta → Prop
  | .idle => True
  | .called _ => True
  | .timed f mtime => s.Timed f mtime
  | .missed f mtime => s.Timed f mtime
  | .computed f mtime result => s.Fresh function f mtime result

/-- What holds in every state. -/
structure Sound (function : Content → Meta) (maxSize : ℕ) (s : State File Content Meta Mtime Tid) :
    Prop where
  bound : s.cache.entries.length ≤ maxSize
  fresh : ∀ f mtime result, (f, mtime, result) ∈ s.cache.entries →
    s.Fresh function f mtime result
  pc : ∀ t, s.PcSound function (s.threads t)

omit [DecidableEq File] [DecidableEq Tid] in
theorem State.Initial.sound (h : s.Initial) : Sound function maxSize s where
  bound := by
    rw [h.cache]
    exact Nat.zero_le _
  fresh := by
    intro f mtime result hmem
    rw [h.cache] at hmem
    cases hmem
  pc := by
    intro t
    rw [h.threads]
    trivial

omit [DecidableEq File] [DecidableEq Tid] in
/-- A modification keeps what a thread or the cache relies on. -/
theorem pcSound_modify (function : Content → Meta) {versions : File → List (Mtime × Content)}
    (h : ∀ f, versions f = s.versions f ∨ ∃ v, versions f = v :: s.versions f ∧
      ∀ u ∈ s.versions f, u.1 < v.1) :
    (∀ f mtime result, s.Fresh function f mtime result →
      State.Fresh function { s with versions } f mtime result) ∧
    ∀ pc, s.PcSound function pc → State.PcSound function { s with versions } pc := by
  have hfresh : ∀ f mtime result, s.Fresh function f mtime result →
      State.Fresh function { s with versions } f mtime result := by
    rintro f mtime result ⟨v, hv, hle, rfl⟩
    refine ⟨v, ?_, hle, rfl⟩
    change v ∈ versions f
    obtain hsame | ⟨w, hw, -⟩ := h f
    · rw [hsame]
      exact hv
    · rw [hw]
      exact List.mem_cons_of_mem w hv
  have htimed : ∀ f mtime, s.Timed f mtime → State.Timed { s with versions } f mtime := by
    rintro f mtime ⟨v, hv, hle⟩
    obtain hsame | ⟨w, hw, hlt⟩ := h f
    · refine ⟨v, ?_, hle⟩
      change (versions f).head? = some v
      rw [hsame, hv]
    · refine ⟨w, ?_, le_trans hle (le_of_lt (hlt v (List.mem_of_mem_head? hv)))⟩
      change (versions f).head? = some w
      rw [hw]
      rfl
  refine ⟨hfresh, ?_⟩
  intro pc hpc
  cases pc with
  | idle => trivial
  | called f => trivial
  | timed f mtime => exact htimed f mtime hpc
  | missed f mtime => exact htimed f mtime hpc
  | computed f mtime result => exact hfresh f mtime result hpc

omit [DecidableEq File] in
/-- A step of a thread that changes its own place and perhaps the cache. -/
theorem Sound.goto (hs : Sound function maxSize s) {t : Tid} {pc : Pc File Mtime Meta}
    (hbound : cache.entries.length ≤ maxSize)
    (hfresh : ∀ p ∈ cache.entries, p ∈ s.cache.entries ∨ s.Fresh function p.1 p.2.1 p.2.2)
    (hpc : s.PcSound function pc) : Sound function maxSize ({ s with cache }.goto t pc) where
  bound := hbound
  fresh := by
    intro f mtime result hmem
    obtain hold | hnew := hfresh _ hmem
    · exact hs.fresh f mtime result hold
    · exact hnew
  pc := by
    intro t'
    change State.PcSound function _ (if t' = t then pc else s.threads t')
    split_ifs
    · exact hpc
    · exact hs.pc t'

theorem Sound.step (hs : Sound function maxSize s) {l : Label File Mtime Meta Tid}
    (h : Step function maxSize s l s') : Sound function maxSize s' := by
  cases h with
  | modify h =>
    obtain ⟨hfresh, hpc⟩ := pcSound_modify function h
    exact ⟨hs.bound, fun f m r hmem => hfresh f m r (hs.fresh f m r hmem), fun t => hpc _ (hs.pc t)⟩
  | call h => exact hs.goto hs.bound (fun p hp => .inl hp) trivial
  | getmtime h hv => exact hs.goto hs.bound (fun p hp => .inl hp) ⟨_, hv, le_refl _⟩
  | getmtimeRaises h => exact hs.goto hs.bound (fun p hp => .inl hp) trivial
  | @hit t f mtime cache result h hlookup =>
    obtain ⟨hmem, rfl⟩ := lookup_some hlookup
    have hshort := length_pop_lt hmem
    have hlen := length_assign_le (s.cache.pop f) f (mtime, result)
    have hbound := hs.bound
    refine hs.goto (by omega) ?_ trivial
    intro p hp
    left
    obtain hold | rfl := mem_assign hp
    · exact mem_pop hold
    · exact hmem
  | @miss t f mtime cache h hlookup =>
    have htimed := hs.pc t
    rw [h] at htimed
    obtain ⟨rfl, -⟩ | rfl := lookup_none hlookup
    · exact hs.goto hs.bound (fun p hp => .inl hp) htimed
    · have hlen := length_pop_le s.cache f
      exact hs.goto (Nat.le_trans hlen hs.bound) (fun p hp => .inl (mem_pop hp)) htimed
  | @function t f mtime v h hv =>
    have htimed := hs.pc t
    rw [h] at htimed
    obtain ⟨w, hw, hle⟩ := htimed
    rw [hv] at hw
    cases hw
    exact hs.goto hs.bound (fun p hp => .inl hp) ⟨v, List.mem_of_mem_head? hv, hle, rfl⟩
  | functionRaises h => exact hs.goto hs.bound (fun p hp => .inl hp) trivial
  | @store t f mtime result h =>
    have hcomputed := hs.pc t
    rw [h] at hcomputed
    have hentries : ∀ p ∈ (s.cache.assign f (mtime, result)).entries,
        p ∈ s.cache.entries ∨ s.Fresh function p.1 p.2.1 p.2.2 := by
      intro p hp
      obtain hold | rfl := mem_assign hp
      · exact .inl hold
      · exact .inr hcomputed
    have hlen := length_assign_le s.cache f (mtime, result)
    have hbound := hs.bound
    by_cases hfull : maxSize < (s.cache.assign f (mtime, result)).entries.length
    · have hevict : store maxSize s.cache f mtime result =
          (s.cache.assign f (mtime, result)).popFirst := if_pos hfull
      have hidle : s.PcSound function .idle := trivial
      rw [hevict]
      apply hs.goto _ _ hidle
      · simp only [OrderedDict.popFirst, List.length_tail]
        omega
      · intro p hp
        exact hentries p (List.mem_of_mem_tail hp)
    · have hkeep : store maxSize s.cache f mtime result = s.cache.assign f (mtime, result) :=
        if_neg hfull
      rw [hkeep]
      exact hs.goto (by omega) hentries trivial

theorem Sound.run {s₀ : State File Content Meta Mtime Tid} (h₀ : Sound function maxSize s₀)
    {labels : List (Label File Mtime Meta Tid)} (h : Run function maxSize s₀ labels s) :
    Sound function maxSize s := by
  induction h with
  | start => exact h₀
  | step _ hstep ih => exact ih.step hstep

end Invariant

section Order

variable {function : Content → Meta} {maxSize : ℕ} 
  {s₀ s s' : State File Content Meta Mtime Tid} {labels : List (Label File Mtime Meta Tid)}

/-- The files that the cache holds while a single thread is at this place. -/
def keysAt (maxSize : ℕ) (used : List File) : Pc File Mtime Meta → List File
  | .missed f _ => (recent maxSize used).filter (· ≠ f)
  | .computed f _ _ => (recent maxSize used).filter (· ≠ f)
  | _ => recent maxSize used

omit [LinearOrder Mtime] in
theorem keys_store (maxSize : ℕ) {cache : Cache File Mtime Meta} {f : File} (h : f ∉ cache.keys)
    (mtime : Mtime) (result : Meta) :
    (store maxSize cache f mtime result).keys = evict maxSize (cache.keys ++ [f]) := by
  have hkeys : (cache.assign f (mtime, result)).keys = cache.keys ++ [f] := keys_assign_new h
  rw [← hkeys, evict, length_keys]
  simp only [store]
  split_ifs
  · exact keys_popFirst _
  · rfl

/-- A step of the single thread, whose function does not raise. -/
theorem Step.keys {t : Tid} {a : Action File Mtime Meta} (used : List File)
    (hstep : Step function maxSize s (.thread t a) s') (ha : a ≠ .functionRaises)
    (hkeys : s.cache.keys = keysAt maxSize used (s.threads t)) :
    s'.cache.keys =
      keysAt maxSize (used ++ uses [(.thread t a : Label File Mtime Meta Tid)]) (s'.threads t) := by
  have hplace : ∀ (s : State File Content Meta Mtime Tid) pc, (s.goto t pc).threads t = pc :=
    fun s pc => if_pos rfl
  have hnone : ∀ a : Action File Mtime Meta, (∀ f m r c, a ≠ .returns f m r c) →
      used ++ uses [(.thread t a : Label File Mtime Meta Tid)] = used := by
    intro a hreturn
    cases a with
    | returns f m r c => exact absurd rfl (hreturn f m r c)
    | call => exact List.append_nil used
    | getmtime => exact List.append_nil used
    | getmtimeRaises => exact List.append_nil used
    | miss => exact List.append_nil used
    | function => exact List.append_nil used
    | functionRaises => exact List.append_nil used
  cases hstep with
  | call h =>
    rw [hplace, hnone _ (by simp)]
    rw [h] at hkeys
    exact hkeys
  | getmtime h hv =>
    rw [hplace, hnone _ (by simp)]
    rw [h] at hkeys
    exact hkeys
  | getmtimeRaises h =>
    rw [hplace, hnone _ (by simp)]
    rw [h] at hkeys
    exact hkeys
  | @hit _ f mtime cache result h hlookup =>
    rw [hplace]
    rw [h] at hkeys
    have hrecent : s.cache.keys = recent maxSize used := hkeys
    obtain ⟨hmem, rfl⟩ := lookup_some hlookup
    have hin : f ∈ recent maxSize used := by
      rw [← hrecent]
      exact List.mem_map.mpr ⟨_, hmem, rfl⟩
    change ((s.cache.pop f).assign f (mtime, result)).keys = recent maxSize (used ++ [f])
    rw [keys_assign_new (notMem_keys_pop _ _), keys_pop, hrecent, recent_concat_of_mem hin]
  | @miss _ f mtime cache h hlookup =>
    rw [hplace, hnone _ (by simp)]
    rw [h] at hkeys
    have hrecent : s.cache.keys = recent maxSize used := hkeys
    change cache.keys = (recent maxSize used).filter (· ≠ f)
    obtain ⟨rfl, hnot⟩ | rfl := lookup_none hlookup
    · rw [hrecent] at hnot ⊢
      exact (filter_ne_eq_self hnot).symm
    · rw [keys_pop, hrecent]
  | function h hv =>
    rw [hplace, hnone _ (by simp)]
    rw [h] at hkeys
    exact hkeys
  | functionRaises h => exact absurd rfl ha
  | @store _ f mtime result h =>
    rw [hplace]
    rw [h] at hkeys
    have hrecent : s.cache.keys = (recent maxSize used).filter (· ≠ f) := hkeys
    have hnot : f ∉ s.cache.keys := by
      rw [hrecent]
      simp
    change (Docutils.store maxSize s.cache f mtime result).keys = recent maxSize (used ++ [f])
    rw [keys_store maxSize hnot, hrecent, recent_concat]

theorem Run.keys {t : Tid} (h₀ : s₀.Initial) (hrun : Run function maxSize s₀ labels s)
    (hseq : Sequential t labels) : s.cache.keys = keysAt maxSize (uses labels) (s.threads t) := by
  induction hrun with
  | start =>
    rw [h₀.threads]
    simp [OrderedDict.keys, h₀.cache, keysAt, uses, recent]
  | @step labels s l s' hrun hstep ih =>
    have hkeys := ih fun l hl => hseq l (List.mem_append_left _ hl)
    have huses : uses (labels ++ [l]) = uses labels ++ uses [l] := List.filterMap_append
    rw [huses]
    obtain rfl | ⟨a, rfl, ha⟩ := hseq l (by simp)
    · cases hstep with
      | modify h =>
        change s.cache.keys = keysAt maxSize (uses labels ++ []) (s.threads t)
        rw [List.append_nil, hkeys]
    · exact hstep.keys _ ha hkeys

end Order

/-- The cache is bounded and its values are fresh in every interleaving, and a single thread has
the files that it used last, least recent first. -/
theorem mtimeLruCache_correct (function : Content → Meta) (maxSize : ℕ)
    {s₀ s : State File Content Meta Mtime Tid} {labels : List (Label File Mtime Meta Tid)}
    (h₀ : s₀.Initial) (hrun : Run function maxSize s₀ labels s) :
    s.cache.entries.length ≤ maxSize ∧
    (∀ t f mtime result s',
      Step function maxSize s (.thread t (.returns f mtime result true)) s' →
        s.Fresh function f mtime result) ∧
    ∀ t, Sequential t labels → s.threads t = .idle →
      s.cache.keys = recent maxSize (uses labels) := by
  have hsound : Sound function maxSize s := h₀.sound.run hrun
  refine ⟨hsound.bound, ?_, ?_⟩
  · intro t f mtime result s' hstep
    cases hstep with
    | hit h hlookup => exact hsound.fresh f mtime result (lookup_some hlookup).1
  · intro t hseq hidle
    rw [hrun.keys h₀ hseq, hidle]
    rfl

/-- Every file has one version, and no call is running. -/
def idleState : State ℕ ℕ ℕ ℕ ℕ where
  versions _ := [(1, 10)]
  cache := .empty
  threads _ := .idle

omit [DecidableEq File] [LinearOrder Mtime] [DecidableEq Tid] in
theorem sequential_of_thread {t : Tid} {actions : List (Action File Mtime Meta)}
    (h : ∀ a ∈ actions, a ≠ .functionRaises) : Sequential t (actions.map (Label.thread t)) := by
  intro l hl
  obtain ⟨a, ha, rfl⟩ := List.mem_map.mp hl
  exact .inr ⟨a, rfl, h a ha⟩

/-- A call on a file that is not in the cache, and one that finds it there. -/
def twiceSeven : List (Action ℕ ℕ ℕ) :=
  [.call 7, .getmtime, .miss, .function, .returns 7 1 10 false, .call 7, .getmtime]

/-- The second call is a hit, and a call on another file then drops this one. -/
def thenEight : List (Action ℕ ℕ ℕ) :=
  twiceSeven ++ [.returns 7 1 10 true, .call 8, .getmtime, .miss, .function, .returns 8 1 10 false]

theorem mtimeLruCache_correct_call : ∃ s s' : State ℕ ℕ ℕ ℕ ℕ,
    Run id 1 idleState (twiceSeven.map (Label.thread 0)) s ∧ s.Fresh id 7 1 10 ∧
    Run id 1 idleState (thenEight.map (Label.thread 0)) s' ∧ s'.cache.entries.length ≤ 1 ∧
    s'.cache.keys = [8] := by
  have h₀ : Run id 1 idleState [] idleState := .start
  have h₁ := h₀.step (Step.call (t := 0) (f := 7) rfl)
  have h₂ := h₁.step (Step.getmtime (t := 0) (f := 7) rfl rfl)
  have h₃ := h₂.step (Step.miss (t := 0) (f := 7) rfl rfl)
  have h₄ := h₃.step (Step.function (t := 0) (f := 7) rfl rfl)
  have h₅ := h₄.step (Step.store (t := 0) (f := 7) rfl)
  have h₆ := h₅.step (Step.call (t := 0) (f := 7) rfl)
  have h₇ := h₆.step (Step.getmtime (t := 0) (f := 7) rfl rfl)
  have h₈ := h₇.step (Step.hit (t := 0) (f := 7) rfl rfl)
  have h₉ := h₈.step (Step.call (t := 0) (f := 8) rfl)
  have h₁₀ := h₉.step (Step.getmtime (t := 0) (f := 8) rfl rfl)
  have h₁₁ := h₁₀.step (Step.miss (t := 0) (f := 8) rfl rfl)
  have h₁₂ := h₁₁.step (Step.function (t := 0) (f := 8) rfl rfl)
  have h₁₃ := h₁₂.step (Step.store (t := 0) (f := 8) rfl)
  have hinitial : idleState.Initial := ⟨rfl, fun _ => rfl⟩
  obtain ⟨-, hfresh, -⟩ := mtimeLruCache_correct id 1 hinitial h₇
  obtain ⟨hbound, -, hkeys⟩ := mtimeLruCache_correct id 1 hinitial h₁₃
  have hsequential : Sequential 0 (thenEight.map (Label.thread 0)) :=
    sequential_of_thread (by simp [thenEight, twiceSeven])
  exact ⟨_, _, h₇, hfresh 0 7 1 10 _ (.hit rfl rfl), h₁₃, hbound, hkeys 0 hsequential rfl⟩

end Multicorn.Docutils
