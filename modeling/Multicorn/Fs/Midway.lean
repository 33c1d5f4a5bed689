import Multicorn.Fs.Faults

/-! The tree midway through a commit or its rollback: directories stay, and every key that the
transaction held for writing is still held or has nothing cached. -/
namespace Multicorn.Fs
open Multicorn.StateMonad Multicorn.HandleLog

variable {s s' s₀ : State}

abbrev FileVolume := Volume Path Str ℕ Bytes

abbrev HandleUndo := HandleLog.Undo Path Str Bytes

def State.volume (s : State) : FileVolume := ⟨s.os.file, s.os.content, Held s⟩

/-- Before the commit the key was held for the file at `p`. -/
structure Locked (s₀ : State) (k : Str) (p : Path) : Prop where
  path : s₀.os.resolve k = .ok p
  held : ∃ i, Held s₀ k i ∧ s₀.os.file p = some i
  parent : s₀.os.stat (dirname k) = some .dir

theorem Locked.unique {k : Str} {p q : Path} (h : Locked s₀ k p) (h' : Locked s₀ k q) : p = q := by
  have hpath := h.path.symm.trans h'.path
  cases hpath
  rfl

/-- The log still undoes what has happened since `start`. -/
structure Midway (s₀ : State) (written : Str → Prop) (start : FileVolume)
    (undos : List HandleUndo) (s : State) : Prop where
  opened : Opened s
  process : s.os.process = s₀.os.process
  dirs : ∀ p, s.os.node p = some .dir ↔ s₀.os.node p = some .dir
  log : s.current_transaction_state = s₀.current_transaction_state
  inodes : ∀ p i, s.os.file p = some i → i < s.os.nextInode
  handles : ∀ k i, Held s k i → i < s.os.nextInode
  usable : ∀ k p, Locked s₀ k p → s.cache.lookup k = none ∨ ∃ i, Held s k i
  ready : Ready (Locked s₀) written start undos s.volume

theorem held_congr {k : Str} (hcache : s'.cache.lookup k = s.cache.lookup k)
    (hfds : ∀ e, s.cache.lookup k = some e → s'.os.fd e.1 = s.os.fd e.1) (i : ℕ) :
    Held s' k i ↔ Held s k i := by
  constructor
  · rintro ⟨fd, hentry, hfd⟩
    rw [hcache] at hentry
    exact ⟨fd, hentry, (hfds _ hentry).symm.trans hfd⟩
  · rintro ⟨fd, hentry, hfd⟩
    exact ⟨fd, hcache.trans hentry, (hfds _ hentry).trans hfd⟩

theorem not_held_of_uncached {k : Str} (h : s.cache.lookup k = none) (i : ℕ) : ¬ Held s k i := by
  rintro ⟨fd, hentry, -⟩
  rw [h] at hentry
  cases hentry

theorem Os.file_of_node {os os' : Os} (h : ∀ p, os'.node p = os.node p) (p : Path) :
    os'.file p = os.file p := by
  unfold Os.file
  rw [h]

/-- The cached descriptors are the same. -/
structure SameCached (s s' : State) : Prop where
  lookup : ∀ k, s'.cache.lookup k = s.cache.lookup k
  fds : ∀ k e, s.cache.lookup k = some e → s'.os.fd e.1 = s.os.fd e.1

theorem SameCached.held (h : SameCached s s') (k : Str) (i : ℕ) : Held s' k i ↔ Held s k i :=
  held_congr (h.lookup k) (h.fds k) i

theorem SameCached.opened (h : SameCached s s') (hs : Opened s) : Opened s' := by
  constructor
  · intro k e he
    rw [h.lookup] at he
    rw [h.fds k e he]
    exact hs.fds k e he
  · intro k k' e e' he he'
    rw [h.lookup] at he he'
    exact hs.distinct k k' e e' he he'

section Frames

variable {written : Str → Prop} {start : FileVolume} {undos : List HandleUndo}

theorem Midway.resolve (h : Midway s₀ written start undos s) {path : Str} {p : Path}
    (hp : s₀.os.resolve path = .ok p) : s.os.resolve path = .ok p := by
  have hdirs : s₀.os.DirsKept s.os := ⟨h.process, fun q hq => (h.dirs q).mpr hq⟩
  exact hdirs.resolve hp

theorem Midway.parent (h : Midway s₀ written start undos s) {k : Str} {p : Path}
    (hk : Locked s₀ k p) : s.os.exists? (dirname k) = true := by
  obtain ⟨q, hq, hnode⟩ := Os.stat_eq_some.mp hk.parent
  have hresolve := h.resolve hq
  simp only [Os.exists?, Os.stat, hresolve, (h.dirs q).mpr hnode, Option.isSome_some]

/-- Where there was a file before the commit, there is one or nothing. -/
theorem Midway.node (h : Midway s₀ written start undos s) {k : Str} {p : Path}
    (hk : Locked s₀ k p) : s.os.node p = none ∨ ∃ i, s.os.node p = some (.file i) := by
  cases hnode : s.os.node p with
  | none => exact .inl rfl
  | some node =>
    cases node with
    | file i => exact .inr ⟨i, rfl⟩
    | dir =>
      obtain ⟨i, -, hfile⟩ := hk.held
      rw [Os.file_eq_some, (h.dirs p).mp hnode] at hfile
      cases hfile

theorem Midway.mono (h : Midway s₀ written start undos s) {written' : Str → Prop}
    (hw : ∀ k, written k → written' k) : Midway s₀ written' start undos s :=
  ⟨h.opened, h.process, h.dirs, h.log, h.inodes, h.handles, h.usable, h.ready.mono hw⟩

/-- Descriptors that are not cached do not matter. -/
theorem Midway.congr (h : Midway s₀ written start undos s) (hcached : SameCached s s')
    (hnode : ∀ p, s'.os.node p = s.os.node p) (hprocess : s'.os.process = s.os.process)
    (hcontent : s'.os.content = s.os.content) (hnext : s'.os.nextInode = s.os.nextInode)
    (hlog : s'.current_transaction_state = s.current_transaction_state) :
    Midway s₀ written start undos s' where
  opened := hcached.opened h.opened
  process := hprocess.trans h.process
  dirs p := by
    rw [hnode]
    exact h.dirs p
  log := hlog.trans h.log
  inodes p i hp := by
    rw [Os.file_of_node hnode] at hp
    rw [hnext]
    exact h.inodes p i hp
  handles k i hk := by
    rw [hnext]
    exact h.handles k i ((hcached.held k i).mp hk)
  usable k p hk := by
    rw [hcached.lookup]
    rcases h.usable k p hk with hnone | ⟨i, hi⟩
    · exact .inl hnone
    · exact .inr ⟨i, (hcached.held k i).mpr hi⟩
  ready := by
    have hvolume : s'.volume = s.volume := by
      apply Volume.ext_iff_held
      · exact Os.file_of_node hnode
      · intro i
        exact congrFun hcontent i
      · exact hcached.held
    rw [hvolume]
    exact h.ready

theorem Midway.withFaults (h : Midway s₀ written start undos s) (faults : List (Option Errno)) :
    Midway s₀ written start undos (s.withFaults faults) :=
  h.congr ⟨fun _ => rfl, fun _ _ _ => rfl⟩ (fun _ => rfl) rfl rfl rfl rfl

/-- A file that the list writes back, or that is new, may be written. -/
theorem Midway.withContent (h : Midway s₀ written start undos s) {k : Str} {p : Path} {i : ℕ}
    (hk : Locked s₀ k p) (hi : Held s k i)
    (hcovered : start.data p = none ∨ Restores undos k p ∧ written k) (data : Bytes) :
    Midway s₀ written start undos (s.withContent i data) :=
  ⟨⟨h.opened.fds, h.opened.distinct⟩, h.process, h.dirs, h.log, h.inodes, h.handles, h.usable,
    h.ready.write hk hi hcovered data⟩

theorem Os.created_file {os : Os} {p : Path} (hp : os.node p = none) :
    (os.created p).file = Function.update os.file p (some os.nextInode) := by
  have hnode : ∀ q, (os.created p).node q = if q = p then some (.file os.nextInode)
      else os.node q := @Os.node_withNode os _ (Os.node_ne_nil hp) _
  funext q
  unfold Os.file
  rw [hnode]
  by_cases hq : q = p
  · subst hq
    simp
  · rw [if_neg hq, Function.update_of_ne hq]

/-- A path where there is nothing gets a file, for a key that has nothing open. -/
theorem Midway.created (h : Midway s₀ written start undos s) {k : Str} {p : Path}
    (hu : ∀ i, ¬ Held s k i) (hp : s.os.node p = none)
    (hcovered : .remove p ∈ undos ∨ Restores undos k p ∧ written k) :
    Midway s₀ written start undos { s with os := s.os.created p } := by
  have hfile : s.os.file p = none := by
    unfold Os.file
    rw [hp]
  have hnode : ∀ q, (s.os.created p).node q = if q = p then some (.file s.os.nextInode)
      else s.os.node q := @Os.node_withNode s.os _ (Os.node_ne_nil hp) _
  have hnext : (s.os.created p).nextInode = s.os.nextInode + 1 := rfl
  refine ⟨⟨h.opened.fds, h.opened.distinct⟩, h.process, fun q => ?_, h.log, fun q i hq => ?_,
    fun k' i hk' => ?_, h.usable, ?_⟩
  · rw [hnode]
    by_cases hqp : q = p
    · subst hqp
      rw [if_pos rfl, ← h.dirs, hp]
      simp
    · rw [if_neg hqp]
      exact h.dirs q
  · rw [hnext]
    rw [Os.created_file hp] at hq
    by_cases hqp : q = p
    · subst hqp
      rw [Function.update_self] at hq
      cases hq
      omega
    · rw [Function.update_of_ne hqp] at hq
      have hlt := h.inodes q i hq
      omega
  · rw [hnext]
    have hlt := h.handles k' i hk'
    omega
  · have hvolume : ({ s with os := s.os.created p } : State).volume = { s.volume with
        file := Function.update s.volume.file p (some s.os.nextInode)
        content := Function.update s.volume.content s.os.nextInode [] } := by
      apply Volume.ext_iff_held
      · intro q
        exact congrFun (Os.created_file hp) q
      · intro i
        rfl
      · intro k' i
        rfl
    rw [hvolume]
    apply h.ready.create hu hfile _ _ hcovered
    · intro q hq
      have hlt := h.inodes q _ hq
      omega
    · intro k' hk'
      have hlt := h.handles k' _ hk'
      omega

/-- A descriptor of the file at the key's path is put into the cache. -/
theorem Midway.cached (h : Midway s₀ written start undos s) {k : Str} {p : Path} {fd i : ℕ}
    (hk : Locked s₀ k p) (hnone : s.cache.lookup k = none) (hp : s.os.file p = some i)
    (hfd : s.os.fd fd = some ⟨.file i, true⟩)
    (hother : ∀ k' e, s.cache.lookup k' = some e → e.1 ≠ fd) :
    Midway s₀ written start undos { s with cache := s.cache.insert k (fd, false) } := by
  let s' : State := { s with cache := s.cache.insert k (fd, false) }
  have hlookup : ∀ k', s'.cache.lookup k' = if k' = k then some (fd, false)
      else s.cache.lookup k' := lookup_cache_insert rfl
  have hself : Held s' k i := ⟨fd, (hlookup k).trans (if_pos rfl), hfd⟩
  have hheld : ∀ k', k' ≠ k → ∀ j, Held s' k' j ↔ Held s k' j := by
    intro k' hne
    apply held_congr
    · rw [hlookup, if_neg hne]
    · intro e _
      rfl
  have hall : ∀ k' j, Held s' k' j ↔ Held s k' j ∨ k' = k ∧ j = i := by
    intro k' j
    by_cases hne : k' = k
    · subst hne
      constructor
      · intro hj
        exact .inr ⟨rfl, hj.unique hself⟩
      · rintro (hj | ⟨-, rfl⟩)
        · exact absurd hj (not_held_of_uncached hnone j)
        · exact hself
    · rw [hheld k' hne]
      constructor
      · exact .inl
      · rintro (hj | ⟨heq, -⟩)
        · exact hj
        · exact absurd heq hne
  have hentry : ∀ k' e, s'.cache.lookup k' = some e →
      k' = k ∧ e = (fd, false) ∨ k' ≠ k ∧ s.cache.lookup k' = some e := by
    intro k' e he
    rw [hlookup] at he
    split_ifs at he with heq
    · cases he
      exact .inl ⟨heq, rfl⟩
    · exact .inr ⟨heq, he⟩
  refine ⟨⟨fun k' e he => ?_, fun k₁ k₂ e₁ e₂ h₁ h₂ heq => ?_⟩, h.process, h.dirs, h.log, h.inodes,
    fun k' j hj => ?_, fun k' q hk' => ?_, ?_⟩
  · obtain ⟨-, rfl⟩ | ⟨-, hold⟩ := hentry k' e he
    · exact ⟨_, hfd, fun _ => ⟨i, rfl⟩⟩
    · exact h.opened.fds k' e hold
  · obtain ⟨rfl, rfl⟩ | ⟨-, hold₁⟩ := hentry k₁ e₁ h₁ <;>
      obtain ⟨rfl, rfl⟩ | ⟨-, hold₂⟩ := hentry k₂ e₂ h₂
    · rfl
    · exact absurd heq.symm (hother k₂ e₂ hold₂)
    · exact absurd heq (hother k₁ e₁ hold₁)
    · exact h.opened.distinct k₁ k₂ e₁ e₂ hold₁ hold₂ heq
  · rcases (hall k' j).mp hj with hj | ⟨-, rfl⟩
    · exact h.handles k' j hj
    · exact h.inodes p j hp
  · by_cases hne : k' = k
    · subst hne
      exact .inr ⟨i, hself⟩
    · change s'.cache.lookup k' = none ∨ ∃ j, Held s' k' j
      rw [hlookup, if_neg hne]
      rcases h.usable k' q hk' with hnone' | ⟨j, hj⟩
      · exact .inl hnone'
      · exact .inr ⟨j, (hheld k' hne j).mpr hj⟩
  · have hvolume : s'.volume = { s.volume with
        held := fun k' j => s.volume.held k' j ∨ k' = k ∧ j = i } := by
      apply Volume.ext_iff_held
      · intro q
        rfl
      · intro j
        rfl
      · exact hall
    change Ready _ _ _ _ s'.volume
    rw [hvolume]
    exact h.ready.hold (fun _ _ _ h h' => h.unique h') hk (not_held_of_uncached hnone) hp

end Frames

end Multicorn.Fs
