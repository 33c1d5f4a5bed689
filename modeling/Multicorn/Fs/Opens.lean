import Multicorn.Fs.OsCalls

/-! What opening an item does to the descriptor cache and to the tree. -/
namespace Multicorn.Fs
open Multicorn.StateMonad

variable {s s' : State}

theorem call_eq_ok {α : Type} {x : Call α} {a : α} :
    call x s = .ok a s' ↔ ∃ os', x s.os = .ok a os' ∧ s' = { s with os := os' } := by
  unfold call
  cases x s.os with
  | ok b os => simp [eq_comm]
  | error e os => simp

theorem liftExcept_eq_ok {α : Type} {x : Except Failure α} {a : α} :
    liftExcept x s = .ok a s' ↔ x = .ok a ∧ s = s' := by
  cases x with
  | ok b => simp [liftExcept, pure_eq_ok]
  | error e => simp [liftExcept, throw_ne_ok]

theorem setCache_eq_ok {key : Str} {entry : ℕ × Bool} {u : Unit} :
    setCache key entry s = .ok u s' ↔ s' = { s with cache := s.cache.insert key entry } := by
  rw [setCache, modify_eq_ok, eq_comm]

/-! What the cache decides. -/

theorem openShared_cached {k : Str} {entry : ℕ × Bool} (h : s.cache.lookup k = some entry) :
    openShared k s = .ok entry.1 s := by
  unfold openShared
  simp only [get_bind, h]
  rfl

theorem openShared_uncached {k : Str} (h : s.cache.lookup k = none) :
    openShared k s = (do
      let fd ← call (osOpen k ⟨false, false, false⟩)
      call (flock fd)
      setCache k (fd, true)
      return fd : M ℕ) s := by
  conv_lhs => unfold openShared
  simp only [get_bind, h]

theorem writableFd_cached {k : Str} {fail_if : Option FailIf} {entry : ℕ × Bool}
    (h : s.cache.lookup k = some entry) :
    writableFd k fail_if s = (do
      if ← call (isRdwr entry.1) then return entry.1
      else reopen k (some entry.1) fail_if : M ℕ) s := by
  conv_lhs => unfold writableFd
  simp only [get_bind, h]

theorem writableFd_uncached {k : Str} {fail_if : Option FailIf} (h : s.cache.lookup k = none) :
    writableFd k fail_if s = reopen k none fail_if s := by
  conv_lhs => unfold writableFd
  simp only [get_bind, h]

/-- Every cached descriptor is open, for writing as well exactly if it is not shared, and
belongs to one key. -/
structure Opened (s : State) : Prop where
  fds : ∀ k e, s.cache.lookup k = some e → ∃ node, s.os.fd e.1 = some ⟨node, !e.2⟩ ∧
    (e.2 = false → ∃ i, node = .file i)
  distinct : ∀ k k' e e', s.cache.lookup k = some e → s.cache.lookup k' = some e' →
    e.1 = e'.1 → k = k'

/-- A cached descriptor still belongs to what is found under its key. -/
structure Coherent (s : State) : Prop extends Opened s where
  located : ∀ k e f, s.cache.lookup k = some e → s.os.fd e.1 = some f →
    ∃ p, s.os.resolve k = .ok p ∧ s.os.node p = some f.node

/-- The key has a descriptor that can write to the inode. -/
def Held (s : State) (k : Str) (i : ℕ) : Prop :=
  ∃ fd, s.cache.lookup k = some (fd, false) ∧ s.os.fd fd = some ⟨.file i, true⟩

/-- Nodes and contents stay; there may be new ones. -/
structure Os.Grows (os os' : Os) : Prop where
  process : os'.process = os.process
  kept : ∀ p n, os.node p = some n → os'.node p = some n
  content : ∀ i < os.nextInode, os'.content i = os.content i
  nextInode : os.nextInode ≤ os'.nextInode
  faults : os'.faults = os.faults

theorem Os.Grows.refl (os : Os) : os.Grows os :=
  ⟨rfl, fun _ _ h => h, fun _ _ => rfl, Nat.le_refl _, rfl⟩

theorem Os.Grows.trans {a b c : Os} (h : a.Grows b) (h' : b.Grows c) : a.Grows c where
  process := h'.process.trans h.process
  kept p n hn := h'.kept p n (h.kept p n hn)
  content i hi := (h'.content i (Nat.lt_of_lt_of_le hi h.nextInode)).trans (h.content i hi)
  nextInode := Nat.le_trans h.nextInode h'.nextInode
  faults := h'.faults.trans h.faults

theorem Os.Grows.dirsKept {os os' : Os} (h : os.Grows os') : os.DirsKept os' :=
  ⟨h.process, fun p hp => h.kept p _ hp⟩

theorem Os.OnlyDirs.grows {os os' : Os} (h : os.OnlyDirs os') : os.Grows os' :=
  ⟨h.process, h.kept, fun i _ => by rw [h.content], by rw [h.nextInode], h.faults⟩

theorem Os.onlyDirs_umask (os : Os) (mask : ℕ) : os.OnlyDirs { os with umask := mask } :=
  ⟨rfl, rfl, rfl, rfl, rfl, fun _ _ h => h, fun _ => rfl⟩

/-- An exclusive open of `k` that gave the descriptor `fd` of the inode `i` at the path `p`. -/
structure Opens (s s' : State) (k : Str) (fail_if : Option FailIf) (fd : ℕ) (p : Path) (i : ℕ) :
    Prop where
  log : s'.current_transaction_state = s.current_transaction_state
  invisible : s'.invisible_files = s.invisible_files
  updated : s'.updated_content = s.updated_content
  cache : s'.cache = s.cache.insert k (fd, false)
  opened : s'.os.fd fd = some ⟨.file i, true⟩
  others : ∀ k' e, k' ≠ k → s.cache.lookup k' = some e → e.1 ≠ fd ∧ s'.os.fd e.1 = s.os.fd e.1
  path : s'.os.resolve k = .ok p
  node : s'.os.node p = some (.file i)
  grows : s.os.Grows s'.os
  parent : dirname k = [] → ∃ j, Held s k j
  same : ∀ j, Held s k j → j = i ∧ s'.os = s.os
  files : (s.os.node p = some (.file i) ∧ (∀ q, s'.os.file q = s.os.file q) ∧
      (fail_if = some .exists → Held s k i)) ∨
    s.os.node p = none ∧ i = s.os.nextInode ∧ s'.os.content i = [] ∧ s'.os.nextInode = i + 1 ∧
      fail_if ≠ some .missing ∧ ∀ q, s'.os.file q = if q = p then some i else s.os.file q

/-- With a descriptor that can write, opening only marks the cache entry. -/
theorem openExclusive_held (hf : s.os.faults = []) {k : Str} {i : ℕ} (h : Held s k i)
    (fail_if : Option FailIf) : ∃ fd, s.cache.lookup k = some (fd, false) ∧
      s.os.fd fd = some ⟨.file i, true⟩ ∧
      openExclusive k fail_if s = .ok fd { s with cache := s.cache.insert k (fd, false) } := by
  obtain ⟨fd, hentry, hfd⟩ := h
  refine ⟨fd, hentry, hfd, ?_⟩
  have hwritable : writableFd k fail_if s = .ok fd s := by
    unfold writableFd
    rw [bind_eq_ok]
    refine ⟨s, s, rfl, ?_⟩
    simp only [hentry]
    rw [bind_eq_ok]
    refine ⟨true, s, ?_, rfl⟩
    exact call_eq_ok.mpr ⟨s.os, (isRdwr_eq_ok hf).mpr ⟨⟨_, hfd, rfl⟩, rfl⟩, rfl⟩
  unfold openExclusive
  rw [bind_eq_ok]
  refine ⟨fd, s, hwritable, ?_⟩
  rw [bind_eq_ok]
  refine ⟨(), s, ?_, rfl⟩
  exact call_eq_ok.mpr ⟨s.os, (flock_eq_ok hf).mpr ⟨⟨_, hfd⟩, rfl⟩, rfl⟩

/-- The system in which `reopen` calls `os.open`. -/
private structure Reopened (os os₁ : Os) (old : Option ℕ) : Prop where
  grows : os.Grows os₁
  files : ∀ q, os₁.file q = os.file q
  nextInode : os₁.nextInode = os.nextInode
  fds : ∀ n, old ≠ some n → os₁.fd n = os.fd n

private theorem makeParent_ok (hf : s.os.faults = []) {dir : Str} {u : Unit}
    (h : makeParent dir s = .ok u s') : ∃ os', s.os.OnlyDirs os' ∧ s' = { s with os := os' } := by
  unfold makeParent at h
  simp only [bind_eq_ok, call_eq_ok, pathExists_eq_ok] at h
  obtain ⟨there, _, ⟨_, ⟨-, rfl⟩, rfl⟩, h⟩ := h
  have htouch := Os.onlyDirs_touch s.os dir
  split_ifs at h
  · simp only [bind_eq_ok, call_eq_ok, discard_eq_ok] at h
    obtain ⟨mask, _, ⟨os₁, h₁, rfl⟩, _, _, ⟨os₂, h₂, rfl⟩, _, os₃, h₃, rfl⟩ := h
    obtain ⟨-, rfl⟩ := umask_eq_ok.mp h₁
    obtain ⟨-, rfl⟩ := umask_eq_ok.mp h₃
    have hf' : ({ s.os.touch dir with umask := 0 } : Os).faults = [] := hf
    have hmake := onlyDirs_of_makedirs hf' h₂
    exact ⟨_, ((htouch.trans (Os.onlyDirs_umask _ _)).trans hmake).trans (Os.onlyDirs_umask _ _),
      rfl⟩
  · obtain ⟨-, rfl⟩ := pure_eq_ok.mp h
    exact ⟨_, htouch, rfl⟩

/-- Nothing can be made at the empty path. -/
theorem makedirs_nil_ne_ok {os os' : Os} {u : Unit} : makedirs [] os ≠ .ok u os' := by
  intro h
  have hsplit : ¬ ((splitLast []).1 ≠ [] ∧ (splitLast []).2 ≠ []) := fun hne => hne.1 rfl
  rw [makedirs, dif_neg hsplit] at h
  unfold mkdir at h
  obtain ⟨_, os₁, -, h⟩ := bind_eq_ok.mp h
  obtain ⟨p, os₂, hresolve, -⟩ := bind_eq_ok.mp h
  obtain ⟨hp, -⟩ := resolveCall_eq_ok.mp hresolve
  cases hp

theorem makeParent_ne_nil {dir : Str} {u : Unit} (h : makeParent dir s = .ok u s') :
    dir ≠ [] := by
  rintro rfl
  unfold makeParent at h
  simp only [bind_eq_ok, call_eq_ok, pathExists_eq_ok] at h
  obtain ⟨there, _, ⟨_, ⟨hthere, rfl⟩, rfl⟩, h⟩ := h
  have hnone : s.os.exists? [] = false := rfl
  rw [hnone] at hthere
  subst hthere
  simp only [Bool.not_false, if_true, bind_eq_ok, call_eq_ok] at h
  obtain ⟨mask, _, -, _, _, ⟨os₂, hmake, -⟩, -⟩ := h
  exact makedirs_nil_ne_ok hmake

private theorem closeOld_ok (hf : s.os.faults = []) {old : Option ℕ} {u : Unit}
    (h : closeOld old s = .ok u s') :
    ∃ os', s' = { s with os := os' } ∧ Reopened s.os os' old := by
  cases old with
  | none =>
    obtain ⟨-, rfl⟩ := pure_eq_ok.mp h
    exact ⟨_, rfl, .refl _, fun _ => rfl, rfl, fun _ _ => rfl⟩
  | some n =>
    obtain ⟨os', hclose, rfl⟩ := call_eq_ok.mp h
    obtain ⟨⟨f, hn⟩, rfl⟩ := (osClose_eq_ok hf).mp hclose
    refine ⟨_, rfl, ⟨rfl, fun _ _ h => h, fun _ _ => rfl, Nat.le_refl _, rfl⟩, fun _ => rfl, rfl,
      fun m hm => ?_⟩
    rw [Os.fd_withFd (Nat.le_of_lt (Os.fd_lt hn)), if_neg]
    rintro rfl
    exact hm rfl

private theorem parent_of_reopen {k : Str} {old : Option ℕ} {fail_if : Option FailIf} {fd : ℕ}
    (h : reopen k old fail_if s = .ok fd s') : dirname k ≠ [] := by
  unfold reopen at h
  obtain ⟨_, s₁, hmake, -⟩ := bind_eq_ok.mp h
  exact makeParent_ne_nil hmake

private theorem reopen_ok (hf : s.os.faults = []) {k : Str} {old : Option ℕ}
    {fail_if : Option FailIf} {fd : ℕ} (h : reopen k old fail_if s = .ok fd s') :
    ∃ os₁ os₂ mask, Reopened s.os os₁ old ∧
      osOpen k ⟨true, fail_if ≠ some .missing, fail_if = some .exists⟩ os₁ = .ok fd os₂ ∧
      s' = { s with os := { os₂ with umask := mask } } := by
  unfold reopen at h
  simp only [bind_eq_ok, call_eq_ok, discard_eq_ok, pure_eq_ok] at h
  obtain ⟨_, _, hmake, _, _, hclose, mask, _, ⟨os₃, h₃, rfl⟩, n, _, ⟨os₄, h₄, rfl⟩, _, _,
    ⟨_, os₅, h₅, rfl⟩, rfl, rfl⟩ := h
  obtain ⟨os₁, hdirs, rfl⟩ := makeParent_ok hf hmake
  obtain ⟨os₂, rfl, hclosed⟩ := closeOld_ok (hdirs.faults.trans hf) hclose
  obtain ⟨-, rfl⟩ := umask_eq_ok.mp h₃
  obtain ⟨-, rfl⟩ := umask_eq_ok.mp h₅
  refine ⟨_, _, _, ⟨?_, fun q => ?_, ?_, fun m hm => ?_⟩, h₄, rfl⟩
  · exact (hdirs.grows.trans hclosed.grows).trans (Os.onlyDirs_umask _ _).grows
  · exact ((hclosed.files q).trans (hdirs.files q))
  · exact hclosed.nextInode.trans hdirs.nextInode
  · refine (hclosed.fds m hm).trans ?_
    unfold Os.fd
    rw [hdirs.fds]

theorem Os.created_grows {os : Os} {p : Path} (hp : os.node p = none) : os.Grows (os.created p) := by
  refine ⟨rfl, fun q n hn => ?_, fun i hi => ?_, Nat.le_succ _, rfl⟩
  · have hq : q ≠ p := by
      rintro rfl
      rw [hp] at hn
      cases hn
    have hnode := @Os.node_withNode os _ (Os.node_ne_nil hp) (.file os.nextInode) q
    rw [if_neg hq] at hnode
    exact hnode.trans hn
  · exact Function.update_of_ne (Nat.ne_of_lt hi) _ _

theorem Os.withFd_grows (os : Os) (fd : ℕ) (f : Option OpenFile) : os.Grows (os.withFd fd f) :=
  ⟨rfl, fun _ _ h => h, fun _ _ => rfl, Nat.le_refl _, rfl⟩

private theorem opens_of_held (hs : Coherent s) {k : Str} {fd i : ℕ} (fail_if : Option FailIf)
    (hentry : s.cache.lookup k = some (fd, false)) (hfd : s.os.fd fd = some ⟨.file i, true⟩) :
    ∃ p, Opens s { s with cache := s.cache.insert k (fd, false) } k fail_if fd p i := by
  obtain ⟨p, hp, hnode⟩ := hs.located k _ _ hentry hfd
  refine ⟨p, rfl, rfl, rfl, rfl, hfd, fun k' e hk he => ⟨fun heq => ?_, rfl⟩, hp, hnode, .refl _,
    fun _ => ⟨i, fd, hentry, hfd⟩, fun j hj => ⟨?_, rfl⟩,
    .inl ⟨hnode, fun _ => rfl, fun _ => ⟨fd, hentry, hfd⟩⟩⟩
  · exact hk (hs.distinct _ _ _ _ he hentry heq)
  · obtain ⟨fd', hentry', hfd'⟩ := hj
    rw [hentry] at hentry'
    cases hentry'
    rw [hfd] at hfd'
    cases hfd'
    rfl

private theorem opens_of_reopen (hs : Coherent s) (hf : s.os.faults = []) {k : Str}
    {old : Option ℕ} {fail_if : Option FailIf} {fd : ℕ}
    (hold : s.cache.lookup k = old.map (·, true)) (h : reopen k old fail_if s = .ok fd s') :
    ∃ p i, Opens s { s' with cache := s'.cache.insert k (fd, false) } k fail_if fd p i := by
  have hparent := parent_of_reopen h
  obtain ⟨os₁, os₂, mask, hre, hopen, rfl⟩ := reopen_ok hf h
  obtain ⟨rfl, p, hp, hcase⟩ := (osOpen_eq_ok (hre.grows.faults.trans hf)).mp hopen
  have hfree : os₁.fd os₁.freeFd = none := Os.fd_freeFd
  have hothers : ∀ k' e, k' ≠ k → s.cache.lookup k' = some e →
      e.1 ≠ os₁.freeFd ∧ os₁.fd e.1 = s.os.fd e.1 := by
    intro k' e hk he
    have hsame : os₁.fd e.1 = s.os.fd e.1 := by
      refine hre.fds e.1 fun heq => ?_
      rw [heq] at hold
      exact hk (hs.distinct _ _ _ _ he hold rfl)
    obtain ⟨node, hnode, -⟩ := hs.fds k' e he
    refine ⟨fun heq => ?_, hsame⟩
    rw [hnode, heq, hfree] at hsame
    cases hsame
  have hnotHeld : ∀ j, ¬ Held s k j := by
    rintro j ⟨n, hentry, -⟩
    rw [hold] at hentry
    cases old <;> simp at hentry
  rcases hcase with ⟨node, hnode, hexcl, hdir, rfl⟩ | ⟨hnode, hcreat, rfl⟩
  · obtain ⟨i, rfl⟩ : ∃ i, node = .file i := by
      cases node with
      | dir => simp at hdir
      | file i => exact ⟨i, rfl⟩
    have hfile : s.os.node p = some (.file i) := by
      rw [← Os.file_eq_some, ← hre.files, Os.file_eq_some]
      exact hnode
    have hgrows := ((Os.onlyDirs_touch os₁ k).grows.trans (Os.withFd_grows (os₁.touch k) os₁.freeFd
      (some ⟨.file i, true⟩))).trans (Os.onlyDirs_umask _ mask).grows
    refine ⟨p, i, rfl, rfl, rfl, rfl, ?_, fun k' e hk he => ?_, hgrows.dirsKept.resolve hp, hnode,
      hre.grows.trans hgrows, fun hnil => absurd hnil hparent, fun j hj => absurd hj (hnotHeld j),
      .inl ⟨hfile, hre.files, fun hex => ?_⟩⟩
    · exact (Os.fd_withFd Os.freeFd_le _ _).trans (if_pos rfl)
    · obtain ⟨hne, hsame⟩ := hothers k' e hk he
      exact ⟨hne, ((Os.fd_withFd Os.freeFd_le _ _).trans (if_neg hne)).trans hsame⟩
    · rw [hex] at hexcl
      simp at hexcl
  · have hnone : s.os.node p = none := by
      cases hn : s.os.node p with
      | none => rfl
      | some n =>
        have hkept := hre.grows.kept p n hn
        rw [hnode] at hkept
        cases hkept
    have hcreated := @Os.created_grows (os₁.touch k) _ hnode
    have hgrows := (((Os.onlyDirs_touch os₁ k).grows.trans hcreated).trans (Os.withFd_grows _
      os₁.freeFd (some ⟨.file os₁.nextInode, true⟩))).trans (Os.onlyDirs_umask _ mask).grows
    have hat : ∀ q, ((os₁.touch k).created p).node q = if q = p then some (.file os₁.nextInode)
        else os₁.node q := @Os.node_withNode (os₁.touch k) _ (Os.node_ne_nil hnode) _
    have hfd : ∀ m, (((os₁.touch k).created p).withFd os₁.freeFd
        (some ⟨.file os₁.nextInode, true⟩)).fd m =
        if m = os₁.freeFd then some ⟨.file os₁.nextInode, true⟩ else os₁.fd m :=
      @Os.fd_withFd ((os₁.touch k).created p) _ Os.freeFd_le _
    refine ⟨p, os₁.nextInode, rfl, rfl, rfl, rfl, (hfd _).trans (if_pos rfl),
      fun k' e hk he => ?_, hgrows.dirsKept.resolve hp, (hat p).trans (if_pos rfl),
      hre.grows.trans hgrows, fun hnil => absurd hnil hparent, fun j hj => absurd hj (hnotHeld j),
      .inr ⟨hnone, hre.nextInode, ?_, rfl, ?_, fun q => ?_⟩⟩
    · obtain ⟨hne, hsame⟩ := hothers k' e hk he
      exact ⟨hne, ((hfd _).trans (if_neg hne)).trans hsame⟩
    · exact Function.update_self _ _ _
    · simpa using hcreat
    · have hq : ((os₁.touch k).created p).file q = if q = p then some os₁.nextInode else s.os.file q := by
        unfold Os.file
        rw [hat]
        split_ifs
        · rfl
        · exact hre.files q
      exact hq

/-- A successful exclusive open, with all it may have done. -/
theorem openExclusive_ok (hs : Coherent s) (hf : s.os.faults = []) {k : Str}
    {fail_if : Option FailIf} {fd : ℕ} (h : openExclusive k fail_if s = .ok fd s') :
    ∃ p i, Opens s s' k fail_if fd p i := by
  unfold openExclusive at h
  simp only [bind_eq_ok, call_eq_ok, setCache_eq_ok, pure_eq_ok] at h
  obtain ⟨n, s₁, hw, _, _, ⟨os', hflock, rfl⟩, _, _, rfl, rfl, rfl⟩ := h
  unfold writableFd at hw
  simp only [bind_eq_ok, get_eq_ok] at hw
  obtain ⟨_, _, ⟨rfl, rfl⟩, hw⟩ := hw
  have hlocked : s₁.os.faults = [] → os' = s₁.os := fun hf₁ => ((flock_eq_ok hf₁).mp hflock).2.symm
  have hreopened : ∀ old, s.cache.lookup k = old.map (·, true) →
      reopen k old fail_if s = .ok n s₁ →
      ∃ p i, Opens s { s₁ with os := os', cache := s₁.cache.insert k (n, false) } k fail_if n p i := by
    intro old hold hre
    obtain ⟨p, i, hopens⟩ := opens_of_reopen hs hf hold hre
    rw [hlocked (hopens.grows.faults.trans hf)]
    exact ⟨p, i, hopens⟩
  cases hentry : s.cache.lookup k with
  | none =>
    rw [hentry] at hw
    exact hreopened none hentry hw
  | some e =>
    obtain ⟨fd, shared⟩ := e
    obtain ⟨node, hfd, hfile⟩ := hs.fds k _ hentry
    rw [hentry] at hw
    simp only [bind_eq_ok, call_eq_ok] at hw
    obtain ⟨b, _, ⟨os₁, hrdwr, rfl⟩, hw⟩ := hw
    obtain ⟨⟨f, hf', rfl⟩, rfl⟩ := (isRdwr_eq_ok hf).mp hrdwr
    obtain rfl := Option.some.inj (hfd.symm.trans hf')
    cases shared with
    | true => exact hreopened (some fd) hentry hw
    | false =>
      obtain ⟨rfl, rfl⟩ := pure_eq_ok.mp hw
      obtain ⟨i, rfl⟩ := hfile rfl
      obtain rfl := hlocked hf
      obtain ⟨p, hopens⟩ := opens_of_held hs fail_if hentry hfd
      exact ⟨p, i, hopens⟩

section Coherence

theorem lookup_cache_insert {k : Str} {e : ℕ × Bool} (h : s'.cache = s.cache.insert k e) (k' : Str) :
    s'.cache.lookup k' = if k' = k then some e else s.cache.lookup k' := by
  rw [h]
  by_cases hk : k' = k
  · subst hk
    simp
  · rw [AList.lookup_insert_ne hk, if_neg hk]

/-- A new entry keeps the cache coherent if its descriptor is right and no other one is touched. -/
theorem Coherent.insert (hs : Coherent s) {k : Str} {fd : ℕ} {node : Node} {shared : Bool}
    {p : Path} (hcache : s'.cache = s.cache.insert k (fd, shared))
    (hfd : s'.os.fd fd = some ⟨node, !shared⟩) (hfile : shared = false → ∃ i, node = .file i)
    (hothers : ∀ k' e, k' ≠ k → s.cache.lookup k' = some e →
      e.1 ≠ fd ∧ s'.os.fd e.1 = s.os.fd e.1)
    (hpath : s'.os.resolve k = .ok p) (hnode : s'.os.node p = some node)
    (hgrows : s.os.Grows s'.os) : Coherent s' := by
  have hentry : ∀ k' e, s'.cache.lookup k' = some e →
      k' = k ∧ e = (fd, shared) ∨ k' ≠ k ∧ s.cache.lookup k' = some e ∧ e.1 ≠ fd ∧
        s'.os.fd e.1 = s.os.fd e.1 := by
    intro k' e he
    rw [lookup_cache_insert hcache] at he
    split_ifs at he with hk
    · cases he
      exact .inl ⟨hk, rfl⟩
    · exact .inr ⟨hk, he, hothers k' e hk he⟩
  refine ⟨⟨fun k' e he => ?_, fun k₁ k₂ e₁ e₂ h₁ h₂ heq => ?_⟩, fun k' e f he hfd' => ?_⟩
  · obtain ⟨rfl, rfl⟩ | ⟨-, hold, -, hsame⟩ := hentry k' e he
    · exact ⟨node, hfd, hfile⟩
    · rw [hsame]
      exact hs.fds k' e hold
  · obtain ⟨rfl, rfl⟩ | ⟨-, hold₁, hne₁, -⟩ := hentry k₁ e₁ h₁ <;>
      obtain ⟨rfl, rfl⟩ | ⟨-, hold₂, hne₂, -⟩ := hentry k₂ e₂ h₂
    · rfl
    · exact absurd heq.symm hne₂
    · exact absurd heq hne₁
    · exact hs.distinct _ _ _ _ hold₁ hold₂ heq
  · obtain ⟨rfl, rfl⟩ | ⟨-, hold, -, hsame⟩ := hentry k' e he
    · rw [hfd] at hfd'
      cases hfd'
      exact ⟨p, hpath, hnode⟩
    · rw [hsame] at hfd'
      obtain ⟨q, hq, hkept⟩ := hs.located k' e f hold hfd'
      exact ⟨q, hgrows.dirsKept.resolve hq, hgrows.kept q _ hkept⟩

variable {k : Str} {fail_if : Option FailIf} {fd i : ℕ} {p : Path}

theorem Opens.lookup (h : Opens s s' k fail_if fd p i) (k' : Str) :
    s'.cache.lookup k' = if k' = k then some (fd, false) else s.cache.lookup k' :=
  lookup_cache_insert h.cache k'

theorem Opens.held_self (h : Opens s s' k fail_if fd p i) : Held s' k i :=
  ⟨fd, by rw [h.lookup, if_pos rfl], h.opened⟩

theorem Opens.held (h : Opens s s' k fail_if fd p i) {k' : Str} {j : ℕ} (hheld : Held s k' j) :
    Held s' k' j := by
  by_cases hk : k' = k
  · subst hk
    rw [(h.same j hheld).1]
    exact h.held_self
  · obtain ⟨n, hentry, hn⟩ := hheld
    obtain ⟨-, hsame⟩ := h.others k' _ hk hentry
    exact ⟨n, by rw [h.lookup, if_neg hk, hentry], hsame.trans hn⟩

theorem Opens.coherent (hs : Coherent s) (h : Opens s s' k fail_if fd p i) : Coherent s' :=
  hs.insert h.cache h.opened (fun _ => ⟨i, rfl⟩) h.others h.path h.node h.grows

end Coherence

/-- Only cache entries and the descriptors behind them change, and none that can write. -/
structure Quiet (s s' : State) : Prop where
  log : s'.current_transaction_state = s.current_transaction_state
  invisible : s'.invisible_files = s.invisible_files
  updated : s'.updated_content = s.updated_content
  grows : s.os.Grows s'.os
  node : ∀ p, s'.os.node p = s.os.node p
  content : s'.os.content = s.os.content
  coherent : Coherent s → Coherent s'
  held : ∀ k i, Held s k i → Held s' k i

theorem Quiet.refl (s : State) : Quiet s s :=
  ⟨rfl, rfl, rfl, .refl _, fun _ => rfl, rfl, id, fun _ _ => id⟩

theorem Quiet.trans {a b c : State} (h : Quiet a b) (h' : Quiet b c) : Quiet a c where
  log := h'.log.trans h.log
  invisible := h'.invisible.trans h.invisible
  updated := h'.updated.trans h.updated
  grows := h.grows.trans h'.grows
  node p := (h'.node p).trans (h.node p)
  content := h'.content.trans h.content
  coherent hs := h'.coherent (h.coherent hs)
  held k i hk := h'.held k i (h.held k i hk)

theorem Quiet.file {s s' : State} (h : Quiet s s') (p : Path) : s'.os.file p = s.os.file p := by
  unfold Os.file
  rw [h.node]

/-- An item that is read is a file, and what is read is its content. -/
theorem read_ok {d : Directory} {item : Item} {data : Bytes} (hs : Coherent s)
    (hf : s.os.faults = []) (h : item.read d s = .ok data s') :
    Quiet s s' ∧ ∃ k p i, d.fullFilename item = .ok k ∧ s.os.resolve k = .ok p ∧
      s.os.node p = some (.file i) ∧ data = s.os.content i := by
  unfold Item.read Item.openFd at h
  simp only [bind_eq_ok, liftExcept_eq_ok, if_true, call_eq_ok] at h
  obtain ⟨fd, s₁, ⟨k, _, ⟨hk, rfl⟩, hopen⟩, os', hread, rfl⟩ := h
  unfold openShared at hopen
  simp only [bind_eq_ok, get_eq_ok] at hopen
  obtain ⟨_, _, ⟨rfl, rfl⟩, hopen⟩ := hopen
  cases hentry : s.cache.lookup k with
  | some e =>
    rw [hentry] at hopen
    obtain ⟨rfl, rfl⟩ := pure_eq_ok.mp hopen
    obtain ⟨i, rdwr, hfd, rfl, rfl⟩ := (readStart_eq_ok hf).mp hread
    obtain ⟨p, hp, hnode⟩ := hs.located k e _ hentry hfd
    exact ⟨.refl _, k, p, i, hk, hp, hnode, rfl⟩
  | none =>
    rw [hentry] at hopen
    simp only [bind_eq_ok, call_eq_ok, setCache_eq_ok, pure_eq_ok] at hopen
    obtain ⟨n, _, ⟨os₁, hos, rfl⟩, _, _, ⟨os₂, hlock, rfl⟩, _, _, rfl, rfl, rfl⟩ := hopen
    obtain ⟨rfl, p, hp, ⟨node, hnode, -, -, rfl⟩ | ⟨-, hcreat, -⟩⟩ := (osOpen_eq_ok hf).mp hos
    · have hf' : ((s.os.touch k).withFd s.os.freeFd (some ⟨node, false⟩)).faults = [] := hf
      obtain ⟨-, rfl⟩ := (flock_eq_ok hf').mp hlock
      obtain ⟨i, rdwr, hfd, rfl, rfl⟩ := (readStart_eq_ok hf').mp hread
      have hat : ∀ m, ((s.os.touch k).withFd s.os.freeFd (some ⟨node, false⟩)).fd m =
          if m = s.os.freeFd then some ⟨node, false⟩ else s.os.fd m :=
        @Os.fd_withFd (s.os.touch k) _ Os.freeFd_le _
      have hfile : node = .file i := by
        have hsame := (hat s.os.freeFd).symm.trans hfd
        rw [if_pos rfl] at hsame
        cases hsame
        rfl
      subst hfile
      have hgrows := (Os.onlyDirs_touch s.os k).grows.trans
        (Os.withFd_grows (s.os.touch k) s.os.freeFd (some ⟨.file i, false⟩))
      have hothers : ∀ k' e, s.cache.lookup k' = some e → e.1 ≠ s.os.freeFd ∧
          ((s.os.touch k).withFd s.os.freeFd (some ⟨.file i, false⟩)).fd e.1 = s.os.fd e.1 := by
        intro k' e he
        obtain ⟨node, hopen, -⟩ := hs.fds k' e he
        have hne : e.1 ≠ s.os.freeFd := by
          intro heq
          rw [heq, Os.fd_freeFd] at hopen
          cases hopen
        exact ⟨hne, (hat _).trans (if_neg hne)⟩
      refine ⟨⟨rfl, rfl, rfl, hgrows, fun _ => rfl, rfl, fun _ => ?_, fun k' j hj => ?_⟩,
        k, p, i, hk, hp, hnode, rfl⟩
      · have hnew : ((s.os.touch k).withFd s.os.freeFd (some ⟨.file i, false⟩)).fd s.os.freeFd =
            some ⟨.file i, !true⟩ := (hat _).trans (if_pos rfl)
        exact hs.insert (k := k) rfl hnew (fun h => by cases h)
          (fun k' e _ he => hothers k' e he) (hgrows.dirsKept.resolve hp) hnode hgrows
      · obtain ⟨n, hheld, hn⟩ := hj
        have hne : k' ≠ k := by
          rintro rfl
          rw [hentry] at hheld
          cases hheld
        exact ⟨n, (AList.lookup_insert_ne hne).trans hheld, (hothers k' _ hheld).2.trans hn⟩
    · cases hcreat

end Multicorn.Fs
