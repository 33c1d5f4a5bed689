import Multicorn.Fs.Effects

/-! What `Item.open` leaves behind when it raises: the process umask, and descriptors that are
closed but still cached. -/
namespace Multicorn.Fs
open Multicorn.StateMonad

variable {s s' : State} {os os' : Os} {d : Directory} {item : Item}

/-- The umask is the same, and what was open is open. -/
structure Os.Tidy (os os' : Os) : Prop where
  umask : os'.umask = os.umask
  fds : ∀ n, (os.fd n).isSome → (os'.fd n).isSome

theorem Os.Tidy.refl (os : Os) : os.Tidy os := ⟨rfl, fun _ h => h⟩

theorem Os.Tidy.trans (a b c : Os) (h : a.Tidy b) (h' : b.Tidy c) : a.Tidy c :=
  ⟨h'.umask.trans h.umask, fun n hn => h'.fds n (h.fds n hn)⟩

/-- The umask and the descriptors are the same. -/
structure Os.SameFds (os os' : Os) : Prop where
  umask : os'.umask = os.umask
  fds : os'.fds = os.fds

theorem Os.SameFds.refl (os : Os) : os.SameFds os := ⟨rfl, rfl⟩

theorem Os.SameFds.trans (a b c : Os) (h : a.SameFds b) (h' : b.SameFds c) : a.SameFds c :=
  ⟨h'.umask.trans h.umask, h'.fds.trans h.fds⟩

theorem Os.SameFds.fd (h : os.SameFds os') (n : ℕ) : os'.fd n = os.fd n := by
  unfold Os.fd
  rw [h.fds]

/-! The calls, whether they fail or not. -/

theorem enter_sameFds : Moves Os.SameFds enter := by
  intro os
  unfold enter
  split <;> exact ⟨rfl, rfl⟩

theorem resolveCall_sameFds (path : Str) : Moves Os.SameFds (resolveCall path) := by
  apply Moves.bind Os.SameFds.trans
  · exact Moves.modify fun os => ⟨rfl, rfl⟩
  · intro _
    apply Moves.bind Os.SameFds.trans (Moves.get Os.SameFds.refl)
    intro os
    cases os.resolve path with
    | ok p => exact Moves.pure Os.SameFds.refl p
    | error e => exact Moves.throw Os.SameFds.refl e

theorem getFd_sameFds (fd : ℕ) : Moves Os.SameFds (getFd fd) := by
  apply Moves.bind Os.SameFds.trans (Moves.get Os.SameFds.refl)
  intro os
  cases os.fd fd with
  | some file => exact Moves.pure Os.SameFds.refl file
  | none => exact Moves.throw Os.SameFds.refl _

theorem isRdwr_sameFds (fd : ℕ) : Moves Os.SameFds (isRdwr fd) := by
  apply Moves.bind Os.SameFds.trans enter_sameFds
  intro _
  apply Moves.bind Os.SameFds.trans (getFd_sameFds fd)
  intro file
  exact Moves.pure Os.SameFds.refl _

theorem flock_sameFds (fd : ℕ) : Moves Os.SameFds (flock fd) := by
  apply Moves.bind Os.SameFds.trans enter_sameFds
  intro _ os
  have h := getFd_sameFds fd os
  cases hrun : getFd fd os with
  | ok file os' =>
    rw [hrun] at h
    have hdiscard : (discard (getFd fd) : Call Unit) os = .ok () os' :=
      discard_eq_ok.mpr ⟨file, hrun⟩
    rw [hdiscard]
    exact h
  | error e os' =>
    rw [hrun] at h
    have hdiscard : (discard (getFd fd) : Call Unit) os = .error e os' :=
      discard_eq_error.mpr hrun
    rw [hdiscard]
    exact h

theorem mkdir_sameFds (path : Str) : Moves Os.SameFds (mkdir path) := by
  apply Moves.bind Os.SameFds.trans enter_sameFds
  intro _
  apply Moves.bind Os.SameFds.trans (resolveCall_sameFds path)
  intro p
  apply Moves.bind Os.SameFds.trans (Moves.get Os.SameFds.refl)
  intro os
  cases os.node p with
  | some node => exact Moves.throw Os.SameFds.refl _
  | none => exact Moves.modify fun os => ⟨rfl, rfl⟩

theorem pathExists_sameFds (path : Str) : Moves Os.SameFds (pathExists path) :=
  fun _ => ⟨rfl, rfl⟩

private theorem makedirs_sameFds_step {name : Str}
    (ih : (splitLast name).1 ≠ [] ∧ (splitLast name).2 ≠ [] →
      Moves Os.SameFds (makedirs (splitLast name).1)) : Moves Os.SameFds (makedirs name) := by
  rw [makedirs]
  by_cases h : (splitLast name).1 ≠ [] ∧ (splitLast name).2 ≠ []
  · rw [dif_pos h]
    apply Moves.bind Os.SameFds.trans (pathExists_sameFds _)
    intro there
    have hhead : Moves Os.SameFds (tryCatch (makedirs (splitLast name).1) fun e =>
        if e = .EEXIST then pure () else throw e) := by
      apply Moves.tryCatch Os.SameFds.trans (ih h)
      intro e
      split_ifs
      · exact Moves.pure Os.SameFds.refl ()
      · exact Moves.throw Os.SameFds.refl e
    cases there with
    | true => exact mkdir_sameFds name
    | false =>
      apply Moves.bind Os.SameFds.trans hhead
      intro _
      split_ifs
      · exact Moves.pure Os.SameFds.refl ()
      · exact mkdir_sameFds name
  · rw [dif_neg h]
    exact mkdir_sameFds name

theorem makedirs_sameFds (name : Str) : Moves Os.SameFds (makedirs name) := by
  induction name using makedirs.induct with
  | case1 name _ ih => exact makedirs_sameFds_step fun _ => ih
  | case2 name h => exact makedirs_sameFds_step fun h' => absurd h' h

/-- A failing `os.open` opens nothing. -/
theorem osOpen_error {path : Str} {flags : OpenFlags} {e : Errno}
    (h : osOpen path flags os = .error e os') : os.SameFds os' := by
  unfold osOpen at h
  rcases bind_eq_error.mp h with henter | ⟨_, os₁, henter, h⟩
  · exact enter_sameFds.of_error henter
  · have h₁ := enter_sameFds.of_ok henter
    rcases bind_eq_error.mp h with hresolve | ⟨p, os₂, hresolve, h⟩
    · exact h₁.trans _ _ _ ((resolveCall_sameFds path).of_error hresolve)
    · have h₂ := h₁.trans _ _ _ ((resolveCall_sameFds path).of_ok hresolve)
      rcases bind_eq_error.mp h with hget | ⟨_, _, hget, h⟩
      · exact absurd hget get_ne_error
      · obtain ⟨rfl, rfl⟩ := get_eq_ok.mp hget
        cases hnode : os₂.node p with
        | some node =>
          simp only [hnode] at h
          split_ifs at h
          · obtain ⟨-, rfl⟩ := throw_eq_error.mp h
            exact h₂
          · obtain ⟨-, rfl⟩ := throw_eq_error.mp h
            exact h₂
          · cases h
        | none =>
          simp only [hnode] at h
          split_ifs at h
          · cases h
          · obtain ⟨-, rfl⟩ := throw_eq_error.mp h
            exact h₂

/-- A successful `os.open` opens one more descriptor. -/
theorem osOpen_opens {path : Str} {flags : OpenFlags} {fd : ℕ}
    (h : osOpen path flags os = .ok fd os') : os'.umask = os.umask ∧ os.fd fd = none ∧
      ∃ file, ∀ m, os'.fd m = if m = fd then some file else os.fd m := by
  unfold osOpen at h
  obtain ⟨_, os₁, henter, h⟩ := bind_eq_ok.mp h
  obtain ⟨p, os₂, hresolve, h⟩ := bind_eq_ok.mp h
  have h₂ : os.SameFds os₂ :=
    (enter_sameFds.of_ok henter).trans _ _ _ ((resolveCall_sameFds path).of_ok hresolve)
  obtain ⟨_, _, hget, h⟩ := bind_eq_ok.mp h
  obtain ⟨rfl, rfl⟩ := get_eq_ok.mp hget
  have halloc : ∀ {os₃ : Os} {file : OpenFile}, os₂.SameFds os₃ →
      allocFd file os₃ = .ok fd os' → os'.umask = os.umask ∧ os.fd fd = none ∧
        ∃ file, ∀ m, os'.fd m = if m = fd then some file else os.fd m := by
    intro os₃ file h₃ hrun
    have hall := h₂.trans _ _ _ h₃
    cases hrun
    refine ⟨hall.umask, ?_, file, fun m => ?_⟩
    · rw [← hall.fd]
      exact Os.fd_freeFd
    · rw [Os.fd_withFd Os.freeFd_le, hall.fd]
  cases hnode : os₂.node p with
  | some node =>
    simp only [hnode] at h
    split_ifs at h
    · exact absurd h throw_ne_ok
    · exact absurd h throw_ne_ok
    · exact halloc (.refl _) h
  | none =>
    simp only [hnode] at h
    split_ifs at h
    · simp only [bind_eq_ok, get_eq_ok, modify_eq_ok] at h
      obtain ⟨_, _, ⟨rfl, rfl⟩, _, _, rfl, h⟩ := h
      refine halloc ?_ h
      exact ⟨rfl, rfl⟩
    · exact absurd h throw_ne_ok

/-! The pieces of an exclusive open. -/

theorem call_eq_error {α : Type} {x : Call α} {e : Failure} :
    call x s = .error e s' ↔ ∃ code os', x s.os = .error code os' ∧ e = .os code ∧
      s' = { s with os := os' } := by
  unfold call
  cases x s.os with
  | ok b os => simp
  | error code os => simp [eq_comm]

/-- The cache is the same, and the systems are related. -/
structure OnlyOs (R : Os → Os → Prop) (s s' : State) : Prop where
  os : R s.os s'.os
  cache : s'.cache = s.cache

/-- `makeParent` puts the umask back, unless it raises. -/
theorem makeParent_sameFds {dir : Str} {u : Unit} (h : makeParent dir s = .ok u s') :
    OnlyOs Os.SameFds s s' := by
  unfold makeParent at h
  simp only [bind_eq_ok, call_eq_ok, pathExists_eq_ok] at h
  obtain ⟨there, _, ⟨_, ⟨-, rfl⟩, rfl⟩, h⟩ := h
  split_ifs at h
  · simp only [bind_eq_ok, call_eq_ok, discard_eq_ok, umask_eq_ok] at h
    obtain ⟨mask, _, ⟨_, ⟨rfl, rfl⟩, rfl⟩, _, _, ⟨os₂, hmake, rfl⟩, _, _, ⟨-, rfl⟩, rfl⟩ := h
    have hfds := ((makedirs_sameFds dir).of_ok hmake).fds
    exact ⟨⟨rfl, hfds⟩, rfl⟩
  · obtain ⟨-, rfl⟩ := pure_eq_ok.mp h
    exact ⟨⟨rfl, rfl⟩, rfl⟩

theorem makeParent_error {dir : Str} {e : Failure} (h : makeParent dir s = .error e s') :
    s'.os.umask = 0 ∧ s'.os.fds = s.os.fds ∧ s'.cache = s.cache := by
  unfold makeParent at h
  rcases bind_eq_error.mp h with hexists | ⟨there, s₁, hexists, h⟩
  · obtain ⟨code, os', hexists, -⟩ := call_eq_error.mp hexists
    cases hexists
  · simp only [call_eq_ok, pathExists_eq_ok] at hexists
    obtain ⟨_, ⟨-, rfl⟩, rfl⟩ := hexists
    split_ifs at h
    · rcases bind_eq_error.mp h with humask | ⟨mask, s₂, humask, h⟩
      · obtain ⟨code, os', humask, -⟩ := call_eq_error.mp humask
        cases humask
      · simp only [call_eq_ok, umask_eq_ok] at humask
        obtain ⟨_, ⟨rfl, rfl⟩, rfl⟩ := humask
        rcases bind_eq_error.mp h with hmake | ⟨_, s₃, hmake, h⟩
        · obtain ⟨code, os', hcall, -, rfl⟩ := call_eq_error.mp hmake
          have hsame := (makedirs_sameFds dir).of_error hcall
          exact ⟨hsame.umask, hsame.fds, rfl⟩
        · rw [discard_eq_error] at h
          obtain ⟨code, os', humask, -⟩ := call_eq_error.mp h
          cases humask
    · exact absurd h pure_ne_error

theorem osClose_ok {fd : ℕ} {u : Unit} (h : osClose fd os = .ok u os') :
    os'.umask = os.umask ∧ ∀ m, os'.fd m = if m = fd then none else os.fd m := by
  unfold osClose at h
  obtain ⟨_, os₁, henter, h⟩ := bind_eq_ok.mp h
  obtain ⟨_, os₂, hget, h⟩ := bind_eq_ok.mp h
  obtain ⟨file, hget⟩ := discard_eq_ok.mp hget
  have hsame : os.SameFds os₂ :=
    (enter_sameFds.of_ok henter).trans _ _ _ ((getFd_sameFds fd).of_ok hget)
  obtain ⟨hfd, rfl⟩ := getFd_eq_ok.mp hget
  rw [modify_eq_ok] at h
  subst h
  refine ⟨hsame.umask, fun m => ?_⟩
  rw [Os.fd_withFd (Nat.le_of_lt (Os.fd_lt hfd)), hsame.fd]

theorem osClose_error {fd : ℕ} {e : Errno} (h : osClose fd os = .error e os') :
    os.SameFds os' := by
  unfold osClose at h
  rcases bind_eq_error.mp h with henter | ⟨_, os₁, henter, h⟩
  · exact enter_sameFds.of_error henter
  · have h₁ := enter_sameFds.of_ok henter
    rcases bind_eq_error.mp h with hget | ⟨_, os₂, hget, h⟩
    · rw [discard_eq_error] at hget
      exact h₁.trans _ _ _ ((getFd_sameFds fd).of_error hget)
    · exact absurd h modify_ne_error

/-- The descriptor that an exclusive open gives up (`none`: there is none to give up), if it
opens the path at all, and the state in which it is about to. -/
inductive Reopening (s : State) (full : Str) : Option ℕ → State → Prop
  | uncached (h : s.cache.lookup full = none) : Reopening s full none s
  | readOnly {fd : ℕ} {shared : Bool} {s₁ : State} (h : s.cache.lookup full = some (fd, shared))
      (hrdwr : call (isRdwr fd) s = .ok false s₁) : Reopening s full (some fd) s₁

theorem Reopening.same {full : Str} {old : Option ℕ} {s₁ : State} (h : Reopening s full old s₁) :
    OnlyOs Os.SameFds s s₁ := by
  cases h with
  | uncached h => exact ⟨.refl _, rfl⟩
  | readOnly h hrdwr =>
    obtain ⟨os', hcall, rfl⟩ := call_eq_ok.mp hrdwr
    exact ⟨(isRdwr_sameFds _).of_ok hcall, rfl⟩

theorem writableFd_reopening {full : Str} {fail_if : Option FailIf} {old : Option ℕ} {s₁ : State}
    (h : Reopening s full old s₁) : writableFd full fail_if s = reopen full old fail_if s₁ := by
  cases h with
  | uncached h => exact writableFd_uncached h
  | @readOnly fd shared s₁ h hrdwr =>
    rw [writableFd_cached h]
    simp only [bind, EStateM.bind, hrdwr]
    rfl

/-- An exclusive open that does not open the path uses the cached descriptor, or fails to. -/
theorem writableFd_cases (full : Str) (fail_if : Option FailIf) (s : State) :
    (∃ old s₁, Reopening s full old s₁) ∨
      OnlyOs Os.SameFds s (finalState (writableFd full fail_if s)) := by
  cases hentry : s.cache.lookup full with
  | none => exact .inl ⟨none, s, .uncached hentry⟩
  | some entry =>
    obtain ⟨fd, shared⟩ := entry
    cases hrdwr : call (isRdwr fd) s with
    | ok b s₁ =>
      cases b with
      | false => exact .inl ⟨some fd, s₁, .readOnly hentry hrdwr⟩
      | true =>
        right
        obtain ⟨os', hcall, rfl⟩ := call_eq_ok.mp hrdwr
        rw [writableFd_cached hentry]
        simp only [bind, EStateM.bind, hrdwr]
        exact ⟨(isRdwr_sameFds fd).of_ok hcall, rfl⟩
    | error e s₁ =>
      right
      obtain ⟨code, os', hcall, -, rfl⟩ := call_eq_error.mp hrdwr
      rw [writableFd_cached hentry]
      simp only [bind, EStateM.bind, hrdwr]
      exact ⟨(isRdwr_sameFds fd).of_error hcall, rfl⟩

/-- The flags that an exclusive open passes to `os.open`. -/
def exclusiveFlags (fail_if : Option FailIf) : OpenFlags :=
  ⟨true, fail_if ≠ some .missing, fail_if = some .exists⟩

/-- The system without the descriptor that is given up. -/
def Closed (old : Option ℕ) (os os' : Os) : Prop :=
  os'.umask = os.umask ∧ ∀ m, os'.fd m = if old = some m then none else os.fd m

theorem closeOld_keeps {old : Option ℕ} {u : Unit} (h : closeOld old s = .ok u s') :
    OnlyOs (Closed old) s s' := by
  cases old with
  | none =>
    obtain ⟨-, rfl⟩ := pure_eq_ok.mp h
    exact ⟨⟨rfl, fun m => by simp⟩, rfl⟩
  | some fd =>
    obtain ⟨os', hcall, rfl⟩ := call_eq_ok.mp h
    obtain ⟨humask, hfds⟩ := osClose_ok hcall
    refine ⟨⟨humask, fun m => ?_⟩, rfl⟩
    rw [hfds]
    by_cases hm : m = fd
    · simp [hm]
    · have hne : fd ≠ m := fun h => hm h.symm
      simp [hm, hne]

/-- What reopening leaves behind: a descriptor given up and a new one. -/
theorem reopen_ok_fds {full : Str} {old : Option ℕ} {fail_if : Option FailIf} {fd : ℕ}
    (h : reopen full old fail_if s = .ok fd s') :
    s'.os.umask = s.os.umask ∧ s'.cache = s.cache ∧ ∃ file,
      ∀ m, s'.os.fd m = if m = fd then some file else if old = some m then none else s.os.fd m := by
  unfold reopen at h
  simp only [bind_eq_ok, call_eq_ok, discard_eq_ok, pure_eq_ok, umask_eq_ok] at h
  obtain ⟨_, s₁, hmake, _, s₂, hclose, mask, _, ⟨_, ⟨rfl, rfl⟩, rfl⟩, n, _, ⟨os₄, hopen, rfl⟩, _, _,
    ⟨_, _, ⟨-, rfl⟩, rfl⟩, rfl, rfl⟩ := h
  have hparent := makeParent_sameFds hmake
  have hclosed := closeOld_keeps hclose
  obtain ⟨-, -, file, hfds⟩ := osOpen_opens hopen
  refine ⟨hclosed.os.1.trans hparent.os.umask, hclosed.cache.trans hparent.cache, file,
    fun m => (hfds m).trans ?_⟩
  have hold : s₂.os.fd m = if old = some m then none else s.os.fd m := by
    rw [hclosed.os.2, hparent.os.fd]
  split_ifs with hm hm'
  · rfl
  · exact hold.trans (if_pos hm')
  · exact hold.trans (if_neg hm')

/-- Where reopening raises. -/
theorem reopen_error_cases {full : Str} {old : Option ℕ} {fail_if : Option FailIf} {e : Failure}
    (h : reopen full old fail_if s = .error e s') :
    makeParent (dirname full) s = .error e s' ∨ OnlyOs Os.SameFds s s' ∨
      ∃ s₁ s₂ code os, makeParent (dirname full) s = .ok () s₁ ∧ closeOld old s₁ = .ok () s₂ ∧
        osOpen full (exclusiveFlags fail_if) { s₂.os with umask := 0 } = .error code os ∧
        s' = { s₂ with os } := by
  unfold reopen at h
  rcases bind_eq_error.mp h with hmake | ⟨_, s₁, hmake, h⟩
  · exact .inl hmake
  right
  have hparent := makeParent_sameFds hmake
  rcases bind_eq_error.mp h with hclose | ⟨_, s₂, hclose, h⟩
  · left
    cases old with
    | none => exact absurd hclose pure_ne_error
    | some fd =>
      obtain ⟨code, os', hcall, -, rfl⟩ := call_eq_error.mp hclose
      exact ⟨hparent.os.trans _ _ _ (osClose_error hcall), hparent.cache⟩
  rcases bind_eq_error.mp h with humask | ⟨mask, _, humask, h⟩
  · obtain ⟨code, os', hcall, -⟩ := call_eq_error.mp humask
    cases hcall
  obtain ⟨os₃, hcall, rfl⟩ := call_eq_ok.mp humask
  obtain ⟨rfl, rfl⟩ := umask_eq_ok.mp hcall
  rcases bind_eq_error.mp h with hopen | ⟨fd, s₄, hopen, h⟩
  · right
    obtain ⟨code, os', hcall, -, rfl⟩ := call_eq_error.mp hopen
    exact ⟨s₁, s₂, code, os', hmake, hclose, hcall, rfl⟩
  rcases bind_eq_error.mp h with humask | ⟨_, _, -, h⟩
  · rw [discard_eq_error] at humask
    obtain ⟨code, os', hcall, -⟩ := call_eq_error.mp humask
    cases hcall
  · exact absurd h pure_ne_error

theorem reopen_error_of_open {full : Str} {old : Option ℕ} {fail_if : Option FailIf}
    {s₁ s₂ : State} {code : Errno} {os : Os} (hmake : makeParent (dirname full) s = .ok () s₁)
    (hclose : closeOld old s₁ = .ok () s₂)
    (hopen : osOpen full (exclusiveFlags fail_if) { s₂.os with umask := 0 } = .error code os) :
    reopen full old fail_if s = .error (.os code) { s₂ with os } := by
  have humask : call (umask 0) s₂ = .ok s₂.os.umask { s₂ with os := { s₂.os with umask := 0 } } :=
    rfl
  have hcall : call (osOpen full (exclusiveFlags fail_if))
      { s₂ with os := { s₂.os with umask := 0 } } = .error (.os code) { s₂ with os } :=
    call_eq_error.mpr ⟨code, os, hopen, rfl, rfl⟩
  unfold exclusiveFlags at hcall
  unfold reopen
  simp only [bind, EStateM.bind, hmake, hclose, humask, hcall]

/-! The whole open. -/

/-- Every cached descriptor is open. -/
def CachedOpen (s : State) : Prop :=
  ∀ k entry, s.cache.lookup k = some entry → (s.os.fd entry.1).isSome

/-- If the open raises, the umask is what it was, and every cached descriptor is open. -/
def LeavesNoTrace (d : Directory) (item : Item) (shared_lock : Bool) (fail_if : Option FailIf)
    (s : State) : Prop :=
  ∀ e s', item.openFd d shared_lock fail_if s = .error e s' →
    s'.os.umask = s.os.umask ∧ CachedOpen s'

/-- An exclusive open of the path gets as far as making directories or opening, and fails there:
with a umask to put back, or after a cached descriptor has been closed. -/
inductive Trips (full : Str) (fail_if : Option FailIf) (s : State) : Prop
  | makedirs {old : Option ℕ} {s₁ s₂ : State} {e : Failure} (h : Reopening s full old s₁)
      (hmake : makeParent (dirname full) s₁ = .error e s₂) (hmask : s.os.umask ≠ 0)
  | opening {old : Option ℕ} {s₁ s₂ s₃ : State} {code : Errno} {os : Os}
      (h : Reopening s full old s₁) (hmake : makeParent (dirname full) s₁ = .ok () s₂)
      (hclose : closeOld old s₂ = .ok () s₃)
      (hopen : osOpen full (exclusiveFlags fail_if) { s₃.os with umask := 0 } = .error code os)
      (htrace : s.os.umask ≠ 0 ∨ old ≠ none)
  | locking {n fd : ℕ} {s₁ s₂ : State} {code : Errno} {os : Os}
      (h : Reopening s full (some n) s₁) (hopen : reopen full (some n) fail_if s₁ = .ok fd s₂)
      (hlock : flock fd s₂.os = .error code os) (hne : fd ≠ n)

theorem CachedOpen.of_sameFds (h : CachedOpen s) (hs : OnlyOs Os.SameFds s s') :
    CachedOpen s' := by
  intro k entry hk
  rw [hs.cache] at hk
  rw [hs.os.fd]
  exact h k entry hk

theorem openExclusive_error {full : Str} {fail_if : Option FailIf} {e : Failure}
    (h : openExclusive full fail_if s = .error e s') :
    writableFd full fail_if s = .error e s' ∨ ∃ fd s₁ code os, writableFd full fail_if s = .ok fd s₁ ∧
      flock fd s₁.os = .error code os ∧ s' = { s₁ with os } := by
  unfold openExclusive at h
  rcases bind_eq_error.mp h with hw | ⟨fd, s₁, hw, h⟩
  · exact .inl hw
  right
  rcases bind_eq_error.mp h with hlock | ⟨_, s₂, -, h⟩
  · obtain ⟨code, os', hcall, -, rfl⟩ := call_eq_error.mp hlock
    exact ⟨fd, s₁, code, os', hw, hcall, rfl⟩
  · rcases bind_eq_error.mp h with hset | ⟨_, _, -, h⟩
    · exact absurd hset modify_ne_error
    · exact absurd h pure_ne_error

theorem flock_onlyOs {fd : ℕ} {code : Errno} (h : flock fd s.os = .error code os) :
    OnlyOs Os.SameFds s { s with os } := ⟨(flock_sameFds fd).of_error h, rfl⟩

theorem OnlyOs.trans {a b c : State} (h : OnlyOs Os.SameFds a b) (h' : OnlyOs Os.SameFds b c) :
    OnlyOs Os.SameFds a c := ⟨h.os.trans _ _ _ h'.os, h'.cache.trans h.cache⟩

/-- Without a trip, a failing exclusive open leaves no trace. -/
theorem noTrace_of_not_trips (hs : CachedOpen s) {full : Str} {fail_if : Option FailIf}
    (htrips : ¬ Trips full fail_if s) {e : Failure} (h : openExclusive full fail_if s = .error e s') :
    s'.os.umask = s.os.umask ∧ CachedOpen s' := by
  have hsame : OnlyOs Os.SameFds s s' → s'.os.umask = s.os.umask ∧ CachedOpen s' := fun hs' =>
    ⟨hs'.os.umask, hs.of_sameFds hs'⟩
  rcases openExclusive_error h with hw | ⟨fd, s₁, code, os, hw, hlock, rfl⟩
  · rcases writableFd_cases full fail_if s with ⟨old, s₁, hreopening⟩ | hquiet
    · rw [writableFd_reopening hreopening] at hw
      rcases reopen_error_cases hw with hmake | hquiet | ⟨s₂, s₃, code, os, hmake, hclose, hopen, rfl⟩
      · have humask : s.os.umask = 0 := by
          by_contra hne
          exact htrips (.makedirs hreopening hmake hne)
        obtain ⟨hzero, hfds, hcache⟩ := makeParent_error hmake
        apply hsame
        refine ⟨⟨hzero.trans humask.symm, hfds.trans hreopening.same.os.fds⟩, ?_⟩
        exact hcache.trans hreopening.same.cache
      · exact hsame (hreopening.same.trans hquiet)
      · have hnone : s.os.umask = 0 ∧ old = none := by
          by_contra hne
          apply htrips (.opening hreopening hmake hclose hopen ?_)
          by_contra hneither
          rw [not_or, not_not, not_not] at hneither
          exact hne hneither
        obtain ⟨humask, rfl⟩ := hnone
        obtain ⟨-, rfl⟩ := pure_eq_ok.mp hclose
        have hparent := makeParent_sameFds hmake
        have hfailed := osOpen_error hopen
        apply hsame
        apply (hreopening.same.trans hparent).trans
        refine ⟨⟨?_, hfailed.fds⟩, rfl⟩
        rw [hparent.os.umask, hreopening.same.os.umask, humask]
        exact hfailed.umask
    · rw [hw] at hquiet
      exact hsame hquiet
  · rcases writableFd_cases full fail_if s with ⟨old, s₂, hreopening⟩ | hquiet
    · rw [writableFd_reopening hreopening] at hw
      obtain ⟨humask, hcache, file, hfds⟩ := reopen_ok_fds hw
      have hlocked := flock_onlyOs hlock
      refine ⟨?_, ?_⟩
      · exact hlocked.os.umask.trans (humask.trans hreopening.same.os.umask)
      · intro k entry hk
        rw [hlocked.cache, hcache, hreopening.same.cache] at hk
        rw [hlocked.os.fd, hfds]
        split_ifs with hfd hold
        · rfl
        · have hne : fd ≠ entry.1 := fun h => hfd h.symm
          subst hold
          exact absurd (.locking hreopening hw hlock hne) htrips
        · rw [hreopening.same.os.fd]
          exact hs k entry hk
    · rw [hw] at hquiet
      exact hsame (OnlyOs.trans hquiet (flock_onlyOs hlock))

/-- A trip leaves its trace. -/
theorem trace_of_trips {full : Str} {fail_if : Option FailIf} (h : Trips full fail_if s) :
    ∃ e s', openExclusive full fail_if s = .error e s' ∧
      ¬ (s'.os.umask = s.os.umask ∧ CachedOpen s') := by
  have hfailed : ∀ {e : Failure} {s' : State}, writableFd full fail_if s = .error e s' →
      openExclusive full fail_if s = .error e s' := by
    intro e s' hw
    unfold openExclusive
    exact bind_eq_error.mpr (.inl hw)
  cases h with
  | @makedirs old s₁ s₂ e h hmake hmask =>
    obtain ⟨hzero, -⟩ := makeParent_error hmake
    refine ⟨e, s₂, hfailed ?_, fun htrace => hmask ?_⟩
    · rw [writableFd_reopening h]
      unfold reopen
      exact bind_eq_error.mpr (.inl hmake)
    · rw [← htrace.1, hzero]
  | @opening old s₁ s₂ s₃ code os h hmake hclose hopen htrace =>
    refine ⟨.os code, { s₃ with os }, hfailed ?_, fun hnone => ?_⟩
    · rw [writableFd_reopening h]
      exact reopen_error_of_open hmake hclose hopen
    · have hopened := osOpen_error hopen
      rcases htrace with hmask | hold
      · apply hmask
        rw [← hnone.1]
        exact hopened.umask
      · obtain ⟨n, rfl⟩ := Option.ne_none_iff_exists'.mp hold
        have hclosed := closeOld_keeps hclose
        cases h with
        | @readOnly n shared s₁ hentry hrdwr =>
          have hsame : OnlyOs Os.SameFds s s₁ := (Reopening.readOnly hentry hrdwr).same
          have hkept : s₃.cache.lookup full = some (n, shared) := by
            rw [hclosed.cache, (makeParent_sameFds hmake).cache, hsame.cache, hentry]
          have hthere := hnone.2 full _ hkept
          have hgone : os.fd n = none := by
            have hfd : os.fd n = s₃.os.fd n := hopened.fd n
            rw [hfd, hclosed.os.2, if_pos rfl]
          have hopenFd : (os.fd n).isSome := hthere
          rw [hgone] at hopenFd
          cases hopenFd
  | @locking n fd s₁ s₂ code os h hopen hlock hne =>
    refine ⟨.os code, { s₂ with os }, ?_, fun hnone => ?_⟩
    · unfold openExclusive
      apply bind_eq_error.mpr
      right
      refine ⟨fd, s₂, ?_, ?_⟩
      · rw [writableFd_reopening h, hopen]
      · exact bind_eq_error.mpr (.inl (call_eq_error.mpr ⟨code, os, hlock, rfl, rfl⟩))
    · obtain ⟨-, hcache, file, hfds⟩ := reopen_ok_fds hopen
      have hlocked := flock_onlyOs hlock
      cases h with
      | @readOnly n shared s₁ hentry hrdwr =>
        have hsame : OnlyOs Os.SameFds s s₁ := (Reopening.readOnly hentry hrdwr).same
        have hkept : s₂.cache.lookup full = some (n, shared) := by
          rw [hcache, hsame.cache, hentry]
        have hthere : (os.fd n).isSome := hnone.2 full _ hkept
        have hgone : os.fd n = none := by
          have hfd : os.fd n = s₂.os.fd n := hlocked.os.fd n
          rw [hfd, hfds, if_neg (fun h => hne h.symm), if_pos rfl]
        rw [hgone] at hthere
        cases hthere

/-- A failing shared open leaves no trace. -/
theorem openShared_noTrace (hs : CachedOpen s) {full : Str} {e : Failure}
    (h : openShared full s = .error e s') : s'.os.umask = s.os.umask ∧ CachedOpen s' := by
  cases hentry : s.cache.lookup full with
  | some entry =>
    rw [openShared_cached hentry] at h
    cases h
  | none =>
    rw [openShared_uncached hentry] at h
    rcases bind_eq_error.mp h with hopen | ⟨fd, s₁, hopen, h⟩
    · obtain ⟨code, os, hcall, -, rfl⟩ := call_eq_error.mp hopen
      have hsame := osOpen_error hcall
      exact ⟨hsame.umask, hs.of_sameFds ⟨hsame, rfl⟩⟩
    · obtain ⟨os₁, hcall, rfl⟩ := call_eq_ok.mp hopen
      obtain ⟨humask, hfree, file, hfds⟩ := osOpen_opens hcall
      rcases bind_eq_error.mp h with hlock | ⟨_, s₂, -, h⟩
      · obtain ⟨code, os, hcall, -, rfl⟩ := call_eq_error.mp hlock
        have hsame := (flock_sameFds fd).of_error hcall
        refine ⟨hsame.umask.trans humask, fun k entry hk => ?_⟩
        have hthere := hs k entry hk
        rw [hsame.fd]
        change (os₁.fd entry.1).isSome
        rw [hfds]
        split_ifs
        · rfl
        · exact hthere
      · rcases bind_eq_error.mp h with hset | ⟨_, _, -, h⟩
        · exact absurd hset modify_ne_error
        · exact absurd h pure_ne_error

/-- An open leaves no trace when it raises exactly if it is a shared one, or does not trip. -/
theorem leavesNoTrace_iff (hs : CachedOpen s) (shared_lock : Bool) (fail_if : Option FailIf) :
    LeavesNoTrace d item shared_lock fail_if s ↔ shared_lock = true ∨
      ∀ full, d.fullFilename item = .ok full → ¬ Trips full fail_if s := by
  have hopenFd : ∀ full, d.fullFilename item = .ok full → item.openFd d shared_lock fail_if s =
      if shared_lock then openShared full s else openExclusive full fail_if s := by
    intro full hfull
    unfold Item.openFd
    rw [hfull]
    cases shared_lock <;> rfl
  constructor
  · intro h
    cases shared_lock with
    | true => exact .inl rfl
    | false =>
      right
      intro full hfull htrips
      obtain ⟨e, s', hrun, htrace⟩ := trace_of_trips htrips
      have hopen := hopenFd full hfull
      rw [if_neg (by simp), hrun] at hopen
      exact htrace (h e s' hopen)
  · intro h e s' hrun
    cases hfull : d.fullFilename item with
    | error e =>
      unfold Item.openFd at hrun
      rw [hfull] at hrun
      cases hrun
      exact ⟨rfl, hs⟩
    | ok full =>
      rw [hopenFd full hfull] at hrun
      cases shared_lock with
      | true => exact openShared_noTrace hs hrun
      | false =>
        rcases h with h | h
        · cases h
        · exact noTrace_of_not_trips hs (h full hfull) hrun

section Sample

/-- One file `x` and the usual umask, and then a read of the file. -/
def readFile : State :=
  let s := sampleState [([['r'], ['x']], .file 0)] fun _ => [65]
  finalState ((⟨[(['a'], ['x'])], .none⟩ : Item).read flat { s with os := { s.os with umask := 18 } })

/-- After a read, the duplicate insert of the file loses the umask and the descriptor. -/
theorem duplicate_leavesTrace :
    ¬ LeavesNoTrace flat ⟨[(['a'], ['x'])], .none⟩ false (some .exists) readFile := by
  intro h
  obtain ⟨s', hrun⟩ : ∃ s', (⟨[(['a'], ['x'])], .none⟩ : Item).openFd flat false (some .exists)
      readFile = .error (.os .EEXIST) s' := ⟨_, rfl⟩
  have humask := (h _ _ hrun).1
  have hzero : s'.os.umask = 0 := by
    have hfinal : s' = finalState ((⟨[(['a'], ['x'])], .none⟩ : Item).openFd flat false
        (some .exists) readFile) := by
      rw [hrun]
      rfl
    rw [hfinal]
    rfl
  rw [hzero] at humask
  cases humask

/-- Under an open umask, and with nothing read before, the duplicate insert leaves no trace. -/
theorem duplicate_leavesNoTrace :
    let s := sampleState [([['r'], ['x']], .file 0)] fun _ => [65]
    let item : Item := ⟨[(['a'], ['x'])], .none⟩
    (∃ s', item.openFd flat false (some .exists) s = .error (.os .EEXIST) s') ∧
      LeavesNoTrace flat item false (some .exists) s := by
  intro s item
  have hcached : CachedOpen s := by
    intro k entry hk
    cases hk
  refine ⟨⟨_, rfl⟩, (leavesNoTrace_iff hcached false (some .exists)).mpr (.inr ?_)⟩
  intro full hfull htrips
  cases htrips with
  | makedirs h hmake hmask => exact hmask rfl
  | opening h hmake hclose hopen htrace =>
    rcases htrace with hmask | hold
    · exact hmask rfl
    · cases h with
      | uncached hnone => exact hold rfl
      | readOnly hentry hrdwr => cases hentry
  | locking h hopen hlock hne =>
    cases h with
    | readOnly hentry hrdwr => cases hentry

end Sample

end Multicorn.Fs
