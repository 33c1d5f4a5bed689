import Multicorn.Fs.FailedOpen
import Multicorn.Fs.Paths
import Multicorn.Fs.Rollback

/-! Exclusive opens that raise without harm, and when one must succeed or raise. -/
namespace Multicorn.Fs
open Multicorn.StateMonad

variable {s s' : State} {k : Str} {fail_if : Option FailIf}

/-- Nothing has happened but that directories were made. -/
def Fruitless (s s' : State) : Prop := ∃ os, s.os.OnlyDirs os ∧ s' = { s with os }

theorem Fruitless.refl (s : State) : Fruitless s s := ⟨s.os, .refl _, rfl⟩

theorem Fruitless.trans {a b c : State} (h : Fruitless a b) (h' : Fruitless b c) :
    Fruitless a c := by
  obtain ⟨os, hos, rfl⟩ := h
  obtain ⟨os', hos', rfl⟩ := h'
  exact ⟨os', hos.trans hos', rfl⟩

theorem Fruitless.faults (h : Fruitless s s') : s'.os.faults = s.os.faults := by
  obtain ⟨os, hos, rfl⟩ := h
  exact hos.faults

theorem Fruitless.sound (h : Fruitless s s') (hs : Sound s) : Sound s' := by
  obtain ⟨os, hos, rfl⟩ := h
  have hfd : ∀ n, os.fd n = s.os.fd n := by
    intro n
    unfold Os.fd
    rw [hos.fds]
  refine ⟨⟨⟨fun k e he => ?_, hs.coherent.distinct⟩, fun k e f he hf => ?_⟩, ?_⟩
  · obtain ⟨node, hnode, hfile⟩ := hs.coherent.fds k e he
    exact ⟨node, (hfd e.1).trans hnode, hfile⟩
  · obtain ⟨p, hp, hnode⟩ := hs.coherent.located k e f he ((hfd e.1).symm.trans hf)
    exact ⟨p, hos.grows.dirsKept.resolve hp, hos.kept p _ hnode⟩
  · exact hos.faults.trans hs.faults

theorem leaves_makeParent (hf : s.os.faults = []) (dir : Str) :
    Leaves (fun _ => True) (Fruitless s) (fun _ s' => Fruitless s s') (makeParent dir s) := by
  unfold makeParent
  apply Leaves.bind (P := fun _ s₁ => Fruitless s s₁)
  · rw [call_pathExists]
    exact ⟨_, Os.onlyDirs_touch s.os dir, rfl⟩
  intro there s₁ h₁
  cases there with
  | true => exact h₁
  | false =>
    apply Leaves.bind (P := fun _ s₂ => Fruitless s s₂)
    · exact h₁.trans ⟨_, Os.onlyDirs_umask s₁.os 0, rfl⟩
    intro mask s₂ h₂
    apply Leaves.bind (P := fun _ s₃ => Fruitless s s₃)
    · have hmoves := makedirs_moves dir s₂.os (h₂.faults.trans hf)
      unfold call
      cases hrun : makedirs dir s₂.os with
      | ok u os =>
        rw [hrun] at hmoves
        exact h₂.trans ⟨os, hmoves, rfl⟩
      | error e os =>
        rw [hrun] at hmoves
        exact ⟨trivial, h₂.trans ⟨os, hmoves, rfl⟩⟩
    · intro u s₃ h₃
      exact h₃.trans ⟨_, Os.onlyDirs_umask s₃.os mask, rfl⟩

/-- A failing `os.open` has only looked. -/
theorem osOpen_error_touch {os os' : Os} (hf : os.faults = []) {path : Str} {flags : OpenFlags}
    {e : Errno} (h : osOpen path flags os = .error e os') : os' = os.touch path := by
  unfold osOpen at h
  rcases bind_eq_error.mp h with henter | ⟨_, os₁, henter, h⟩
  · simp [enter, hf] at henter
  obtain rfl : os = os₁ := by simpa [enter, hf] using henter
  rcases bind_eq_error.mp h with hresolve | ⟨p, os₂, hresolve, h⟩
  · unfold resolveCall at hresolve
    rcases bind_eq_error.mp hresolve with hmodify | ⟨_, os₂, hmodify, hresolve⟩
    · exact absurd hmodify modify_ne_error
    obtain rfl := modify_eq_ok.mp hmodify
    rw [get_bind] at hresolve
    cases hp : (os.touch path).resolve path with
    | ok p =>
      rw [hp] at hresolve
      exact absurd hresolve pure_ne_error
    | error e' =>
      rw [hp] at hresolve
      exact (throw_eq_error.mp hresolve).2.symm
  · obtain ⟨-, rfl⟩ := resolveCall_eq_ok.mp hresolve
    rw [get_bind] at h
    cases hnode : (os.touch path).node p with
    | some node =>
      simp only [hnode] at h
      split_ifs at h
      · exact (throw_eq_error.mp h).2.symm
      · exact (throw_eq_error.mp h).2.symm
      · cases h
    | none =>
      simp only [hnode] at h
      split_ifs at h
      · cases h
      · exact (throw_eq_error.mp h).2.symm

/-- Opening without giving up a descriptor fails without harm, or gives a descriptor. -/
theorem leaves_reopen_none (hf : s.os.faults = []) : Leaves (fun _ => True) (Fruitless s)
    (fun fd s' => s'.os.faults = [] ∧ ∃ f, s'.os.fd fd = some f) (reopen k none fail_if s) := by
  unfold reopen
  apply (leaves_makeParent hf (dirname k)).bind
  intro u s₁ h₁
  apply Leaves.bind (P := fun _ s₂ => Fruitless s s₂)
  · exact h₁
  intro u s₂ h₂
  apply Leaves.bind (P := fun _ s₃ => Fruitless s s₃)
  · exact h₂.trans ⟨_, Os.onlyDirs_umask s₂.os 0, rfl⟩
  intro mask s₃ h₃
  have hf₃ : s₃.os.faults = [] := h₃.faults.trans hf
  apply Leaves.bind (P := fun fd s₄ => s₄.os.faults = [] ∧ ∃ f, s₄.os.fd fd = some f)
  · cases hrun : call (osOpen k ⟨true, fail_if ≠ some .missing, fail_if = some .exists⟩) s₃ with
    | ok fd s₄ =>
      obtain ⟨os, hopen, rfl⟩ := call_eq_ok.mp hrun
      obtain ⟨-, -, file, hfds⟩ := osOpen_opens hopen
      obtain ⟨-, p, -, hcase⟩ := (osOpen_eq_ok hf₃).mp hopen
      refine ⟨?_, file, (hfds fd).trans (if_pos rfl)⟩
      rcases hcase with ⟨node, -, -, -, rfl⟩ | ⟨-, -, rfl⟩
      · exact hf₃
      · exact hf₃
    | error e s₄ =>
      obtain ⟨code, os, hopen, -, rfl⟩ := call_eq_error.mp hrun
      obtain rfl := osOpen_error_touch hf₃ hopen
      exact ⟨trivial, h₃.trans ⟨_, Os.onlyDirs_touch s₃.os k, rfl⟩⟩
  · intro fd s₄ h₄
    exact h₄

/-- Only descriptors, the umask and what has been looked at are different. -/
structure Os.SameFiles (os os' : Os) : Prop where
  nodes : os'.nodes = os.nodes
  process : os'.process = os.process
  content : os'.content = os.content
  faults : os'.faults = os.faults

theorem Os.SameFiles.trans {a b c : Os} (h : a.SameFiles b) (h' : b.SameFiles c) : a.SameFiles c :=
  ⟨h'.nodes.trans h.nodes, h'.process.trans h.process, h'.content.trans h.content,
    h'.faults.trans h.faults⟩

theorem Os.SameFiles.node {os os' : Os} (h : os.SameFiles os') (p : Path) :
    os'.node p = os.node p := by
  unfold Os.node
  rw [h.nodes]

theorem Os.SameFiles.resolve {os os' : Os} (h : os.SameFiles os') (path : Str) :
    os'.resolve path = os.resolve path := Os.resolve_congr h.node h.process path

theorem SameView.sameFiles (h : SameView s s') : s.os.SameFiles s'.os :=
  ⟨h.nodes, h.process, h.content, h.right.faults.trans h.left.faults.symm⟩

theorem makeParent_there {dir : Str} (h : s.os.exists? dir = true) :
    makeParent dir s = .ok () { s with os := s.os.touch dir } := by
  unfold makeParent
  simp only [bind_eq_ok, call_eq_ok, pathExists_eq_ok]
  exact ⟨true, _, ⟨_, ⟨h, rfl⟩, rfl⟩, rfl⟩

theorem closeOld_sameFiles (hf : s.os.faults = []) {old : Option ℕ}
    (hold : ∀ n, old = some n → ∃ f, s.os.fd n = some f) :
    ∃ os, closeOld old s = .ok () { s with os } ∧ s.os.SameFiles os := by
  cases old with
  | none => exact ⟨s.os, rfl, rfl, rfl, rfl, rfl⟩
  | some n =>
    refine ⟨s.os.withFd n none, ?_, rfl, rfl, rfl, rfl⟩
    exact call_eq_ok.mpr ⟨_, (osClose_eq_ok hf).mpr ⟨hold n rfl, rfl⟩, rfl⟩

/-- The directory of a file can be found again from its path. -/
theorem exists_dirname {p : Path} (hp : s.os.resolve k = .ok p) (hdir : dirname k ≠ []) :
    s.os.exists? (dirname k) = true := by
  unfold Os.exists?
  rw [stat_dirname hp hdir]
  rfl

/-- A file that is there can be opened again. -/
theorem reopen_there (hf : s.os.faults = []) {p : Path} {i : ℕ} (hp : s.os.resolve k = .ok p)
    (hnode : s.os.node p = some (.file i)) (hdir : dirname k ≠ []) (hexcl : fail_if ≠ some .exists)
    {old : Option ℕ} (hold : ∀ n, old = some n → ∃ f, s.os.fd n = some f) :
    ∃ fd os, reopen k old fail_if s = .ok fd { s with os } ∧ s.os.SameFiles os ∧
      ∃ f, os.fd fd = some f := by
  have htouch : s.os.SameFiles (s.os.touch (dirname k)) := ⟨rfl, rfl, rfl, rfl⟩
  obtain ⟨os₁, hclose, hsame⟩ :=
    closeOld_sameFiles (s := { s with os := s.os.touch (dirname k) }) hf hold
  have hsame₁ := htouch.trans hsame
  let os₂ : Os := { os₁ with umask := 0 }
  have hsame₂ : s.os.SameFiles os₂ := ⟨hsame₁.nodes, hsame₁.process, hsame₁.content, hsame₁.faults⟩
  have hpath : os₂.resolve k = .ok p := (hsame₂.resolve k).trans hp
  have hfile : os₂.node p = some (.file i) := (hsame₂.node p).trans hnode
  have hf₂ : os₂.faults = [] := hsame₁.faults.trans hf
  have hflags : ¬ ((decide (fail_if ≠ some .missing) && decide (fail_if = some .exists)) = true) := by
    simp [hexcl]
  have hopen : osOpen k ⟨true, fail_if ≠ some .missing, fail_if = some .exists⟩ os₂ =
      .ok os₂.freeFd ((os₂.touch k).withFd os₂.freeFd (some ⟨.file i, true⟩)) :=
    (osOpen_eq_ok hf₂).mpr ⟨rfl, p, hpath, .inl ⟨.file i, hfile, hflags, by simp, rfl⟩⟩
  refine ⟨os₂.freeFd, { (os₂.touch k).withFd os₂.freeFd (some ⟨.file i, true⟩) with
    umask := os₁.umask }, ?_, ⟨hsame₁.nodes, hsame₁.process, hsame₁.content, hsame₁.faults⟩,
    ⟨.file i, true⟩, ?_⟩
  · unfold reopen
    rw [bind_eq_ok]
    refine ⟨(), _, makeParent_there (exists_dirname hp hdir), ?_⟩
    rw [bind_eq_ok]
    refine ⟨(), _, hclose, ?_⟩
    rw [bind_eq_ok]
    refine ⟨os₁.umask, _, rfl, ?_⟩
    rw [bind_eq_ok]
    refine ⟨os₂.freeFd, _, call_eq_ok.mpr ⟨_, hopen, rfl⟩, rfl⟩
  · exact (@Os.fd_withFd (os₂.touch k) _ Os.freeFd_le _ _).trans (if_pos rfl)

/-- What an exclusive open does to the cache and the tree where the file is there. -/
theorem openExclusive_there (hs : Sound s) {p : Path} {i : ℕ} (hp : s.os.resolve k = .ok p)
    (hnode : s.os.node p = some (.file i)) (hdir : dirname k ≠ [])
    (hexcl : fail_if ≠ some .exists) :
    ∃ fd s', openExclusive k fail_if s = .ok fd s' ∧ s.os.SameFiles s'.os := by
  have hreopened : ∀ old : Option ℕ, (∀ n, old = some n → ∃ f, s.os.fd n = some f) →
      writableFd k fail_if s = reopen k old fail_if s →
      ∃ fd s', openExclusive k fail_if s = .ok fd s' ∧ s.os.SameFiles s'.os := by
    intro old hold hwritable
    obtain ⟨fd, os, hrun, hsame, hfd⟩ := reopen_there hs.faults hp hnode hdir hexcl hold
    refine ⟨fd, { s with os, cache := s.cache.insert k (fd, false) }, ?_, hsame⟩
    unfold openExclusive
    rw [bind_eq_ok]
    refine ⟨fd, _, hwritable.trans hrun, ?_⟩
    rw [bind_eq_ok]
    exact ⟨(), _, call_eq_ok.mpr ⟨_, (flock_eq_ok (hsame.faults.trans hs.faults)).mpr ⟨hfd, rfl⟩,
      rfl⟩, rfl⟩
  cases hentry : s.cache.lookup k with
  | none => exact hreopened none (fun n h => by cases h) (writableFd_uncached hentry)
  | some entry =>
    obtain ⟨node, hfd, hfile⟩ := hs.coherent.fds k entry hentry
    obtain ⟨fd, shared⟩ := entry
    cases shared with
    | false =>
      obtain ⟨j, rfl⟩ := hfile rfl
      obtain ⟨fd', -, -, hrun⟩ := openExclusive_held hs.faults ⟨fd, hentry, hfd⟩ fail_if
      exact ⟨fd', _, hrun, rfl, rfl, rfl, rfl⟩
    | true =>
      refine hreopened (some fd) (fun n h => ?_) ?_
      · cases h
        exact ⟨_, hfd⟩
      · have hrdwr : call (isRdwr fd) s = .ok false s :=
          call_eq_ok.mpr ⟨s.os, (isRdwr_eq_ok hs.faults).mpr ⟨⟨_, hfd, rfl⟩, rfl⟩, rfl⟩
        exact writableFd_reopening (.readOnly hentry hrdwr)

/-- An open of a file that must not exist raises where there is one, unless it is cached. -/
theorem openExclusive_taken (hs : Sound s) (hnone : s.cache.lookup k = none)
    (hthere : s.os.exists? k = true) (hslash : endsInSlash k = false) (hdir : dirname k ≠ []) :
    ∃ os, openExclusive k (some .exists) s = .error (.os .EEXIST) { s with os } ∧
      s.os.SameFiles os ∧ s.os.OnlyDirs os := by
  obtain ⟨node, hstat⟩ := Option.isSome_iff_exists.mp hthere
  obtain ⟨p, hp, hnode⟩ := Os.stat_eq_some.mp hstat
  let os₁ : Os := { s.os.touch (dirname k) with umask := 0 }
  have hpath : os₁.resolve k = .ok p :=
    (@Os.resolve_congr s.os os₁ (fun _ => rfl) rfl k).trans hp
  have hopen : osOpen k (exclusiveFlags (some .exists)) os₁ = .error .EEXIST (os₁.touch k) := by
    have henter : enter os₁ = .ok () os₁ := by simp [enter, os₁, Os.touch, hs.faults]
    have hresolve : resolveCall k os₁ = .ok p (os₁.touch k) :=
      resolveCall_eq_ok.mpr ⟨hpath, rfl⟩
    have hthere' : (os₁.touch k).node p = some node := hnode
    unfold osOpen
    apply bind_eq_error.mpr
    refine .inr ⟨(), os₁, henter, ?_⟩
    apply bind_eq_error.mpr
    refine .inr ⟨p, _, hresolve, ?_⟩
    rw [get_bind]
    simp only [hthere', takenError, hslash]
    rfl
  have hclose : closeOld none { s with os := s.os.touch (dirname k) } =
      .ok () { s with os := s.os.touch (dirname k) } := rfl
  have hrun := reopen_error_of_open (makeParent_there (exists_dirname hp hdir)) hclose hopen
  refine ⟨os₁.touch k, ?_, ⟨rfl, rfl, rfl, rfl⟩, ?_⟩
  · unfold openExclusive
    apply bind_eq_error.mpr
    left
    rw [writableFd_uncached hnone]
    exact hrun
  · have hlooked := Os.onlyDirs_touch s.os (dirname k)
    exact (hlooked.trans (Os.onlyDirs_umask _ 0)).trans (Os.onlyDirs_touch _ k)

/-- A failing exclusive open does no harm, unless it first gives up a descriptor that it cannot
replace. -/
theorem fruitless_of_error (hs : Sound s)
    (hcached : ∀ fd, s.cache.lookup k = some (fd, true) →
      fail_if ≠ some .exists ∧ s.os.stat k ≠ some .dir) {e : Failure}
    (h : openExclusive k fail_if s = .error e s') : Fruitless s s' := by
  cases hentry : s.cache.lookup k with
  | none =>
    have hleaves : Leaves (fun _ => True) (Fruitless s) _ (reopen k none fail_if s) :=
      leaves_reopen_none hs.faults
    rw [← writableFd_uncached hentry] at hleaves
    rcases openExclusive_error h with hw | ⟨fd, s₁, code, os, hw, hlock, -⟩
    · rw [hw] at hleaves
      exact hleaves.2
    · rw [hw] at hleaves
      have hrun := (flock_eq_ok hleaves.1 (u := ())).mpr ⟨hleaves.2, rfl⟩
      rw [hlock] at hrun
      cases hrun
  | some entry =>
    obtain ⟨node, hfd, hfile⟩ := hs.coherent.fds k entry hentry
    obtain ⟨fd, shared⟩ := entry
    cases shared with
    | false =>
      obtain ⟨i, rfl⟩ := hfile rfl
      obtain ⟨fd', -, -, hrun⟩ := openExclusive_held hs.faults ⟨fd, hentry, hfd⟩ fail_if
      rw [hrun] at h
      cases h
    | true =>
      obtain ⟨hexcl, hdir⟩ := hcached fd hentry
      obtain ⟨p, hp, hnode⟩ := hs.coherent.located k _ _ hentry hfd
      obtain ⟨i, rfl⟩ : ∃ i, node = .file i := by
        cases node with
        | dir => exact absurd (Os.stat_eq_some.mpr ⟨p, hp, hnode⟩) hdir
        | file i => exact ⟨i, rfl⟩
      by_cases hparent : dirname k = []
      · -- Without a directory part, `makedirs` fails before the descriptor is given up.
        have hrdwr : call (isRdwr fd) s = .ok false s :=
          call_eq_ok.mpr ⟨s.os, (isRdwr_eq_ok hs.faults).mpr ⟨⟨_, hfd, rfl⟩, rfl⟩, rfl⟩
        have hleaves := leaves_makeParent hs.faults (dirname k)
        cases hmake : makeParent (dirname k) s with
        | ok u s₁ => exact absurd hparent (makeParent_ne_nil hmake)
        | error e' s₁ =>
          have hrun : openExclusive k fail_if s = .error e' s₁ := by
            unfold openExclusive
            apply bind_eq_error.mpr
            left
            rw [writableFd_reopening (.readOnly hentry hrdwr)]
            unfold reopen
            exact bind_eq_error.mpr (.inl hmake)
          rw [hrun] at h
          cases h
          rw [hmake] at hleaves
          exact hleaves.2
      · obtain ⟨fd', s₁, hrun, -⟩ := openExclusive_there hs hp hnode hparent hexcl
        rw [hrun] at h
        cases h

end Multicorn.Fs
