import Multicorn.Fs.FailedOpen
import Multicorn.Fs.Midway

/-! Opening, writing and giving up a locked key midway through a commit. -/
namespace Multicorn.Fs
open Multicorn.StateMonad Multicorn.HandleLog

variable {s s' s₀ : State} {d : Directory} {E : Failure → Prop} {written : Str → Prop}
  {start : FileVolume} {undos : List HandleUndo} {k : Str} {p : Path}

/-- An open that may make the file finds it or makes it. -/
theorem leaves_osOpen {I : State → Prop} (hp : s.os.resolve k = .ok p)
    (hnode : s.os.node p = none ∨ ∃ i, s.os.node p = some (.file i))
    (hE : ∀ e, some e ∈ s.os.faults → E (.os e)) (hI : ∀ fs, I (s.withFaults fs)) :
    Leaves E I (fun fd s' => ∃ fs os i, Spends 1 s.os.faults fs ∧
        (s.os.node p = some (.file i) ∧ os = ((s.withFaults fs).os.touch k) ∨
          s.os.node p = none ∧ i = s.os.nextInode ∧
            os = ((s.withFaults fs).os.touch k).created p) ∧
        fd = s.os.freeFd ∧ s' = { s with os := os.withFd fd (some ⟨.file i, true⟩) })
      (call (osOpen k ⟨true, true, false⟩) s) := by
  apply leaves_enter hE hI
  intro fs hfs
  have hresolve : (s.withFaults fs).os.resolve k = .ok p :=
    (@Os.resolve_congr s.os (s.withFaults fs).os (fun _ => rfl) rfl k).trans hp
  rcases hnode with hnone | ⟨i, hfile⟩
  · have hfree : (s.withFaults fs).os.node p = none := hnone
    let os := ((s.withFaults fs).os.touch k).created p
    apply Leaves.of_ok (a := s.os.freeFd)
      (t := { s with os := os.withFd s.os.freeFd (some ⟨.file s.os.nextInode, true⟩) })
    · apply call_eq_ok.mpr
      refine ⟨_, ?_, rfl⟩
      simp only [bind_eq_ok, resolveCall_eq_ok, get_eq_ok]
      refine ⟨p, _, ⟨hresolve, rfl⟩, _, _, ⟨rfl, rfl⟩, ?_⟩
      simp only [Os.node_touch, hfree, if_true]
      rfl
    · exact ⟨fs, _, _, hfs, .inr ⟨hnone, rfl, rfl⟩, rfl, rfl⟩
  · have hthere : (s.withFaults fs).os.node p = some (.file i) := hfile
    let os := (s.withFaults fs).os.touch k
    apply Leaves.of_ok (a := s.os.freeFd)
      (t := { s with os := os.withFd s.os.freeFd (some ⟨.file i, true⟩) })
    · apply call_eq_ok.mpr
      refine ⟨_, ?_, rfl⟩
      simp only [bind_eq_ok, resolveCall_eq_ok, get_eq_ok]
      refine ⟨p, _, ⟨hresolve, rfl⟩, _, _, ⟨rfl, rfl⟩, ?_⟩
      simp only [Os.node_touch, hthere]
      rfl
    · exact ⟨fs, _, _, hfs, .inl ⟨hfile, rfl⟩, rfl, rfl⟩

/-- What opening a locked key leaves: the key is held, and other keys and paths are as before. -/
structure Regained (s s' : State) (k : Str) (p : Path) (fd : ℕ) : Prop where
  spends : Spends 2 s.os.faults s'.os.faults
  entry : s'.cache.lookup k = some (fd, false)
  fd : ∃ i, s'.os.fd fd = some ⟨.file i, true⟩
  others : ∀ k', k' ≠ k → ∀ i, Held s' k' i ↔ Held s k' i
  file : ∀ q, (q = p → ∃ i, Held s k i) → s'.os.file q = s.os.file q

theorem leaves_open_held (h : Midway s₀ written start undos s) {i : ℕ} (hi : Held s k i)
    (hE : ∀ e, some e ∈ s.os.faults → E (.os e)) :
    Leaves E (Midway s₀ written start undos)
      (fun fd s' => Midway s₀ written start undos s' ∧ Regained s s' k p fd)
      (openExclusive k none s) := by
  obtain ⟨fd, hentry, hfd⟩ := hi
  have hwritable : Leaves E (Midway s₀ written start undos)
      (fun fd' s₁ => fd' = fd ∧ ∃ fs, Spends 1 s.os.faults fs ∧ s₁ = s.withFaults fs)
      (writableFd k none s) := by
    rw [writableFd_cached hentry]
    apply (leaves_isRdwr hfd hE h.withFaults).bind
    intro b s₁ hs₁
    obtain ⟨rfl, hs₁⟩ := hs₁
    exact ⟨rfl, hs₁⟩
  unfold openExclusive
  apply hwritable.bind
  intro fd' s₁ hs₁
  obtain ⟨rfl, fs, hfs, rfl⟩ := hs₁
  have hE₁ : ∀ e, some e ∈ (s.withFaults fs).os.faults → E (.os e) := fun e he => hE e (hfs.mem he)
  have hlocked : (s.withFaults fs).os.fd fd' = some ⟨.file i, true⟩ := hfd
  apply (leaves_flock hlocked hE₁ (h.withFaults fs).withFaults).bind
  intro u s₁ hs₁
  obtain ⟨fs', hfs', rfl⟩ := hs₁
  let s₂ : State := (s.withFaults fs).withFaults fs'
  let s' : State := { s₂ with cache := s₂.cache.insert k (fd', false) }
  have hcached : SameCached s s' := by
    constructor
    · intro k'
      change (s.cache.insert k (fd', false)).lookup k' = s.cache.lookup k'
      by_cases hk' : k' = k
      · subst hk'
        rw [hentry]
        exact AList.lookup_insert ..
      · exact AList.lookup_insert_ne hk'
    · intro k' e he
      rfl
  apply Leaves.of_ok (a := fd') (t := s') rfl
  refine ⟨h.congr hcached (fun _ => rfl) rfl rfl rfl rfl, hfs.trans hfs', ?_, ⟨i, hfd⟩,
    fun k' _ j => ?_, fun q _ => rfl⟩
  · exact (hcached.lookup k).trans hentry
  · exact hcached.held k' j

theorem leaves_reopen (h : Midway s₀ written start undos s) (hk : Locked s₀ k p)
    (hnone : s.cache.lookup k = none)
    (hcovered : .remove p ∈ undos ∨ Restores undos k p ∧ written k)
    (hE : ∀ e, some e ∈ s.os.faults → E (.os e)) :
    Leaves E (Midway s₀ written start undos)
      (fun fd s' => Midway s₀ written start undos s' ∧ Spends 1 s.os.faults s'.os.faults ∧
        SameCached s s' ∧ (∀ k' e, s.cache.lookup k' = some e → e.1 ≠ fd) ∧
        (∃ i, s'.os.file p = some i ∧ s'.os.fd fd = some ⟨.file i, true⟩) ∧
        ∀ q, q ≠ p → s'.os.file q = s.os.file q)
      (reopen k none none s) := by
  let s₁ : State := { s with os := { s.os.touch (dirname k) with umask := 0 } }
  have h₁ : Midway s₀ written start undos s₁ :=
    h.congr ⟨fun _ => rfl, fun _ _ _ => rfl⟩ (fun _ => rfl) rfl rfl rfl rfl
  have hparent : makeParent (dirname k) s = .ok () { s with os := s.os.touch (dirname k) } := by
    unfold makeParent
    simp only [bind_eq_ok, call_eq_ok, pathExists_eq_ok]
    refine ⟨true, _, ⟨_, ⟨h.parent hk, rfl⟩, rfl⟩, rfl⟩
  have hfree : ∀ k' e, s.cache.lookup k' = some e → e.1 ≠ s.os.freeFd := by
    intro k' e he heq
    obtain ⟨node, hfd, -⟩ := h.opened.fds k' e he
    rw [heq, Os.fd_freeFd] at hfd
    cases hfd
  unfold reopen
  apply Leaves.bind (P := fun _ s' => s' = { s with os := s.os.touch (dirname k) })
  · exact Leaves.of_ok hparent rfl
  intro u s' hs'
  subst hs'
  apply Leaves.bind (P := fun _ s' => s' = { s with os := s.os.touch (dirname k) })
  · exact Leaves.of_ok (a := ()) rfl rfl
  intro u s' hs'
  subst hs'
  apply Leaves.bind (P := fun _ s' => s' = s₁)
  · exact Leaves.of_ok (a := s.os.umask) rfl rfl
  intro mask s' hs'
  subst hs'
  have hE₁ : ∀ e, some e ∈ s₁.os.faults → E (.os e) := hE
  have hpath : s₁.os.resolve k = .ok p := h₁.resolve hk.path
  apply (leaves_osOpen hpath (h₁.node hk) hE₁ h₁.withFaults).bind
  intro fd s' hs'
  obtain ⟨fs, os, i, hfs, hcase, rfl, rfl⟩ := hs'
  let s₂ : State := { s₁ with os }
  let s₃ : State := { s₁ with os := os.withFd s₁.os.freeFd (some ⟨.file i, true⟩) }
  have hu : ∀ j, ¬ Held s₁ k j := not_held_of_uncached (s := s₁) hnone
  have htouched : Midway s₀ written start undos { s₁ with os := (s₁.withFaults fs).os.touch k } :=
    h₁.congr ⟨fun _ => rfl, fun _ _ _ => rfl⟩ (fun _ => rfl) rfl rfl rfl rfl
  have hos : Midway s₀ written start undos s₂ ∧ os.fds = s.os.fds ∧ os.faults = fs ∧
      os.file p = some i ∧ ∀ q, q ≠ p → os.file q = s.os.file q := by
    rcases hcase with ⟨hnode, rfl⟩ | ⟨hnode, rfl, rfl⟩
    · refine ⟨htouched, rfl, rfl, Os.file_eq_some.mpr hnode, fun q _ => rfl⟩
    · have hfile : (((s₁.withFaults fs).os.touch k).created p).file =
          Function.update ((s₁.withFaults fs).os.touch k).file p (some s₁.os.nextInode) :=
        Os.created_file hnode
      refine ⟨htouched.created hu hnode hcovered, rfl, rfl, ?_, fun q hq => ?_⟩
      · rw [hfile]
        exact Function.update_self ..
      · rw [hfile]
        exact Function.update_of_ne hq ..
  obtain ⟨h₂, hfds, hfaults, hfile, hothers⟩ := hos
  have hfree₂ : os.freeFd = s.os.freeFd := by
    unfold Os.freeFd
    rw [hfds]
  have hle : s.os.freeFd ≤ os.fds.length := by
    rw [← hfree₂]
    exact Os.freeFd_le
  have hfd : ∀ m, s₃.os.fd m = if m = s.os.freeFd then some ⟨.file i, true⟩ else os.fd m :=
    Os.fd_withFd hle _
  have hold : ∀ m, os.fd m = s.os.fd m := by
    intro m
    unfold Os.fd
    rw [hfds]
  have hcached : SameCached s₂ s₃ := by
    refine ⟨fun _ => rfl, fun k' e he => ?_⟩
    rw [hfd, if_neg (hfree k' e he)]
  have h₃ : Midway s₀ written start undos s₃ :=
    h₂.congr hcached (fun _ => rfl) rfl rfl rfl rfl
  let s₄ : State := { s₃ with os := { s₃.os with umask := mask } }
  apply Leaves.bind (P := fun _ s' => s' = s₄)
  · exact Leaves.of_ok (a := ()) rfl rfl
  intro u s' hs'
  subst hs'
  apply Leaves.of_ok (a := s₁.os.freeFd) (t := s₄) rfl
  refine ⟨h₃.congr ⟨fun _ => rfl, fun _ _ _ => rfl⟩ (fun _ => rfl) rfl rfl rfl rfl, ?_, ?_, hfree,
    ⟨i, hfile, ?_⟩, hothers⟩
  · change Spends 1 s.os.faults os.faults
    rw [hfaults]
    exact hfs
  · refine ⟨fun _ => rfl, fun k' e he => ?_⟩
    exact ((hfd e.1).trans (if_neg (hfree k' e he))).trans (hold e.1)
  · exact (hfd s.os.freeFd).trans (if_pos rfl)

/-- A locked key can be opened for writing whenever its path is a file or free. -/
theorem leaves_open (h : Midway s₀ written start undos s) (hk : Locked s₀ k p)
    (hcovered : .remove p ∈ undos ∨ Restores undos k p ∧ written k)
    (hE : ∀ e, some e ∈ s.os.faults → E (.os e)) :
    Leaves E (Midway s₀ written start undos)
      (fun fd s' => Midway s₀ written start undos s' ∧ Regained s s' k p fd)
      (openExclusive k none s) := by
  rcases h.usable k p hk with hnone | ⟨i, hi⟩
  · have hwritable : writableFd k none s = reopen k none none s := writableFd_uncached hnone
    unfold openExclusive
    apply Leaves.bind (P := fun fd s' => Midway s₀ written start undos s' ∧
      Spends 1 s.os.faults s'.os.faults ∧ SameCached s s' ∧
      (∀ k' e, s.cache.lookup k' = some e → e.1 ≠ fd) ∧
      (∃ i, s'.os.file p = some i ∧ s'.os.fd fd = some ⟨.file i, true⟩) ∧
      ∀ q, q ≠ p → s'.os.file q = s.os.file q)
    · rw [hwritable]
      exact leaves_reopen h hk hnone hcovered hE
    intro fd s₁ hs₁
    obtain ⟨h₁, hspends, hcached, hother, ⟨i, hfile, hfd⟩, hfiles⟩ := hs₁
    have hE₁ : ∀ e, some e ∈ s₁.os.faults → E (.os e) := fun e he => hE e (hspends.mem he)
    apply (leaves_flock hfd hE₁ h₁.withFaults).bind
    intro u s₂ hs₂
    obtain ⟨fs, hfs, rfl⟩ := hs₂
    have h₂ := h₁.withFaults fs
    let s' : State := { s₁.withFaults fs with cache := s₁.cache.insert k (fd, false) }
    have hnone₁ : (s₁.withFaults fs).cache.lookup k = none := (hcached.lookup k).trans hnone
    have hother₁ : ∀ k' e, (s₁.withFaults fs).cache.lookup k' = some e → e.1 ≠ fd := by
      intro k' e he
      exact hother k' e ((hcached.lookup k').symm.trans he)
    have hlookup : ∀ k', s'.cache.lookup k' = if k' = k then some (fd, false)
        else s₁.cache.lookup k' := lookup_cache_insert rfl
    apply Leaves.of_ok (a := fd) (t := s') rfl
    refine ⟨h₂.cached hk hnone₁ hfile hfd hother₁, hspends.trans hfs,
      (hlookup k).trans (if_pos rfl), ⟨i, hfd⟩, fun k' hne j => ?_, fun q hq => ?_⟩
    · have hsame : Held s' k' j ↔ Held s₁ k' j := by
        apply held_congr
        · rw [hlookup, if_neg hne]
        · intro e _
          rfl
      exact hsame.trans (hcached.held k' j)
    · apply hfiles
      intro heq
      obtain ⟨j, hj⟩ := hq heq
      exact not_held_of_uncached hnone j hj
  · exact leaves_open_held h hi hE

/-! Writing. -/

/-- The calls that write an item, once its file is open. -/
def Item.writeCalls (item : Item) : ℕ :=
  match item.content with
  | .str _ | .bytes _ => 2
  | .none | .other _ _ => 1

theorem Item.writeCalls_of_written {process : Process} (item : Item) {data : Option Bytes}
    (h : item.content.written process = .ok data) :
    item.writeCalls = if data.isSome then 2 else 1 := by
  unfold Item.writeCalls
  cases hc : item.content with
  | none =>
    rw [hc] at h
    cases h
    rfl
  | str v =>
    rw [hc] at h
    cases hv : process.encode v with
    | none =>
      simp only [PyVal.written, hv] at h
      cases h
    | some data =>
      simp only [PyVal.written, hv] at h
      cases h
      rfl
  | bytes b =>
    rw [hc] at h
    cases h
    rfl
  | other text truth =>
    rw [hc] at h
    cases h

/-- Only the content of one file is another. -/
structure Wrote (s s' : State) (i : ℕ) (data : Bytes) : Prop where
  cache : s'.cache = s.cache
  fds : s'.os.fds = s.os.fds
  nodes : s'.os.nodes = s.os.nodes
  content : s'.os.content i = data

theorem leaves_write (h : Midway s₀ written start undos s) (hk : Locked s₀ k p) {item : Item}
    {fd i : ℕ} (hi : Held s k i) (hfd : s.os.fd fd = some ⟨.file i, true⟩)
    (hcovered : start.data p = none ∨ Restores undos k p ∧ written k)
    (hE : ∀ e, some e ∈ s.os.faults → E (.os e))
    (hcontent : ∀ e, item.content.written s₀.os.process = .error e → E e) :
    Leaves E (Midway s₀ written start undos)
      (fun _ s' => item.content.Writable s₀.os.process ∧ Midway s₀ written start undos s' ∧
        Spends item.writeCalls s.os.faults s'.os.faults ∧
        Wrote s s' i (item.content.toBytes s₀.os.process))
      (item.write d (some fd) s) := by
  unfold Item.write
  apply Leaves.bind (P := fun fd' s' => fd' = fd ∧ s' = s)
  · exact Leaves.of_ok (a := fd) rfl ⟨rfl, rfl⟩
  intro fd' s' hs'
  obtain ⟨rfl, rfl⟩ := hs'
  apply (leaves_ftruncate hfd hE h.withFaults).bind
  intro u s₁ hs₁
  obtain ⟨fs, hfs, rfl⟩ := hs₁
  have h₁ := (h.withFaults fs).withContent hk hi hcovered []
  have hempty : ((s'.withFaults fs).withContent i []).os.content i = [] := Function.update_self ..
  have hE₁ : ∀ e, some e ∈ ((s'.withFaults fs).withContent i []).os.faults → E (.os e) :=
    fun e he => hE e (hfs.mem he)
  have hdata : ∀ data, Leaves E (Midway s₀ written start undos)
      (fun _ s₂ => Midway s₀ written start undos s₂ ∧ Spends 2 s'.os.faults s₂.os.faults ∧
        Wrote s' s₂ i data)
      (call (writeStart fd' data) ((s'.withFaults fs).withContent i [])) := by
    intro data
    have hfd₁ : ((s'.withFaults fs).withContent i []).os.fd fd' = some ⟨.file i, true⟩ := hfd
    apply (leaves_writeStart hfd₁ data hE₁ h₁.withFaults).mono
    intro u s₂ hs₂
    obtain ⟨fs', hfs', rfl⟩ := hs₂
    refine ⟨(h₁.withFaults fs').withContent hk hi hcovered _, hfs.trans hfs', rfl, rfl, rfl, ?_⟩
    rw [hempty, List.drop_nil, List.append_nil]
    exact Function.update_self ..
  have hprocess : ((s'.withFaults fs).withContent i []).os.process = s₀.os.process := h.process
  apply Leaves.bind (P := fun a s₂ => a = (s'.withFaults fs).withContent i [] ∧
    s₂ = (s'.withFaults fs).withContent i [])
  · exact Leaves.of_ok rfl ⟨rfl, rfl⟩
  intro a s₂ hs₂
  obtain ⟨rfl, rfl⟩ := hs₂
  rw [hprocess]
  cases hw : item.content.written s₀.os.process with
  | error e => exact ⟨hcontent e hw, h₁⟩
  | ok data =>
    have hbytes : item.content.toBytes s₀.os.process = data.getD [] := by
      unfold PyVal.toBytes
      rw [hw]
    have hcalls : item.writeCalls = if data.isSome then 2 else 1 := item.writeCalls_of_written hw
    rw [hbytes, hcalls]
    cases data with
    | none => exact ⟨⟨_, hw⟩, h₁, hfs, rfl, rfl, rfl, hempty⟩
    | some data => exact (hdata data).mono fun _ _ h₂ => ⟨⟨_, hw⟩, h₂⟩

/-! Taking a file away. -/

def State.unlinked (s : State) (k : Str) (p : Path) : State :=
  { s with os := { s.os.touch k with nodes := s.os.nodes.erase p } }

theorem leaves_unlink {I : State → Prop} (hp : s.os.resolve k = .ok p) (hE : ∀ e, E (.os e))
    (hI : ∀ fs, I (s.withFaults fs))
    (htouch : ∀ fs, I { s.withFaults fs with os := (s.withFaults fs).os.touch k }) :
    Leaves E I (fun _ s' => ∃ fs, Spends 1 s.os.faults fs ∧ s.os.file p ≠ none ∧
        s' = (s.withFaults fs).unlinked k p)
      (call (unlink k) s) := by
  apply leaves_enter (fun e _ => hE e) hI
  intro fs hfs
  let s₁ := s.withFaults fs
  have hresolve : s₁.os.resolve k = .ok p :=
    (@Os.resolve_congr s.os s₁.os (fun _ => rfl) rfl k).trans hp
  have htouched : ∀ q, (s₁.os.touch k).node q = s.os.node q := fun q => rfl
  cases hnode : s.os.node p with
  | none =>
    apply Leaves.of_error (e := .os .ENOENT) (t := { s₁ with os := s₁.os.touch k }) _ (hE _)
      (htouch fs)
    apply call_eq_error.mpr
    refine ⟨_, _, ?_, rfl, rfl⟩
    apply bind_eq_error.mpr
    refine .inr ⟨p, _, resolveCall_eq_ok.mpr ⟨hresolve, rfl⟩, ?_⟩
    rw [get_bind, htouched, hnode]
    exact throw_eq_error.mpr ⟨rfl, rfl⟩
  | some node =>
    cases node with
    | dir =>
      apply Leaves.of_error (e := .os .EISDIR) (t := { s₁ with os := s₁.os.touch k }) _ (hE _)
        (htouch fs)
      apply call_eq_error.mpr
      refine ⟨_, _, ?_, rfl, rfl⟩
      apply bind_eq_error.mpr
      refine .inr ⟨p, _, resolveCall_eq_ok.mpr ⟨hresolve, rfl⟩, ?_⟩
      rw [get_bind, htouched, hnode]
      exact throw_eq_error.mpr ⟨rfl, rfl⟩
    | file i =>
      apply Leaves.of_ok (a := ()) (t := s₁.unlinked k p)
      · apply call_eq_ok.mpr
        refine ⟨_, ?_, rfl⟩
        apply bind_eq_ok.mpr
        refine ⟨p, _, resolveCall_eq_ok.mpr ⟨hresolve, rfl⟩, ?_⟩
        rw [get_bind, htouched, hnode]
        exact modify_eq_ok.mpr rfl
      · refine ⟨fs, hfs, ?_, rfl⟩
        rw [Os.file_eq_some.mpr hnode]
        simp

theorem Os.file_erase {os : Os} {p : Path} (hp : p ≠ []) :
    ({ os with nodes := os.nodes.erase p } : Os).file = Function.update os.file p none := by
  funext q
  unfold Os.file
  rw [Os.node_erase hp]
  by_cases hq : q = p
  · subst hq
    simp
  · rw [if_neg hq, Function.update_of_ne hq]

theorem Os.ne_nil_of_file {os : Os} {p : Path} (h : os.file p ≠ none) : p ≠ [] := by
  rintro rfl
  exact h rfl

/-- The state without the entry of a key, and without the descriptor once it is closed. -/
def State.dropped (s : State) (k : Str) : State := { s with cache := s.cache.erase k }

def State.closed (s : State) (fd : ℕ) : State := { s with os := s.os.withFd fd none }

theorem lookup_dropped (s : State) (k k' : Str) :
    (s.dropped k).cache.lookup k' = if k' = k then none else s.cache.lookup k' := by
  change (s.cache.erase k).lookup k' = _
  by_cases hne : k' = k
  · subst hne
    rw [if_pos rfl, AList.lookup_erase]
  · rw [if_neg hne, AList.lookup_erase_ne hne]

/-- The path is free, and no key but `k` has lost its descriptor. -/
structure Evicted (s s' : State) (k : Str) (p : Path) : Prop where
  lookup : ∀ k', k' ≠ k → s'.cache.lookup k' = s.cache.lookup k'
  fds : ∀ k' e, k' ≠ k → s.cache.lookup k' = some e → s'.os.fd e.1 = s.os.fd e.1
  unheld : ∀ i, ¬ Held s' k i
  file : s'.os.file = Function.update s.os.file p none

theorem Evicted.held (h : Evicted s s' k p) {k' : Str} (hne : k' ≠ k) (i : ℕ) :
    Held s' k' i ↔ Held s k' i := held_congr (h.lookup k' hne) (fun e he => h.fds k' e hne he) i

/-- A file that the list makes anew is gone, together with its key's descriptor. -/
theorem Midway.taken (h : Midway s₀ written start undos s) (hk : Locked s₀ k p)
    (hr : Restores undos k p) (hfile : s.os.file p ≠ none)
    (hall : ∀ k', Restores undos k' p → ∃ i, Held s k' i)
    (halone : (∀ q i, start.file p = some i → start.file q = some i → p = q) ∨ ¬ written k) :
    Midway s₀ written start undos ((s.unlinked k p).dropped k) ∧
      Evicted s ((s.unlinked k p).dropped k) k p := by
  let s' := (s.unlinked k p).dropped k
  have hlookup : ∀ k', s'.cache.lookup k' = if k' = k then none else s.cache.lookup k' :=
    lookup_dropped s k
  have hentry : ∀ k' e, s'.cache.lookup k' = some e → k' ≠ k ∧ s.cache.lookup k' = some e := by
    intro k' e he
    rw [hlookup] at he
    split_ifs at he with hne
    exact ⟨hne, he⟩
  have hheld : ∀ k', k' ≠ k → ∀ i, Held s' k' i ↔ Held s k' i := by
    intro k' hne
    apply held_congr
    · rw [hlookup, if_neg hne]
    · intro e _
      rfl
  have hgone : ∀ i, ¬ Held s' k i := by
    apply not_held_of_uncached
    rw [hlookup, if_pos rfl]
  have hp := Os.ne_nil_of_file hfile
  have hfiles : s'.os.file = Function.update s.os.file p none := @Os.file_erase (s.os.touch k) _ hp
  have hnode : ∀ q, s'.os.node q = if q = p then none else s.os.node q :=
    @Os.node_erase (s.os.touch k) _ hp
  refine ⟨⟨⟨fun k' e he => ?_, fun k₁ k₂ e₁ e₂ h₁ h₂ => ?_⟩, h.process, fun q => ?_, h.log,
    fun q i hq => ?_, fun k' i hi => ?_, fun k' q hk' => ?_, ?_⟩,
    fun k' hne => (hlookup k').trans (if_neg hne), fun _ _ _ _ => rfl, hgone, hfiles⟩
  · exact h.opened.fds k' e (hentry k' e he).2
  · exact h.opened.distinct k₁ k₂ e₁ e₂ (hentry k₁ e₁ h₁).2 (hentry k₂ e₂ h₂).2
  · rw [hnode]
    by_cases hq : q = p
    · subst hq
      rw [if_pos rfl, ← h.dirs]
      obtain ⟨i, hi⟩ := Option.ne_none_iff_exists'.mp hfile
      rw [Os.file_eq_some.mp hi]
      simp
    · rw [if_neg hq]
      exact h.dirs q
  · rw [hfiles] at hq
    by_cases hqp : q = p
    · subst hqp
      rw [Function.update_self] at hq
      cases hq
    · rw [Function.update_of_ne hqp] at hq
      exact h.inodes q i hq
  · by_cases hne : k' = k
    · subst hne
      exact absurd hi (hgone i)
    · exact h.handles k' i ((hheld k' hne i).mp hi)
  · rw [hlookup]
    by_cases hne : k' = k
    · exact .inl (if_pos hne)
    · rw [if_neg hne]
      rcases h.usable k' q hk' with hnone | ⟨i, hi⟩
      · exact .inl hnone
      · exact .inr ⟨i, (hheld k' hne i).mpr hi⟩
  · have hvolume : s'.volume = { s.volume with
        file := Function.update s.volume.file p none
        held := fun k' j => k' ≠ k ∧ s.volume.held k' j } := by
      apply Volume.ext_iff_held
      · intro q
        exact congrFun hfiles q
      · intro i
        rfl
      · intro k' i
        constructor
        · intro hi
          by_cases hne : k' = k
          · subst hne
            exact absurd hi (hgone i)
          · exact ⟨hne, (hheld k' hne i).mp hi⟩
        · rintro ⟨hne, hi⟩
          exact (hheld k' hne i).mpr hi
    rw [hvolume]
    exact h.ready.take hk hr hall halone

theorem Evicted.congr {s₁ s₂ : State} (h : Evicted s s₁ k p) (hcached : SameCached s₁ s₂)
    (hnode : ∀ q, s₂.os.node q = s₁.os.node q) : Evicted s s₂ k p := by
  refine ⟨fun k' hne => ?_, fun k' e hne he => ?_, fun i hi => ?_, ?_⟩
  · exact (hcached.lookup k').trans (h.lookup k' hne)
  · exact (hcached.fds k' e ((h.lookup k' hne).trans he)).trans (h.fds k' e hne he)
  · exact h.unheld i ((hcached.held k i).mp hi)
  · rw [← h.file]
    funext q
    exact Os.file_of_node hnode q

/-- `clear_cache_entry` gives the entry up before it closes the descriptor. -/
theorem leaves_clearCacheEntry {I : State → Prop} {Q : Unit → State → Prop} (hs : Opened s)
    (hnone : s.cache.lookup k = none → I s) (hdropped : ∀ fs, I ((s.dropped k).withFaults fs))
    (hclosed : ∀ fd shared fs, s.cache.lookup k = some (fd, shared) → Spends 1 s.os.faults fs →
      SameCached (s.dropped k) (((s.dropped k).withFaults fs).closed fd) →
      Q () (((s.dropped k).withFaults fs).closed fd)) :
    Leaves (fun _ => True) I Q (clearCacheEntry k s) := by
  cases hentry : s.cache.lookup k with
  | none =>
    have hrun : clearCacheEntry k s = .error .keyError s := by
      unfold clearCacheEntry
      rw [get_bind, hentry]
      rfl
    rw [hrun]
    exact ⟨trivial, hnone hentry⟩
  | some entry =>
    obtain ⟨fd, shared⟩ := entry
    obtain ⟨node, hfd, -⟩ := hs.fds k _ hentry
    have hrun : clearCacheEntry k s = call (osClose fd) (s.dropped k) := by
      unfold clearCacheEntry
      rw [get_bind, hentry]
      rfl
    rw [hrun]
    apply leaves_enter (fun _ _ => trivial) hdropped
    intro fs hfs
    have hfd' : ((s.dropped k).withFaults fs).os.fd fd = some ⟨node, !shared⟩ := hfd
    apply Leaves.of_ok (a := ()) (t := ((s.dropped k).withFaults fs).closed fd)
    · apply call_eq_ok.mpr
      refine ⟨_, ?_, rfl⟩
      apply bind_eq_ok.mpr
      refine ⟨(), _, discard_eq_ok.mpr ⟨_, getFd_eq_ok.mpr ⟨hfd', rfl⟩⟩, ?_⟩
      exact modify_eq_ok.mpr rfl
    · apply hclosed fd shared fs hentry hfs
      refine ⟨fun _ => rfl, fun k' e he => ?_⟩
      rw [lookup_dropped] at he
      split_ifs at he with hne
      have hother : e.1 ≠ fd := fun heq => hne (hs.distinct k' k e _ he hentry heq)
      have hat := @Os.fd_withFd s.os fd (Nat.le_of_lt (Os.fd_lt hfd)) none e.1
      exact hat.trans (if_neg hother)

/-- What `clear_cache_entry` leaves of the key of a file that has been unlinked. -/
theorem leaves_evict (h : Midway s₀ written start undos s) (hk : Locked s₀ k p)
    (hr : Restores undos k p) (hfile : s.os.file p ≠ none)
    (hall : ∀ k', Restores undos k' p → ∃ i, Held s k' i)
    (halone : (∀ q i, start.file p = some i → start.file q = some i → p = q) ∨ ¬ written k) :
    Leaves (fun _ => True) (Midway s₀ written start undos)
      (fun _ s' => Midway s₀ written start undos s' ∧ Spends 1 s.os.faults s'.os.faults ∧
        Evicted s s' k p)
      (clearCacheEntry k (s.unlinked k p)) := by
  obtain ⟨htaken, hevicted⟩ := h.taken hk hr hfile hall halone
  have hopened : Opened (s.unlinked k p) := ⟨h.opened.fds, h.opened.distinct⟩
  apply leaves_clearCacheEntry hopened
  · intro hnone
    refine htaken.congr ⟨fun k' => ?_, fun k' e _ => rfl⟩ (fun _ => rfl) rfl rfl rfl rfl
    rw [lookup_dropped]
    split_ifs with hne
    · rw [hne, hnone]
    · rfl
  · exact htaken.withFaults
  · intro fd shared fs _ hfs hcached
    refine ⟨htaken.congr hcached (fun _ => rfl) rfl rfl rfl rfl, hfs, ?_⟩
    exact hevicted.congr hcached fun _ => rfl

end Multicorn.Fs
