import Multicorn.Fs.Fruitless
import Multicorn.Fs.Invariants

/-! Every open descriptor is in the cache, so that the end of a transaction closes it. -/
namespace Multicorn.Fs
open Multicorn.StateMonad

variable {s s' : State} {k : Str}

/-- The descriptor is in the cache. -/
def Cached (s : State) (n : ℕ) : Prop := ∃ k shared, s.cache.lookup k = some (n, shared)

/-- No call is made to fail, and every open descriptor is in the cache. -/
structure Accountable (s : State) : Prop where
  faults : s.os.faults = []
  cached : ∀ n f, s.os.fd n = some f → Cached s n

/-- The same descriptors are open, or fewer. -/
theorem Accountable.of_fds (hs : Accountable s) (hfaults : s'.os.faults = [])
    (hcache : s'.cache = s.cache) (hfds : ∀ n f, s'.os.fd n = some f → s.os.fd n = some f) :
    Accountable s' := by
  refine ⟨hfaults, fun n f hn => ?_⟩
  unfold Cached
  rw [hcache]
  exact hs.cached n f (hfds n f hn)

theorem Accountable.sameFds (hs : Accountable s) (h : OnlyOs Os.SameFds s s')
    (hfaults : s'.os.faults = []) : Accountable s' :=
  hs.of_fds hfaults h.cache fun n f hn => by rwa [h.os.fd] at hn

/-- The descriptor is open and on its way into the cache, under a key whose own one is not open
any more. -/
structure Pending (s s' : State) (k : Str) (fd : ℕ) : Prop where
  faults : s'.os.faults = []
  cache : s'.cache = s.cache
  opened : ∃ f, s'.os.fd fd = some f
  others : ∀ n f, n ≠ fd → s'.os.fd n = some f →
    ∃ k' shared, k' ≠ k ∧ s.cache.lookup k' = some (n, shared)

theorem Pending.insert {fd : ℕ} (h : Pending s s' k fd) (shared : Bool) :
    Accountable { s' with cache := s'.cache.insert k (fd, shared) } := by
  refine ⟨h.faults, fun n f hn => ?_⟩
  by_cases hfd : n = fd
  · subst hfd
    exact ⟨k, shared, AList.lookup_insert _⟩
  · obtain ⟨k', shared', hne, hentry⟩ := h.others n f hfd hn
    refine ⟨k', shared', ?_⟩
    rw [AList.lookup_insert_ne hne, h.cache]
    exact hentry

/-- A key holds one descriptor only, so one that is not its own is cached elsewhere. -/
theorem Accountable.elsewhere (hs : Accountable s) {n : ℕ} {f : OpenFile}
    (hn : s.os.fd n = some f) (hk : ∀ shared, s.cache.lookup k ≠ some (n, shared)) :
    ∃ k' shared, k' ≠ k ∧ s.cache.lookup k' = some (n, shared) := by
  obtain ⟨k', shared, hentry⟩ := hs.cached n f hn
  refine ⟨k', shared, ?_, hentry⟩
  rintro rfl
  exact hk shared hentry

/-! Opening. -/

theorem leaves_reopen_pending (hs : Accountable s) {old : Option ℕ}
    (hold : s.cache.lookup k = none ∧ old = none ∨
      ∃ n shared, s.cache.lookup k = some (n, shared) ∧ old = some n) (fail_if : Option FailIf) :
    Leaves (fun _ => True) Accountable (fun fd s' => Pending s s' k fd)
      (reopen k old fail_if s) := by
  have hfaults : (finalState (reopen k old fail_if s)).os.faults = [] :=
    (sustained_faultless.toGrowing.reopen old fail_if s hs.faults).1
  cases hrun : reopen k old fail_if s with
  | ok fd s₁ =>
    rw [hrun] at hfaults
    obtain ⟨-, hcache, file, hfds⟩ := reopen_ok_fds hrun
    refine ⟨hfaults, hcache, ⟨file, (hfds fd).trans (if_pos rfl)⟩, fun n f hne hn => ?_⟩
    rw [hfds, if_neg hne] at hn
    split_ifs at hn with hgiven
    apply hs.elsewhere hn
    intro shared hentry
    rcases hold with ⟨hnone, -⟩ | ⟨m, shared', hcached, rfl⟩
    · rw [hnone] at hentry
      cases hentry
    · rw [hcached] at hentry
      cases hentry
      exact hgiven rfl
  | error e s₁ =>
    rw [hrun] at hfaults
    refine ⟨trivial, ?_⟩
    rcases reopen_error_cases hrun with hmake | hsame | ⟨s₂, s₃, code, os, hmake, hclose, hopen, rfl⟩
    · obtain ⟨-, hfds, hcache⟩ := makeParent_error hmake
      apply hs.of_fds hfaults hcache
      intro n f hn
      change s₁.os.fd n = some f at hn
      unfold Os.fd at hn ⊢
      rwa [hfds] at hn
    · exact hs.sameFds hsame hfaults
    · have hmade := makeParent_sameFds hmake
      have hclosed := closeOld_keeps hclose
      have hafter := osOpen_error hopen
      apply hs.of_fds hfaults (hclosed.cache.trans hmade.cache)
      intro n f hn
      have hopened : s₃.os.fd n = some f := (hafter.fd n).symm.trans hn
      rw [hclosed.os.2] at hopened
      split_ifs at hopened
      rwa [hmade.os.fd] at hopened

theorem flock_open (hs : s.os.faults = []) {fd : ℕ} {f : OpenFile} (hfd : s.os.fd fd = some f) :
    call (flock fd) s = .ok () s :=
  call_eq_ok.mpr ⟨s.os, (flock_eq_ok hs).mpr ⟨⟨f, hfd⟩, rfl⟩, rfl⟩

theorem leaves_writableFd (hs : Accountable s) (k : Str) (fail_if : Option FailIf) :
    Leaves (fun _ => True) Accountable (fun fd s' => Pending s s' k fd)
      (writableFd k fail_if s) := by
  cases hentry : s.cache.lookup k with
  | none =>
    rw [writableFd_uncached hentry]
    exact leaves_reopen_pending hs (.inl ⟨hentry, rfl⟩) fail_if
  | some entry =>
    rw [writableFd_cached hentry]
    apply Leaves.bind (P := fun _ s₁ => s₁ = s ∧ ∃ f, s.os.fd entry.1 = some f)
    · cases hrun : call (isRdwr entry.1) s with
      | ok rdwr s₁ =>
        obtain ⟨os, hcall, rfl⟩ := call_eq_ok.mp hrun
        obtain ⟨⟨f, hfd, -⟩, rfl⟩ := (isRdwr_eq_ok hs.faults).mp hcall
        exact ⟨rfl, f, hfd⟩
      | error e s₁ =>
        obtain ⟨code, os, hcall, -, rfl⟩ := call_eq_error.mp hrun
        have hfaults : os.faults = [] :=
          ((sameStore_isRdwr entry.1).of_error hcall).faults hs.faults
        exact ⟨trivial, hs.sameFds ⟨(isRdwr_sameFds entry.1).of_error hcall, rfl⟩ hfaults⟩
    rintro rdwr s₁ ⟨rfl, f, hfd⟩
    split_ifs
    · refine ⟨hs.faults, rfl, ⟨f, hfd⟩, fun n f' hne hn => hs.elsewhere hn fun shared hn' => ?_⟩
      rw [hentry] at hn'
      cases hn'
      exact hne rfl
    · exact leaves_reopen_pending hs (.inr ⟨entry.1, entry.2, hentry, rfl⟩) fail_if

/-- What is on its way into the cache arrives there. -/
theorem Pending.leaves {fd : ℕ} (h : Pending s s' k fd) (shared : Bool) :
    Leaves (fun _ => True) Accountable (fun _ => Accountable) ((do
      call (flock fd)
      setCache k (fd, shared)
      return fd : M ℕ) s') := by
  obtain ⟨f, hfd⟩ := h.opened
  have hlock := flock_open h.faults hfd
  exact Leaves.bind (P := fun _ s₁ => s₁ = s') (by rw [hlock]; exact rfl) fun _ s₁ hs₁ => by
    subst hs₁
    exact h.insert shared

theorem accountable_openExclusive (k : Str) (fail_if : Option FailIf) :
    Keeps Accountable (openExclusive k fail_if) fun _ => True := by
  intro s hs
  have hrun : Leaves (fun _ => True) Accountable (fun _ => Accountable)
      (openExclusive k fail_if s) :=
    (leaves_writableFd hs k fail_if).bind fun fd s₁ h => h.leaves false
  exact ⟨hrun.final, fun _ _ => trivial⟩

theorem accountable_openShared (k : Str) : Keeps Accountable (openShared k) fun _ => True := by
  intro s hs
  cases hentry : s.cache.lookup k with
  | some entry =>
    rw [openShared_cached hentry]
    exact ends_ok hs trivial
  | none =>
    rw [openShared_uncached hentry]
    have hopen : Leaves (fun _ => True) Accountable (fun fd s' => Pending s s' k fd)
        (call (osOpen k ⟨false, false, false⟩) s) := by
      cases hrun : call (osOpen k ⟨false, false, false⟩) s with
      | ok fd s₁ =>
        obtain ⟨os, hcall, rfl⟩ := call_eq_ok.mp hrun
        have hfaults : os.faults = [] :=
          sustained_faultless.toGrowing.osOpen k _ s.os hs.faults |>.1 |> fun h => by
            rwa [hcall] at h
        obtain ⟨-, -, file, hfds⟩ := osOpen_opens hcall
        refine ⟨hfaults, rfl, ⟨file, (hfds fd).trans (if_pos rfl)⟩, fun n f hne hn => ?_⟩
        rw [hfds, if_neg hne] at hn
        apply hs.elsewhere hn
        simp [hentry]
      | error e s₁ =>
        obtain ⟨code, os, hcall, -, rfl⟩ := call_eq_error.mp hrun
        have htouch := osOpen_error_touch hs.faults hcall
        exact ⟨trivial, hs.sameFds ⟨osOpen_error hcall, rfl⟩ (by rw [htouch]; exact hs.faults)⟩
    have hrun := hopen.bind fun fd s₁ h => h.leaves true
    exact ⟨hrun.final, fun _ _ => trivial⟩

/-! Closing. -/

theorem accountable_clearCacheEntry (k : Str) :
    Keeps Accountable (clearCacheEntry k) fun _ => True := by
  intro s hs
  unfold clearCacheEntry
  rw [get_bind]
  cases hentry : s.cache.lookup k with
  | none => exact ends_error hs
  | some entry =>
    let erased : State := { s with cache := s.cache.erase k }
    -- What is open and not the descriptor of the key is cached under another key.
    have hothers : ∀ {os : Os}, os.faults = [] →
        (∀ n f, os.fd n = some f → n ≠ entry.1 ∧ s.os.fd n = some f) →
        Accountable { erased with os } := by
      intro os hfaults hfds
      refine ⟨hfaults, fun n f hn => ?_⟩
      obtain ⟨hne, hold⟩ := hfds n f hn
      obtain ⟨k', shared, hk', hcached⟩ := hs.elsewhere hold (k := k) fun shared hn' => by
        rw [hentry] at hn'
        cases hn'
        exact hne rfl
      exact ⟨k', shared, (AList.lookup_erase_ne hk').trans hcached⟩
    have hfaults := (sameStore_osClose entry.1 s.os).faults hs.faults
    have hclose : ∀ r, call (osClose entry.1) erased = r → Ends Accountable (fun _ => True) r := by
      rintro (⟨u, s₁⟩ | ⟨e, s₁⟩) hrun
      · obtain ⟨os, hcall, rfl⟩ := call_eq_ok.mp hrun
        have hclosed := (osClose_ok hcall).2
        rw [show erased.os = s.os from rfl] at hcall
        rw [hcall] at hfaults
        refine ends_ok (hothers hfaults fun n f hn => ?_) trivial
        rw [hclosed] at hn
        split_ifs at hn with hne
        exact ⟨hne, hn⟩
      · obtain ⟨code, os, hcall, -, rfl⟩ := call_eq_error.mp hrun
        have hclosed : s.os.fd entry.1 = none := by
          by_contra hopen
          obtain ⟨f, hf⟩ := Option.ne_none_iff_exists'.mp hopen
          have hok := (osClose_eq_ok (u := ()) hs.faults).mpr ⟨⟨f, hf⟩, rfl⟩
          rw [show erased.os = s.os from rfl, hok] at hcall
          cases hcall
        have hsame := osClose_error hcall
        rw [show erased.os = s.os from rfl] at hcall hsame
        rw [hcall] at hfaults
        refine ends_error (hothers hfaults fun n f hn => ?_)
        rw [hsame.fd] at hn
        refine ⟨?_, hn⟩
        rintro rfl
        rw [hclosed] at hn
        cases hn
    exact hclose _ rfl

theorem unlink_sameFds (path : Str) : Moves Os.SameFds (unlink path) := by
  refine Moves.bind Os.SameFds.trans enter_sameFds fun _ => ?_
  refine Moves.bind Os.SameFds.trans (resolveCall_sameFds path) fun p => ?_
  refine Moves.bind Os.SameFds.trans (Moves.get Os.SameFds.refl) fun os => ?_
  cases os.node p with
  | none => exact Moves.throw Os.SameFds.refl _
  | some node =>
    cases node with
    | file i => exact Moves.modify fun _ => ⟨rfl, rfl⟩
    | dir => exact Moves.throw Os.SameFds.refl _

theorem preserved_accountable : Preserved Accountable where
  steady s s' h hcache hs := hs.of_fds (h.faults hs.faults) hcache fun n f hn => by
    unfold Os.fd at hn ⊢
    rwa [h.fds] at hn
  openShared := accountable_openShared
  openExclusive := accountable_openExclusive
  clearCacheEntry := accountable_clearCacheEntry
  rewrites s s' h hcache hs := hs.of_fds (h.faults hs.faults) hcache fun n f hn => by
    unfold Os.fd at hn ⊢
    rwa [h.fds] at hn
  unlink k s hs := by
    have hfaults := (sustained_faultless.preserved.unlink k s hs.faults).1
    cases hrun : call (unlink k) s with
    | ok u s₁ =>
      rw [hrun] at hfaults
      obtain ⟨os, hcall, rfl⟩ := call_eq_ok.mp hrun
      exact ends_ok (hs.sameFds ⟨(unlink_sameFds k).of_ok hcall, rfl⟩ hfaults) trivial
    | error e s₁ =>
      rw [hrun] at hfaults
      obtain ⟨code, os, hcall, -, rfl⟩ := call_eq_error.mp hrun
      exact ends_error (hs.sameFds ⟨(unlink_sameFds k).of_error hcall, rfl⟩ hfaults)

/-! The end of a transaction. -/

/-- A cleanup that succeeds has emptied the cache. -/
theorem clearCache_empties {u : Unit} (h : clearCache false s = .ok u s') : s'.cache = ∅ := by
  have hentry : ∀ {k : Str} {s s' : State} {u : Unit}, clearCacheEntry k s = .ok u s' →
      s'.cache = s.cache.erase k := by
    intro k s s' u h
    unfold clearCacheEntry at h
    rw [get_bind] at h
    cases hk : s.cache.lookup k with
    | none =>
      rw [hk] at h
      exact absurd h throw_ne_ok
    | some entry =>
      simp only [hk, bind_eq_ok, modify_eq_ok, call_eq_ok] at h
      obtain ⟨_, _, rfl, os, -, rfl⟩ := h
      rfl
  have hall : ∀ (l : List (Sigma fun _ : Str => ℕ × Bool)) {s s' : State} {u : PUnit},
      (l.forM fun e => if !false || e.2.2 then clearCacheEntry e.1 else pure ()) s = .ok u s' →
      ∀ k, s'.cache.lookup k ≠ none → s.cache.lookup k ≠ none ∧ k ∉ l.map Sigma.fst := by
    intro l
    induction l with
    | nil =>
      intro s s' u h k hk
      obtain ⟨-, rfl⟩ := pure_eq_ok.mp h
      exact ⟨hk, List.not_mem_nil⟩
    | cons e l ih =>
      intro s s' u h k hk
      obtain ⟨_, s₁, hfirst, hrest⟩ := bind_eq_ok.mp h
      obtain ⟨hlater, hnot⟩ := ih hrest k hk
      rw [hentry hfirst] at hlater
      have hne : k ≠ e.1 := by
        rintro rfl
        exact hlater (AList.lookup_erase _ _)
      rw [AList.lookup_erase_ne hne] at hlater
      exact ⟨hlater, by simpa [hne] using hnot⟩
  unfold clearCache at h
  rw [get_bind] at h
  refine AList.ext (List.eq_nil_iff_forall_not_mem.mpr fun e he => ?_)
  have hsome : s'.cache.lookup e.1 = some e.2 := AList.mem_lookup_iff.mpr he
  obtain ⟨hthere, hnot⟩ := hall _ h e.1 (by simp [hsome])
  have hmem : e.1 ∈ s.cache := by
    rw [← AList.lookup_isSome, Option.isSome_iff_ne_none]
    exact hthere
  exact hnot (AList.mem_keys.mp hmem)

namespace FilesystemFdw

variable (t : FilesystemFdw)

theorem postXactCleanup_empties {u : Unit} (h : postXactCleanup s = .ok u s') : s'.cache = ∅ := by
  unfold postXactCleanup at h
  simp only [bind_eq_ok, modify_eq_ok] at h
  obtain ⟨_, _, rfl, _, s₁, hclear, rfl⟩ := h
  have hempty : s₁.cache = ∅ := clearCache_empties hclear
  exact hempty

/-- Where no descriptor is open and no call of the system is made to fail, none is open after a
transaction, whatever was called in its course and whether it succeeded, if only the commit or
the rollback at its end succeeds. -/
theorem no_descriptor_left (hfaults : s.os.faults = []) (hnone : ∀ n, s.os.fd n = none)
    (actions : List Action) {a : Action} (ha : ¬ a.Inside)
    (h : t.Succeeds (t.run s actions) a) (n : ℕ) : (t.after (t.run s actions) a).os.fd n = none := by
  have hstart : Accountable s := ⟨hfaults, fun n f hn => by
    rw [hnone] at hn
    cases hn⟩
  have hend : Accountable (t.after (t.run s actions) a) :=
    preserved_after preserved_accountable (preserved_run preserved_accountable hstart actions) a
  have hcache : (t.after (t.run s actions) a).cache = ∅ := by
    obtain ⟨u, hu⟩ := Option.isSome_iff_exists.mp h
    obtain ⟨s', hrun⟩ := of_value? hu
    unfold after
    rw [hrun]
    cases a with
    | preCommit =>
      simp only [perform, preCommit, get_bind, bind_eq_ok] at hrun
      obtain ⟨_, _, -, hclean⟩ := hrun
      exact postXactCleanup_empties hclean
    | rollback =>
      simp only [perform, rollback, get_bind, bind_eq_ok] at hrun
      obtain ⟨_, _, -, hclean⟩ := hrun
      exact postXactCleanup_empties hclean
    | _ => exact absurd trivial ha
  by_contra hopen
  obtain ⟨f, hf⟩ := Option.ne_none_iff_exists'.mp hopen
  obtain ⟨k, shared, hentry⟩ := hend.cached n f hf
  rw [hcache] at hentry
  cases hentry

end FilesystemFdw

section Sample

/-- A new file, and a row that is not there: the rollback closes what the first call has opened. -/
theorem failedDelete_closed :
    (flatTable.after (flatTable.run oneFile
      [.insert (flatRow ['y'] (.str ['1'])), .delete ['z']]) .rollback).os.fd 0 = none :=
  flatTable.no_descriptor_left rfl (fun _ => rfl) _ id (by decide +kernel) 0

end Sample

end Multicorn.Fs
