import Multicorn.Fs.Fruitless
import Multicorn.Fs.Reference

/-! A commit makes the table on the disk the one that the transaction has shown. -/
namespace Multicorn.Fs
open Multicorn.StateMonad Multicorn.ChangeLog

variable {s s' s₀ s₁ : State} {t : FilesystemFdw} {d : Directory} {r : Path} {f g : Str}
  {k : Str} {p : Path} {name content : Str} {fs : List Str}

/-- Opening a path where there is nothing has made a file. -/
structure Made (s s' : State) (k : Str) (p : Path) (fd : ℕ) : Prop where
  cache : s'.cache = s.cache.insert k (fd, false)
  log : s'.current_transaction_state = s.current_transaction_state
  free : s.os.fd fd = none
  fds : ∀ n, s'.os.fd n = if n = fd then some ⟨.file s.os.nextInode, true⟩ else s.os.fd n
  node : ∀ q, s'.os.node q = if q = p then some (.file s.os.nextInode) else s.os.node q
  content : s'.os.content = Function.update s.os.content s.os.nextInode []

/-- A path in a directory that is there can be opened for writing, though there is nothing. -/
theorem openExclusive_free (hf : s.os.faults = []) (hnone : s.cache.lookup k = none)
    (hdir : s.os.exists? (dirname k) = true) (hk : s.os.resolve k = .ok p)
    (hp : s.os.node p = none) : ∃ fd s', openExclusive k none s = .ok fd s' ∧ Made s s' k p fd := by
  let os₁ : Os := { s.os.touch (dirname k) with umask := 0 }
  have hpath : os₁.resolve k = .ok p := (@Os.resolve_congr s.os os₁ (fun _ => rfl) rfl k).trans hk
  let os₂ : Os := ((os₁.touch k).created p).withFd os₁.freeFd (some ⟨.file os₁.nextInode, true⟩)
  have hf₁ : os₁.faults = [] := hf
  have hopen : osOpen k (exclusiveFlags none) os₁ = .ok os₁.freeFd os₂ :=
    (osOpen_eq_ok hf₁).mpr ⟨rfl, p, hpath, .inr ⟨hp, rfl, rfl⟩⟩
  let os₃ : Os := { os₂ with umask := s.os.umask }
  have hfds : ∀ n, os₃.fd n = if n = os₁.freeFd then some ⟨.file os₁.nextInode, true⟩
      else s.os.fd n := @Os.fd_withFd ((os₁.touch k).created p) _ Os.freeFd_le _
  have hnodes : ∀ q, os₃.node q = if q = p then some (.file s.os.nextInode) else s.os.node q :=
    @Os.node_withNode (os₁.touch k) _ (Os.node_ne_nil hp) _
  have hreopen : reopen k none none s = .ok os₁.freeFd { s with os := os₃ } := by
    unfold reopen
    rw [bind_eq_ok]
    refine ⟨(), _, makeParent_there hdir, ?_⟩
    rw [bind_eq_ok]
    refine ⟨(), _, rfl, ?_⟩
    rw [bind_eq_ok]
    refine ⟨s.os.umask, _, rfl, ?_⟩
    rw [bind_eq_ok]
    refine ⟨os₁.freeFd, _, call_eq_ok.mpr ⟨_, hopen, rfl⟩, rfl⟩
  have hf₃ : os₃.faults = [] := hf
  have hlock : call (flock os₁.freeFd) { s with os := os₃ } = .ok () { s with os := os₃ } :=
    call_eq_ok.mpr ⟨os₃, (flock_eq_ok hf₃).mpr ⟨⟨_, (hfds _).trans (if_pos rfl)⟩, rfl⟩, rfl⟩
  refine ⟨os₁.freeFd, { s with os := os₃, cache := s.cache.insert k (os₁.freeFd, false) }, ?_,
    ⟨rfl, rfl, ?_, hfds, hnodes, rfl⟩⟩
  · unfold openExclusive
    rw [bind_eq_ok]
    refine ⟨os₁.freeFd, _, (writableFd_uncached hnone).trans hreopen, ?_⟩
    rw [bind_eq_ok]
    exact ⟨(), _, hlock, rfl⟩
  · have hfree : os₁.fd os₁.freeFd = none := Os.fd_freeFd
    exact hfree

theorem Made.lookup {fd : ℕ} (h : Made s s' k p fd) (k' : Str) :
    s'.cache.lookup k' = if k' = k then some (fd, false) else s.cache.lookup k' :=
  lookup_cache_insert h.cache k'

theorem Made.file {fd : ℕ} (h : Made s s' k p fd) (q : Path) :
    s'.os.file q = if q = p then some s.os.nextInode else s.os.file q := by
  unfold Os.file
  rw [h.node]
  split_ifs <;> rfl

theorem Made.fd_of_opened {fd : ℕ} (h : Made s s' k p fd) {n : ℕ} {file : OpenFile}
    (hn : s.os.fd n = some file) : s'.os.fd n = some file := by
  have hne : n ≠ fd := by
    rintro rfl
    rw [h.free] at hn
    cases hn
  rw [h.fds, if_neg hne, hn]

theorem Made.opened {fd : ℕ} (h : Made s s' k p fd) (hs : Opened s) : Opened s' := by
  have hnew : ∀ k' e, s.cache.lookup k' = some e → e.1 ≠ fd := by
    intro k' e he
    obtain ⟨node, hopen, -⟩ := hs.fds k' e he
    rintro rfl
    rw [h.free] at hopen
    cases hopen
  constructor
  · intro k' e he
    rw [h.lookup] at he
    split_ifs at he with hk
    · cases he
      exact ⟨_, (h.fds fd).trans (if_pos rfl), fun _ => ⟨_, rfl⟩⟩
    · obtain ⟨node, hopen, hfile⟩ := hs.fds k' e he
      exact ⟨node, h.fd_of_opened hopen, hfile⟩
  · intro k₁ k₂ e₁ e₂ h₁ h₂ heq
    rw [h.lookup] at h₁ h₂
    split_ifs at h₁ h₂ with hk₁ hk₂ hk₂
    · rw [hk₁, hk₂]
    · cases h₁
      exact absurd heq.symm (hnew k₂ e₂ h₂)
    · cases h₂
      exact absurd heq (hnew k₁ e₁ h₁)
    · exact hs.distinct k₁ k₂ e₁ e₂ h₁ h₂ heq

/-! The invariant of the replay. -/

/-- No call is made to fail, no path shares an inode with one of the paths `own`, and the
directories of the start are there. -/
structure Os.Settled (own : Path → Prop) (start os : Os) : Prop where
  faults : os.faults = []
  numbered : os.Numbered own
  dirs : start.DirsKept os

theorem sustained_settled (own : Path → Prop) (start : Os) : Os.Sustained (start.Settled own) where
  same os os' h hos := ⟨h.faults hos.faults, (sustained_numbered own).same os os' h hos.numbered,
    (sustained_dirs start).same os os' h hos.dirs⟩
  directory hp hnone hos := ⟨hos.faults, (sustained_numbered own).directory hp hnone hos.numbered,
    (sustained_dirs start).directory hp hnone hos.dirs⟩
  file hp hnone hos := ⟨hos.faults, (sustained_numbered own).file hp hnone hos.numbered,
    (sustained_dirs start).file hp hnone hos.dirs⟩
  rewritten data hos := ⟨hos.faults, (sustained_numbered own).rewritten data hos.numbered,
    (sustained_dirs start).rewritten data hos.dirs⟩
  erased hfile hos := ⟨hos.faults, (sustained_numbered own).erased hfile hos.numbered,
    (sustained_dirs start).erased hfile hos.dirs⟩

/-- The paths of the names. -/
def PathOf (r : Path) (fs : List Str) (p : Path) : Prop := ∃ f ∈ fs, p = r ++ f.splitOn '/'

/-- The names of a log can be listed, and their paths lead into directories that are there. -/
structure Located (d : Directory) (r : Path) (s₀ : State) (fs : List Str) : Prop where
  root : d.root_dir ≠ []
  lists : ∀ f ∈ fs, d.Lists f
  path : ∀ f ∈ fs, s₀.os.resolve (d.key f) = .ok (r ++ f.splitOn '/')
  parent : ∀ f ∈ fs, s₀.os.stat (dirname (d.key f)) = some .dir

/-- A cached descriptor of the name's file that can write. -/
structure Grip (d : Directory) (r : Path) (s : State) (f : Str) (fd i : ℕ) : Prop where
  entry : s.cache.lookup (d.key f) = some (fd, false)
  opened : s.os.fd fd = some ⟨.file i, true⟩
  file : s.os.file (r ++ f.splitOn '/') = some i

/-- Every name has a file and a descriptor that can write to it, or neither. -/
structure Committing (d : Directory) (r : Path) (s₀ : State) (fs : List Str) (s : State) :
    Prop where
  settled : s₀.os.Settled (PathOf r fs) s.os
  opened : Opened s
  newline : ∀ names i, s.os.file (r ++ names) = some i → ∀ c ∈ names, '\n' ∉ c
  ready : ∀ f ∈ fs, (∃ fd i, Grip d r s f fd i) ∨
    s.cache.lookup (d.key f) = none ∧ s.os.node (r ++ f.splitOn '/') = none

/-- The files on the disk. -/
def disk (d : Directory) (r : Path) (s : State) : Table Str Bytes := fun f =>
  if d.Lists f then s.os.data (r ++ f.splitOn '/') else none

theorem path_ne (hne : g ≠ f) : r ++ g.splitOn '/' ≠ r ++ f.splitOn '/' := fun heq =>
  hne (splitOn_injective (List.append_cancel_left heq))

theorem disk_congr (h : d.Lists g → s'.os.data (r ++ g.splitOn '/') = s.os.data (r ++ g.splitOn '/')) :
    disk d r s' g = disk d r s g := by
  unfold disk
  split_ifs with hg
  · exact h hg
  · rfl

/-- Every name but one is as before on the disk. -/
theorem disk_eq_update {v : Option Bytes} (hf : d.Lists f)
    (hself : s'.os.data (r ++ f.splitOn '/') = v)
    (hothers : ∀ g, g ≠ f →
      s'.os.data (r ++ g.splitOn '/') = s.os.data (r ++ g.splitOn '/')) :
    disk d r s' = Function.update (disk d r s) f v := by
  funext g
  by_cases hg : g = f
  · subst hg
    rw [Function.update_self]
    exact (if_pos hf).trans hself
  · rw [Function.update_of_ne hg]
    exact disk_congr fun _ => hothers g hg

section Replay

variable (hl : Located d r s₀ fs)

include hl

theorem Located.key_ne (hf : f ∈ fs) (hg : g ∈ fs) (hne : g ≠ f) : d.key g ≠ d.key f := fun heq =>
  hne (key_injective hl.root (hl.lists g hg) (hl.lists f hf) heq)

theorem Committing.resolve (h : Committing d r s₀ fs s) (hf : f ∈ fs) :
    s.os.resolve (d.key f) = .ok (r ++ f.splitOn '/') := h.settled.dirs.resolve (hl.path f hf)

theorem Committing.parent (h : Committing d r s₀ fs s) (hf : f ∈ fs) :
    s.os.exists? (dirname (d.key f)) = true := by
  obtain ⟨q, hq, hnode⟩ := Os.stat_eq_some.mp (hl.parent f hf)
  have hstat : s.os.stat (dirname (d.key f)) = some .dir :=
    Os.stat_eq_some.mpr ⟨q, h.settled.dirs.resolve hq, h.settled.dirs.dirs q hnode⟩
  unfold Os.exists?
  rw [hstat]
  rfl

/-- Opening a name for writing, which makes its file if there is none. -/
theorem Committing.grips (h : Committing d r s₀ fs s) (hf : f ∈ fs) :
    ∃ fd i s', openExclusive (d.key f) none s = .ok fd s' ∧ Committing d r s₀ fs s' ∧
      Grip d r s' f fd i ∧ ∀ g, g ≠ f → disk d r s' g = disk d r s g := by
  have hsettled := ((sustained_settled (PathOf r fs) s₀.os).toGrowing.openExclusive (k := d.key f) none s
    h.settled).1
  rcases h.ready f hf with ⟨fd, i, hgrip⟩ | ⟨hnone, hfree⟩
  · obtain ⟨fd', hentry, hfd, hrun⟩ :=
      openExclusive_held h.settled.faults ⟨fd, hgrip.entry, hgrip.opened⟩ none
    rw [hrun] at hsettled
    have hlookup : ∀ k', (s.cache.insert (d.key f) (fd', false)).lookup k' = s.cache.lookup k' := by
      intro k'
      by_cases hk' : k' = d.key f
      · rw [hk', hentry, AList.lookup_insert]
      · exact AList.lookup_insert_ne hk'
    refine ⟨fd', i, _, hrun, ⟨hsettled, ?_, h.newline, fun g hg => ?_⟩,
      ⟨AList.lookup_insert _, hfd, hgrip.file⟩,
      fun g _ => rfl⟩
    · exact SameCached.opened ⟨hlookup, fun _ _ _ => rfl⟩ h.opened
    · rcases h.ready g hg with ⟨m, j, hg'⟩ | ⟨hnone', hfree'⟩
      · exact .inl ⟨m, j, (hlookup _).trans hg'.entry, hg'.opened, hg'.file⟩
      · exact .inr ⟨(hlookup _).trans hnone', hfree'⟩
  · obtain ⟨fd, s', hrun, hmade⟩ := openExclusive_free h.settled.faults hnone
      (h.parent hl hf) (h.resolve hl hf) hfree
    rw [hrun] at hsettled
    refine ⟨fd, _, s', hrun, ⟨hsettled, hmade.opened h.opened, ?_, fun g hg => ?_⟩,
      ⟨(hmade.lookup _).trans (if_pos rfl), (hmade.fds fd).trans (if_pos rfl),
        (hmade.file _).trans (if_pos rfl)⟩, fun g hne => disk_congr fun _ => ?_⟩
    · intro names j hfile
      rw [hmade.file] at hfile
      split_ifs at hfile with hnew
      · rw [List.append_cancel_left hnew]
        exact (hl.lists f hf).newline
      · exact h.newline names j hfile
    · by_cases hne : g = f
      · subst hne
        exact .inl ⟨fd, _, (hmade.lookup _).trans (if_pos rfl), (hmade.fds fd).trans (if_pos rfl),
          (hmade.file _).trans (if_pos rfl)⟩
      · have hlookup := (hmade.lookup (d.key g)).trans (if_neg (hl.key_ne hf hg hne))
        rcases h.ready g hg with ⟨m, j, hg'⟩ | ⟨hnone', hfree'⟩
        · exact .inl ⟨m, j, hlookup.trans hg'.entry, hmade.fd_of_opened hg'.opened,
            ((hmade.file _).trans (if_neg (path_ne hne))).trans hg'.file⟩
        · exact .inr ⟨hlookup.trans hnone',
            ((hmade.node _).trans (if_neg (path_ne hne))).trans hfree'⟩
    · have hsame := (hmade.file _).trans (if_neg (path_ne (r := r) hne))
      unfold Os.data
      rw [hsame, hmade.content]
      cases hfile : s.os.file (r ++ g.splitOn '/') with
      | none => rfl
      | some j =>
        have hlt := h.settled.numbered.bound _ j hfile
        exact congrArg some (Function.update_of_ne (Nat.ne_of_lt hlt) ..)

/-- Writing an item through a descriptor of its file. -/
theorem Committing.writes (h : Committing d r s₀ fs s) (hf : f ∈ fs) {fd i : ℕ}
    (hgrip : Grip d r s f fd i) {item : Item} (hgiven : item.content.Given s₀.os.process) :
    ∃ s', item.write d (some fd) s = .ok () s' ∧ Committing d r s₀ fs s' ∧
      disk d r s' = Function.update (disk d r s) f
        (some (item.content.toBytes s₀.os.process)) := by
  let data := item.content.toBytes s₀.os.process
  let s₂ : State := { s with os := { s.os with
    content := Function.update s.os.content i data } }
  have hrun : item.write d (some fd) s = .ok () s₂ := by
    have htruncate : call (ftruncate fd) s = .ok () { s with os := s.os.withContent i [] } :=
      call_eq_ok.mpr ⟨_, (ftruncate_eq_ok h.settled.faults).mpr ⟨i, hgrip.opened, rfl⟩, rfl⟩
    have hwritten : item.content.written (s.os.withContent i []).process = .ok (some data) := by
      change item.content.written s.os.process = _
      rw [h.settled.dirs.process]
      exact hgiven.written
    have hwrite : call (writeStart fd data) { s with os := s.os.withContent i [] } = .ok () s₂ := by
      refine call_eq_ok.mpr ⟨_, (writeStart_eq_ok (by exact h.settled.faults)).mpr
        ⟨i, hgrip.opened, rfl⟩, ?_⟩
      unfold Os.withContent
      simp only [update_twice, s₂]
    unfold Item.write
    simp only [bind_eq_ok, pure_eq_ok]
    exact ⟨fd, s, ⟨rfl, rfl⟩, (), _, htruncate, _, _, get_eq_ok.mpr ⟨rfl, rfl⟩, some data, _,
      liftExcept_eq_ok.mpr ⟨hwritten, rfl⟩, hwrite⟩
  refine ⟨s₂, hrun, ⟨(sustained_settled (PathOf r fs) s₀.os).rewritten _ h.settled, ⟨h.opened.fds,
    h.opened.distinct⟩, h.newline, fun g hg => ?_⟩, disk_eq_update (hl.lists f hf) ?_
      fun g hne => ?_⟩
  · rcases h.ready g hg with ⟨m, j, hg'⟩ | hnone
    · exact .inl ⟨m, j, hg'.entry, hg'.opened, hg'.file⟩
    · exact .inr hnone
  · have hfile : s₂.os.file (r ++ f.splitOn '/') = some i := hgrip.file
    unfold Os.data
    rw [hfile]
    exact congrArg some (Function.update_self ..)
  · have hsame : s₂.os.file (r ++ g.splitOn '/') = s.os.file (r ++ g.splitOn '/') := rfl
    unfold Os.data
    rw [hsame]
    cases hfile : s.os.file (r ++ g.splitOn '/') with
    | none => rfl
    | some j =>
      have hij : j ≠ i := by
        rintro rfl
        exact path_ne hne (h.settled.numbered.alone _ _ j ⟨f, hf, rfl⟩ hgrip.file hfile).symm
      exact congrArg some (Function.update_of_ne hij ..)

/-- Taking the file of a name away, and its descriptor out of the cache. -/
theorem Committing.evicts (h : Committing d r s₀ fs s) (hf : f ∈ fs) {fd i : ℕ}
    (hgrip : Grip d r s f fd i) : ∃ s₁ s', call (unlink (d.key f)) s = .ok () s₁ ∧
      clearCacheEntry (d.key f) s₁ = .ok () s' ∧ Committing d r s₀ fs s' ∧
      disk d r s' = Function.update (disk d r s) f none ∧
      ∀ g ∈ fs, g ≠ f → ∀ fd i, Grip d r s g fd i → Grip d r s' g fd i := by
  have hunlink : call (unlink (d.key f)) s = .ok () (s.unlinked (d.key f) (r ++ f.splitOn '/')) :=
    call_eq_ok.mpr ⟨_, (unlink_eq_ok h.settled.faults).mpr
      ⟨_, i, h.resolve hl hf, hgrip.file, rfl⟩, rfl⟩
  let s₁ := s.unlinked (d.key f) (r ++ f.splitOn '/')
  have hp : r ++ f.splitOn '/' ≠ [] := Os.ne_nil_of_file (by rw [hgrip.file]; simp)
  have hnode : ∀ q, s₁.os.node q = if q = r ++ f.splitOn '/' then none else s.os.node q :=
    @Os.node_erase (s.os.touch (d.key f)) _ hp
  have hfile : ∀ q, q ≠ r ++ f.splitOn '/' → s₁.os.file q = s.os.file q := by
    intro q hq
    unfold Os.file
    rw [hnode, if_neg hq]
  have hsettled : s₀.os.Settled (PathOf r fs) s₁.os :=
    (sustained_settled (PathOf r fs) s₀.os).same { s.os with nodes := s.os.nodes.erase (r ++ f.splitOn '/') } _
      ⟨rfl, rfl, rfl, rfl, id⟩ ((sustained_settled (PathOf r fs) s₀.os).erased hgrip.file h.settled)
  have hopened : Opened s₁ := ⟨h.opened.fds, h.opened.distinct⟩
  obtain ⟨s', hclear, hdrops⟩ := clearCacheEntry_drops hopened hsettled.faults hgrip.entry
  have hsettled' := ((sustained_settled (PathOf r fs) s₀.os).toGrowing.clearCacheEntry (k := d.key f) s₁
    hsettled).1
  rw [hclear] at hsettled'
  have hlookup : ∀ g ∈ fs, g ≠ f → s'.cache.lookup (d.key g) = s.cache.lookup (d.key g) := by
    intro g hg hne
    rw [hdrops.lookup, if_neg (by simpa using hl.key_ne hf hg hne)]
    rfl
  have hkept : ∀ g ∈ fs, g ≠ f → ∀ fd i, Grip d r s g fd i → Grip d r s' g fd i := by
    intro g hg hne m j hg'
    have hfd := hdrops.fds (d.key g) _ (by simpa using hl.key_ne hf hg hne) hg'.entry
    exact ⟨(hlookup g hg hne).trans hg'.entry, hfd.trans hg'.opened,
      ((hdrops.file _).trans (hfile _ (path_ne hne))).trans hg'.file⟩
  refine ⟨s₁, s', hunlink, hclear, ⟨hsettled', hdrops.opened hopened,
    ?_, fun g hg => ?_⟩, disk_eq_update (hl.lists f hf) ?_ fun g hne => ?_, hkept⟩
  · intro names j hnames
    rw [hdrops.file] at hnames
    by_cases hq : r ++ names = r ++ f.splitOn '/'
    · rw [List.append_cancel_left hq]
      exact (hl.lists f hf).newline
    · exact h.newline names j ((hfile _ hq).symm.trans hnames)
  · by_cases hne : g = f
    · subst hne
      refine .inr ⟨(hdrops.lookup _).trans (if_pos List.mem_cons_self), ?_⟩
      exact (hdrops.node _).trans ((hnode _).trans (if_pos rfl))
    · rcases h.ready g hg with ⟨m, j, hg'⟩ | ⟨hnone, hfree⟩
      · exact .inl ⟨m, j, hkept g hg hne m j hg'⟩
      · refine .inr ⟨(hlookup g hg hne).trans hnone, ?_⟩
        exact (hdrops.node _).trans (((hnode _).trans (if_neg (path_ne hne))).trans hfree)
  · unfold Os.data
    rw [hdrops.file]
    unfold Os.file
    rw [hnode, if_pos rfl]
    rfl
  · unfold Os.data
    rw [hdrops.file, hdrops.content, hfile _ (path_ne hne)]
    rfl

/-! One operation after the other. -/

omit hl in
theorem Committing.grip_of_disk (h : Committing d r s₀ fs s) (hf : f ∈ fs) (hlists : d.Lists f)
    (hthere : disk d r s f ≠ none) : ∃ fd i, Grip d r s f fd i := by
  rcases h.ready f hf with hgrip | ⟨-, hfree⟩
  · exact hgrip
  · unfold disk Os.data Os.file at hthere
    rw [if_pos hlists, hfree] at hthere
    exact absurd rfl hthere

/-- Committing an operation does its change on the disk. -/
theorem Committing.commits (hd : d = t.structured_directory) (h : Committing d r s₀ fs s)
    {op : Operation} {c : FileChange} (hop : Logged s₀.os.process d op c) (hkeys : ∀ f ∈ c.keys, f ∈ fs)
    (hthere : ∀ f, c.taken = some f → disk d r s f ≠ none) :
    ∃ s', t.commitOperation op s = .ok () s' ∧ Committing d r s₀ fs s' ∧
      disk d r s' = (c.map (PyVal.toBytes s₀.os.process)).apply (disk d r s) := by
  subst hd
  obtain ⟨hlogs, hgiven⟩ := hop
  cases hlogs with
  | @insert item f hf =>
    replace hgiven := hgiven _ rfl
    have hfs : f ∈ fs := hkeys f List.mem_cons_self
    obtain ⟨fd, i, s₁, hopen, h₁, hgrip, hothers⟩ := h.grips hl hfs
    obtain ⟨s', hwrite, h', hdisk⟩ := h₁.writes hl hfs hgrip hgiven
    have hopenFd : item.openFd t.structured_directory false none s = .ok fd s₁ :=
      openFd_exclusive.mpr ⟨_, fullFilename_of_filename hf, hopen⟩
    refine ⟨s', ?_, h', ?_⟩
    · have hrun : item.write t.structured_directory none s = .ok () s' := by
        unfold Item.write at hwrite ⊢
        simp only [bind_eq_ok, pure_eq_ok] at hwrite ⊢
        obtain ⟨_, _, ⟨rfl, rfl⟩, hrest⟩ := hwrite
        exact ⟨fd, s₁, hopenFd, hrest⟩
      exact hrun
    · rw [hdisk]
      funext g
      simp only [Change.apply, Change.map, Function.update_apply]
      split_ifs with hg
      · rfl
      · exact hothers g hg
  | @update olditem newitem f₀ f hf₀ hf =>
    replace hgiven := hgiven _ rfl
    have hfs₀ : f₀ ∈ fs := hkeys f₀ List.mem_cons_self
    have hfs : f ∈ fs := hkeys f (by simp [Change.keys])
    have hfull₀ := fullFilename_of_filename hf₀
    have hfull := fullFilename_of_filename hf
    obtain ⟨fd, i, s₁, hopen, h₁, hgrip, hothers⟩ := h.grips hl hfs
    by_cases hsame : f₀ = f
    · subst hsame
      obtain ⟨s', hwrite, h', hdisk⟩ := h₁.writes hl hfs hgrip hgiven
      refine ⟨s', ?_, h', ?_⟩
      · unfold FilesystemFdw.commitOperation
        simp only [bind_eq_ok, liftExcept_eq_ok]
        refine ⟨_, s, ⟨hfull₀, rfl⟩, _, s, ⟨hfull, rfl⟩, ?_⟩
        rw [if_pos rfl, bind_eq_ok]
        exact ⟨fd, s₁, openFd_exclusive.mpr ⟨_, hfull₀, hopen⟩, hwrite⟩
      · rw [hdisk]
        funext g
        simp only [Change.apply, Change.map, Function.update_apply]
        split_ifs with hg
        · rfl
        · exact hothers g hg
    · have hthere₁ : disk t.structured_directory r s₁ f₀ ≠ none := by
        rw [hothers f₀ hsame]
        exact hthere f₀ rfl
      obtain ⟨fd₀, i₀, hgrip₀⟩ := h₁.grip_of_disk hfs₀ (hl.lists f₀ hfs₀) hthere₁
      obtain ⟨s₂, s₃, hunlink, hclear, h₃, hdisk₃, hkept⟩ := h₁.evicts hl hfs₀ hgrip₀
      obtain ⟨s', hwrite, h', hdisk⟩ := h₃.writes hl hfs
        (hkept f hfs (Ne.symm hsame) fd i hgrip) hgiven
      refine ⟨s', ?_, h', ?_⟩
      · unfold FilesystemFdw.commitOperation
        simp only [bind_eq_ok, liftExcept_eq_ok]
        refine ⟨_, s, ⟨hfull₀, rfl⟩, _, s, ⟨hfull, rfl⟩, ?_⟩
        rw [if_neg (hl.key_ne hfs hfs₀ hsame)]
        simp only [bind_eq_ok]
        exact ⟨fd, s₁, openFd_exclusive.mpr ⟨_, hfull, hopen⟩, (), s₂, hunlink, (), s₃, hclear, hwrite⟩
      · rw [hdisk, hdisk₃]
        funext g
        simp only [Change.apply, Change.map, Function.update_apply]
        split_ifs with hg hg₀
        · rfl
        · rfl
        · exact hothers g hg
  | @delete item f hf =>
    have hfs : f ∈ fs := hkeys f List.mem_cons_self
    obtain ⟨fd, i, hgrip⟩ := h.grip_of_disk hfs (hl.lists f hfs) (hthere f rfl)
    obtain ⟨s₁, s', hunlink, hclear, h', hdisk, -⟩ := h.evicts hl hfs hgrip
    have hfull := fullFilename_of_filename hf
    refine ⟨s', ?_, h', hdisk⟩
    unfold FilesystemFdw.commitOperation Item.remove
    simp only [bind_eq_ok, liftExcept_eq_ok]
    exact ⟨(), s₁, ⟨_, s, ⟨hfull, rfl⟩, hunlink⟩, _, s₁, ⟨hfull, rfl⟩, hclear⟩

/-- Committing the whole log replays its changes on the disk. -/
theorem Committing.commitLog (hd : d = t.structured_directory) {T : Table Str Bytes}
    {done todo : List FileChange} {ops : List Operation} (h : Committing d r s₀ fs s)
    (hlog : List.Forall₂ (Logged s₀.os.process d) ops todo) (hkeys : ∀ f ∈ touched todo, f ∈ fs)
    (hreplayed : Replayed T (done.map (Change.map (PyVal.toBytes s₀.os.process)))
      (todo.map (Change.map (PyVal.toBytes s₀.os.process))) (disk d r s))
    (hfits : FitsAll (applyAll T (done.map (Change.map (PyVal.toBytes s₀.os.process))))
      (todo.map (Change.map (PyVal.toBytes s₀.os.process)))) :
    ∃ s', ops.forM t.commitOperation s = .ok ⟨⟩ s' ∧ Committing d r s₀ fs s' ∧
      disk d r s' = applyAll T ((done ++ todo).map (Change.map (PyVal.toBytes s₀.os.process))) := by
  induction hlog generalizing s done with
  | nil =>
    refine ⟨s, rfl, h, ?_⟩
    rw [List.append_nil]
    exact hreplayed.finished
  | @cons op c ops todo hop hlog ih =>
    rw [touched_cons] at hkeys
    have hthere : ∀ f, c.taken = some f → disk d r s f ≠ none := by
      intro f hf
      apply hreplayed.there hfits.1
      cases c <;> exact hf
    obtain ⟨s₁, hrun, h₁, hdisk⟩ := h.commits hl hd hop
      (fun f hf => hkeys f (List.mem_append_left _ hf)) hthere
    have hstep := hreplayed.step
    rw [← hdisk] at hstep
    have hdone : (done ++ [c]).map (Change.map (PyVal.toBytes s₀.os.process)) =
        done.map (Change.map (PyVal.toBytes s₀.os.process)) ++
          [c.map (PyVal.toBytes s₀.os.process)] := List.map_append
    obtain ⟨s', hrest, h', hdisk'⟩ := ih h₁ (fun f hf => hkeys f (List.mem_append_right _ hf))
      (hdone ▸ hstep) (by rw [hdone, applyAll_concat]; exact hfits.2)
    refine ⟨s', bind_eq_ok.mpr ⟨⟨⟩, s₁, hrun, hrest⟩, h', ?_⟩
    rw [hdisk', List.append_assoc, List.singleton_append]

end Replay

/-! The commit. -/

theorem Idle.settled (hs : Idle d r s) : s.os.Settled (fun _ => True) s.os :=
  ⟨hs.fresh.faults, ⟨hs.fresh.inodes, fun p q i _ => hs.alone p q i⟩, .refl _⟩

theorem Idle.settled_run (hs : Idle d r s) (t : FilesystemFdw) (actions : List Action) :
    s.os.Settled (fun _ => True) (t.run s actions).os :=
  FilesystemFdw.preserved_run (sustained_settled _ s.os).preserved hs.settled actions

/-- Clearing up leaves the disk as it is. -/
theorem postXactCleanup_idle (hs : Opened s) (hf : s.os.faults = []) :
    ∃ s', FilesystemFdw.postXactCleanup s = .ok () s' ∧ (∀ p, s'.os.data p = s.os.data p) ∧
      (∀ p, s'.os.file p = s.os.file p) ∧ s'.cache = ∅ ∧ s'.current_transaction_state = [] ∧
      s'.invisible_files = [] ∧ s'.updated_content = ∅ := by
  let s₁ : State := { s with current_transaction_state := [], invisible_files := [] }
  have hs₁ : Opened s₁ := ⟨hs.fds, hs.distinct⟩
  obtain ⟨s₂, keys, hclear, hdrops, hcache⟩ := clearCache_all hs₁ hf
  refine ⟨{ s₂ with updated_content := ∅ }, ?_, fun p => ?_, hdrops.file, hcache, hdrops.log,
    hdrops.invisible, rfl⟩
  · unfold FilesystemFdw.postXactCleanup
    simp only [bind_eq_ok, modify_eq_ok]
    exact ⟨(), s₁, rfl, (), s₂, hclear, rfl⟩
  · have hfile : s₂.os.file p = s.os.file p := hdrops.file p
    change (s₂.os.file p).map s₂.os.content = _
    rw [hfile, hdrops.content]
    rfl

section Commit

variable {T : Table Str PyVal} {log : List FileChange}

/-- The names of the transaction are ready for the commit. -/
theorem Tracked.replaying (h : Tracked d r T log s) (hnum : s.os.Numbered (PathOf r (touched log))) :
    Located d r s (touched log) ∧ Committing d r s (touched log) s := by
  have hheld : ∀ f ∈ touched log, ∃ i, Held s (d.key f) i ∧
      s.os.resolve (d.key f) = .ok (r ++ f.splitOn '/') ∧
      s.os.file (r ++ f.splitOn '/') = some i := by
    intro f hf
    obtain ⟨i, hi⟩ := h.opened f hf
    obtain ⟨p, hp, hnode⟩ := hi.node h.scannable.sound
    obtain rfl := resolve_key h.scannable.root (h.lists f hf) hp
    exact ⟨i, hi, hp, Os.file_eq_some.mpr hnode⟩
  have hroot := root_ne_nil h.scannable.root
  refine ⟨⟨hroot, h.lists, fun f hf => ?_, fun f hf => ?_⟩,
    ⟨⟨h.scannable.sound.faults, hnum, .refl _⟩, h.scannable.sound.coherent.toOpened,
      h.scannable.newline, fun f hf => ?_⟩⟩
  · obtain ⟨i, -, hp, -⟩ := hheld f hf
    exact hp
  · obtain ⟨i, -, hp, -⟩ := hheld f hf
    exact stat_dirname hp (dirname_key hroot (h.lists f hf))
  · obtain ⟨i, ⟨fd, hentry, hfd⟩, -, hfile⟩ := hheld f hf
    exact .inl ⟨fd, i, hentry, hfd, hfile⟩

theorem Tracked.replayed (h : Tracked d r T log s) (hnum : s.os.Numbered (PathOf r (touched log))) :
    Replayed (fun f => (T f).map (PyVal.toBytes s.os.process)) []
      (log.map (Change.map (PyVal.toBytes s.os.process)))
      (disk d r s) := by
  obtain ⟨hl, hready⟩ := h.replaying hnum
  apply Replayed.initial
  · intro f hf
    rw [touched_map] at hf
    rcases hready.ready f hf with ⟨fd, i, hgrip⟩ | ⟨hnone, -⟩
    · unfold disk Os.data
      rw [if_pos (h.lists f hf), hgrip.file]
      simp
    · obtain ⟨i, fd, hentry, -⟩ := h.opened f hf
      rw [hnone] at hentry
      cases hentry
  · intro f hf
    rw [touched_map] at hf
    unfold disk
    split_ifs with hlists
    · rw [(h.untouched f hlists hf).2.2, Option.map_map]
      exact (Option.map_id' ..).symm
    · rw [h.unlisted f hlists]
      rfl

theorem Scannable.onDisk_eq (h : Scannable t.structured_directory r s) :
    t.onDisk s = fun f => (disk t.structured_directory r s f).map .bytes := by
  funext f
  unfold FilesystemFdw.onDisk disk
  split_ifs with hf
  · rw [h.fileContent_key hf]
  · rfl

/-- The commit succeeds, and the table on the disk is the one of the changes. -/
theorem Tracked.commit (h : Tracked t.structured_directory r T log s)
    (hnum : s.os.Numbered (PathOf r (touched log))) :
    ∃ s', t.preCommit s = .ok () s' ∧ Fresh s' ∧ Scannable t.structured_directory r s' ∧
      s'.os.process = s.os.process ∧
      t.onDisk s' = fun f => (applyAll T log f).map fun v => .bytes (v.toBytes s.os.process) := by
  obtain ⟨hl, hready⟩ := h.replaying hnum
  have hreplayed : Replayed (fun f => (T f).map (PyVal.toBytes s.os.process))
      (([] : List FileChange).map (Change.map (PyVal.toBytes s.os.process)))
      (log.map (Change.map (PyVal.toBytes s.os.process))) (disk t.structured_directory r s) :=
    h.replayed hnum
  obtain ⟨s₁, hlog, h₁, hdisk⟩ := hready.commitLog hl rfl h.logged (fun f hf => hf) hreplayed
    (h.fits.map _)
  obtain ⟨s', hclean, hdata, hfile, hcache, hstate, hinvisible, hupdated⟩ :=
    postXactCleanup_idle h₁.opened h₁.settled.faults
  have hrun : t.preCommit s = .ok () s' := by
    unfold FilesystemFdw.preCommit
    rw [get_bind, bind_eq_ok]
    exact ⟨_, s₁, hlog, hclean⟩
  have hafter : t.after s .preCommit = s' := congrArg finalState hrun
  have hsettled : s.os.Settled (PathOf r (touched log)) s'.os :=
    hafter ▸ FilesystemFdw.preserved_after (sustained_settled _ s.os).preserved
      ⟨h.scannable.sound.faults, hnum, .refl _⟩ .preCommit
  have htree : s'.os.Tree := hafter ▸ FilesystemFdw.preserved_after
    sustained_tree.preserved h.scannable.tree .preCommit
  have hfresh : Fresh s' :=
    ⟨hstate, hinvisible, hupdated, hcache, hsettled.faults, hsettled.numbered.bound⟩
  have hscan : Scannable t.structured_directory r s' :=
    ⟨⟨hfresh.sound, hsettled.dirs.resolve h.scannable.root,
      hsettled.dirs.dirs r h.scannable.isDir, hfresh.inodes,
      fun names i hn => h₁.newline names i ((hfile _).symm.trans hn)⟩, htree, by
    rw [hsettled.dirs.process]
    exact h.scannable.literals⟩
  refine ⟨s', hrun, hfresh, hscan, hsettled.dirs.process, ?_⟩
  rw [hscan.onDisk_eq]
  funext f
  have hsame : disk t.structured_directory r s' f = disk t.structured_directory r s₁ f :=
    disk_congr fun _ => hdata _
  rw [hsame, hdisk, List.nil_append, applyAll_map, Option.map_map]
  rfl

/-- The commit of a transaction from an idle table leaves the table idle. -/
theorem Idle.commit (hs : Idle t.structured_directory r s) {actions : List Action}
    (h : Tracked t.structured_directory r T log (t.run s actions)) :
    ∃ s', t.preCommit (t.run s actions) = .ok () s' ∧ Idle t.structured_directory r s' ∧
      s'.os.process = s.os.process ∧
      t.onDisk s' = fun f => (applyAll T log f).map fun v => .bytes (v.toBytes s.os.process) := by
  have hsettled := hs.settled_run t actions
  obtain ⟨s', hrun, hfresh, hscan, hprocess, hstored⟩ :=
    h.commit (hsettled.numbered.mono fun _ _ => trivial)
  have hafter : t.after (t.run s actions) .preCommit = s' := congrArg finalState hrun
  have hsettled' : s.os.Settled (fun _ => True) s'.os := hafter ▸ FilesystemFdw.preserved_after
    (sustained_settled _ s.os).preserved hsettled .preCommit
  rw [hsettled.dirs.process] at hstored
  exact ⟨s', hrun, ⟨hfresh, hscan, fun p q i => hsettled'.numbered.alone p q i trivial⟩,
    hsettled'.dirs.process, hstored⟩

namespace FilesystemFdw

variable (hplain : t.Plain name content)

include hplain

/-- Before and after a commit the same rows are shown. -/
theorem shows_committed {process : Process} (h : Tracked t.structured_directory r T log s)
    (hfresh : Fresh s') (hscan : Scannable t.structured_directory r s')
    (hstored : t.onDisk s' = fun f => (applyAll T log f).map fun v => .bytes (v.toBytes process))
    (f : Str) (shown : Option PyVal) : t.Shows s' f shown ↔
      ∃ v, t.Shows s f (some v) ∧ shown = some (.bytes (v.toBytes process)) := by
  rw [(hfresh.tracked hscan).shows_iff hplain, hstored]
  simp only [h.shows_iff hplain]
  constructor
  · rintro ⟨w, hw, rfl⟩
    obtain ⟨v, hv, rfl⟩ := Option.map_eq_some_iff.mp hw
    exact ⟨v, ⟨v, hv, rfl⟩, rfl⟩
  · rintro ⟨v, ⟨w, hw, hvw⟩, rfl⟩
    cases hvw
    exact ⟨_, Option.map_eq_some_iff.mpr ⟨v, hw, rfl⟩, rfl⟩

/-- The commit of a transaction succeeds, a full scan then shows the rows that one just before it
shows, with their contents as bytes, and nothing of the transaction is left in memory. -/
theorem preCommit_publishes (hs : Idle t.structured_directory r s) {actions : List Action}
    (ho : t.Along t.Orderly s actions) : ∃ s', t.preCommit (t.run s actions) = .ok () s' ∧
      Idle t.structured_directory r s' ∧ ∀ f shown, t.Shows s' f shown ↔
        ∃ v, t.Shows (t.run s actions) f (some v) ∧ shown = some (.bytes (v.toBytes s.os.process)) := by
  have htracked := tracked_run hplain (hs.fresh.tracked hs.scannable) ho
  obtain ⟨s', hrun, hidle, -, hstored⟩ := hs.commit htracked
  exact ⟨s', hrun, hidle, shows_committed hplain htracked hidle.fresh hidle.scannable hstored⟩

/-- An orderly call, and the files that it opens have no other link. -/
structure Publishable (t : FilesystemFdw) (s : State) (a : Action) : Prop extends t.Orderly s a where
  unlinked : ∀ c, t.change a = some c → ∀ f ∈ c.keys, t.Unlinked s f

omit hplain in
theorem numbered_keys (h : Scannable t.structured_directory r s)
    (hnum : s.os.Numbered (PathOf r (touched log))) {a : Action} (ho : t.Publishable s a) :
    s.os.Numbered (PathOf r (touched (log ++ (t.change a).toList))) := by
  refine ⟨hnum.bound, ?_⟩
  rintro p q i ⟨f, hf, rfl⟩ hp hq
  rw [touched_append, List.mem_append] at hf
  rcases hf with hf | hf
  · exact hnum.alone _ q i ⟨f, hf, rfl⟩ hp hq
  cases hchange : t.change a with
  | none =>
    rw [hchange] at hf
    cases hf
  | some c =>
    have hmem : f ∈ c.keys := by simpa [hchange] using hf
    have hlists := ho.lists c hchange f hmem
    have hstat : s.os.stat (t.structured_directory.key f) = some (.file i) :=
      (Os.stat_pathJoin h.tree h.root hlists.proper).trans (Os.file_eq_some.mp hp)
    obtain ⟨p', hresolve, -⟩ := Os.stat_eq_some.mp hstat
    obtain rfl := resolve_key h.root hlists hresolve
    exact ho.unlinked c hchange f hmem _ q i hresolve hp hq

/-- The transaction stays tracked, and the files that it has opened have no other link. -/
theorem publishable_run (h : Tracked t.structured_directory r T log s)
    (hnum : s.os.Numbered (PathOf r (touched log))) {actions : List Action}
    (ho : t.Along t.Publishable s actions) :
    Tracked t.structured_directory r T (log ++ t.changes actions) (t.run s actions) ∧
      (t.run s actions).os.Numbered (PathOf r (touched (log ++ t.changes actions))) := by
  induction actions generalizing s log with
  | nil => exact ⟨by simpa [changes, run] using h, by simpa [changes, run] using hnum⟩
  | cons a actions ih =>
    have hafter : (t.after s a).os.Numbered (PathOf r (touched (log ++ (t.change a).toList))) :=
      preserved_after (sustained_numbered _).preserved (numbered_keys h.scannable hnum ho.1) a
    have hall := ih (tracked_after hplain h ho.1.toOrderly) hafter ho.2
    rw [changes_cons, ← List.append_assoc]
    exact hall

/-- A commit in which no row was written when it was gone succeeds. The scans before and after it
show the same, which is what is on the disk, and nothing of the transaction is left in memory. -/
theorem preCommit_keeps_shown (hs : Fresh s) (hscan : Scannable t.structured_directory r s)
    {actions : List Action} (ho : t.Along t.Publishable s actions) :
    ∃ s', t.preCommit (t.run s actions) = .ok () s' ∧ Fresh s' ∧
      (∀ f shown, t.Shows s' f shown ↔
        ∃ v, t.Shows (t.run s actions) f (some v) ∧
          shown = some (.bytes (v.toBytes s.os.process))) ∧
      ∀ f shown, t.Shows s' f shown ↔ t.structured_directory.Lists f ∧
        ∃ data, s'.os.data (r ++ f.splitOn '/') = some data ∧ shown = some (.bytes data) := by
  have hnum : s.os.Numbered (PathOf r (touched ([] : List FileChange))) := by
    refine ⟨hs.inodes, ?_⟩
    rintro p q i ⟨f, hf, -⟩
    cases hf
  obtain ⟨htracked, hnumbered⟩ := publishable_run hplain (hs.tracked hscan) hnum ho
  obtain ⟨s', hrun, hfresh, hscan', -, hstored⟩ := htracked.commit hnumbered
  have hprocess : (t.run s actions).os.process = s.os.process :=
    (preserved_run (sustained_dirs s.os).preserved (.refl _) actions).process
  rw [hprocess] at hstored
  refine ⟨s', hrun, hfresh, shows_committed hplain htracked hfresh hscan' hstored,
    fun f shown => ?_⟩
  rw [(hfresh.tracked hscan').shows_iff hplain, hscan'.onDisk_eq]
  by_cases hf : t.structured_directory.Lists f
  · simp [applyAll, disk, hf]
  · simp [applyAll, disk, hf]

end FilesystemFdw

end Commit

section Sample

theorem swapped_publishable : flatTable.Along flatTable.Publishable oneFile swapped := by
  have hunlinked : ∀ actions f, flatTable.Unlinked (flatTable.run oneFile actions) f :=
    Idle.unlinked oneFile_idle
  obtain ⟨hmove, hput, -⟩ := swapped_orderly
  exact ⟨⟨hmove, fun _ _ f _ => hunlinked [] f⟩, ⟨hput, fun _ _ f _ => hunlinked (swapped.take 1) f⟩,
    trivial⟩

/-- Of a file that is renamed and made anew the commit leaves what was shown. -/
theorem swapped_kept : ∃ s', flatTable.preCommit (flatTable.run oneFile swapped) = .ok () s' ∧
    Fresh s' ∧
    (∀ f shown, flatTable.Shows s' f shown ↔
      ∃ v, flatTable.Shows (flatTable.run oneFile swapped) f (some v) ∧
        shown = some (.bytes (v.toBytes oneFile.os.process))) ∧
    ∀ f shown, flatTable.Shows s' f shown ↔ flat.Lists f ∧
      ∃ data, s'.os.data ([['r']] ++ f.splitOn '/') = some data ∧ shown = some (.bytes data) :=
  FilesystemFdw.preCommit_keeps_shown flat_plain oneFile_fresh oneFile_scannable swapped_publishable

/-- A row that is deleted when it is gone makes the commit raise. -/
theorem deletedTwice_raises :
    let actions := [Action.delete ['x'], .delete ['x']]
    flatTable.Along (fun s a => flatTable.Succeeds s a) oneFile actions ∧
      outcome (flatTable.preCommit (flatTable.run oneFile actions)) = .error (.os .ENOENT) := by
  intro actions
  exact ⟨⟨by decide +kernel, by decide +kernel, trivial⟩, by decide +kernel⟩

/-- The renamed file and the new one under its old name are on the disk. -/
theorem swapped_published : ∃ s', flatTable.preCommit (flatTable.run oneFile swapped) = .ok () s' ∧
    Idle flat [['r']] s' ∧ ∀ f shown, flatTable.Shows s' f shown ↔
      ∃ v, flatTable.Shows (flatTable.run oneFile swapped) f (some v) ∧
        shown = some (.bytes (v.toBytes oneFile.os.process)) :=
  FilesystemFdw.preCommit_publishes flat_plain oneFile_idle swapped_orderly

end Sample

end Multicorn.Fs
