import Multicorn.Fs.Reopening

/-! The commit replays the log; until it has taken a file away for good, the log can still be
undone. -/
namespace Multicorn.Fs
open Multicorn.StateMonad Multicorn.HandleLog

variable {s s' s₀ : State} {t : FilesystemFdw} {d : Directory} {start : FileVolume}
  {undos : List HandleUndo} {k : Str} {p : Path} {away written : List Str}

/-- What undoing a logged operation takes out and writes, by keys. -/
inductive Reverts (d : Directory) (s : State) : Operation → List HandleUndo → Prop
  | insert {item : Item} {k : Str} {p : Path} (hk : d.fullFilename item = .ok k)
      (hp : Locked s k p) : Reverts d s (.insert item) [.remove p]
  | content {olditem newitem : Item} {k : Str} {p : Path} (hk₀ : d.fullFilename olditem = .ok k)
      (hk : d.fullFilename newitem = .ok k) (hp : Locked s k p)
      (hcontent : olditem.content.Writable s.os.process) :
      Reverts d s (.update olditem newitem) [.restore k p (olditem.content.toBytes s.os.process)]
  | rename {olditem newitem : Item} {k₀ k : Str} {p₀ p : Path}
      (hk₀ : d.fullFilename olditem = .ok k₀) (hk : d.fullFilename newitem = .ok k) (hne : k₀ ≠ k)
      (hp₀ : Locked s k₀ p₀) (hp : Locked s k p)
      (hcontent : olditem.content.Writable s.os.process) :
      Reverts d s (.update olditem newitem)
        [.remove p, .restore k₀ p₀ (olditem.content.toBytes s.os.process)]
  | delete {item : Item} {k : Str} {p : Path} (hk : d.fullFilename item = .ok k)
      (hp : Locked s k p) : Reverts d s (.delete item) []

/-! Which files are away. -/

/-- `away` are the keys whose files the replay has taken away and not made again. -/
structure Tracks (s₀ : State) (away : List Str) (s : State) : Prop where
  locked : ∀ k ∈ away, ∃ p, Locked s₀ k p
  held : ∀ k p, Locked s₀ k p → k ∉ away → ∃ i, Held s k i
  lost : ∀ k p, k ∈ away → Locked s₀ k p → (∀ i, ¬ Held s k i) ∧ s.os.file p = none
  once : ∀ k k' p, k ∈ away → k' ∈ away → Locked s₀ k p → Locked s₀ k' p → k = k'

theorem Tracks.initial (s₀ : State) (faults : List (Option Errno)) :
    Tracks s₀ [] (s₀.withFaults faults) where
  locked k hk := by cases hk
  held k p hk _ := by
    obtain ⟨i, hi, -⟩ := hk.held
    exact ⟨i, hi⟩
  lost k p hk := by cases hk
  once k k' p hk := by cases hk

theorem Tracks.regained (h : Tracks s₀ away s) (hk : Locked s₀ k p) {fd : ℕ}
    (hr : Regained s s' k p fd) : Tracks s₀ (away.filter (· ≠ k)) s' := by
  have hmem : ∀ k', k' ∈ away.filter (· ≠ k) ↔ k' ∈ away ∧ k' ≠ k := by
    intro k'
    simp
  constructor
  · intro k' hk'
    exact h.locked k' ((hmem k').mp hk').1
  · intro k' q hk' hnot
    by_cases hne : k' = k
    · subst hne
      obtain ⟨i, hi⟩ := hr.fd
      exact ⟨i, fd, hr.entry, hi⟩
    · have haway : k' ∉ away := fun hmem' => hnot ((hmem k').mpr ⟨hmem', hne⟩)
      obtain ⟨i, hi⟩ := h.held k' q hk' haway
      exact ⟨i, (hr.others k' hne i).mpr hi⟩
  · intro k' q hk' hq
    obtain ⟨haway, hne⟩ := (hmem k').mp hk'
    obtain ⟨hu, hfile⟩ := h.lost k' q haway hq
    refine ⟨fun i hi => hu i ((hr.others k' hne i).mp hi), ?_⟩
    rw [hr.file q, hfile]
    intro heq
    subst heq
    apply h.held k q hk
    intro hkaway
    exact hne (h.once k' k q haway hkaway hq hk)
  · intro k₁ k₂ q h₁ h₂
    exact h.once k₁ k₂ q ((hmem k₁).mp h₁).1 ((hmem k₂).mp h₂).1

theorem Tracks.wrote (h : Tracks s₀ away s) {i : ℕ} {data : Bytes} (hw : Wrote s s' i data) :
    Tracks s₀ away s' := by
  have hfd : ∀ n, s'.os.fd n = s.os.fd n := by
    intro n
    unfold Os.fd
    rw [hw.fds]
  have hheld : ∀ k i, Held s' k i ↔ Held s k i := by
    intro k i
    apply held_congr
    · rw [hw.cache]
    · intro e _
      exact hfd e.1
  have hfile : ∀ q, s'.os.file q = s.os.file q := by
    apply Os.file_of_node
    intro q
    unfold Os.node
    rw [hw.nodes]
  constructor
  · exact h.locked
  · intro k p hk hnot
    obtain ⟨i, hi⟩ := h.held k p hk hnot
    exact ⟨i, (hheld k i).mpr hi⟩
  · intro k p hk hp
    obtain ⟨hu, hnone⟩ := h.lost k p hk hp
    exact ⟨fun i hi => hu i ((hheld k i).mp hi), (hfile p).trans hnone⟩
  · exact h.once

theorem Tracks.evicted (h : Tracks s₀ away s) (hk : Locked s₀ k p) (hfile : s.os.file p ≠ none)
    (he : Evicted s s' k p) : Tracks s₀ (k :: away) s' := by
  have hself : s'.os.file p = none := by
    rw [he.file]
    exact Function.update_self ..
  have hthere : ∀ k', k' ∈ away → ¬ Locked s₀ k' p := fun k' hk' hp =>
    hfile (h.lost k' p hk' hp).2
  constructor
  · intro k' hk'
    rcases List.mem_cons.mp hk' with rfl | hk'
    · exact ⟨p, hk⟩
    · exact h.locked k' hk'
  · intro k' q hk' hnot
    rw [List.mem_cons, not_or] at hnot
    obtain ⟨i, hi⟩ := h.held k' q hk' hnot.2
    exact ⟨i, (he.held hnot.1 i).mpr hi⟩
  · intro k' q hk' hq
    by_cases hne : k' = k
    · subst hne
      rw [hq.unique hk]
      exact ⟨he.unheld, hself⟩
    · have haway := List.mem_of_ne_of_mem hne hk'
      obtain ⟨hu, hnone⟩ := h.lost k' q haway hq
      refine ⟨fun i hi => hu i ((he.held hne i).mp hi), ?_⟩
      rw [he.file, Function.update_apply, hnone]
      exact ite_self _
  · intro k₁ k₂ q h₁ h₂ hq₁ hq₂
    rcases List.mem_cons.mp h₁ with rfl | h₁
    · rcases List.mem_cons.mp h₂ with rfl | h₂
      · rfl
      · rw [hq₁.unique hk] at hq₂
        exact absurd hq₂ (hthere k₂ h₂)
    · rcases List.mem_cons.mp h₂ with heq | h₂
      · rw [heq] at hq₂
        rw [hq₂.unique hk] at hq₁
        exact absurd hq₁ (hthere k₁ h₁)
      · exact h.once k₁ k₂ q h₁ h₂ hq₁ hq₂

/-! How far a commit may get. -/

/-- The path of the key has been taken away. -/
def Missing (os : Os) (away : List Str) (k : Str) : Prop := ∃ k' ∈ away, os.resolve k' = os.resolve k

/-- The file of the key has no other name, or nothing was written to it under the key. -/
def Spare (os : Os) (written : List Str) (k : Str) : Prop :=
  (∀ p q i, os.resolve k = .ok p → os.file p = some i → os.file q = some i → p = q) ∨ k ∉ written

/-- Where the call after the first `n` fails, or before it a content that cannot be written, the
replay of the log has not taken a file away that a rollback would not make again. A renamed file
is made again, a deleted one is not. The keys in `away` have lost their files to a rename, and
`written` are those written so far. -/
def Reversible (d : Directory) (os : Os) : ℕ → List Str → List Str → List Operation → Prop
  | _, _, _, [] => False
  | n, away, written, .insert item :: ops =>
    n < 2 + item.writeCalls ∨ ¬ item.content.Writable os.process ∨
      ∃ k, d.fullFilename item = .ok k ∧
        Reversible d os (n - (2 + item.writeCalls)) (away.filter (· ≠ k)) written ops
  | n, away, written, .update olditem newitem :: ops =>
    ∃ k₀ k, d.fullFilename olditem = .ok k₀ ∧ d.fullFilename newitem = .ok k ∧
      if k₀ = k then
        n < 2 + newitem.writeCalls ∨ ¬ newitem.content.Writable os.process ∨
          Reversible d os (n - (2 + newitem.writeCalls)) (away.filter (· ≠ k)) (k :: written) ops
      else
        n < 3 ∨ Missing os (away.filter (· ≠ k)) k₀ ∨ Spare os written k₀ ∧
          (n < 4 + newitem.writeCalls ∨ ¬ newitem.content.Writable os.process ∨
            Reversible d os (n - (4 + newitem.writeCalls)) (k₀ :: away.filter (· ≠ k)) written ops)
  | n, away, _, .delete item :: _ =>
    n < 1 ∨ ∃ k, d.fullFilename item = .ok k ∧ Missing os away k

theorem Tracks.missing (h : Tracks s₀ away s) (hk : Locked s₀ k p) (hm : Missing s₀.os away k) :
    s.os.file p = none := by
  obtain ⟨k', hk', hsame⟩ := hm
  obtain ⟨q, hq⟩ := h.locked k' hk'
  have hp : s₀.os.resolve k' = .ok p := hsame.trans hk.path
  have hqp : q = p := Except.ok.inj (hq.path.symm.trans hp)
  rw [← hqp]
  exact (h.lost k' q hk' hq).2

section Replaying

variable {W : Str → Prop}

theorem openFd_eq {item : Item} (hk : d.fullFilename item = .ok k) (fail_if : Option FailIf)
    (s : State) : item.openFd d false fail_if s = openExclusive k fail_if s := by
  unfold Item.openFd
  rw [hk]
  rfl

/-- Opening a key and writing an item through it. -/
theorem leaves_put (h : Midway s₀ W start undos s) (ht : Tracks s₀ away s) (hk : Locked s₀ k p)
    {opener item : Item} (hopener : d.fullFilename opener = .ok k)
    (hcovered : .remove p ∈ undos ∨ Restores undos k p ∧ W k) :
    Leaves (fun _ => True) (Midway s₀ W start undos)
      (fun _ s' => item.content.Writable s₀.os.process ∧ Midway s₀ W start undos s' ∧
        Tracks s₀ (away.filter (· ≠ k)) s' ∧ Spends (2 + item.writeCalls) s.os.faults s'.os.faults)
      ((opener.openFd d false none >>= fun fd => item.write d (some fd)) s) := by
  apply Leaves.bind (P := fun fd s' => Midway s₀ W start undos s' ∧ Regained s s' k p fd)
  · rw [openFd_eq hopener]
    exact leaves_open h hk hcovered fun _ _ => trivial
  intro fd s₁ hs₁
  obtain ⟨h₁, hr⟩ := hs₁
  obtain ⟨i, hfd⟩ := hr.fd
  have hwritable : start.data p = none ∨ Restores undos k p ∧ W k :=
    hcovered.imp_left h.ready.placed.free
  apply (leaves_write h₁ hk ⟨fd, hr.entry, hfd⟩ hfd hwritable (fun _ _ => trivial)
    fun _ _ => trivial).mono
  intro u s₂ hs₂
  obtain ⟨hcontent, h₂, hspends, hwrote⟩ := hs₂
  exact ⟨hcontent, h₂, (ht.regained hk hr).wrote hwrote, hr.spends.trans hspends⟩

/-- Taking away the file of a rename's old name. -/
theorem leaves_takeAway (h : Midway s₀ W start undos s) (ht : Tracks s₀ away s)
    (hk : Locked s₀ k p) (hr : Restores undos k p)
    (hspare : (∀ q i, start.file p = some i → start.file q = some i → p = q) ∨ ¬ W k) :
    Leaves (fun _ => True) (Midway s₀ W start undos)
      (fun _ s' => s.os.file p ≠ none ∧ Midway s₀ W start undos s' ∧ Evicted s s' k p ∧
        Tracks s₀ (k :: away) s' ∧ Spends 2 s.os.faults s'.os.faults)
      ((call (unlink k) >>= fun _ => clearCacheEntry k) s) := by
  have htouch : ∀ fs, Midway s₀ W start undos { s.withFaults fs with
      os := (s.withFaults fs).os.touch k } := fun fs =>
    (h.withFaults fs).congr ⟨fun _ => rfl, fun _ _ _ => rfl⟩ (fun _ => rfl) rfl rfl rfl rfl
  apply (leaves_unlink (h.resolve hk.path) (fun _ => trivial) h.withFaults htouch).bind
  intro u s₁ hs₁
  obtain ⟨fs, hfs, hfile, rfl⟩ := hs₁
  have hall : ∀ k', Restores undos k' p → ∃ i, Held (s.withFaults fs) k' i := by
    intro k' hk'
    have hp := h.ready.named k' p hk'
    apply ht.held k' p hp
    intro haway
    exact hfile (ht.lost k' p haway hp).2
  apply (leaves_evict (h.withFaults fs) hk hr hfile hall hspare).mono
  intro u s₂ hs₂
  obtain ⟨h₂, hspends, he⟩ := hs₂
  have he' : Evicted s s₂ k p := ⟨he.lookup, he.fds, he.unheld, he.file⟩
  exact ⟨hfile, h₂, he', ht.evicted hk hfile he', hfs.trans hspends⟩

/-- An unlink that is the call to fail, or whose file is away, raises. -/
theorem leaves_unlink_blocked (h : Midway s₀ W start undos s) (hk : Locked s₀ k p)
    (hblocked : (∀ fs, ¬ Spends 1 s.os.faults fs) ∨ s.os.file p = none) :
    Leaves (fun _ => True) (Midway s₀ W start undos) (fun _ _ => False) (call (unlink k) s) := by
  have htouch : ∀ fs, Midway s₀ W start undos { s.withFaults fs with
      os := (s.withFaults fs).os.touch k } := fun fs =>
    (h.withFaults fs).congr ⟨fun _ => rfl, fun _ _ _ => rfl⟩ (fun _ => rfl) rfl rfl rfl rfl
  apply (leaves_unlink (h.resolve hk.path) (fun _ => trivial) h.withFaults htouch).mono
  intro u s₁ hs₁
  obtain ⟨fs, hfs, hfile, -⟩ := hs₁
  rcases hblocked with hfails | hnone
  · exact hfails fs hfs
  · exact hfile hnone

end Replaying

section Commits

variable {n : ℕ} {e : Errno} {op : Operation} {ops : List Operation} {plan : List HandleUndo}

/-- The replay is at `ops`, and the call after the next `n` fails. -/
def Replaying (d : Directory) (s₀ : State) (start : FileVolume) (undos : List HandleUndo)
    (e : Errno) (ops : List Operation) (s : State) : Prop :=
  ∃ n away written, s.os.faults = List.replicate n none ++ [some e] ∧
    Midway s₀ (· ∈ written) start undos s ∧ Tracks s₀ away s ∧
    Reversible d s₀.os n away written ops

theorem Replaying.of_spent {away written : List Str} (h : Midway s₀ (· ∈ written) start undos s')
    (ht : Tracks s₀ away s') {m : ℕ} (hf : s.os.faults = List.replicate n none ++ [some e])
    (hm : Spends m s.os.faults s'.os.faults) {item : Item}
    (hcontent : item.content.Writable s₀.os.process)
    (hrest : n < m ∨ ¬ item.content.Writable s₀.os.process ∨
      Reversible d s₀.os (n - m) away written ops) :
    Replaying d s₀ start undos e ops s' := by
  rw [hf] at hm
  obtain ⟨hle, hf'⟩ := hm.failing
  rcases hrest with hlt | hnot | hrest
  · omega
  · exact absurd hcontent hnot
  · exact ⟨n - m, away, written, hf', h, ht, hrest⟩

theorem leaves_commit_insert {item : Item} (hop : Reverts d s₀ (.insert item) plan)
    (hplan : ∀ u ∈ plan, u ∈ undos)
    (h : Replaying d s₀ start undos e (.insert item :: ops) s) :
    Leaves (fun _ => True) (Midway s₀ (fun _ => True) start undos)
      (fun _ s' => Replaying d s₀ start undos e ops s') (item.write d none s) := by
  obtain ⟨n, away, written, hf, h, ht, hrev⟩ := h
  cases hop with
  | @insert _ k p hk hp =>
    have hrun : item.write d none s =
        (item.openFd d false none >>= fun fd => item.write d (some fd)) s := rfl
    have hremove : .remove p ∈ undos := hplan _ (List.mem_singleton.mpr rfl)
    rw [hrun]
    apply ((leaves_put h ht hp hk (.inl hremove)).weaken fun _ hm => hm.mono fun _ _ => trivial).mono
    intro u s' hs'
    obtain ⟨hcontent, h', ht', hspends⟩ := hs'
    apply Replaying.of_spent h' ht' hf hspends hcontent
    rcases hrev with hlt | hnot | ⟨k', hk', hrest⟩
    · exact .inl hlt
    · exact .inr (.inl hnot)
    · rw [hk] at hk'
      cases hk'
      exact .inr (.inr hrest)

theorem leaves_commit_update {olditem newitem : Item}
    (hop : Reverts t.structured_directory s₀ (.update olditem newitem) plan)
    (hplan : ∀ u ∈ plan, u ∈ undos) (hstart : ∀ p i, start.file p = some i → s₀.os.file p = some i)
    (h : Replaying t.structured_directory s₀ start undos e (.update olditem newitem :: ops) s) :
    Leaves (fun _ => True) (Midway s₀ (fun _ => True) start undos)
      (fun _ s' => Replaying t.structured_directory s₀ start undos e ops s')
      (t.commitOperation (.update olditem newitem) s) := by
  obtain ⟨n, away, written, hf, h, ht, k₁, k₂, hk₁, hk₂, hrev⟩ := h
  cases hop with
  | @content _ _ k p hk₀ hk hp hcontent =>
    have hsame₁ : k = k₁ := Except.ok.inj (hk₀.symm.trans hk₁)
    have hsame₂ : k = k₂ := Except.ok.inj (hk.symm.trans hk₂)
    subst hsame₁
    subst hsame₂
    rw [if_pos rfl] at hrev
    have hrun : t.commitOperation (.update olditem newitem) s =
        (olditem.openFd t.structured_directory false none >>= fun fd =>
          newitem.write t.structured_directory (some fd)) s := by
      unfold FilesystemFdw.commitOperation
      simp only [hk₀, hk, liftExcept, pure_bind, if_true]
    have hrestores : Restores undos k p := ⟨_, hplan _ (List.mem_singleton.mpr rfl)⟩
    have hw : Midway s₀ (· ∈ k :: written) start undos s :=
      h.mono fun k' hk' => List.mem_cons_of_mem _ hk'
    rw [hrun]
    apply ((leaves_put hw ht hp hk₀ (.inr ⟨hrestores, List.mem_cons_self ..⟩)).weaken
      fun _ hm => hm.mono fun _ _ => trivial).mono
    intro u s' hs'
    obtain ⟨hcontent', h', ht', hspends⟩ := hs'
    exact Replaying.of_spent h' ht' hf hspends hcontent' hrev
  | @rename _ _ k₀ k p₀ p hk₀ hk hne hp₀ hp hcontent =>
    have hsame₁ : k₀ = k₁ := Except.ok.inj (hk₀.symm.trans hk₁)
    have hsame₂ : k = k₂ := Except.ok.inj (hk.symm.trans hk₂)
    subst hsame₁
    subst hsame₂
    rw [if_neg hne] at hrev
    have hrun : t.commitOperation (.update olditem newitem) s =
        (newitem.openFd t.structured_directory false none >>= fun fd =>
          (call (unlink k₀) >>= fun _ => clearCacheEntry k₀) >>= fun _ =>
            newitem.write t.structured_directory (some fd)) s := by
      unfold FilesystemFdw.commitOperation
      simp only [hk₀, hk, liftExcept, pure_bind, if_neg hne, bind_assoc]
    have hremove : .remove p ∈ undos := hplan _ (List.mem_cons_self ..)
    have hrestores : Restores undos k₀ p₀ :=
      ⟨_, hplan _ (List.mem_cons_of_mem _ (List.mem_singleton.mpr rfl))⟩
    rw [hrun]
    apply Leaves.bind (P := fun fd s' => Midway s₀ (· ∈ written) start undos s' ∧
      Regained s s' k p fd)
    · rw [openFd_eq hk]
      exact (leaves_open h hp (.inl hremove) fun _ _ => trivial).weaken
        fun _ hm => hm.mono fun _ _ => trivial
    intro fd s₁ hs₁
    obtain ⟨h₁, hr⟩ := hs₁
    have ht₁ := ht.regained hp hr
    have hspends₁ := hr.spends
    rw [hf] at hspends₁
    obtain ⟨hle, hf₁⟩ := hspends₁.failing
    have hblocked : (∀ fs, ¬ Spends 1 s₁.os.faults fs) ∨ s₁.os.file p₀ = none →
        Leaves (fun _ => True) (Midway s₀ (fun _ => True) start undos)
          (fun _ s' => Replaying t.structured_directory s₀ start undos e ops s')
          (((call (unlink k₀) >>= fun _ => clearCacheEntry k₀) >>= fun _ =>
            newitem.write t.structured_directory (some fd)) s₁) := by
      intro hblocked
      rw [bind_assoc]
      apply ((leaves_unlink_blocked h₁ hp₀ hblocked).weaken
        fun _ hm => hm.mono fun _ _ => trivial).bind
      intro u s₂ hfalse
      exact absurd hfalse id
    rcases hrev with hlt | hmissing | ⟨hspare, hrest⟩
    · apply hblocked
      left
      intro fs hfs
      rw [hf₁] at hfs
      obtain ⟨hle', -⟩ := hfs.failing
      omega
    · exact hblocked (.inr (ht₁.missing hp₀ hmissing))
    · have halone : (∀ q i, start.file p₀ = some i → start.file q = some i → p₀ = q) ∨
          ¬ k₀ ∈ written := by
        apply hspare.imp_left
        intro halone q i hi hq
        exact halone p₀ q i hp₀.path (hstart p₀ i hi) (hstart q i hq)
      apply ((leaves_takeAway h₁ ht₁ hp₀ hrestores halone).weaken
        fun _ hm => hm.mono fun _ _ => trivial).bind
      intro u s₂ hs₂
      obtain ⟨-, h₂, he, ht₂, hspends₂⟩ := hs₂
      obtain ⟨i, hfd⟩ := hr.fd
      have hne' : k ≠ k₀ := fun heq => hne heq.symm
      have hfd₂ : s₂.os.fd fd = some ⟨.file i, true⟩ :=
        (he.fds k _ hne' hr.entry).trans hfd
      have hentry₂ : s₂.cache.lookup k = some (fd, false) := (he.lookup k hne').trans hr.entry
      apply ((leaves_write h₂ hp ⟨fd, hentry₂, hfd₂⟩ hfd₂ (.inl (h₂.ready.placed.free hremove))
        (fun _ _ => trivial) fun _ _ => trivial).weaken fun _ hm => hm.mono fun _ _ => trivial).mono
      intro u s₃ hs₃
      obtain ⟨hcontent', h₃, hspends₃, hwrote⟩ := hs₃
      have hall := (hr.spends.trans hspends₂).trans hspends₃
      exact Replaying.of_spent h₃ (ht₂.wrote hwrote) hf hall hcontent' hrest

theorem leaves_commit_delete {item : Item}
    (hop : Reverts t.structured_directory s₀ (.delete item) plan)
    (h : Replaying t.structured_directory s₀ start undos e (.delete item :: ops) s) :
    Leaves (fun _ => True) (Midway s₀ (fun _ => True) start undos)
      (fun _ s' => Replaying t.structured_directory s₀ start undos e ops s')
      (t.commitOperation (.delete item) s) := by
  obtain ⟨n, away, written, hf, h, ht, hrev⟩ := h
  cases hop with
  | @delete _ k p hk hp =>
    have hrun : t.commitOperation (.delete item) s =
        (call (unlink k) >>= fun _ => clearCacheEntry k) s := by
      unfold FilesystemFdw.commitOperation Item.remove
      simp only [hk, liftExcept, pure_bind]
    rw [hrun]
    have hblocked : (∀ fs, ¬ Spends 1 s.os.faults fs) ∨ s.os.file p = none := by
      rcases hrev with hlt | ⟨k', hk', hmissing⟩
      · left
        intro fs hfs
        rw [hf] at hfs
        obtain ⟨hle, -⟩ := hfs.failing
        omega
      · rw [hk] at hk'
        cases hk'
        exact .inr (ht.missing hp hmissing)
    apply ((leaves_unlink_blocked h hp hblocked).weaken
      fun _ hm => hm.mono fun _ _ => trivial).bind
    intro u s₂ hfalse
    exact absurd hfalse id

/-- A replay that can be undone raises before it is through the log. -/
theorem leaves_replay (hops : ∀ op ∈ ops, ∃ plan, Reverts t.structured_directory s₀ op plan ∧
      ∀ u ∈ plan, u ∈ undos)
    (hstart : ∀ p i, start.file p = some i → s₀.os.file p = some i)
    (h : Replaying t.structured_directory s₀ start undos e ops s) :
    Leaves (fun _ => True) (Midway s₀ (fun _ => True) start undos) (fun _ _ => False)
      (ops.forM t.commitOperation s) := by
  induction ops generalizing s with
  | nil =>
    obtain ⟨n, away, written, -, -, -, hrev⟩ := h
    exact absurd hrev id
  | cons op ops ih =>
    rw [List.forall_mem_cons] at hops
    obtain ⟨⟨plan, hop, hplan⟩, hrest⟩ := hops
    apply Leaves.bind (P := fun _ s' => Replaying t.structured_directory s₀ start undos e ops s')
    · cases op with
      | insert item => exact leaves_commit_insert hop hplan h
      | update olditem newitem => exact leaves_commit_update hop hplan hstart h
      | delete item => exact leaves_commit_delete hop h
    · intro u s' hs'
      exact ih hrest hs'

end Commits

end Multicorn.Fs
