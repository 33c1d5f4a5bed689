import Multicorn.Fs.Opens

/-! Taking descriptors out of the cache. -/
namespace Multicorn.Fs
open Multicorn.StateMonad

variable {s s' s₁ s₂ : State}

/-- The entries of `keys` are gone and their descriptors closed; the tree is the same. -/
structure Drops (s s' : State) (keys : List Str) : Prop where
  log : s'.current_transaction_state = s.current_transaction_state
  invisible : s'.invisible_files = s.invisible_files
  updated : s'.updated_content = s.updated_content
  grows : s.os.Grows s'.os
  nodes : s'.os.nodes = s.os.nodes
  content : s'.os.content = s.os.content
  nextInode : s'.os.nextInode = s.os.nextInode
  lookup : ∀ k, s'.cache.lookup k = if k ∈ keys then none else s.cache.lookup k
  fds : ∀ k e, k ∉ keys → s.cache.lookup k = some e → s'.os.fd e.1 = s.os.fd e.1

theorem Drops.refl (s : State) : Drops s s [] :=
  ⟨rfl, rfl, rfl, .refl _, rfl, rfl, rfl, fun _ => rfl, fun _ _ _ _ => rfl⟩

theorem Drops.trans {keys keys' : List Str} (h : Drops s s₁ keys) (h' : Drops s₁ s₂ keys') :
    Drops s s₂ (keys ++ keys') where
  log := h'.log.trans h.log
  invisible := h'.invisible.trans h.invisible
  updated := h'.updated.trans h.updated
  grows := h.grows.trans h'.grows
  nodes := h'.nodes.trans h.nodes
  content := h'.content.trans h.content
  nextInode := h'.nextInode.trans h.nextInode
  lookup k := by
    rw [h'.lookup, h.lookup]
    by_cases hk : k ∈ keys <;> by_cases hk' : k ∈ keys' <;> simp [hk, hk']
  fds k e hk he := by
    rw [List.mem_append, not_or] at hk
    have hmid : s₁.cache.lookup k = some e := by rw [h.lookup, if_neg hk.1, he]
    exact (h'.fds k e hk.2 hmid).trans (h.fds k e hk.1 he)

theorem Drops.node (h : Drops s s' keys) (p : Path) : s'.os.node p = s.os.node p := by
  unfold Os.node
  rw [h.nodes]

theorem Drops.file {keys : List Str} (h : Drops s s' keys) (p : Path) :
    s'.os.file p = s.os.file p := by
  unfold Os.file
  rw [h.node]

theorem Drops.entry {keys : List Str} (h : Drops s s' keys) {k : Str} {e : ℕ × Bool}
    (he : s'.cache.lookup k = some e) :
    k ∉ keys ∧ s.cache.lookup k = some e ∧ s'.os.fd e.1 = s.os.fd e.1 := by
  rw [h.lookup] at he
  split_ifs at he with hk
  exact ⟨hk, he, h.fds k e hk he⟩

theorem Drops.opened {keys : List Str} (hs : Opened s) (h : Drops s s' keys) : Opened s' := by
  constructor
  · intro k e he
    obtain ⟨-, hold, hsame⟩ := h.entry he
    rw [hsame]
    exact hs.fds k e hold
  · intro k k' e e' he he'
    exact hs.distinct k k' e e' (h.entry he).2.1 (h.entry he').2.1

theorem Drops.coherent {keys : List Str} (hs : Coherent s) (h : Drops s s' keys) :
    Coherent s' := by
  refine ⟨h.opened hs.toOpened, fun k e f he hfd => ?_⟩
  obtain ⟨-, hold, hsame⟩ := h.entry he
  rw [hsame] at hfd
  obtain ⟨p, hp, hnode⟩ := hs.located k e f hold hfd
  exact ⟨p, h.grows.dirsKept.resolve hp, (h.node p).trans hnode⟩

/-- A cached key can be dropped. -/
theorem clearCacheEntry_drops (hs : Opened s) (hf : s.os.faults = []) {k : Str} {e : ℕ × Bool}
    (he : s.cache.lookup k = some e) :
    ∃ s', clearCacheEntry k s = .ok () s' ∧ Drops s s' [k] := by
  obtain ⟨node, hfd, -⟩ := hs.fds k e he
  refine ⟨{ s with cache := s.cache.erase k, os := s.os.withFd e.1 none }, ?_, ?_⟩
  · unfold clearCacheEntry
    rw [bind_eq_ok]
    refine ⟨s, s, rfl, ?_⟩
    simp only [he]
    rw [bind_eq_ok]
    refine ⟨(), _, rfl, call_eq_ok.mpr ⟨_, (osClose_eq_ok hf).mpr ⟨⟨_, hfd⟩, rfl⟩, rfl⟩⟩
  · refine ⟨rfl, rfl, rfl, Os.withFd_grows _ _ _, rfl, rfl, rfl, fun k' => ?_, fun k' e' hk he' => ?_⟩
    · by_cases hk : k' = k
      · subst hk
        simp
      · simp [AList.lookup_erase_ne hk, hk]
    · have hne : e'.1 ≠ e.1 := fun heq => hk (by rw [hs.distinct k' k e' e he' he heq]; simp)
      exact (Os.fd_withFd (Nat.le_of_lt (Os.fd_lt hfd)) _ _).trans (if_neg hne)

private theorem clearEntries_drops (only_shared : Bool)
    (l : List (Sigma fun _ : Str => ℕ × Bool)) : ∀ s : State, Opened s → s.os.faults = [] →
      (l.map Sigma.fst).Nodup → (∀ e ∈ l, s.cache.lookup e.1 = some e.2) →
      ∃ s', (l.forM fun e => if !only_shared || e.2.2 then clearCacheEntry e.1 else pure ()) s =
          .ok () s' ∧
        Drops s s' ((l.filter fun e => !only_shared || e.2.2).map Sigma.fst) := by
  induction l with
  | nil => exact fun s _ _ _ _ => ⟨s, rfl, .refl s⟩
  | cons e l ih =>
    intro s hs hf hnodup hentries
    rw [List.map_cons, List.nodup_cons] at hnodup
    rw [List.forall_mem_cons] at hentries
    have hcons : ((e :: l).forM fun e => if !only_shared || e.2.2 then clearCacheEntry e.1
        else pure () : M Unit) = (if !only_shared || e.2.2 then clearCacheEntry e.1 else pure ()) >>=
          fun _ => l.forM fun e => if !only_shared || e.2.2 then clearCacheEntry e.1
            else pure () := rfl
    rw [hcons]
    by_cases hdrop : (!only_shared || e.2.2) = true
    · obtain ⟨s₁, hclear, hdrops⟩ := clearCacheEntry_drops hs hf hentries.1
      have hkept : ∀ e' ∈ l, s₁.cache.lookup e'.1 = some e'.2 := by
        intro e' he'
        rw [hdrops.lookup, if_neg, hentries.2 e' he']
        intro hmem
        exact hnodup.1 (List.mem_map.mpr ⟨e', he', List.mem_singleton.mp hmem⟩)
      obtain ⟨s₂, hrest, hdrops'⟩ := ih s₁ (hdrops.opened hs) (hdrops.grows.faults.trans hf)
        hnodup.2 hkept
      refine ⟨s₂, ?_, ?_⟩
      · rw [if_pos hdrop, bind_eq_ok]
        exact ⟨(), s₁, hclear, hrest⟩
      · rw [List.filter_cons, if_pos hdrop, List.map_cons]
        exact hdrops.trans hdrops'
    · obtain ⟨s', hrest, hdrops⟩ := ih s hs hf hnodup.2 hentries.2
      refine ⟨s', ?_, ?_⟩
      · rw [if_neg hdrop, bind_eq_ok]
        exact ⟨(), s, rfl, hrest⟩
      · rw [List.filter_cons, if_neg hdrop]
        exact hdrops

theorem clearCache_drops (hs : Opened s) (hf : s.os.faults = []) (only_shared : Bool) :
    ∃ s', clearCache only_shared s = .ok () s' ∧
      Drops s s' ((s.cache.entries.filter fun e => !only_shared || e.2.2).map Sigma.fst) := by
  have hentries : ∀ e ∈ s.cache.entries, s.cache.lookup e.1 = some e.2 := by
    intro e he
    exact AList.mem_lookup_iff.mpr he
  obtain ⟨s', hclear, hdrops⟩ := clearEntries_drops only_shared s.cache.entries s hs hf
    s.cache.nodupKeys hentries
  refine ⟨s', ?_, hdrops⟩
  unfold clearCache
  rw [bind_eq_ok]
  exact ⟨s, s, rfl, hclear⟩

/-- Without `only_shared` the cache is empty afterwards. -/
theorem clearCache_all (hs : Opened s) (hf : s.os.faults = []) :
    ∃ s' keys, clearCache false s = .ok () s' ∧ Drops s s' keys ∧ s'.cache = ∅ := by
  obtain ⟨s', hclear, hdrops⟩ := clearCache_drops hs hf false
  refine ⟨s', _, hclear, hdrops, ?_⟩
  have hnone : ∀ k, s'.cache.lookup k = none := by
    intro k
    rw [hdrops.lookup]
    split_ifs with hk
    · rfl
    · rw [AList.lookup_eq_none]
      intro hmem
      obtain ⟨e, he, rfl⟩ := List.mem_map.mp (AList.mem_keys.mp hmem)
      exact hk (List.mem_map.mpr ⟨e, by simpa using he, rfl⟩)
  have hentries : s'.cache.entries = [] := by
    rw [List.eq_nil_iff_forall_not_mem]
    intro e he
    have hsome := AList.mem_lookup_iff.mpr he
    rw [hnone] at hsome
    cases hsome
  exact AList.ext hentries

/-- Clearing the shared entries only leaves every descriptor that can write. -/
theorem clearCache_shared (hs : Opened s) (hf : s.os.faults = []) :
    ∃ s', clearCache true s = .ok () s' ∧ Quiet s s' := by
  obtain ⟨s', hclear, hdrops⟩ := clearCache_drops hs hf true
  refine ⟨s', hclear, hdrops.log, hdrops.invisible, hdrops.updated, hdrops.grows, hdrops.node,
    hdrops.content, fun hs => hdrops.coherent hs, fun k i hheld => ?_⟩
  obtain ⟨fd, hentry, hfd⟩ := hheld
  have hk : k ∉ (s.cache.entries.filter fun e => !true || e.2.2).map Sigma.fst := by
    intro hmem
    obtain ⟨e, he, rfl⟩ := List.mem_map.mp hmem
    obtain ⟨he, hshared⟩ := List.mem_filter.mp he
    rw [AList.mem_lookup_iff.mpr he] at hentry
    have hflag : e.2.2 = false := congrArg Prod.snd (Option.some.inj hentry)
    simp [hflag] at hshared
  refine ⟨fd, ?_, (hdrops.fds k _ hk hentry).trans hfd⟩
  rw [hdrops.lookup, if_neg hk, hentry]

end Multicorn.Fs
