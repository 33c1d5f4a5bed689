import Mathlib.Data.List.GetD
import Multicorn.Xact.Calls

/-! How deep an instance is in the current transaction, and the hooks it has seen for that. -/
namespace Multicorn.Xact
open Multicorn.Brackets Multicorn.Catalog

/-- The depth the cache has noted for an instance. It is 0 for one that the cache dropped. -/
def depthOf (entries : List (Oid × CacheEntry)) (inst : ℕ) : ℕ :=
  ((entries.find? fun p => p.2.value = .obj inst).map (·.2.xact_depth)).getD 0

/-- The keys of the hash table are unique, and so is the entry that holds an instance. -/
structure Keyed (entries : List (Oid × CacheEntry)) : Prop where
  keys : (entries.map (·.1)).Nodup
  owners : ∀ p ∈ entries, ∀ q ∈ entries, p.2.value = q.2.value → p.1 = q.1

section Depth

variable {entries : List (Oid × CacheEntry)} {inst : ℕ}

theorem Keyed.eq_of_value (hk : Keyed entries) {p q : Oid × CacheEntry} (hp : p ∈ entries)
    (hq : q ∈ entries) (h : p.2.value = q.2.value) : p = q :=
  eq_of_key hk.keys hp hq (hk.owners p hp q hq h)

theorem Keyed.values_nodup (hk : Keyed entries) : (entries.map (·.2.value)).Nodup := by
  have hentries : entries.Nodup := hk.keys.of_map
  exact List.Nodup.map_on (fun p hp q hq h => hk.eq_of_value hp hq h) hentries

theorem Keyed.nil : Keyed [] := ⟨List.nodup_nil, fun p hp => by cases hp⟩

theorem depthOf_of_mem (hk : Keyed entries) {p : Oid × CacheEntry} (hp : p ∈ entries)
    (hv : p.2.value = .obj inst) : depthOf entries inst = p.2.xact_depth := by
  unfold depthOf
  cases hfind : entries.find? fun p => p.2.value = .obj inst with
  | none =>
    have hnone := List.find?_eq_none.mp hfind p hp
    simp [hv] at hnone
  | some q =>
    have hq : q.2.value = .obj inst := by simpa using List.find?_some hfind
    obtain rfl := hk.eq_of_value hp (List.mem_of_find?_eq_some hfind) (hv.trans hq.symm)
    rfl

theorem depthOf_of_not_mem (h : ∀ p ∈ entries, p.2.value ≠ .obj inst) :
    depthOf entries inst = 0 := by
  unfold depthOf
  rw [List.find?_eq_none.mpr fun p hp => by simpa using h p hp]
  rfl

/-- Either an entry holds the instance, or its depth is 0. -/
theorem depthOf_cases (hk : Keyed entries) (inst : ℕ) :
    (∃ p ∈ entries, p.2.value = .obj inst ∧ depthOf entries inst = p.2.xact_depth) ∨
      (∀ p ∈ entries, p.2.value ≠ .obj inst) ∧ depthOf entries inst = 0 := by
  by_cases h : ∃ p ∈ entries, p.2.value = .obj inst
  · obtain ⟨p, hp, hv⟩ := h
    left
    exact ⟨p, hp, hv, depthOf_of_mem hk hp hv⟩
  · right
    have hnot : ∀ p ∈ entries, p.2.value ≠ .obj inst := fun p hp hv => h ⟨p, hp, hv⟩
    exact ⟨hnot, depthOf_of_not_mem hnot⟩

section Visit

variable {f : CacheEntry → CacheEntry} (hf : ∀ e, (f e).value = e.value)

include hf

theorem Keyed.visit (hk : Keyed entries) : Keyed (entries.map fun p => (p.1, f p.2)) := by
  constructor
  · rw [List.map_map]
    exact hk.keys
  · intro p' hp' q' hq' h
    obtain ⟨p, hp, rfl⟩ := List.mem_map.mp hp'
    obtain ⟨q, hq, rfl⟩ := List.mem_map.mp hq'
    simp only [hf] at h
    exact hk.owners p hp q hq h

theorem depthOf_visit (hk : Keyed entries) {g : ℕ → ℕ} (hg : g 0 = 0)
    (hfg : ∀ e, (f e).xact_depth = g e.xact_depth) (inst : ℕ) :
    depthOf (entries.map fun p => (p.1, f p.2)) inst = g (depthOf entries inst) := by
  obtain ⟨p, hp, hv, hd⟩ | ⟨hnot, hd⟩ := depthOf_cases hk inst
  · have hp' : (p.1, f p.2) ∈ entries.map fun p => (p.1, f p.2) := List.mem_map.mpr ⟨p, hp, rfl⟩
    rw [depthOf_of_mem (hk.visit hf) hp' (by simpa [hf] using hv), hd, hfg]
  · have hnot' : ∀ p ∈ entries.map fun p => (p.1, f p.2), p.2.value ≠ .obj inst := by
      intro p' hp'
      obtain ⟨p, hp, rfl⟩ := List.mem_map.mp hp'
      simpa [hf] using hnot p hp
    rw [depthOf_of_not_mem hnot', hd, hg]

end Visit

/-- When all entries are visited, an instance sees the hooks for its own depth. -/
theorem callsOf_visit (hk : Keyed entries) (hooks : ℕ → List Hook) (hzero : hooks 0 = [])
    (inst : ℕ) :
    callsOf inst (entries.flatMap fun p => callsTo p.2.value (hooks p.2.xact_depth)) =
      hooks (depthOf entries inst) := by
  have hothers : ∀ rest : List (Oid × CacheEntry), (∀ p ∈ rest, p.2.value ≠ .obj inst) →
      callsOf inst (rest.flatMap fun p => callsTo p.2.value (hooks p.2.xact_depth)) = [] := by
    intro rest hrest
    induction rest with
    | nil => rfl
    | cons p rest ih =>
      rw [List.forall_mem_cons] at hrest
      rw [List.flatMap_cons, callsOf_append, callsOf_callsTo_ne hrest.1, ih hrest.2]
      rfl
  obtain ⟨p, hp, hv, hd⟩ | ⟨hnot, hd⟩ := depthOf_cases hk inst
  · obtain ⟨before, after, rfl⟩ := List.append_of_mem hp
    have hnodup := hk.values_nodup
    simp only [List.map_append, List.map_cons, List.nodup_append, List.nodup_cons] at hnodup
    obtain ⟨-, ⟨hafter, -⟩, hbefore⟩ := hnodup
    have h₁ : ∀ q ∈ before, q.2.value ≠ .obj inst := by
      intro q hq he
      exact hbefore _ (List.mem_map.mpr ⟨q, hq, rfl⟩) _ (List.mem_cons_self ..) (he.trans hv.symm)
    have h₂ : ∀ q ∈ after, q.2.value ≠ .obj inst := by
      intro q hq he
      exact hafter (List.mem_map.mpr ⟨q, hq, he.trans hv.symm⟩)
    rw [List.flatMap_append, List.flatMap_cons, callsOf_append, callsOf_append, hothers _ h₁,
      hothers _ h₂, hv, callsOf_callsTo, hd]
    simp
  · rw [hothers _ hnot, hd, hzero]

end Depth

/-- The bracket a hook stands for: a subtransaction at its level. -/
def Hook.bracket : Hook → Option (Bracket (ℕ × SubTransactionId))
  | .subBegin level subid => some (.opening (level, subid))
  | .subCommit level subid => some (.closing (level, subid))
  | .subRollback level subid => some (.closing (level, subid))
  | _ => none

/-- `calls` starts with `begin`, goes on with subtransaction hooks only, and leaves the
subtransactions `labels` open. -/
def OpenAt (calls : List Hook) (labels : List (ℕ × SubTransactionId)) : Prop :=
  ∃ (subs : List Hook) (word : List (Bracket (ℕ × SubTransactionId))),
    calls = .begin :: subs ∧ subs.map Hook.bracket = word.map some ∧ run [] word = some labels

/-- The ways a transaction ends for an instance. -/
inductive Ending : List Hook → Prop
  | committed : Ending [.preCommit, .commit]
  | aborted : Ending [.rollback]
  | abortedLate : Ending [.preCommit, .rollback]

/-- `begin`, nested subtransactions, and one ending. -/
def WellBracketed (calls : List Hook) : Prop :=
  ∃ body ending, calls = body ++ ending ∧ OpenAt body [] ∧ Ending ending

theorem openAt_begin : OpenAt [.begin] [] := ⟨[], [], rfl, rfl, rfl⟩

/-- Catching up opens the levels in between. -/
theorem OpenAt.append_openings {calls : List Hook} {labels : List (ℕ × SubTransactionId)}
    (h : OpenAt calls labels) (more : List (ℕ × SubTransactionId)) :
    OpenAt (calls ++ more.map fun l => .subBegin l.1 l.2) (more.reverse ++ labels) := by
  obtain ⟨subs, word, rfl, hsubs, hrun⟩ := h
  refine ⟨subs ++ more.map fun l => .subBegin l.1 l.2, word ++ more.map .opening, rfl, ?_, ?_⟩
  · simp [hsubs, Hook.bracket]
  · rw [run_append, hrun]
    exact run_openings labels more

theorem OpenAt.append_closing {calls : List Hook} {label : ℕ × SubTransactionId}
    {labels : List (ℕ × SubTransactionId)} (h : OpenAt calls (label :: labels)) {close : Hook}
    (hclose : close.bracket = some (.closing label)) : OpenAt (calls ++ [close]) labels := by
  obtain ⟨subs, word, rfl, hsubs, hrun⟩ := h
  refine ⟨subs ++ [close], word ++ [.closing label], rfl, ?_, ?_⟩
  · simp [hsubs, hclose]
  · rw [run_concat hrun, step_closing_self]

/-- The levels that are open for an instance at a depth, the deepest first. -/
def openLevels (s : Session) (depth : ℕ) : List (ℕ × SubTransactionId) :=
  ((List.range' 2 (depth - 1)).map fun level => (level, s.subidAt level)).reverse

theorem openLevels_succ (s : Session) (depth : ℕ) (h : 1 ≤ depth) :
    openLevels s (depth + 1) = (depth + 1, s.subidAt (depth + 1)) :: openLevels s depth := by
  obtain ⟨d, rfl⟩ := Nat.exists_eq_add_of_le' h
  simp [openLevels, List.range'_concat, Nat.add_comm, Nat.add_left_comm]

theorem openLevels_congr {s s' : Session} {depth : ℕ}
    (h : ∀ level, 1 ≤ level → level ≤ depth → s'.subidAt level = s.subidAt level) :
    openLevels s' depth = openLevels s depth := by
  unfold openLevels
  congr 1
  refine List.map_congr_left fun level hl => ?_
  obtain ⟨i, hi, rfl⟩ := List.mem_range'.mp hl
  rw [h _ (by omega) (by omega)]

theorem subidAt_push {stack : List SubTransactionId} (x : SubTransactionId) {level : ℕ}
    (hpos : 1 ≤ level) (hle : level ≤ stack.length) :
    (x :: stack).reverse.getD (level - 1) 0 = stack.reverse.getD (level - 1) 0 := by
  rw [List.reverse_cons, List.getD_append]
  rw [List.length_reverse]
  omega

theorem subidAt_nestLevel (s : Session) (h : 1 ≤ s.nestLevel) :
    s.subidAt s.nestLevel = s.stack.headD 0 := by
  unfold Session.nestLevel at h
  unfold Session.subidAt Session.nestLevel
  cases hs : s.stack with
  | nil =>
    rw [hs] at h
    simp at h
  | cons x stack => simp

/-- The hooks of an access lead from one depth to the current level. -/
theorem OpenAt.append_joinHooks {s : Session} {calls : List Hook} {depth : ℕ}
    (hlevel : 1 ≤ s.nestLevel) (hdepth : depth ≤ s.nestLevel)
    (h : depth = 0 ∧ calls = [] ∨ 0 < depth ∧ OpenAt calls (openLevels s depth)) :
    OpenAt (calls ++ joinHooks s depth) (openLevels s s.nestLevel) := by
  let d := max depth 1
  let more := (List.range' (d + 1) (s.nestLevel - d)).map fun level => (level, s.subidAt level)
  have hopen : OpenAt (calls ++ if depth = 0 then [.begin] else []) (openLevels s d) := by
    obtain ⟨rfl, rfl⟩ | ⟨hpos, hcalls⟩ := h
    · exact openAt_begin
    · have hd : d = depth := by omega
      rw [if_neg (by omega), List.append_nil, hd]
      exact hcalls
  have hlevels : more.reverse ++ openLevels s d = openLevels s s.nestLevel := by
    have hsplit : List.range' 2 (s.nestLevel - 1) =
        List.range' 2 (d - 1) ++ List.range' (d + 1) (s.nestLevel - d) := by
      have h₂ : 2 + (d - 1) = d + 1 := by omega
      rw [← h₂, List.range'_append_1]
      congr 1
      omega
    unfold openLevels
    rw [hsplit, List.map_append, List.reverse_append]
  have hall := hopen.append_openings more
  rw [hlevels] at hall
  have hcalls : calls ++ joinHooks s depth =
      (calls ++ if depth = 0 then [.begin] else []) ++ more.map fun l => .subBegin l.1 l.2 := by
    rw [joinHooks, List.append_assoc, List.map_map]
    rfl
  rw [hcalls]
  exact hall

end Multicorn.Xact
