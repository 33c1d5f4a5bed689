import Mathlib.Data.List.Basic
import Mathlib.Logic.Function.Basic

/-! Undo lists for a store of named objects: running one takes new names out and writes old
contents back. -/
namespace Multicorn.UndoLog

variable {P I D : Type*} [DecidableEq I]

structure Store (P I D : Type*) where
  file : P → Option I
  content : I → D

inductive Undo (P I D : Type*)
  | remove (p : P)
  | restore (i : I) (d : D)

/-- Only a name that is there can be removed. -/
def Undo.apply [DecidableEq P] (u : Undo P I D) (s : Store P I D) : Option (Store P I D) :=
  match u with
  | .remove p =>
    match s.file p with
    | none => none
    | some _ => some { s with file := Function.update s.file p none }
  | .restore i d => some { s with content := Function.update s.content i d }

def removed : List (Undo P I D) → List P
  | [] => []
  | .remove p :: undos => p :: removed undos
  | .restore _ _ :: undos => removed undos

/-- The last content that the list writes to an object. -/
def lastRestore (i : I) : List (Undo P I D) → Option D
  | [] => none
  | .remove _ :: undos => lastRestore i undos
  | .restore j d :: undos => (lastRestore i undos).or (if i = j then some d else none)

/-- The list takes the store `now` back to `start`, as far as the objects that had a name in
`start` go. -/
structure Undoes (undos : List (Undo P I D)) (start now : Store P I D) : Prop where
  nodup : (removed undos).Nodup
  fresh : ∀ p ∈ removed undos, now.file p ≠ none ∧ start.file p = none
  kept : ∀ p i, start.file p = some i → now.file p = some i
  made : ∀ p i, now.file p = some i → start.file p = some i ∨ p ∈ removed undos
  restores : ∀ p i, start.file p = some i →
    (lastRestore i undos).getD (now.content i) = start.content i

variable {undos : List (Undo P I D)} {start now : Store P I D}

theorem Undoes.refl (start : Store P I D) : Undoes [] start start :=
  ⟨List.nodup_nil, fun _ hp => (by cases hp), fun _ _ h => h, fun _ _ h => .inl h, fun _ _ _ => rfl⟩

theorem Undoes.file_eq (h : Undoes [] start now) : now.file = start.file := by
  funext p
  cases hp : now.file p with
  | some i =>
    rcases h.made p i hp with hstart | hmem
    · exact hstart.symm
    · cases hmem
  | none =>
    cases hstart : start.file p with
    | none => rfl
    | some i =>
      rw [h.kept p i hstart] at hp
      cases hp

theorem Undoes.content_eq (h : Undoes [] start now) {p : P} {i : I} (hp : start.file p = some i) :
    now.content i = start.content i := h.restores p i hp

/-- The first undo can be run, and the rest undoes what is left. -/
theorem Undoes.apply [DecidableEq P] {u : Undo P I D} (h : Undoes (u :: undos) start now) :
    ∃ now', u.apply now = some now' ∧ Undoes undos start now' := by
  cases u with
  | remove p =>
    obtain ⟨hp, hnodup⟩ := List.nodup_cons.mp h.nodup
    obtain ⟨hthere, hnew⟩ := h.fresh p (List.mem_cons_self ..)
    let now' : Store P I D := { now with file := Function.update now.file p none }
    have happly : (Undo.remove p : Undo P I D).apply now = some now' := by
      obtain ⟨i, hi⟩ := Option.ne_none_iff_exists'.mp hthere
      simp [Undo.apply, hi, now']
    have hself : now'.file p = none := Function.update_self ..
    have hat : ∀ q, q ≠ p → now'.file q = now.file q := fun q hq => Function.update_of_ne hq ..
    refine ⟨now', happly, hnodup, fun q hq => ?_, fun q i hq => ?_, fun q i hq => ?_,
      fun q i hq => h.restores q i hq⟩
    · have hne : q ≠ p := by
        rintro rfl
        exact hp hq
      rw [hat q hne]
      exact h.fresh q (List.mem_cons_of_mem _ hq)
    · have hne : q ≠ p := by
        rintro rfl
        rw [hnew] at hq
        cases hq
      rw [hat q hne]
      exact h.kept q i hq
    · have hne : q ≠ p := by
        rintro rfl
        rw [hself] at hq
        cases hq
      rw [hat q hne] at hq
      rcases h.made q i hq with hstart | hmem
      · exact .inl hstart
      · exact .inr (List.mem_of_ne_of_mem hne hmem)
  | restore j d =>
    refine ⟨_, rfl, h.nodup, h.fresh, h.kept, h.made, fun q i hq => ?_⟩
    have hrestore := h.restores q i hq
    simp only [lastRestore] at hrestore
    cases hlast : lastRestore i undos with
    | some d' => simpa [hlast] using hrestore
    | none =>
      rw [hlast] at hrestore
      by_cases hij : i = j
      · subst hij
        simpa using hrestore
      · simpa [hij] using hrestore

/-- A new name is undone by removing it. -/
theorem Undoes.push_remove [DecidableEq P] (h : Undoes undos start now) {p : P} {i : I} {now' : Store P I D}
    (hp : now.file p = none) (hfile : ∀ q, now'.file q = if q = p then some i else now.file q)
    (hcontent : ∀ q j, start.file q = some j → now'.content j = now.content j) :
    Undoes (.remove p :: undos) start now' := by
  have hstart : start.file p = none := by
    cases hs : start.file p with
    | none => rfl
    | some j =>
      rw [h.kept p j hs] at hp
      cases hp
  refine ⟨List.nodup_cons.mpr ⟨fun hmem => (h.fresh p hmem).1 hp, h.nodup⟩, fun q hq => ?_,
    fun q j hq => ?_, fun q j hq => ?_, fun q j hq => ?_⟩
  · rcases List.mem_cons.mp hq with rfl | hq
    · exact ⟨by simp [hfile], hstart⟩
    · obtain ⟨hnow, hnew⟩ := h.fresh q hq
      refine ⟨?_, hnew⟩
      rw [hfile]
      split_ifs
      · simp
      · exact hnow
  · have hne : q ≠ p := by
      rintro rfl
      rw [hstart] at hq
      cases hq
    rw [hfile, if_neg hne]
    exact h.kept q j hq
  · rw [hfile] at hq
    split_ifs at hq with hqp
    · exact .inr (hqp ▸ List.mem_cons_self ..)
    · rcases h.made q j hq with hs | hmem
      · exact .inl hs
      · exact .inr (List.mem_cons_of_mem _ hmem)
  · rw [hcontent q j hq]
    exact h.restores q j hq

/-- A restore may be added if it writes what is there, or if an earlier one comes after it. -/
theorem Undoes.push_restore (h : Undoes undos start now) {i : I} {d : D}
    (hd : ∀ p, start.file p = some i → lastRestore i undos = none → d = now.content i) :
    Undoes (.restore i d :: undos) start now := by
  refine ⟨h.nodup, h.fresh, h.kept, h.made, fun p j hp => ?_⟩
  have hrestore := h.restores p j hp
  simp only [lastRestore]
  cases hlast : lastRestore j undos with
  | some d' => simpa [hlast] using hrestore
  | none =>
    rw [hlast] at hrestore
    by_cases hij : j = i
    · subst hij
      simpa [hd p hp hlast] using hrestore
    · simpa [hij] using hrestore

/-- The list goes on undoing a store in which only objects that it writes back are different. -/
theorem Undoes.overwrite (h : Undoes undos start now) {now' : Store P I D}
    (hfile : ∀ p, now'.file p = now.file p)
    (hcontent : ∀ p i, start.file p = some i → lastRestore i undos = none →
      now'.content i = now.content i) : Undoes undos start now' := by
  refine ⟨h.nodup, fun p hp => ?_, fun p i hp => ?_, fun p i hp => ?_, fun p i hp => ?_⟩
  · rw [hfile]
    exact h.fresh p hp
  · rw [hfile]
    exact h.kept p i hp
  · rw [hfile] at hp
    exact h.made p i hp
  · have hrestore := h.restores p i hp
    cases hlast : lastRestore i undos with
    | some d =>
      rw [hlast] at hrestore
      exact hrestore
    | none =>
      rw [hlast] at hrestore
      exact (hcontent p i hp hlast).trans hrestore

theorem Undoes.congr (h : Undoes undos start now) {now' : Store P I D}
    (hfile : ∀ p, now'.file p = now.file p)
    (hcontent : ∀ p i, start.file p = some i → now'.content i = now.content i) :
    Undoes undos start now' := h.overwrite hfile fun p i hp _ => hcontent p i hp

end Multicorn.UndoLog
