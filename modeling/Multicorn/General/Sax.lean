import Mathlib.Algebra.GroupWithZero.Nat
import Mathlib.Data.List.Count

/-! Documents as trees of elements and pieces of text, and the events in which a parser reports
them. -/
namespace Multicorn.Sax

/-- What stands inside an element. One text may be any number of pieces in a row. -/
inductive Content (ν χ : Type*)
  | done
  | text (piece : List χ) (rest : Content ν χ)
  | element (name : ν) (children rest : Content ν χ)

inductive Event (ν χ : Type*)
  | startElement (name : ν)
  | characters (content : List χ)
  | endElement (name : ν)
  deriving DecidableEq

variable {ν χ : Type*}

namespace Content

def events : Content ν χ → List (Event ν χ)
  | done => []
  | text piece rest => .characters piece :: rest.events
  | element name children rest =>
    .startElement name :: (children.events ++ .endElement name :: rest.events)

/-- The text that no element inside encloses. -/
def directText : Content ν χ → List χ
  | done => []
  | text piece rest => piece ++ rest.directText
  | element _ _ rest => rest.directText

variable [DecidableEq ν]

/-- The direct text of the last child of a name. -/
def lastText (name : ν) : Content ν χ → Option (List χ)
  | done => none
  | text _ rest => rest.lastText name
  | element n children rest =>
    (rest.lastText name).or (if n = name then some children.directText else none)

/-- The contents of the elements of a name that no other element of that name encloses, in
document order. -/
def outermost (name : ν) : Content ν χ → List (Content ν χ)
  | done => []
  | text _ rest => rest.outermost name
  | element n children rest =>
    (if n = name then [children] else children.outermost name) ++ rest.outermost name

/-- No element of the name is inside another one. -/
def Flat (name : ν) (doc : Content ν χ) : Prop :=
  ∀ children ∈ doc.outermost name, Event.endElement name ∉ children.events

omit [DecidableEq ν] in
theorem mem_startElement {name : ν} (doc : Content ν χ) :
    Event.startElement name ∈ doc.events ↔ Event.endElement name ∈ doc.events := by
  induction doc with
  | done => simp [events]
  | text piece rest ih => simpa [events] using ih
  | element n children rest ihc ihr => simp [events, ihc, ihr, or_left_comm]

theorem Flat.children {name n : ν} {children rest : Content ν χ} (h : n ≠ name)
    (hflat : (element n children rest).Flat name) : children.Flat name := by
  intro inner hinner
  apply hflat
  simp only [outermost, if_neg h, List.mem_append]
  exact .inl hinner

theorem Flat.rest {name n : ν} {children rest : Content ν χ}
    (hflat : (element n children rest).Flat name) : rest.Flat name := by
  intro inner hinner
  apply hflat
  simp only [outermost, List.mem_append]
  exact .inr hinner

variable [DecidableEq χ]

/-- The end tags of a name are those of the outermost elements and those inside them. -/
theorem count_endElement (name : ν) (doc : Content ν χ) :
    doc.events.count (.endElement name) = (doc.outermost name).length +
      ((doc.outermost name).map fun children => children.events.count (.endElement name)).sum := by
  induction doc with
  | done => rfl
  | text piece rest ih =>
    have hhead : (Event.characters piece : Event ν χ) ≠ .endElement name := by simp
    simp only [events, outermost, List.count_cons_of_ne hhead, ih]
  | element n children rest ihc ihr =>
    have hhead : (Event.startElement n : Event ν χ) ≠ .endElement name := by simp
    simp only [events, List.count_cons_of_ne hhead, List.count_append]
    by_cases hn : n = name
    · subst hn
      simp only [outermost, if_true, List.count_cons_self, List.length_append, List.map_append,
        List.sum_append, List.length_singleton, List.map_singleton, List.sum_singleton, ihr]
      omega
    · have hend : (Event.endElement n : Event ν χ) ≠ .endElement name := by simpa using hn
      simp only [outermost, if_neg hn, List.count_cons_of_ne hend, List.length_append,
        List.map_append, List.sum_append, ihc, ihr]
      omega

theorem flat_iff_count {name : ν} {doc : Content ν χ} :
    doc.Flat name ↔ doc.events.count (.endElement name) = (doc.outermost name).length := by
  have hzero : ∀ l : List (Content ν χ),
      (l.map fun children => children.events.count (.endElement name)).sum = 0 ↔
        ∀ children ∈ l, Event.endElement name ∉ children.events := by
    intro l
    rw [List.sum_eq_zero_iff_forall_eq_nat]
    constructor
    · intro h children hmem
      exact List.count_eq_zero.mp (h _ (List.mem_map.mpr ⟨children, hmem, rfl⟩))
    · intro h c hc
      obtain ⟨children, hmem, rfl⟩ := List.mem_map.mp hc
      exact List.count_eq_zero.mpr (h children hmem)
  rw [count_endElement, Flat, ← hzero]
  omega

end Content

section Scanning

variable [DecidableEq ν]

/-- The text up to the next tag of one of the names. -/
def textUntil (names : List ν) : List (Event ν χ) → List χ
  | [] => []
  | .characters content :: events => content ++ textUntil names events
  | .startElement name :: events => if name ∈ names then [] else textUntil names events
  | .endElement name :: events => if name ∈ names then [] else textUntil names events

/-- The text from the last start tag of a name up to the next tag of one of the names. -/
def textAfter (names : List ν) (name : ν) : List (Event ν χ) → Option (List χ)
  | [] => none
  | .startElement n :: events =>
    (textAfter names name events).or (if n = name then some (textUntil names events) else none)
  | .characters _ :: events | .endElement _ :: events => textAfter names name events

end Scanning

end Multicorn.Sax
