import Mathlib.Data.List.Basic
import Mathlib.Logic.Function.Basic

/-! Undo lists that write through open handles. A key that has lost its handle opens what is at
its name, or makes it anew, so a name that was taken out can still come back. -/
namespace Multicorn.HandleLog

/-- Names of objects, their contents, and the objects that keys have open. -/
structure Volume (P K I D : Type*) where
  file : P → Option I
  content : I → D
  held : K → I → Prop

inductive Undo (P K D : Type*)
  | remove (p : P)
  | restore (k : K) (p : P) (d : D)

variable {P K I D : Type*}

def Undo.path : Undo P K D → P
  | .remove p => p
  | .restore _ p _ => p

/-- The list writes through the key, which has the name `p`. -/
def Restores (undos : List (Undo P K D)) (k : K) (p : P) : Prop := ∃ d, .restore k p d ∈ undos

/-- Names that were free at the start are taken out after all that is written there, and what is
written last through a key is the content of the start. -/
inductive Placed (start : P → Option D) : List (Undo P K D) → Prop
  | nil : Placed start []
  | remove {p : P} {undos : List (Undo P K D)} (hfree : start p = none)
      (hlast : ∀ u ∈ undos, u.path ≠ p) (h : Placed start undos) :
      Placed start (.remove p :: undos)
  | restore {k : K} {p : P} {d : D} {undos : List (Undo P K D)}
      (hdata : ∀ c, start p = some c → d = c ∨ Restores undos k p)
      (hfree : start p = none → .remove p ∈ undos) (h : Placed start undos) :
      Placed start (.restore k p d :: undos)

namespace Volume

variable (v : Volume P K I D)

def data (p : P) : Option D := (v.file p).map v.content

def Unheld (k : K) : Prop := ∀ i, ¬ v.held k i

/-- A write through the key goes to the object. -/
def Reaches (k : K) (p : P) (i : I) : Prop := v.held k i ∨ v.Unheld k ∧ v.file p = some i

variable {v}

theorem data_of_file {p : P} {i : I} (h : v.file p = some i) : v.data p = some (v.content i) := by
  unfold data
  rw [h]
  rfl

theorem data_eq_none {p : P} : v.data p = none ↔ v.file p = none := by
  unfold data
  exact Option.map_eq_none_iff

theorem ext_iff_held {v' : Volume P K I D} (hfile : ∀ p, v'.file p = v.file p)
    (hcontent : ∀ i, v'.content i = v.content i) (hheld : ∀ k i, v'.held k i ↔ v.held k i) :
    v' = v := by
  cases v
  cases v'
  obtain rfl := funext hfile
  obtain rfl := funext hcontent
  have hsame := funext fun k => funext fun i => propext (hheld k i)
  simp only at hsame
  rw [hsame]

end Volume

variable {start : Volume P K I D} {undos : List (Undo P K D)}

theorem Placed.free (h : Placed start.data undos) {p : P} (hp : .remove p ∈ undos) :
    start.data p = none := by
  induction h with
  | nil => cases hp
  | remove hfree _ _ ih =>
    rcases List.mem_cons.mp hp with heq | hp
    · cases heq
      exact hfree
    · exact ih hp
  | restore _ _ _ ih =>
    rcases List.mem_cons.mp hp with heq | hp
    · cases heq
    · exact ih hp

theorem Restores.cons {u : Undo P K D} {k : K} {p : P} (h : Restores undos k p) :
    Restores (u :: undos) k p := by
  obtain ⟨d, hd⟩ := h
  exact ⟨d, List.mem_cons_of_mem _ hd⟩

theorem restores_cons_remove {q p : P} {k : K} :
    Restores (.remove q :: undos) k p ↔ Restores undos k p := by
  unfold Restores
  simp

theorem restores_cons_restore {k k' : K} {p q : P} {d : D} :
    Restores (.restore k' q d :: undos) k p ↔ (k = k' ∧ p = q) ∨ Restores undos k p := by
  unfold Restores
  constructor
  · rintro ⟨d', hd'⟩
    rcases List.mem_cons.mp hd' with heq | hd'
    · cases heq
      exact .inl ⟨rfl, rfl⟩
    · exact .inr ⟨d', hd'⟩
  · rintro (⟨rfl, rfl⟩ | ⟨d', hd'⟩)
    · exact ⟨d, List.mem_cons_self ..⟩
    · exact ⟨d', List.mem_cons_of_mem _ hd'⟩

theorem Placed.made (h : Placed start.data undos) {k : K} {p : P} (hk : Restores undos k p)
    (hp : start.data p = none) : .remove p ∈ undos := by
  induction h with
  | nil =>
    obtain ⟨d, hd⟩ := hk
    cases hd
  | remove _ _ _ ih => exact List.mem_cons_of_mem _ (ih (restores_cons_remove.mp hk))
  | restore _ hfree _ ih =>
    rcases restores_cons_restore.mp hk with ⟨rfl, rfl⟩ | hk
    · exact List.mem_cons_of_mem _ (hfree hp)
    · exact List.mem_cons_of_mem _ (ih hk)

/-- The list takes the volume back to `start`. Keys have names by `names`, and `written` are
those that may have been written through. -/
structure Ready (names : K → P → Prop) (written : K → Prop) (start : Volume P K I D)
    (undos : List (Undo P K D)) (v : Volume P K I D) : Prop where
  placed : Placed start.data undos
  named : ∀ k p, Restores undos k p → names k p
  single : ∀ k i j, v.held k i → v.held k j → i = j
  shared : ∀ p q i, v.file p = some i → v.file q = some i → p ≠ q →
    start.file p = some i ∧ start.file q = some i
  opened : ∀ k p q i, names k p → v.held k i → v.file q = some i → p ≠ q →
    start.file p = some i ∧ start.file q = some i
  kept : ∀ p d, start.data p = some d →
    (∃ i, v.file p = some i ∧
      (v.content i = d ∨ ∃ k q, Restores undos k q ∧ written k ∧ v.Reaches k q i)) ∨
    v.file p = none ∧ ∃ k, Restores undos k p ∧ v.Unheld k
  made : ∀ p, start.data p = none → v.file p = none ∨ .remove p ∈ undos
  there : ∀ p, .remove p ∈ undos → v.file p = none → ∃ k, Restores undos k p ∧ v.Unheld k

section Steps

variable {names : K → P → Prop} {written : K → Prop} {v : Volume P K I D}

theorem Ready.mono (h : Ready names written start undos v) {written' : K → Prop}
    (hw : ∀ k, written k → written' k) : Ready names written' start undos v where
  placed := h.placed
  named := h.named
  single := h.single
  shared := h.shared
  opened := h.opened
  kept p d hp := by
    rcases h.kept p d hp with ⟨i, hi, hcontent | ⟨k, q, hk, hwritten, hreach⟩⟩ | hgone
    · exact .inl ⟨i, hi, .inl hcontent⟩
    · exact .inl ⟨i, hi, .inr ⟨k, q, hk, hw k hwritten, hreach⟩⟩
    · exact .inr hgone
  made := h.made
  there := h.there

/-- With nothing left to undo, every name leads to the content of the start. -/
theorem Ready.data_eq (h : Ready names written start [] v) (p : P) : v.data p = start.data p := by
  have hnone : ∀ k q, ¬ Restores ([] : List (Undo P K D)) k q := by
    rintro k q ⟨d, hd⟩
    cases hd
  cases hp : start.data p with
  | none =>
    rcases h.made p hp with hfile | hmem
    · exact Volume.data_eq_none.mpr hfile
    · cases hmem
  | some d =>
    rcases h.kept p d hp with ⟨i, hi, hcontent | ⟨k, q, hk, -⟩⟩ | ⟨-, k, hk, -⟩
    · rw [Volume.data_of_file hi, hcontent]
    · exact absurd hk (hnone k q)
    · exact absurd hk (hnone k p)

/-- A name of the start that a key has open. -/
theorem Ready.data_of_held (h : Ready names written start undos v) {k : K} {p q : P} {i : I}
    (hk : names k p) (hi : v.held k i) (hq : v.file q = some i) {d : D}
    (hd : start.data q = some d) : start.data p = some d := by
  by_cases hpq : p = q
  · rw [hpq]
    exact hd
  · obtain ⟨hp, hq'⟩ := h.opened k p q i hk hi hq hpq
    rw [Volume.data_of_file hq'] at hd
    rw [Volume.data_of_file hp]
    exact hd

/-- A write through a key of a new name, or of one that the list writes back. -/
theorem Ready.write [DecidableEq I] (h : Ready names written start undos v) {k : K} {p : P} {i : I}
    (hk : names k p) (hi : v.held k i)
    (hcovered : start.data p = none ∨ Restores undos k p ∧ written k) (d : D) :
    Ready names written start undos { v with content := Function.update v.content i d } where
  placed := h.placed
  named := h.named
  single := h.single
  shared := h.shared
  opened := h.opened
  kept q c hq := by
    rcases h.kept q c hq with ⟨j, hj, hcase⟩ | hgone
    · refine .inl ⟨j, hj, ?_⟩
      by_cases hij : j = i
      · subst hij
        rcases hcovered with hnew | ⟨hrestores, hwritten⟩
        · have hold := h.data_of_held hk hi hj hq
          rw [hnew] at hold
          cases hold
        · exact .inr ⟨k, p, hrestores, hwritten, .inl hi⟩
      · rcases hcase with hcontent | hwrites
        · exact .inl ((Function.update_of_ne hij ..).trans hcontent)
        · exact .inr hwrites
    · exact .inr hgone
  made := h.made
  there := h.there

/-- A name that is free is made anew for a key that has nothing open. -/
theorem Ready.create [DecidableEq P] [DecidableEq I] (h : Ready names written start undos v)
    {k : K} {p : P} {i : I} (hu : v.Unheld k) (hp : v.file p = none)
    (hfile : ∀ q, v.file q ≠ some i) (hheld : ∀ k', ¬ v.held k' i)
    (hcovered : .remove p ∈ undos ∨ Restores undos k p ∧ written k) (d : D) :
    Ready names written start undos { v with
      file := Function.update v.file p (some i), content := Function.update v.content i d } := by
  have hself : Function.update v.file p (some i) p = some i := Function.update_self ..
  have hother : ∀ q, q ≠ p → Function.update v.file p (some i) q = v.file q :=
    fun q hq => Function.update_of_ne hq ..
  have hold : ∀ q j, j ≠ i → Function.update v.file p (some i) q = some j → v.file q = some j := by
    intro q j hj hq
    by_cases hqp : q = p
    · rw [hqp, hself] at hq
      cases hq
      exact absurd rfl hj
    · rw [hother q hqp] at hq
      exact hq
  have hat : ∀ q, Function.update v.file p (some i) q = some i → q = p := by
    intro q hq
    by_contra hqp
    rw [hother q hqp] at hq
    exact hfile q hq
  have hnone : ∀ q, Function.update v.file p (some i) q = none → q ≠ p ∧ v.file q = none := by
    intro q hq
    have hqp : q ≠ p := by
      intro heq
      rw [heq, hself] at hq
      cases hq
    rw [hother q hqp] at hq
    exact ⟨hqp, hq⟩
  constructor
  · exact h.placed
  · exact h.named
  · exact h.single
  · intro p' q j hp' hq hne
    by_cases hj : j = i
    · subst hj
      exact absurd ((hat p' hp').trans (hat q hq).symm) hne
    · exact h.shared p' q j (hold p' j hj hp') (hold q j hj hq) hne
  · intro k' p' q j hk' hj hq hne
    have hji : j ≠ i := by
      intro heq
      rw [heq] at hj
      exact hheld k' hj
    exact h.opened k' p' q j hk' hj (hold q j hji hq) hne
  · intro q c hq
    by_cases hqp : q = p
    · subst hqp
      rcases hcovered with hremove | ⟨hrestores, hwritten⟩
      · rw [h.placed.free hremove] at hq
        cases hq
      · exact .inl ⟨i, hself, .inr ⟨k, q, hrestores, hwritten, .inr ⟨hu, hself⟩⟩⟩
    · rcases h.kept q c hq with ⟨j, hj, hcase⟩ | ⟨hgone, hrest⟩
      · have hji : j ≠ i := by
          intro heq
          rw [heq] at hj
          exact hfile q hj
        refine .inl ⟨j, (hother q hqp).trans hj, ?_⟩
        rcases hcase with hcontent | ⟨k', q', hk', hwritten, hreach⟩
        · exact .inl ((Function.update_of_ne hji ..).trans hcontent)
        · refine .inr ⟨k', q', hk', hwritten, ?_⟩
          rcases hreach with hheld' | ⟨hu', hq'⟩
          · exact .inl hheld'
          · have hne : q' ≠ p := by
              intro heq
              rw [heq, hp] at hq'
              cases hq'
            exact .inr ⟨hu', (hother q' hne).trans hq'⟩
      · exact .inr ⟨(hother q hqp).trans hgone, hrest⟩
  · intro q hq
    by_cases hqp : q = p
    · subst hqp
      right
      rcases hcovered with hremove | ⟨hrestores, -⟩
      · exact hremove
      · exact h.placed.made hrestores hq
    · rcases h.made q hq with hgone | hremove
      · exact .inl ((hother q hqp).trans hgone)
      · exact .inr hremove
  · intro q hremove hq
    exact h.there q hremove (hnone q hq).2

/-- A key opens the object at its name. -/
theorem Ready.hold (hnames : ∀ k p q, names k p → names k q → p = q)
    (h : Ready names written start undos v) {k : K} {p : P} {i : I} (hk : names k p)
    (hu : v.Unheld k) (hp : v.file p = some i) : Ready names written start undos
      { v with held := fun k' j => v.held k' j ∨ k' = k ∧ j = i } := by
  have hother : ∀ {k'}, k' ≠ k → v.Unheld k' →
      ({ v with held := fun k' j => v.held k' j ∨ k' = k ∧ j = i } : Volume P K I D).Unheld k' := by
    rintro k' hne hu' j (hj | ⟨heq, -⟩)
    · exact hu' j hj
    · exact hne heq
  have hlost : ∀ q, v.file q = none → (∃ k', Restores undos k' q ∧ v.Unheld k') →
      ∃ k', Restores undos k' q ∧
        ({ v with held := fun k' j => v.held k' j ∨ k' = k ∧ j = i } : Volume P K I D).Unheld k' := by
    rintro q hq ⟨k', hk', hu'⟩
    refine ⟨k', hk', hother ?_ hu'⟩
    rintro rfl
    rw [hnames _ _ _ (h.named k' q hk') hk, hp] at hq
    cases hq
  constructor
  · exact h.placed
  · exact h.named
  · rintro k' j j' (hj | ⟨rfl, rfl⟩) (hj' | ⟨hk', rfl⟩)
    · exact h.single k' j j' hj hj'
    · rw [hk'] at hj
      exact absurd hj (hu j)
    · exact absurd hj' (hu j')
    · rfl
  · exact h.shared
  · rintro k' p' q j hk' (hj | ⟨rfl, rfl⟩) hq hne
    · exact h.opened k' p' q j hk' hj hq hne
    · have hsame := hnames _ _ _ hk' hk
      subst hsame
      exact h.shared p' q j hp hq hne
  · intro q c hq
    rcases h.kept q c hq with ⟨j, hj, hcontent | ⟨k', q', hk', hwritten, hreach⟩⟩ | ⟨hgone, hrest⟩
    · exact .inl ⟨j, hj, .inl hcontent⟩
    · refine .inl ⟨j, hj, .inr ⟨k', q', hk', hwritten, ?_⟩⟩
      rcases hreach with hheld | ⟨hu', hq'⟩
      · exact .inl (.inl hheld)
      · by_cases hne : k' = k
        · subst hne
          rw [hnames _ _ _ (h.named k' q' hk') hk, hp] at hq'
          cases hq'
          exact .inl (.inr ⟨rfl, rfl⟩)
        · exact .inr ⟨hother hne hu', hq'⟩
    · exact .inr ⟨hgone, hlost q hgone hrest⟩
  · exact h.made
  · intro q hremove hq
    exact hlost q hq (h.there q hremove hq)

/-- A name that the list writes back through a key is taken out, and the key gives up what it
has open. That must not be the only way back to another name of the same object. -/
theorem Ready.take [DecidableEq P] (h : Ready names written start undos v) {k : K} {p : P}
    (hk : names k p) (hr : Restores undos k p)
    (hall : ∀ k', Restores undos k' p → ∃ i, v.held k' i)
    (halone : (∀ q i, start.file p = some i → start.file q = some i → p = q) ∨ ¬ written k) :
    Ready names written start undos { v with
      file := Function.update v.file p none, held := fun k' j => k' ≠ k ∧ v.held k' j } := by
  let v' : Volume P K I D := { v with
      file := Function.update v.file p none, held := fun k' j => k' ≠ k ∧ v.held k' j }
  have hself : v'.file p = none := Function.update_self ..
  have hother : ∀ q, q ≠ p → v'.file q = v.file q := fun q hq => Function.update_of_ne hq ..
  have hold : ∀ q j, v'.file q = some j → q ≠ p ∧ v.file q = some j := by
    intro q j hq
    have hqp : q ≠ p := by
      intro heq
      rw [heq, hself] at hq
      cases hq
    exact ⟨hqp, (hother q hqp).symm.trans hq⟩
  have hunheld : ∀ k', v.Unheld k' → v'.Unheld k' := fun k' hu j hj => hu j hj.2
  have hk' : v'.Unheld k := fun j hj => hj.1 rfl
  change Ready names written start undos v'
  constructor
  · exact h.placed
  · exact h.named
  · exact fun k' i j hi hj => h.single k' i j hi.2 hj.2
  · intro p' q j hp' hq hne
    exact h.shared p' q j (hold p' j hp').2 (hold q j hq).2 hne
  · intro k' p' q j hk' hj hq hne
    exact h.opened k' p' q j hk' hj.2 (hold q j hq).2 hne
  · intro q c hq
    by_cases hqp : q = p
    · subst hqp
      exact .inr ⟨hself, k, hr, hk'⟩
    · rcases h.kept q c hq with ⟨j, hj, hcase⟩ | ⟨hgone, k', hrest, hu⟩
      · refine .inl ⟨j, (hother q hqp).trans hj, ?_⟩
        rcases hcase with hcontent | ⟨k₁, q₁, hk₁, hwritten, hreach⟩
        · exact .inl hcontent
        · refine .inr ⟨k₁, q₁, hk₁, hwritten, ?_⟩
          by_cases hkk : k₁ = k
          · subst hkk
            exfalso
            rcases hreach with hheld | ⟨hu, -⟩
            · have hne : p ≠ q := fun heq => hqp heq.symm
              obtain ⟨hp, hq'⟩ := h.opened k₁ p q j hk hheld hj hne
              rcases halone with halone | hnot
              · exact hne (halone q j hp hq')
              · exact hnot hwritten
            · obtain ⟨i, hi⟩ := hall k₁ hr
              exact hu i hi
          · rcases hreach with hheld | ⟨hu, hq₁⟩
            · exact .inl ⟨hkk, hheld⟩
            · have hne : q₁ ≠ p := by
                rintro rfl
                obtain ⟨i, hi⟩ := hall k₁ hk₁
                exact hu i hi
              exact .inr ⟨hunheld k₁ hu, (hother q₁ hne).trans hq₁⟩
      · exact .inr ⟨(hother q hqp).trans hgone, k', hrest, hunheld k' hu⟩
  · intro q hq
    by_cases hqp : q = p
    · subst hqp
      exact .inl hself
    · rw [hother q hqp]
      exact h.made q hq
  · intro q hremove hq
    by_cases hqp : q = p
    · subst hqp
      exact ⟨k, hr, hk'⟩
    · obtain ⟨k', hrest, hu⟩ := h.there q hremove ((hother q hqp).symm.trans hq)
      exact ⟨k', hrest, hunheld k' hu⟩

/-- The first entry has been written. -/
theorem Ready.restored {k : K} {p : P} {d : D}
    (h : Ready names written start (.restore k p d :: undos) v) {i : I} (hi : v.held k i)
    (hd : v.content i = d) : Ready names written start undos v := by
  have hheld : ¬ v.Unheld k := fun hu => hu i hi
  have hlost : ∀ q, (∃ k', Restores (.restore k p d :: undos) k' q ∧ v.Unheld k') →
      ∃ k', Restores undos k' q ∧ v.Unheld k' := by
    rintro q ⟨k', hk', hu⟩
    rcases restores_cons_restore.mp hk' with ⟨rfl, -⟩ | hk'
    · exact absurd hu hheld
    · exact ⟨k', hk', hu⟩
  have hmem : ∀ q, (.remove q : Undo P K D) ∈ Undo.restore k p d :: undos → .remove q ∈ undos := by
    intro q hq
    rcases List.mem_cons.mp hq with heq | hq
    · cases heq
    · exact hq
  obtain ⟨hdata, hplaced⟩ : (∀ c, start.data p = some c → d = c ∨ Restores undos k p) ∧
      Placed start.data undos := by
    cases h.placed with
    | restore hdata _ hplaced => exact ⟨hdata, hplaced⟩
  have hname := h.named k p (restores_cons_restore.mpr (.inl ⟨rfl, rfl⟩))
  constructor
  · exact hplaced
  · exact fun k' q hk' => h.named k' q hk'.cons
  · exact h.single
  · exact h.shared
  · exact h.opened
  · intro q c hq
    rcases h.kept q c hq with ⟨j, hj, hcontent | ⟨k', q', hk', hwritten, hreach⟩⟩ | ⟨hgone, hrest⟩
    · exact .inl ⟨j, hj, .inl hcontent⟩
    · refine .inl ⟨j, hj, ?_⟩
      rcases restores_cons_restore.mp hk' with ⟨rfl, rfl⟩ | hk'
      · rcases hreach with hreach | ⟨hu, -⟩
        · have hij := h.single k' j i hreach hi
          subst hij
          rcases hdata c (h.data_of_held hname hi hj hq) with heq | hlater
          · exact .inl (hd.trans heq)
          · exact .inr ⟨k', q', hlater, hwritten, .inl hi⟩
        · exact absurd hu hheld
      · exact .inr ⟨k', q', hk', hwritten, hreach⟩
    · exact .inr ⟨hgone, hlost q hrest⟩
  · intro q hq
    rcases h.made q hq with hgone | hremove
    · exact .inl hgone
    · exact .inr (hmem q hremove)
  · intro q hremove hq
    exact hlost q (h.there q (List.mem_cons_of_mem _ hremove) hq)

/-- The first entry can take its name out. -/
theorem Ready.removed [DecidableEq P] {p : P}
    (h : Ready names written start (.remove p :: undos) v) : v.file p ≠ none ∧
      Ready names written start undos { v with file := Function.update v.file p none } := by
  obtain ⟨hfree, hlast, hplaced⟩ : start.data p = none ∧ (∀ u ∈ undos, u.path ≠ p) ∧
      Placed start.data undos := by
    cases h.placed with
    | remove hfree hlast hplaced => exact ⟨hfree, hlast, hplaced⟩
  have hnot : ∀ k, ¬ Restores undos k p := by
    rintro k ⟨d, hd⟩
    exact hlast _ hd rfl
  have hself : Function.update v.file p none p = none := Function.update_self ..
  have hother : ∀ q, q ≠ p → Function.update v.file p none q = v.file q :=
    fun q hq => Function.update_of_ne hq ..
  have hold : ∀ q j, Function.update v.file p none q = some j → v.file q = some j := by
    intro q j hq
    by_cases hqp : q = p
    · rw [hqp, hself] at hq
      cases hq
    · exact (hother q hqp).symm.trans hq
  constructor
  · intro hp
    obtain ⟨k, hk, -⟩ := h.there p (List.mem_cons_self ..) hp
    exact hnot k (restores_cons_remove.mp hk)
  constructor
  · exact hplaced
  · exact fun k q hk => h.named k q hk.cons
  · exact h.single
  · exact fun p' q j hp' hq hne => h.shared p' q j (hold p' j hp') (hold q j hq) hne
  · exact fun k p' q j hk hj hq hne => h.opened k p' q j hk hj (hold q j hq) hne
  · intro q c hq
    have hqp : q ≠ p := by
      intro heq
      rw [heq, hfree] at hq
      cases hq
    rcases h.kept q c hq with ⟨j, hj, hcontent | ⟨k, q', hk, hwritten, hreach⟩⟩ | ⟨hgone, k, hk, hu⟩
    · exact .inl ⟨j, (hother q hqp).trans hj, .inl hcontent⟩
    · have hlater := restores_cons_remove.mp hk
      refine .inl ⟨j, (hother q hqp).trans hj, .inr ⟨k, q', hlater, hwritten, ?_⟩⟩
      rcases hreach with hheld | ⟨hu, hq'⟩
      · exact .inl hheld
      · have hne : q' ≠ p := by
          rintro rfl
          exact hnot k hlater
        exact .inr ⟨hu, (hother q' hne).trans hq'⟩
    · exact .inr ⟨(hother q hqp).trans hgone, k, restores_cons_remove.mp hk, hu⟩
  · intro q hq
    by_cases hqp : q = p
    · subst hqp
      exact .inl hself
    · rcases h.made q hq with hgone | hremove
      · exact .inl ((hother q hqp).trans hgone)
      · rcases List.mem_cons.mp hremove with heq | hremove
        · cases heq
          exact absurd rfl hqp
        · exact .inr hremove
  · intro q hremove hq
    have hqp : q ≠ p := fun heq => hlast _ hremove (by rw [heq]; rfl)
    obtain ⟨k, hk, hu⟩ := h.there q (List.mem_cons_of_mem _ hremove) ((hother q hqp).symm.trans hq)
    exact ⟨k, restores_cons_remove.mp hk, hu⟩

end Steps

end Multicorn.HandleLog
