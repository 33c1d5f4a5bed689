import Mathlib.Data.List.Forall2

/-! Lists whose elements correspond one by one, such as a list and what a program makes of it. -/
namespace Multicorn.Pointwise

universe v w

variable {α : Type*} {β γ : Type v} {ε : Type w} {r : α → β → Prop} {l : List α} {u : List β}

theorem exists_of_mem_right (h : List.Forall₂ r l u) {b : β} (hb : b ∈ u) :
    ∃ a ∈ l, r a b := by
  induction h with
  | nil => cases hb
  | cons hab _ ih =>
    rcases List.mem_cons.mp hb with rfl | hb
    · exact ⟨_, List.mem_cons_self, hab⟩
    · obtain ⟨a, ha, hab⟩ := ih hb
      exact ⟨a, List.mem_cons_of_mem _ ha, hab⟩

theorem exists_of_mem_left (h : List.Forall₂ r l u) {a : α} (ha : a ∈ l) :
    ∃ b ∈ u, r a b :=
  exists_of_mem_right h.flip ha

theorem forall₂_comp {s : β → γ → Prop} {v : List γ} (h : List.Forall₂ r l u)
    (h' : List.Forall₂ s u v) : List.Forall₂ (fun a c => ∃ b, r a b ∧ s b c) l v := by
  induction h generalizing v with
  | nil =>
    cases h'
    exact .nil
  | cons hab _ ih =>
    cases h' with
    | cons hbc htail => exact .cons ⟨_, hab, hbc⟩ (ih htail)

/-- An order carries over to the corresponding elements. -/
theorem pairwise_of_forall₂ {le : α → α → Prop} {le' : β → β → Prop} (h : List.Forall₂ r l u)
    (hle : ∀ a b a' b', r a b → r a' b' → le a a' → le' b b') (hl : l.Pairwise le) :
    u.Pairwise le' := by
  induction h with
  | nil => exact .nil
  | cons hab htail ih =>
    rw [List.pairwise_cons] at hl ⊢
    refine ⟨fun b' hb' => ?_, ih hl.2⟩
    obtain ⟨a', ha', hab'⟩ := exists_of_mem_right htail hb'
    exact hle _ _ _ _ hab hab' (hl.1 a' ha')

theorem map_eq_of_forall₂ {f : α → γ} {g : β → γ} (h : List.Forall₂ r l u)
    (hfg : ∀ a b, r a b → f a = g b) : l.map f = u.map g := by
  induction h with
  | nil => rfl
  | cons hab _ ih => rw [List.map_cons, List.map_cons, hfg _ _ hab, ih]

theorem forall₂_of_mapM_some {f : α → Option β} (h : l.mapM f = some u) :
    List.Forall₂ (fun a b => f a = some b) l u := by
  induction l generalizing u with
  | nil =>
    cases h
    exact .nil
  | cons a l ih =>
    rw [List.mapM_cons] at h
    obtain ⟨b, hb, h⟩ := Option.bind_eq_some_iff.mp h
    obtain ⟨bs, hbs, h⟩ := Option.bind_eq_some_iff.mp h
    cases h
    exact .cons hb (ih hbs)

theorem bind_eq_ok {x : Except ε β} {f : β → Except ε γ} {c : γ} :
    x >>= f = .ok c ↔ ∃ b, x = .ok b ∧ f b = .ok c := by
  cases x with
  | error e => exact ⟨nofun, nofun⟩
  | ok b => exact ⟨fun h => ⟨b, rfl, h⟩, fun ⟨_, hb, h⟩ => Except.ok.inj hb ▸ h⟩

theorem mapError_eq_ok {ε' : Type*} {x : Except ε β} {f : ε → ε'} {b : β} :
    x.mapError f = .ok b ↔ x = .ok b := by
  cases x <;> simp [Except.mapError]

theorem forall₂_of_mapM_ok {f : α → Except ε β} (h : l.mapM f = .ok u) :
    List.Forall₂ (fun a b => f a = .ok b) l u := by
  induction l generalizing u with
  | nil =>
    cases h
    exact .nil
  | cons a l ih =>
    rw [List.mapM_cons] at h
    obtain ⟨b, hb, h⟩ := bind_eq_ok.mp h
    obtain ⟨bs, hbs, h⟩ := bind_eq_ok.mp h
    cases h
    exact .cons hb (ih hbs)

end Multicorn.Pointwise
