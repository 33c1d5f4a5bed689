import Mathlib.Data.List.Basic

/-! Tables that are written row by row, each write to whatever its key finds. -/
namespace Multicorn.KeyedWrites

variable {α κ : Type*} (hits : κ → α → Bool)

def deleteAll (keys : List κ) (table : List α) : List α :=
  keys.foldl (fun table key => table.filter fun a => !hits key a) table

/-- Each write is a key and what happens to a row that it finds. -/
def updateAll (writes : List (κ × (α → α))) (table : List α) : List α :=
  writes.foldl (fun table w => table.map fun a => if hits w.1 a then w.2 a else a) table

variable {hits} {keys : List κ} {table : List α}

theorem deleteAll_eq_filter (keys : List κ) (table : List α) :
    deleteAll hits keys table = table.filter fun a => !keys.any fun key => hits key a := by
  unfold deleteAll
  induction keys generalizing table with
  | nil => simp
  | cons key keys ih =>
    rw [List.foldl_cons, ih, List.filter_filter]
    refine List.filter_congr fun a _ => ?_
    rw [List.any_cons, Bool.not_or, Bool.and_comm]

/-- Deletes by key delete a set of rows exactly when the keys find that set. -/
theorem deleteAll_eq_iff {p : α → Bool} :
    deleteAll hits keys table = table.filter (fun a => !p a) ↔
      ∀ a ∈ table, p a = true ↔ ∃ key ∈ keys, hits key a = true := by
  rw [deleteAll_eq_filter]
  constructor
  · intro h a ha
    have hmem : a ∈ table.filter (fun a => !keys.any fun key => hits key a) ↔
        a ∈ table.filter fun a => !p a := by rw [h]
    rw [List.mem_filter, List.mem_filter, and_iff_right ha, and_iff_right ha,
      Bool.not_eq_true', Bool.not_eq_true', Bool.eq_false_iff, Bool.eq_false_iff,
      not_iff_not] at hmem
    exact hmem.symm.trans List.any_eq_true
  · intro h
    refine List.filter_congr fun a ha => ?_
    rw [Bool.eq_iff_iff.mpr ((h a ha).trans List.any_eq_true.symm)]

theorem updateAll_eq_map (writes : List (κ × (α → α))) (table : List α) :
    updateAll hits writes table =
      table.map fun a => writes.foldl (fun a w => if hits w.1 a then w.2 a else a) a := by
  unfold updateAll
  induction writes generalizing table with
  | nil => simp
  | cons w writes ih =>
    rw [List.foldl_cons, ih, List.map_map]
    rfl

/-- Where every key finds rows of a set only, each row of it is found, and a row as written is
found by no write that would change it, each row of the set is written once. -/
theorem updateAll_eq {writes : List (κ × (α → α))} {p : α → Bool} {new : α → α}
    (hfound : ∀ a ∈ table, p a = true → ∃ w ∈ writes, hits w.1 a = true)
    (hhit : ∀ w ∈ writes, ∀ a ∈ table, hits w.1 a = true → p a = true ∧ w.2 a = new a)
    (hnew : ∀ w ∈ writes, ∀ a ∈ table, p a = true → hits w.1 (new a) = true →
      w.2 (new a) = new a) :
    updateAll hits writes table = table.map fun a => if p a then new a else a := by
  rw [updateAll_eq_map]
  refine List.map_congr_left fun a ha => ?_
  -- once written, the row keeps what it has
  have hstays : p a = true → ∀ l, l ⊆ writes →
      l.foldl (fun a w => if hits w.1 a then w.2 a else a) (new a) = new a := by
    intro hp l hl
    induction l with
    | nil => rfl
    | cons w l ih =>
      rw [List.cons_subset] at hl
      rw [List.foldl_cons]
      split_ifs with hw
      · rw [hnew w hl.1 a ha hp hw]
        exact ih hl.2
      · exact ih hl.2
  have hrun : ∀ l, l ⊆ writes → l.foldl (fun a w => if hits w.1 a then w.2 a else a) a =
      if ∃ w ∈ l, hits w.1 a = true then new a else a := by
    intro l hl
    induction l with
    | nil => simp
    | cons w l ih =>
      rw [List.cons_subset] at hl
      rw [List.foldl_cons]
      by_cases hw : hits w.1 a = true
      · obtain ⟨hp, hwrite⟩ := hhit w hl.1 a ha hw
        rw [if_pos hw, hwrite, hstays hp l hl.2, if_pos ⟨w, List.mem_cons_self, hw⟩]
      · have hcons : (∃ v ∈ w :: l, hits v.1 a = true) ↔ ∃ v ∈ l, hits v.1 a = true := by
          simp [hw]
        rw [if_neg hw, ih hl.2]
        exact (if_congr hcons rfl rfl).symm
  rw [hrun writes (List.Subset.refl _)]
  refine if_congr ?_ rfl rfl
  exact ⟨fun ⟨w, hw, hit⟩ => (hhit w hw a ha hit).1, fun hp => hfound a ha hp⟩

end Multicorn.KeyedWrites
