import Mathlib.Data.List.Perm.Basic

/-! Sources that may return more rows than a filter keeps, with the filter run again behind
them. -/
namespace Multicorn.Recheck

variable {α : Type*} {P R : α → Prop} {table kept : List α}

/-- `kept` is `table` in some order, without some of the rows that fail `P`. -/
def Keeps (P : α → Prop) (table kept : List α) : Prop :=
  ∃ dropped, table.Perm (kept ++ dropped) ∧ ∀ a ∈ dropped, ¬ P a

theorem keeps_filter {q : α → Bool} (h : ∀ a ∈ table, P a → q a = true) :
    Keeps P table (table.filter q) := by
  refine ⟨table.filter fun a => !q a, (List.filter_append_perm q table).symm, ?_⟩
  intro a ha hP
  obtain ⟨hmem, hq⟩ := List.mem_filter.mp ha
  simp [h a hmem hP] at hq

theorem Keeps.perm {kept' : List α} (h : Keeps P table kept) (hp : kept'.Perm kept) :
    Keeps P table kept' := by
  obtain ⟨dropped, ht, hd⟩ := h
  exact ⟨dropped, ht.trans (hp.symm.append_right dropped), hd⟩

theorem Keeps.mono (h : Keeps P table kept) (hR : ∀ a ∈ table, R a → P a) :
    Keeps R table kept := by
  obtain ⟨dropped, ht, hd⟩ := h
  refine ⟨dropped, ht, fun a ha hRa => hd a ha (hR a ?_ hRa)⟩
  exact ht.mem_iff.mpr (List.mem_append_right kept ha)

/-- Behind the filter nothing is missing. -/
theorem Keeps.filter_perm {p : α → Bool} (h : Keeps (fun a => p a = true) table kept) :
    (kept.filter p).Perm (table.filter p) := by
  obtain ⟨dropped, ht, hd⟩ := h
  have hnil : dropped.filter p = [] := List.filter_eq_nil_iff.mpr hd
  have := (ht.filter p).symm
  rwa [List.filter_append, hnil, List.append_nil] at this

end Multicorn.Recheck
