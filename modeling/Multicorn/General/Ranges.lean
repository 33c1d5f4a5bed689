import Mathlib.Data.List.Chain
import Mathlib.Data.List.Nodup
import Mathlib.Order.Basic
import Mathlib.Data.Int.Order.Basic
import Mathlib.Tactic.Common

/-! Lists of integers as ranges of consecutive numbers. -/
namespace Multicorn.Ranges

/-- The numbers from `a` to `b`, in order. -/
def interval (a b : ℤ) : List ℤ := (List.range (b + 1 - a).toNat).map fun k : ℕ => a + (k : ℤ)

theorem mem_interval {a b x : ℤ} : x ∈ interval a b ↔ a ≤ x ∧ x ≤ b := by
  constructor
  · intro h
    obtain ⟨k, hk, hx⟩ := List.mem_map.mp h
    have hlt := List.mem_range.mp hk
    omega
  · intro h
    have hlt : (x - a).toNat < (b + 1 - a).toNat := by omega
    apply List.mem_map.mpr
    exact ⟨(x - a).toNat, List.mem_range.mpr hlt, by omega⟩

@[simp] theorem interval_self (a : ℤ) : interval a a = [a] := by
  have hone : (a + 1 - a).toNat = 1 := by omega
  rw [interval, hone, List.range_one, List.map_singleton]
  simp

theorem interval_succ {a b : ℤ} (h : a ≤ b) : interval a (b + 1) = interval a b ++ [b + 1] := by
  have hlen : (b + 1 + 1 - a).toNat = (b + 1 - a).toNat + 1 := by omega
  have hlast : a + ((b + 1 - a).toNat : ℤ) = b + 1 := by omega
  rw [interval, hlen, List.range_succ, List.map_append, List.map_singleton, hlast]
  rfl

theorem nodup_interval (a b : ℤ) : (interval a b).Nodup := by
  apply List.nodup_range.map
  intro k k' h
  have h : a + (k : ℤ) = a + (k' : ℤ) := h
  omega

/-- The ranges in order, each one up to its end. -/
def expand (ranges : List (ℤ × ℤ)) : List ℤ := ranges.flatMap fun r => interval r.1 r.2

/-- A number is missing between the two ranges. -/
def Separated (r r' : ℤ × ℤ) : Prop := r.2 + 1 < r'.1

/-- The ranges of `i :: rest` when `first` began the one that `i` stands in. -/
def runs (first : ℤ) : ℤ → List ℤ → List (ℤ × ℤ)
  | i, [] => [(first, i)]
  | i, j :: rest => if j = i + 1 then runs first j rest else (first, i) :: runs j j rest

theorem runs_ordered {first i : ℤ} {rest : List ℤ} (h : first ≤ i) :
    ∀ r ∈ runs first i rest, r.1 ≤ r.2 := by
  induction rest generalizing first i with
  | nil => simpa [runs] using h
  | cons j rest ih =>
    simp only [runs]
    split_ifs with hj
    · exact ih (by omega)
    · intro r hr
      rcases List.mem_cons.mp hr with heq | htail
      · subst heq
        exact h
      · exact ih (le_refl j) r htail

theorem expand_runs {first i : ℤ} {rest : List ℤ} (h : first ≤ i) :
    expand (runs first i rest) = interval first i ++ rest := by
  induction rest generalizing first i with
  | nil => simp [runs, expand]
  | cons j rest ih =>
    simp only [runs]
    split_ifs with hj
    · subst hj
      rw [ih (by omega), interval_succ h, List.append_assoc, List.singleton_append]
    · have htail : expand (runs j j rest) = interval j j ++ rest := ih (le_refl j)
      change interval first i ++ expand (runs j j rest) = _
      rw [htail, interval_self, List.singleton_append]

theorem runs_head (first i : ℤ) (rest : List ℤ) :
    ∃ last tail, runs first i rest = (first, last) :: tail := by
  induction rest generalizing first i with
  | nil => exact ⟨i, [], rfl⟩
  | cons j rest ih =>
    simp only [runs]
    split_ifs
    · exact ih first j
    · exact ⟨i, runs j j rest, rfl⟩

/-- In an increasing list the ranges are as long as they can be. -/
theorem runs_separated {first i : ℤ} {rest : List ℤ} (h : (i :: rest).Pairwise (· < ·)) :
    (runs first i rest).IsChain Separated := by
  induction rest generalizing first i with
  | nil => simp [runs]
  | cons j rest ih =>
    obtain ⟨hi, htail⟩ := List.pairwise_cons.mp h
    have hlt : i < j := hi j List.mem_cons_self
    simp only [runs]
    split_ifs with hj
    · exact ih htail
    · obtain ⟨last, tail, hruns⟩ := runs_head j j rest
      have hchain : (runs j j rest).IsChain Separated := ih htail
      rw [hruns] at hchain ⊢
      apply List.IsChain.cons_cons _ hchain
      change i + 1 < j
      omega

/-- Behind a range that is separated from the first of the others, every number lies beyond
its successor. -/
theorem lt_of_separated {r : ℤ × ℤ} {ranges : List (ℤ × ℤ)} (hord : ∀ r' ∈ ranges, r'.1 ≤ r'.2)
    (h : (r :: ranges).IsChain Separated) : ∀ x ∈ expand ranges, r.2 + 1 < x := by
  induction ranges generalizing r with
  | nil => simp [expand]
  | cons r' ranges ih =>
    obtain ⟨hsep, hchain⟩ := List.isChain_cons_cons.mp h
    have hle := hord r' List.mem_cons_self
    have hsep : r.2 + 1 < r'.1 := hsep
    intro x hx
    rcases List.mem_append.mp hx with hhead | htail
    · have hx := mem_interval.mp hhead
      omega
    · have hx := ih (fun r'' hr => hord r'' (List.mem_cons_of_mem r' hr)) hchain x htail
      omega

/-- Only the end of a range has no successor in the list. -/
theorem countP_interval {r : ℤ × ℤ} {l : List ℤ} (hle : r.1 ≤ r.2) (h : ∀ x ∈ l, r.2 + 1 < x) :
    (interval r.1 r.2).countP (fun m => m + 1 ∉ interval r.1 r.2 ++ l) = 1 := by
  have hend : ∀ m ∈ interval r.1 r.2, (m + 1 ∉ interval r.1 r.2 ++ l ↔ m = r.2) := by
    intro m hm
    have hm := mem_interval.mp hm
    have hl : m + 1 ∉ l := by
      intro hin
      have := h (m + 1) hin
      omega
    rw [List.mem_append, mem_interval]
    constructor
    · intro hout
      by_contra hne
      exact hout (.inl ⟨by omega, by omega⟩)
    · intro heq hin
      rcases hin with hin | hin
      · omega
      · exact hl hin
  have hcount : (interval r.1 r.2).countP (fun m => m + 1 ∉ interval r.1 r.2 ++ l) =
      (interval r.1 r.2).count r.2 := by
    apply List.countP_congr
    intro m hm
    rw [decide_eq_true_iff, hend m hm, beq_iff_eq]
  have hmem : r.2 ∈ interval r.1 r.2 := mem_interval.mpr ⟨hle, le_refl r.2⟩
  rw [hcount, List.count_eq_one_of_mem (nodup_interval r.1 r.2) hmem]

/-- Separated ranges are as many as the numbers whose successor is missing. -/
theorem length_of_separated {ranges : List (ℤ × ℤ)} (hord : ∀ r ∈ ranges, r.1 ≤ r.2)
    (h : ranges.IsChain Separated) :
    ranges.length = (expand ranges).countP fun m => m + 1 ∉ expand ranges := by
  induction ranges with
  | nil => rfl
  | cons r ranges ih =>
    have hord' : ∀ r' ∈ ranges, r'.1 ≤ r'.2 := fun r' hr => hord r' (List.mem_cons_of_mem r hr)
    have hfar := lt_of_separated hord' h
    have hsplit : expand (r :: ranges) = interval r.1 r.2 ++ expand ranges := rfl
    have hhead := countP_interval (hord r List.mem_cons_self) hfar
    have htail : (expand ranges).countP (fun m => m + 1 ∉ interval r.1 r.2 ++ expand ranges) =
        (expand ranges).countP fun m => m + 1 ∉ expand ranges := by
      apply List.countP_congr
      intro m hm
      have hm := hfar m hm
      have hout : m + 1 ∉ interval r.1 r.2 := by
        intro hin
        have := mem_interval.mp hin
        omega
      simp [hout]
    rw [hsplit, List.countP_append, hhead, htail, List.length_cons, ih hord' h.tail, Nat.add_comm]

end Multicorn.Ranges
