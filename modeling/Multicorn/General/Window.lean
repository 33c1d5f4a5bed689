import Mathlib.Data.List.Perm.Subperm

/-! Offset and count windows of a list, and when such a window may be taken before the rows
that fail a filter are removed. -/
namespace Multicorn.Window

variable {α : Type*}

/-- The elements after the first `o`, at most `n` of them; `none` is no bound. -/
def window (o : ℕ) (n : Option ℕ) (l : List α) : List α :=
  match n with
  | none => l.drop o
  | some n => (l.drop o).take n

theorem window_append_of_length {o : ℕ} {n : Option ℕ} {a : List α} {b : α} {c : List α}
    (ha : a.length = o) (hn : n ≠ some 0) : (window o n (a ++ b :: c)).head? = some b := by
  subst ha
  rcases n with _ | _ | n
  · simp [window]
  · exact absurd rfl hn
  · simp [window]

theorem length_window_replicate (o : ℕ) (n : Option ℕ) (N : ℕ) (a : α) :
    (window o n (List.replicate N a)).length =
      match n with
      | none => N - o
      | some n => min n (N - o) := by
  cases n <;> simp [window]

theorem mem_of_mem_window {o : ℕ} {n : Option ℕ} {l : List α} {a : α} (h : a ∈ window o n l) :
    a ∈ l := by
  cases n with
  | none => exact List.mem_of_mem_drop h
  | some n => exact List.mem_of_mem_drop (List.mem_of_mem_take h)

/-- Rows behind the ones that pass do not matter. -/
theorem filter_window_append {P : α → Bool} {a b : List α} (ha : ∀ x ∈ a, P x = true)
    (hb : ∀ x ∈ b, P x = false) (o : ℕ) (n : Option ℕ) :
    (window o n (a ++ b)).filter P = window o n a := by
  have hfilter : ∀ m k : ℕ, ((a.drop o).take m ++ (b.drop k).take (m - (a.drop o).length)).filter P =
      (a.drop o).take m := by
    intro m k
    rw [List.filter_append, List.filter_eq_self.mpr, List.filter_eq_nil_iff.mpr, List.append_nil]
    · intro x hx
      simp [hb x (List.mem_of_mem_drop (List.mem_of_mem_take hx))]
    · intro x hx
      exact ha x (List.mem_of_mem_drop (List.mem_of_mem_take hx))
  cases n with
  | none =>
    simp only [window, List.drop_append, List.filter_append]
    rw [List.filter_eq_self.mpr, List.filter_eq_nil_iff.mpr, List.append_nil]
    · intro x hx
      simp [hb x (List.mem_of_mem_drop hx)]
    · intro x hx
      exact ha x (List.mem_of_mem_drop hx)
  | some n =>
    simp only [window, List.drop_append, List.take_append]
    exact hfilter n _

/-- In a list where no failing element may precede a passing one, the passing ones come
first. -/
theorem filter_append_filter_not {P : α → Bool} {R : α → α → Prop} {l : List α}
    (hl : l.Pairwise R) (h : ∀ f ∈ l, ∀ p ∈ l, P f = false → P p = true → ¬ R f p) :
    l.filter P ++ l.filter (fun a => !P a) = l := by
  induction l with
  | nil => rfl
  | cons a l ih =>
    rw [List.pairwise_cons] at hl
    have ih' := ih hl.2 fun f hf p hp =>
      h f (List.mem_cons_of_mem a hf) p (List.mem_cons_of_mem a hp)
    cases hP : P a with
    | true => simpa [hP] using ih'
    | false =>
      have hfail : ∀ p ∈ l, P p = false := by
        intro p hp
        by_contra hne
        exact h a (List.mem_cons_self ..) p (List.mem_cons_of_mem a hp) hP (by simpa using hne)
          (hl.1 p hp)
      have hnil : l.filter P = [] := List.filter_eq_nil_iff.mpr fun p hp => by simp [hfail p hp]
      have hself : l.filter (fun a => !P a) = l :=
        List.filter_eq_self.mpr fun p hp => by simp [hfail p hp]
      simp [hP, hnil, hself]

/-- Two windows that select equally many copies of one element are the same window. -/
theorem window_eq_of_length {o o' : ℕ} {n n' : Option ℕ} (a : α) (hn : n ≠ some 0)
    (h : ∀ N, (window o' n' (List.replicate N a)).length =
      (window o n (List.replicate N a)).length) : o' = o ∧ n' = n := by
  simp only [length_window_replicate] at h
  have h₁ := h (o + 1)
  have h₂ := h (o' + 1)
  rcases n with _ | _ | n
  · rcases n' with _ | n'
    · exact ⟨by simp only at h₁ h₂; omega, rfl⟩
    · have h₃ := h (o + o' + n' + 1)
      simp only at h₃
      omega
  · exact absurd rfl hn
  · rcases n' with _ | n'
    · have h₃ := h (o + o' + n + 2)
      simp only at h₃
      omega
    · have h₃ := h (o + o' + n + n' + 2)
      simp only at h₁ h₂ h₃
      exact ⟨by omega, by congr 1; omega⟩

section Pushdown

variable (W : α → Prop) (P : α → Bool) (leS leO : α → α → Prop)

/-- A source that keeps at least the rows that pass, in its order, and cuts its window out
before the filter, returns what filtering and ordering first would. -/
def PushdownFaithful (o' : ℕ) (n' : Option ℕ) (o : ℕ) (n : Option ℕ) : Prop :=
  ∀ T : List α, (∀ a ∈ T, W a) → ∀ L : List α, L.Subperm T → (L.filter P).Perm (T.filter P) →
    L.Pairwise leS → ∃ L' : List α, L'.Perm (T.filter P) ∧ L'.Pairwise leO ∧
      (window o' n' L).filter P = window o n L'

/-- The rows that pass come strictly first. -/
def PassFirst : Prop := ∀ f p, W f → W p → P f = false → P p = true → ¬ leS f p

def Refines : Prop := ∀ p q, W p → W q → P p = true → P q = true → leS p q → leO p q

variable {W P leS leO}

private theorem pairwise_replicate_append {R : α → α → Prop} {a b : α} (ha : R a a) (hb : R b b)
    (hab : R a b) (k m : ℕ) : (List.replicate k a ++ List.replicate m b).Pairwise R := by
  rw [List.pairwise_append]
  refine ⟨List.pairwise_replicate.mpr (.inr ha), List.pairwise_replicate.mpr (.inr hb), ?_⟩
  intro x hx y hy
  rw [List.eq_of_mem_replicate hx, List.eq_of_mem_replicate hy]
  exact hab

private theorem pushdown_of_order {o : ℕ} {n : Option ℕ} (hfirst : PassFirst W P leS)
    (href : Refines W P leS leO) : PushdownFaithful W P leS leO o n o n := by
  intro T hT L hsub hperm hsort
  have hL : ∀ a ∈ L, W a := fun a ha => hT a (hsub.subset ha)
  refine ⟨L.filter P, hperm, ?_, ?_⟩
  · refine (hsort.filter P).imp_of_mem fun {a b} ha hb hab => ?_
    rw [List.mem_filter] at ha hb
    exact href a b (hL a ha.1) (hL b hb.1) ha.2 hb.2 hab
  · have hsplit := filter_append_filter_not hsort
      fun f hf p hp => hfirst f p (hL f hf) (hL p hp)
    conv_lhs => rw [← hsplit]
    refine filter_window_append (fun a ha => (List.mem_filter.mp ha).2) (fun a ha => ?_) o n
    simpa using (List.mem_filter.mp ha).2

private theorem pushdown_of_no_pass {o' o : ℕ} {n' n : Option ℕ}
    (hnone : ∀ a, W a → P a = false) : PushdownFaithful W P leS leO o' n' o n := by
  intro T hT L hsub hperm _
  have hL : ∀ l : List α, (∀ a ∈ l, W a) → l.filter P = [] := fun l hl =>
    List.filter_eq_nil_iff.mpr fun a ha => by simp [hnone a (hl a ha)]
  refine ⟨[], by rw [hL T hT], .nil, ?_⟩
  rw [hL _ fun a ha => hT a (hsub.subset (mem_of_mem_window ha))]
  cases n <;> simp [window]

private theorem pushdown_of_zero {o' o : ℕ} (href : ∀ T : List α, (∀ a ∈ T, W a) →
    ∃ L' : List α, L'.Perm (T.filter P) ∧ L'.Pairwise leO) :
    PushdownFaithful W P leS leO o' (some 0) o (some 0) := by
  intro T hT L _ _ _
  obtain ⟨L', hperm, hsort⟩ := href T hT
  exact ⟨L', hperm, hsort, by simp [window]⟩

private theorem window_eq_of_pushdown {o' o : ℕ} {n' n : Option ℕ} (hn : n ≠ some 0)
    (h : PushdownFaithful W P leS leO o' n' o n) {p : α} (hW : W p) (hP : P p = true)
    (hS : leS p p) : o' = o ∧ n' = n := by
  refine window_eq_of_length p hn fun N => ?_
  have hfilter : ∀ l : List α, (∀ a ∈ l, a = p) → l.filter P = l := fun l hl =>
    List.filter_eq_self.mpr fun a ha => by rw [hl a ha, hP]
  obtain ⟨L', hperm, -, hw⟩ := h (List.replicate N p)
    (fun a ha => by rw [List.eq_of_mem_replicate ha]; exact hW) (List.replicate N p)
    (List.Subperm.refl _) (List.Perm.refl _) (List.pairwise_replicate.mpr (.inr hS))
  rw [hfilter _ fun a ha => List.eq_of_mem_replicate ha] at hperm
  rw [List.perm_replicate.mp hperm,
    hfilter _ fun a ha => List.eq_of_mem_replicate (mem_of_mem_window ha)] at hw
  rw [hw]

private theorem passFirst_of_pushdown {o : ℕ} {n : Option ℕ} (hn : n ≠ some 0)
    (hneeded : n ≠ none ∨ o ≠ 0) (hrefl : ∀ a, leS a a)
    (h : PushdownFaithful W P leS leO o n o n) : PassFirst W P leS := by
  intro f p hWf hWp hPf hPp hfp
  have hW : ∀ k m, ∀ a ∈ List.replicate k f ++ List.replicate m p, W a := by
    intro k m a ha
    rcases List.mem_append.mp ha with ha | ha
    · rw [List.eq_of_mem_replicate ha]; exact hWf
    · rw [List.eq_of_mem_replicate ha]; exact hWp
  have hpass : ∀ k m, (List.replicate k f ++ List.replicate m p).filter P =
      List.replicate m p := by
    intro k m
    simp [List.filter_append, hPf, hPp]
  have hrun : ∀ k m, ∃ L' : List α, L' = List.replicate m p ∧
      (window o n (List.replicate k f ++ List.replicate m p)).filter P = window o n L' := by
    intro k m
    obtain ⟨L', hperm, -, hw⟩ := h _ (hW k m) _ (List.Subperm.refl _) (List.Perm.refl _)
      (pairwise_replicate_append (hrefl f) (hrefl p) hfp k m)
    rw [hpass] at hperm
    exact ⟨L', List.perm_replicate.mp hperm, hw⟩
  rcases n with _ | _ | n
  · obtain ⟨o, rfl⟩ := Nat.exists_eq_succ_of_ne_zero (hneeded.resolve_left (by simp))
    obtain ⟨L', rfl, hw⟩ := hrun 1 (o + 1)
    simp [window, hPp] at hw
  · exact hn rfl
  · obtain ⟨L', rfl, hw⟩ := hrun (o + n + 1) (o + 1)
    have hlen : (List.drop o (List.replicate (o + n + 1) f ++ List.replicate (o + 1) p)) =
        List.replicate (n + 1) f ++ List.replicate (o + 1) p := by
      rw [List.drop_append_of_le_length (by simp; omega), List.drop_replicate]
      congr 2
      omega
    simp only [window, hlen] at hw
    rw [List.take_append_of_le_length (by simp)] at hw
    simp [hPf] at hw

private theorem refines_of_pushdown {o : ℕ} {n : Option ℕ} (hn : n ≠ some 0)
    (hreflS : ∀ a, leS a a) (hreflO : ∀ a, leO a a)
    (h : PushdownFaithful W P leS leO o n o n) : Refines W P leS leO := by
  classical
  intro p q hWp hWq hPp hPq hpq
  by_contra hnot
  have hne : p ≠ q := by
    rintro rfl
    exact hnot (hreflO p)
  let T := List.replicate o p ++ p :: List.replicate (o + 1) q
  have hT : T = List.replicate (o + 1) p ++ List.replicate (o + 1) q := by
    simp [T, List.replicate_succ']
  have hmem : ∀ a ∈ T, a = p ∨ a = q := by
    intro a ha
    rw [hT] at ha
    exact (List.mem_append.mp ha).imp List.eq_of_mem_replicate List.eq_of_mem_replicate
  have hpass : ∀ l : List α, (∀ a ∈ l, a ∈ T) → l.filter P = l := fun l hl =>
    List.filter_eq_self.mpr fun a ha => by
      rcases hmem a (hl a ha) with rfl | rfl
      · exact hPp
      · exact hPq
  obtain ⟨L', hperm, hsort, hw⟩ := h T
    (fun a ha => by rcases hmem a ha with rfl | rfl; exacts [hWp, hWq]) T (List.Subperm.refl _)
    (List.Perm.refl _) (hT ▸ pairwise_replicate_append (hreflS p) (hreflS q) hpq _ _)
  rw [hpass T fun _ ha => ha] at hperm
  rw [hpass _ fun a ha => mem_of_mem_window ha] at hw
  have hsplit := filter_append_filter_not (P := fun a => decide (a = q)) hsort
    fun f hf a _ hfq haq hfa => by
      have hfp : f = p := (hmem f (hperm.subset hf)).resolve_right (by simpa using hfq)
      have haq' : a = q := by simpa using haq
      exact hnot (hfp ▸ haq' ▸ hfa)
  have hq : L'.filter (fun a => decide (a = q)) = List.replicate (o + 1) q := by
    refine List.perm_replicate.mp ((hperm.filter _).trans ?_)
    simp [hT, List.filter_append, hne]
  have hhead : (window o n L').head? = some q := by
    rw [← hsplit, hq, List.replicate_succ', List.append_assoc]
    exact window_append_of_length (by simp) hn
  rw [← hw, window_append_of_length (by simp) hn] at hhead
  exact hne (Option.some.inj hhead)

/-- A window can be pushed below the filter exactly when it is empty, or it is pushed as it
stands (unless nothing passes), the rows that pass come first and the source's order refines
the wanted one. -/
theorem pushdownFaithful_iff {o' o : ℕ} {n' n : Option ℕ} (hreflS : ∀ a, leS a a)
    (hreflO : ∀ a, leO a a)
    (hsorted : ∀ T : List α, ∃ L' : List α, L'.Perm T ∧ L'.Pairwise leO)
    (hzero : n = some 0 → n' = some 0) (hneeded : n ≠ none ∨ o ≠ 0) :
    PushdownFaithful W P leS leO o' n' o n ↔
      n = some 0 ∨ ((∃ a, W a ∧ P a = true) → o' = o ∧ n' = n) ∧ PassFirst W P leS ∧
        Refines W P leS leO := by
  by_cases hn : n = some 0
  · subst hn
    rw [hzero rfl]
    exact iff_of_true (pushdown_of_zero fun T _ => hsorted _) (.inl rfl)
  · rw [or_iff_right hn]
    by_cases hpass : ∃ a, W a ∧ P a = true
    · obtain ⟨a, hW, hP⟩ := hpass
      constructor
      · intro h
        obtain ⟨rfl, rfl⟩ := window_eq_of_pushdown hn h hW hP (hreflS a)
        exact ⟨fun _ => ⟨rfl, rfl⟩, passFirst_of_pushdown hn hneeded hreflS h,
          refines_of_pushdown hn hreflS hreflO h⟩
      · rintro ⟨hcounts, hfirst, href⟩
        obtain ⟨rfl, rfl⟩ := hcounts ⟨a, hW, hP⟩
        exact pushdown_of_order hfirst href
    · have hnone : ∀ a, W a → P a = false := fun a hW => by
        by_contra hP
        exact hpass ⟨a, hW, by simpa using hP⟩
      refine iff_of_true (pushdown_of_no_pass hnone) ⟨fun hp => absurd hp hpass, ?_, ?_⟩
      · intro f p _ hWp _ hPp
        simp [hnone p hWp] at hPp
      · intro p q hWp _ hPp
        simp [hnone p hWp] at hPp

end Pushdown

end Multicorn.Window
