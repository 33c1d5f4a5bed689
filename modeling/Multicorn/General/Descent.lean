import Mathlib.Data.List.Basic

/-! Following the components of a path by name only: some stay where they are, some go up, and
the others go one level down. A path stays below its start as long as it never goes up more
often than it went down before. -/
namespace Multicorn.Descent

inductive Kind
  | here
  | up
  | down
  deriving DecidableEq

section

variable {α : Type} (kind : α → Kind)

def step (cur : List α) (c : α) : List α :=
  match kind c with
  | .here => cur
  | .up => cur.dropLast
  | .down => cur ++ [c]

def descend (cur comps : List α) : List α := comps.foldl (step kind) cur

/-- The depth below the start that the components lead to from depth `n`, if they never leave
what is below the start. -/
def depth (n : ℕ) : List α → Option ℕ
  | [] => some n
  | c :: rest =>
    match kind c with
    | .here => depth n rest
    | .up => if n = 0 then none else depth (n - 1) rest
    | .down => depth (n + 1) rest

/-- The components that lead somewhere. -/
def moving (comps : List α) : List α := comps.filter fun c => kind c ≠ .here

end

variable {α : Type} {kind : α → Kind}

@[simp] theorem moving_append (a b : List α) : moving kind (a ++ b) = moving kind a ++ moving kind b :=
  List.filter_append a b

theorem descend_append (cur a b : List α) :
    descend kind cur (a ++ b) = descend kind (descend kind cur a) b := List.foldl_append

theorem depth_append (n : ℕ) (a b : List α) :
    depth kind n (a ++ b) = (depth kind n a).bind fun m => depth kind m b := by
  induction a generalizing n with
  | nil => rfl
  | cons c rest ih =>
    rw [List.cons_append, depth, depth]
    cases kind c with
    | here => exact ih n
    | up =>
      by_cases hn : n = 0
      · simp [hn]
      · simp only [hn, if_false]
        exact ih (n - 1)
    | down => exact ih (n + 1)

/-- A path that stays below its start does so on the way. -/
theorem depth_isSome_of_append {n : ℕ} {a b : List α} (h : (depth kind n (a ++ b)).isSome) :
    (depth kind n a).isSome := by
  rw [depth_append] at h
  cases ha : depth kind n a with
  | none => simp [ha] at h
  | some m => rfl

theorem descend_moving (cur comps : List α) :
    descend kind cur (moving kind comps) = descend kind cur comps := by
  induction comps generalizing cur with
  | nil => rfl
  | cons c rest ih =>
    have hcons : descend kind cur (c :: rest) = descend kind (step kind cur c) rest := rfl
    rw [hcons, ← ih]
    unfold moving
    rw [List.filter_cons]
    by_cases hc : kind c = .here
    · simp [hc, step]
    · simp [hc, descend]

theorem depth_moving (n : ℕ) (comps : List α) :
    depth kind n (moving kind comps) = depth kind n comps := by
  induction comps generalizing n with
  | nil => rfl
  | cons c rest ih =>
    unfold moving at ih ⊢
    rw [List.filter_cons]
    by_cases hc : kind c = .here
    · rw [if_neg (by simp [hc]), depth, hc]
      exact ih n
    · rw [if_pos (by simpa using hc), depth, depth]
      cases hkind : kind c with
      | here => exact absurd hkind hc
      | up => simp only [ih]
      | down => exact ih (n + 1)

/-- Where the depth is known, the path has stayed below its start. -/
theorem prefix_descend {base below comps : List α} {m : ℕ}
    (h : depth kind below.length comps = some m) :
    ∃ below', descend kind (base ++ below) comps = base ++ below' ∧ below'.length = m := by
  induction comps generalizing below with
  | nil => exact ⟨below, rfl, Option.some.inj h⟩
  | cons c rest ih =>
    have hcons : descend kind (base ++ below) (c :: rest) =
        descend kind (step kind (base ++ below) c) rest := rfl
    rw [depth] at h
    rw [hcons, step]
    cases hkind : kind c with
    | here =>
      rw [hkind] at h
      exact ih h
    | up =>
      rw [hkind] at h
      by_cases hn : below.length = 0
      · simp [hn] at h
      · have hne : below ≠ [] := fun hnil => hn (by rw [hnil]; rfl)
        simp only [hn, if_false] at h
        have hdrop : (base ++ below).dropLast = base ++ below.dropLast :=
          List.dropLast_append_of_ne_nil hne
        simp only [hdrop]
        apply ih
        rw [List.length_dropLast]
        exact h
    | down =>
      rw [hkind] at h
      simp only [List.append_assoc]
      apply ih
      rw [List.length_append]
      exact h

theorem isPrefix_descend {base comps : List α} (h : (depth kind 0 comps).isSome) :
    base <+: descend kind base comps := by
  obtain ⟨m, hm⟩ := Option.isSome_iff_exists.mp h
  obtain ⟨below, hbelow, -⟩ := @prefix_descend _ _ base [] comps m hm
  rw [List.append_nil] at hbelow
  exact ⟨below, hbelow.symm⟩

end Multicorn.Descent
