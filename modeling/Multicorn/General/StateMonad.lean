import Mathlib.Data.List.Forall2

/-! Programs that change a state and may fail: what their success says, and relations
between the states before and after. -/
namespace Multicorn.StateMonad

variable {ε σ α β : Type} {s s' : σ}

theorem run_get (s : σ) : (EStateM.get : EStateM ε σ σ) s = .ok s s := rfl

theorem get_bind (f : σ → EStateM ε σ α) (s : σ) :
    (get >>= f : EStateM ε σ α) s = f s s := rfl

theorem run_set (s s' : σ) : (EStateM.set s' : EStateM ε σ PUnit) s = .ok ⟨⟩ s' := rfl

theorem run_modifyGet (f : σ → α × σ) (s : σ) :
    (EStateM.modifyGet f : EStateM ε σ α) s = .ok (f s).1 (f s).2 := rfl

theorem run_throw (e : ε) (s : σ) : (EStateM.throw e : EStateM ε σ α) s = .error e s := rfl

theorem bind_eq_ok {x : EStateM ε σ α} {f : α → EStateM ε σ β} {b : β} :
    (x >>= f) s = .ok b s' ↔ ∃ a s₁, x s = .ok a s₁ ∧ f a s₁ = .ok b s' := by
  simp only [bind, EStateM.bind]
  cases x s with
  | ok a s₁ =>
    constructor
    · intro h
      exact ⟨a, s₁, rfl, h⟩
    · rintro ⟨a, s₁, h, hf⟩
      cases h
      exact hf
  | error e s₁ => simp

theorem pure_eq_ok {a b : α} : (pure a : EStateM ε σ α) s = .ok b s' ↔ a = b ∧ s = s' := by
  simp [pure, EStateM.pure]

theorem throw_ne_ok {e : ε} {a : α} : ¬ (throw e : EStateM ε σ α) s = .ok a s' := by
  simp [throw, throwThe, MonadExceptOf.throw, run_throw]

theorem get_eq_ok {a : σ} : (get : EStateM ε σ σ) s = .ok a s' ↔ s = a ∧ s = s' := by
  simp [get, getThe, MonadStateOf.get, run_get]

theorem modify_eq_ok {f : σ → σ} {u : PUnit} :
    (modify f : EStateM ε σ PUnit) s = .ok u s' ↔ f s = s' := by
  simp [modify, modifyGet, MonadStateOf.modifyGet, run_modifyGet]

theorem discard_eq_ok {x : EStateM ε σ α} {u : PUnit} :
    (discard x : EStateM ε σ PUnit) s = .ok u s' ↔ ∃ a, x s = .ok a s' := by
  simp only [discard, Functor.discard, Functor.mapConst, EStateM.map, Function.comp_apply,
    Function.const]
  cases x s <;> simp

theorem tryCatch_eq_ok {x : EStateM ε σ α} {handle : ε → EStateM ε σ α} {a : α} :
    (tryCatch x handle) s = .ok a s' ↔
      x s = .ok a s' ∨ ∃ e s₁, x s = .error e s₁ ∧ handle e s₁ = .ok a s' := by
  simp only [tryCatch, tryCatchThe, MonadExceptOf.tryCatch, EStateM.tryCatch]
  cases x s with
  | ok b s₁ => simp
  | error e s₁ =>
    constructor
    · intro h
      exact .inr ⟨e, s₁, rfl, h⟩
    · rintro (h | ⟨e', s₂, h, hh⟩)
      · cases h
      · cases h
        exact hh

theorem bind_eq_error {x : EStateM ε σ α} {f : α → EStateM ε σ β} {e : ε} :
    (x >>= f) s = .error e s' ↔
      x s = .error e s' ∨ ∃ a s₁, x s = .ok a s₁ ∧ f a s₁ = .error e s' := by
  simp only [bind, EStateM.bind]
  cases x s with
  | ok a s₁ =>
    constructor
    · intro h
      exact .inr ⟨a, s₁, rfl, h⟩
    · rintro (h | ⟨a', s₁', h, hf⟩)
      · cases h
      · cases h
        exact hf
  | error e' s₁ => simp

theorem pure_ne_error {a : α} {e : ε} : ¬ (pure a : EStateM ε σ α) s = .error e s' := by
  simp [pure, EStateM.pure]

theorem throw_eq_error {e e' : ε} :
    (throw e : EStateM ε σ α) s = .error e' s' ↔ e = e' ∧ s = s' := by
  simp [throw, throwThe, MonadExceptOf.throw, run_throw]

theorem get_ne_error {e : ε} : ¬ (get : EStateM ε σ σ) s = .error e s' := by
  simp [get, getThe, MonadStateOf.get, run_get]

theorem modify_ne_error {f : σ → σ} {e : ε} :
    ¬ (modify f : EStateM ε σ PUnit) s = .error e s' := by
  simp [modify, modifyGet, MonadStateOf.modifyGet, run_modifyGet]

theorem discard_eq_error {x : EStateM ε σ α} {e : ε} :
    (discard x : EStateM ε σ PUnit) s = .error e s' ↔ x s = .error e s' := by
  simp only [discard, Functor.discard, Functor.mapConst, EStateM.map, Function.comp_apply,
    Function.const]
  cases x s <;> simp

/-- What a program returns, when it does. -/
def value? : EStateM.Result ε σ α → Option α
  | .ok a _ => some a
  | .error _ _ => none

theorem of_value? {r : EStateM.Result ε σ α} {a : α} (h : value? r = some a) : ∃ s, r = .ok a s := by
  cases r with
  | ok b s =>
    cases h
    exact ⟨s, rfl⟩
  | error e s => cases h

theorem error_of_value? {r : EStateM.Result ε σ α} (h : value? r = none) :
    ∃ e s, r = .error e s := by
  cases r with
  | ok a s => cases h
  | error e s => exact ⟨e, s, rfl⟩

/-- The state a program leaves behind, also when it fails. -/
def finalState : EStateM.Result ε σ α → σ
  | .ok _ s => s
  | .error _ s => s

/-- Whatever a program does, it moves the state along `R`. -/
def Moves (R : σ → σ → Prop) (x : EStateM ε σ α) : Prop := ∀ s, R s (finalState (x s))

section Rules

variable {R : σ → σ → Prop}

theorem Moves.of_ok {x : EStateM ε σ α} {a : α} (h : Moves R x) (hx : x s = .ok a s') : R s s' := by
  have hs := h s
  rwa [hx] at hs

theorem Moves.of_error {x : EStateM ε σ α} {e : ε} (h : Moves R x) (hx : x s = .error e s') :
    R s s' := by
  have hs := h s
  rwa [hx] at hs

theorem Moves.bind (htrans : ∀ a b c, R a b → R b c → R a c) {x : EStateM ε σ α}
    {f : α → EStateM ε σ β} (hx : Moves R x) (hf : ∀ a, Moves R (f a)) : Moves R (x >>= f) := by
  intro s
  have h := hx s
  simp only [Bind.bind, EStateM.bind]
  cases hs : x s with
  | ok a s₁ =>
    rw [hs] at h
    exact htrans _ _ _ h (hf a s₁)
  | error e s₁ =>
    rw [hs] at h
    exact h

theorem Moves.tryCatch (htrans : ∀ a b c, R a b → R b c → R a c) {x : EStateM ε σ α}
    {handle : ε → EStateM ε σ α} (hx : Moves R x) (hh : ∀ e, Moves R (handle e)) :
    Moves R (tryCatch x handle) := by
  intro s
  have h := hx s
  simp only [MonadExcept.tryCatch, tryCatchThe, MonadExceptOf.tryCatch, EStateM.tryCatch]
  cases hs : x s with
  | ok a s₁ =>
    rw [hs] at h
    exact h
  | error e s₁ =>
    rw [hs] at h
    exact htrans _ _ _ h (hh e s₁)

theorem Moves.pure (hrefl : ∀ a, R a a) (a : α) : Moves R (pure a : EStateM ε σ α) :=
  fun s => hrefl s

theorem Moves.throw (hrefl : ∀ a, R a a) (e : ε) : Moves R (throw e : EStateM ε σ α) :=
  fun s => hrefl s

theorem Moves.get (hrefl : ∀ a, R a a) : Moves R (get : EStateM ε σ σ) := fun s => hrefl s

theorem Moves.modify {f : σ → σ} (hf : ∀ s, R s (f s)) : Moves R (modify f : EStateM ε σ PUnit) :=
  fun s => hf s

theorem Moves.mapM (hrefl : ∀ a, R a a) (htrans : ∀ a b c, R a b → R b c → R a c)
    {f : α → EStateM ε σ β} {l : List α} (hf : ∀ a ∈ l, Moves R (f a)) : Moves R (l.mapM f) := by
  induction l with
  | nil => exact Moves.pure hrefl []
  | cons a l ih =>
    rw [List.forall_mem_cons] at hf
    rw [List.mapM_cons]
    exact Moves.bind htrans hf.1 fun b => Moves.bind htrans (ih hf.2) fun bs =>
      Moves.pure hrefl (b :: bs)

end Rules

/-- The state left behind is in `I`, also after a failure, and what is returned is in `Q`. -/
def Ends (I : σ → Prop) (Q : α → Prop) (r : EStateM.Result ε σ α) : Prop :=
  I (finalState r) ∧ ∀ a, value? r = some a → Q a

/-- The program keeps the invariant, and what it returns is in `Q`. -/
def Keeps (I : σ → Prop) (x : EStateM ε σ α) (Q : α → Prop) : Prop := ∀ s, I s → Ends I Q (x s)

section Invariants

variable {I J : σ → Prop} {P Q : α → Prop}

theorem ends_ok {a : α} (hs : I s) (ha : Q a) : Ends I Q (.ok a s : EStateM.Result ε σ α) := by
  refine ⟨hs, fun b hb => ?_⟩
  cases hb
  exact ha

theorem ends_error {e : ε} (hs : I s) : Ends I Q (.error e s : EStateM.Result ε σ α) := by
  refine ⟨hs, fun b hb => ?_⟩
  cases hb

theorem Keeps.mono {x : EStateM ε σ α} (hx : Keeps I x P) (h : ∀ a, P a → Q a) : Keeps I x Q := by
  intro s hs
  obtain ⟨hI, hP⟩ := hx s hs
  exact ⟨hI, fun a ha => h a (hP a ha)⟩

theorem Keeps.pure {a : α} (h : Q a) : Keeps I (pure a : EStateM ε σ α) Q :=
  fun _ hs => ends_ok hs h

theorem Keeps.throw (e : ε) : Keeps I (throw e : EStateM ε σ α) Q := fun _ hs => ends_error hs

theorem Keeps.get : Keeps I (get : EStateM ε σ σ) I := fun _ hs => ends_ok hs hs

theorem Keeps.modify {f : σ → σ} (hf : ∀ s, I s → I (f s)) :
    Keeps I (modify f : EStateM ε σ PUnit) fun _ => True := fun s hs => ends_ok (hf s hs) trivial

/-- The second program may rely on less than the first one keeps. -/
theorem Ends.bind {P : α → Prop} {Q : β → Prop} {x : EStateM ε σ α} {f : α → EStateM ε σ β}
    (hx : Ends J P (x s)) (hweaker : ∀ s, J s → I s) (hf : ∀ a, P a → Keeps I (f a) Q) :
    Ends I Q ((x >>= f) s) := by
  obtain ⟨hJ, hP⟩ := hx
  simp only [Bind.bind, EStateM.bind]
  cases hrun : x s with
  | ok a s₁ =>
    rw [hrun] at hJ hP
    exact hf a (hP a rfl) s₁ (hweaker s₁ hJ)
  | error e s₁ =>
    rw [hrun] at hJ
    exact ends_error (hweaker s₁ hJ)

theorem Keeps.bind {P : α → Prop} {Q : β → Prop} {x : EStateM ε σ α} {f : α → EStateM ε σ β}
    (hx : Keeps I x P) (hf : ∀ a, P a → Keeps I (f a) Q) : Keeps I (x >>= f) Q :=
  fun s hs => (hx s hs).bind (fun _ => id) hf

/-- A program also keeps what relates every state to where it started. -/
theorem Keeps.along {R : σ → σ → Prop} (htrans : ∀ a b c, R a b → R b c → R a c)
    {x : EStateM ε σ α} (hx : Keeps I x Q) (hm : Moves R x) (s₀ : σ) :
    Keeps (fun s => I s ∧ R s₀ s) x Q := by
  rintro s ⟨hI, hR⟩
  obtain ⟨hI', hQ⟩ := hx s hI
  exact ⟨⟨hI', htrans _ _ _ hR (hm s)⟩, hQ⟩

theorem Keeps.tryCatch {x : EStateM ε σ α} {handle : ε → EStateM ε σ α} (hx : Keeps I x Q)
    (hh : ∀ e, Keeps I (handle e) Q) : Keeps I (tryCatch x handle) Q := by
  intro s hs
  obtain ⟨hI, hQ⟩ := hx s hs
  simp only [MonadExcept.tryCatch, tryCatchThe, MonadExceptOf.tryCatch, EStateM.tryCatch]
  cases hrun : x s with
  | ok a s₁ =>
    rw [hrun] at hI hQ
    exact ⟨hI, hQ⟩
  | error e s₁ =>
    rw [hrun] at hI
    exact hh e s₁ hI

theorem Ends.discard {x : EStateM ε σ α} (hx : Ends I Q (x s)) :
    Ends I (fun _ => True) ((discard x : EStateM ε σ PUnit) s) := by
  obtain ⟨hI, -⟩ := hx
  simp only [Functor.discard, Functor.mapConst, EStateM.map, Function.comp_apply, Function.const]
  cases hrun : x s with
  | ok a s₁ =>
    rw [hrun] at hI
    exact ends_ok hI trivial
  | error e s₁ =>
    rw [hrun] at hI
    exact ends_error hI

theorem Keeps.discard {x : EStateM ε σ α} (hx : Keeps I x Q) :
    Keeps I (discard x) fun _ => True := fun s hs => (hx s hs).discard

theorem Keeps.mapM {Q : α → β → Prop} {f : α → EStateM ε σ β} {l : List α}
    (hf : ∀ a ∈ l, Keeps I (f a) (Q a)) : Keeps I (l.mapM f) (List.Forall₂ Q l) := by
  induction l with
  | nil => exact Keeps.pure .nil
  | cons a l ih =>
    rw [List.forall_mem_cons] at hf
    rw [List.mapM_cons]
    exact Keeps.bind hf.1 fun b hb => Keeps.bind (ih hf.2) fun bs hbs => Keeps.pure (.cons hb hbs)

theorem Keeps.forM {f : α → EStateM ε σ PUnit} {l : List α}
    (hf : ∀ a ∈ l, Keeps I (f a) fun _ => True) : Keeps I (l.forM f) fun _ => True := by
  induction l with
  | nil => exact Keeps.pure trivial
  | cons a l ih =>
    rw [List.forall_mem_cons] at hf
    exact Keeps.bind hf.1 fun _ _ => ih hf.2

end Invariants

section Outcomes

/-- After a success the result and the state are in `Q`; a failure is one of `E`, and leaves a
state in `I`. -/
def Leaves (E : ε → Prop) (I : σ → Prop) (Q : α → σ → Prop) : EStateM.Result ε σ α → Prop
  | .ok a s => Q a s
  | .error e s => E e ∧ I s

variable {E : ε → Prop} {I : σ → Prop}

theorem Leaves.bind {P : α → σ → Prop} {Q : β → σ → Prop} {x : EStateM ε σ α}
    {f : α → EStateM ε σ β} (hx : Leaves E I P (x s))
    (hf : ∀ a s₁, P a s₁ → Leaves E I Q (f a s₁)) : Leaves E I Q ((x >>= f) s) := by
  simp only [Bind.bind, EStateM.bind]
  cases hrun : x s with
  | ok a s₁ =>
    rw [hrun] at hx
    exact hf a s₁ hx
  | error e s₁ =>
    rw [hrun] at hx
    exact hx

theorem Leaves.of_ok {Q : α → σ → Prop} {x : EStateM ε σ α} {a : α} {t : σ} (h : x s = .ok a t)
    (hQ : Q a t) : Leaves E I Q (x s) := by
  rw [h]
  exact hQ

theorem Leaves.of_error {Q : α → σ → Prop} {x : EStateM ε σ α} {e : ε} {t : σ}
    (h : x s = .error e t) (hE : E e) (hI : I t) : Leaves E I Q (x s) := by
  rw [h]
  exact ⟨hE, hI⟩

/-- Where no failure is allowed there is a result. -/
theorem Leaves.exists_ok {Q : α → σ → Prop} {r : EStateM.Result ε σ α}
    (h : Leaves (fun _ => False) I Q r) : ∃ a s, r = .ok a s ∧ Q a s := by
  cases r with
  | ok a s => exact ⟨a, s, rfl, h⟩
  | error e s => exact absurd h.1 id

theorem Leaves.mono {P Q : α → σ → Prop} {r : EStateM.Result ε σ α} (h : Leaves E I P r)
    (hPQ : ∀ a s, P a s → Q a s) : Leaves E I Q r := by
  cases r with
  | ok a s => exact hPQ a s h
  | error e s => exact h

theorem Leaves.weaken {J : σ → Prop} {Q : α → σ → Prop} {r : EStateM.Result ε σ α}
    (h : Leaves E J Q r) (hJ : ∀ s, J s → I s) : Leaves E I Q r := by
  cases r with
  | ok a s => exact h
  | error e s => exact ⟨h.1, hJ s h.2⟩

theorem Leaves.final {r : EStateM.Result ε σ α} (h : Leaves E I (fun _ => I) r) :
    I (finalState r) := by
  cases r with
  | ok a s => exact h
  | error e s => exact h.2

theorem Leaves.discard {Q : σ → Prop} {x : EStateM ε σ α} (h : Leaves E I (fun _ => Q) (x s)) :
    Leaves E I (fun _ => Q) ((discard x : EStateM ε σ PUnit) s) := by
  simp only [Functor.discard, Functor.mapConst, EStateM.map, Function.comp_apply, Function.const]
  cases hrun : x s with
  | ok a s' =>
    rw [hrun] at h
    exact h
  | error e s' =>
    rw [hrun] at h
    exact h

theorem Keeps.leaves {P : α → Prop} {x : EStateM ε σ α} (h : Keeps I x P) (hs : I s) :
    Leaves (fun _ => True) I (fun _ => I) (x s) := by
  obtain ⟨hI, -⟩ := h s hs
  cases hrun : x s with
  | ok a s' =>
    rw [hrun] at hI
    exact hI
  | error e s' =>
    rw [hrun] at hI
    exact ⟨trivial, hI⟩

theorem Leaves.forM {J : σ → Prop} {f : α → EStateM ε σ PUnit} {l : List α}
    (hf : ∀ a ∈ l, ∀ s, J s → Leaves E I (fun _ => J) (f a s)) (hs : J s) :
    Leaves E I (fun _ => J) (l.forM f s) := by
  induction l generalizing s with
  | nil => exact hs
  | cons a l ih =>
    rw [List.forall_mem_cons] at hf
    exact (hf.1 s hs).bind fun _ s₁ hs₁ => ih hf.2 hs₁

end Outcomes

section Lists

variable {R : σ → σ → Prop} {f : α → EStateM ε σ β} {Q : α → β → Prop}

/-- A program run for each element of a list succeeds if each run does, from any state that
the runs before may leave. -/
theorem mapM_ok (hrefl : ∀ a, R a a) (htrans : ∀ a b c, R a b → R b c → R a c) {l : List α}
    (h : ∀ a ∈ l, ∀ s₁, R s s₁ → ∃ b s₂, f a s₁ = .ok b s₂ ∧ R s₁ s₂ ∧ Q a b) :
    ∃ bs s', l.mapM f s = .ok bs s' ∧ R s s' ∧ List.Forall₂ Q l bs := by
  induction l generalizing s with
  | nil => exact ⟨[], s, rfl, hrefl s, .nil⟩
  | cons a l ih =>
    obtain ⟨b, s₁, hb, hR, hQ⟩ := h a List.mem_cons_self s (hrefl s)
    obtain ⟨bs, s', hbs, hR', hall⟩ := ih fun a' ha' s₂ hs₂ =>
      h a' (List.mem_cons_of_mem _ ha') s₂ (htrans _ _ _ hR hs₂)
    refine ⟨b :: bs, s', ?_, htrans _ _ _ hR hR', .cons hQ hall⟩
    rw [List.mapM_cons, bind_eq_ok]
    refine ⟨b, s₁, hb, ?_⟩
    rw [bind_eq_ok]
    exact ⟨bs, s', hbs, rfl⟩

/-- What each run establishes when it succeeds holds of the whole list. -/
theorem of_mapM_ok (hrefl : ∀ a, R a a) (htrans : ∀ a b c, R a b → R b c → R a c) {l : List α}
    {bs : List β} (hl : l.mapM f s = .ok bs s')
    (h : ∀ a ∈ l, ∀ s₁ b s₂, R s s₁ → f a s₁ = .ok b s₂ → R s₁ s₂ ∧ Q a b) :
    R s s' ∧ List.Forall₂ Q l bs := by
  induction l generalizing s bs with
  | nil =>
    obtain ⟨rfl, rfl⟩ := pure_eq_ok.mp hl
    exact ⟨hrefl s, .nil⟩
  | cons a l ih =>
    rw [List.mapM_cons, bind_eq_ok] at hl
    obtain ⟨b, s₁, hb, hl⟩ := hl
    rw [bind_eq_ok] at hl
    obtain ⟨bs', s₂, hbs, hl⟩ := hl
    obtain ⟨rfl, rfl⟩ := pure_eq_ok.mp hl
    obtain ⟨hR, hQ⟩ := h a List.mem_cons_self s b s₁ (hrefl s) hb
    obtain ⟨hR', hall⟩ := ih hbs fun a' ha' s₃ b' s₄ hs₃ hb' =>
      h a' (List.mem_cons_of_mem _ ha') s₃ b' s₄ (htrans _ _ _ hR hs₃) hb'
    exact ⟨htrans _ _ _ hR hR', .cons hQ hall⟩

end Lists

section Observers

/-- What a program returns or raises. -/
def outcome : EStateM.Result ε σ α → Except ε α
  | .ok a _ => .ok a
  | .error e _ => .error e

/-- States that `E` relates give the program the same outcome, and the program does not leave
their class. -/
def Observes (E : σ → σ → Prop) (x : EStateM ε σ α) : Prop :=
  ∀ s s', E s s' → outcome (x s) = outcome (x s') ∧ E s (finalState (x s))

variable {E : σ → σ → Prop}

theorem Observes.pure (hrefl : ∀ s s', E s s' → E s s) (a : α) :
    Observes E (pure a : EStateM ε σ α) := fun s s' h => ⟨rfl, hrefl s s' h⟩

theorem Observes.throw (hrefl : ∀ s s', E s s' → E s s) (e : ε) :
    Observes E (throw e : EStateM ε σ α) := fun s s' h => ⟨rfl, hrefl s s' h⟩

/-- A program that looks at the state, but only at what related states share. -/
theorem Observes.look {γ : Type} (view : σ → γ) (f : γ → EStateM ε σ α)
    (hview : ∀ s s', E s s' → view s = view s') (hf : ∀ c, Observes E (f c)) :
    Observes E (do let s ← get; f (view s)) := by
  intro s s' h
  have hrun : ∀ s, (do let s ← get; f (view s) : EStateM ε σ α) s = f (view s) s := fun _ => rfl
  rw [hrun, hrun, ← hview s s' h]
  exact hf _ s s' h

variable (hsymm : ∀ s s', E s s' → E s' s) (htrans : ∀ a b c, E a b → E b c → E a c)

include hsymm htrans

theorem Observes.bind {x : EStateM ε σ α} {f : α → EStateM ε σ β} (hx : Observes E x)
    (hf : ∀ a, Observes E (f a)) : Observes E (x >>= f) := by
  intro s s' h
  obtain ⟨hout, hleft⟩ := hx s s' h
  obtain ⟨-, hright⟩ := hx s' s (hsymm _ _ h)
  simp only [Bind.bind, EStateM.bind]
  cases hrun : x s with
  | ok a s₁ =>
    cases hrun' : x s' with
    | ok a' s₁' =>
      rw [hrun] at hout hleft
      rw [hrun'] at hout hright
      cases hout
      have hmid : E s₁ s₁' := htrans _ _ _ (htrans _ _ _ (hsymm _ _ hleft) h) hright
      obtain ⟨hout', hlast⟩ := hf a s₁ s₁' hmid
      exact ⟨hout', htrans _ _ _ hleft hlast⟩
    | error e s₁' =>
      rw [hrun, hrun'] at hout
      cases hout
  | error e s₁ =>
    cases hrun' : x s' with
    | ok a' s₁' =>
      rw [hrun, hrun'] at hout
      cases hout
    | error e' s₁' =>
      rw [hrun, hrun'] at hout
      cases hout
      rw [hrun] at hleft
      exact ⟨rfl, hleft⟩

theorem Observes.tryCatch {x : EStateM ε σ α} {handle : ε → EStateM ε σ α} (hx : Observes E x)
    (hh : ∀ e, Observes E (handle e)) : Observes E (tryCatch x handle) := by
  intro s s' h
  obtain ⟨hout, hleft⟩ := hx s s' h
  obtain ⟨-, hright⟩ := hx s' s (hsymm _ _ h)
  simp only [MonadExcept.tryCatch, tryCatchThe, MonadExceptOf.tryCatch, EStateM.tryCatch]
  cases hrun : x s with
  | ok a s₁ =>
    cases hrun' : x s' with
    | ok a' s₁' =>
      rw [hrun] at hout hleft
      rw [hrun'] at hout
      exact ⟨hout, hleft⟩
    | error e s₁' =>
      rw [hrun, hrun'] at hout
      cases hout
  | error e s₁ =>
    cases hrun' : x s' with
    | ok a' s₁' =>
      rw [hrun, hrun'] at hout
      cases hout
    | error e' s₁' =>
      rw [hrun] at hout hleft
      rw [hrun'] at hout hright
      cases hout
      have hmid : E s₁ s₁' := htrans _ _ _ (htrans _ _ _ (hsymm _ _ hleft) h) hright
      obtain ⟨hout', hlast⟩ := hh e s₁ s₁' hmid
      exact ⟨hout', htrans _ _ _ hleft hlast⟩

theorem Observes.mapM {f : α → EStateM ε σ β} {l : List α} (hf : ∀ a ∈ l, Observes E (f a)) :
    Observes E (l.mapM f) := by
  have hrefl : ∀ s s', E s s' → E s s := fun s s' h => htrans _ _ _ h (hsymm _ _ h)
  induction l with
  | nil => exact Observes.pure hrefl []
  | cons a l ih =>
    rw [List.forall_mem_cons] at hf
    rw [List.mapM_cons]
    exact Observes.bind hsymm htrans hf.1 fun b =>
      Observes.bind hsymm htrans (ih hf.2) fun bs => Observes.pure hrefl (b :: bs)

end Observers

section Projections

variable {τ : Type} {f : σ → τ}

/-- The result without the part of the state that `f` leaves out. -/
def project (f : σ → τ) : EStateM.Result ε σ α → EStateM.Result ε τ α
  | .ok a s => .ok a (f s)
  | .error e s => .error e (f s)

/-- The first program does what the second one does, in a larger state. -/
def Projects (f : σ → τ) (x : EStateM ε σ α) (y : EStateM ε τ α) : Prop :=
  ∀ s, project f (x s) = y (f s)

theorem Projects.pure (a : α) : Projects f (pure a : EStateM ε σ α) (pure a) := fun _ => rfl

theorem Projects.throw (e : ε) : Projects f (throw e : EStateM ε σ α) (throw e) := fun _ => rfl

theorem Projects.bind {x : EStateM ε σ α} {y : EStateM ε τ α} {g : α → EStateM ε σ β}
    {k : α → EStateM ε τ β} (hx : Projects f x y) (hg : ∀ a, Projects f (g a) (k a)) :
    Projects f (x >>= g) (y >>= k) := by
  intro s
  have h := hx s
  simp only [Bind.bind, EStateM.bind]
  cases hrun : x s with
  | ok a s₁ =>
    rw [hrun] at h
    rw [← h]
    exact hg a s₁
  | error e s₁ =>
    rw [hrun] at h
    rw [← h]
    rfl

theorem Projects.tryCatch {x : EStateM ε σ α} {y : EStateM ε τ α} {handle : ε → EStateM ε σ α}
    {handle' : ε → EStateM ε τ α} (hx : Projects f x y)
    (hh : ∀ e, Projects f (handle e) (handle' e)) :
    Projects f (tryCatch x handle) (tryCatch y handle') := by
  intro s
  have h := hx s
  simp only [MonadExcept.tryCatch, tryCatchThe, MonadExceptOf.tryCatch, EStateM.tryCatch]
  cases hrun : x s with
  | ok a s₁ =>
    rw [hrun] at h
    rw [← h]
    rfl
  | error e s₁ =>
    rw [hrun] at h
    rw [← h]
    exact hh e s₁

theorem Projects.mapM {g : α → EStateM ε σ β} {k : α → EStateM ε τ β} {l : List α}
    (hg : ∀ a ∈ l, Projects f (g a) (k a)) : Projects f (l.mapM g) (l.mapM k) := by
  induction l with
  | nil => exact Projects.pure []
  | cons a l ih =>
    rw [List.forall_mem_cons] at hg
    rw [List.mapM_cons, List.mapM_cons]
    exact Projects.bind hg.1 fun b => Projects.bind (ih hg.2) fun bs => Projects.pure (b :: bs)

end Projections

end Multicorn.StateMonad
