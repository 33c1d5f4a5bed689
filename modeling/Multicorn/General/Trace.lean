import Mathlib.Data.List.Nodup
import Multicorn.General.StateMonad

/-! Programs that add entries to a log: which entries, and that none comes twice. -/
namespace Multicorn.StateMonad

variable {ε σ α β γ : Type}

/-- The program keeps the invariant and adds entries of `P` to the log, each once; what it
returns is in `Q`. -/
def Logs (log : σ → List γ) (I : σ → Prop) (P : γ → Prop) (x : EStateM ε σ α) (Q : α → Prop) :
    Prop :=
  ∀ s, I s → Ends I Q (x s) ∧
    ∃ new, log (finalState (x s)) = log s ++ new ∧ new.Nodup ∧ ∀ c ∈ new, P c

variable {log : σ → List γ} {I : σ → Prop} {P P' : γ → Prop}

theorem Logs.mono {Q Q' : α → Prop} {x : EStateM ε σ α} (hx : Logs log I P x Q)
    (hP : ∀ c, P c → P' c) (hQ : ∀ a, Q a → Q' a) : Logs log I P' x Q' := by
  intro s hs
  obtain ⟨⟨hI, ha⟩, new, hlog, hnodup, hnew⟩ := hx s hs
  exact ⟨⟨hI, fun a h => hQ a (ha a h)⟩, new, hlog, hnodup, fun c hc => hP c (hnew c hc)⟩

/-- A program that leaves the log alone. -/
theorem Logs.silent {Q : α → Prop} {x : EStateM ε σ α} (hx : Keeps I x Q)
    (hlog : ∀ s, log (finalState (x s)) = log s) : Logs log I P x Q := by
  intro s hs
  refine ⟨hx s hs, [], ?_, List.nodup_nil, ?_⟩
  · rw [hlog, List.append_nil]
  · intro c hc
    cases hc

theorem Logs.pure {Q : α → Prop} {a : α} (ha : Q a) :
    Logs log I P (pure a : EStateM ε σ α) Q := .silent (Keeps.pure ha) fun _ => rfl

theorem Logs.throw {Q : α → Prop} (e : ε) : Logs log I P (throw e : EStateM ε σ α) Q :=
  .silent (Keeps.throw e) fun _ => rfl

/-- New entries after new entries of another kind. -/
private theorem logged_append {s₀ s₁ s₂ : σ}
    (h : ∃ new, log s₁ = log s₀ ++ new ∧ new.Nodup ∧ ∀ c ∈ new, P c)
    (h' : ∃ new, log s₂ = log s₁ ++ new ∧ new.Nodup ∧ ∀ c ∈ new, P' c)
    (hdisjoint : ∀ c, P c → ¬ P' c) :
    ∃ new, log s₂ = log s₀ ++ new ∧ new.Nodup ∧ ∀ c ∈ new, P c ∨ P' c := by
  obtain ⟨new, hlog, hnodup, hnew⟩ := h
  obtain ⟨new', hlog', hnodup', hnew'⟩ := h'
  refine ⟨new ++ new', by rw [hlog', hlog, List.append_assoc], ?_, ?_⟩
  · refine List.Nodup.append hnodup hnodup' fun c hc hc' => ?_
    exact hdisjoint c (hnew c hc) (hnew' c hc')
  · intro c hc
    rcases List.mem_append.mp hc with hc | hc
    · exact .inl (hnew c hc)
    · exact .inr (hnew' c hc)

private theorem logged_left {s₀ s₁ : σ}
    (h : ∃ new, log s₁ = log s₀ ++ new ∧ new.Nodup ∧ ∀ c ∈ new, P c) :
    ∃ new, log s₁ = log s₀ ++ new ∧ new.Nodup ∧ ∀ c ∈ new, P c ∨ P' c := by
  obtain ⟨new, hlog, hnodup, hnew⟩ := h
  exact ⟨new, hlog, hnodup, fun c hc => .inl (hnew c hc)⟩

theorem Logs.bind {Q : α → Prop} {Q' : β → Prop} {x : EStateM ε σ α} {f : α → EStateM ε σ β}
    (hx : Logs log I P x Q) (hf : ∀ a, Q a → Logs log I P' (f a) Q')
    (hdisjoint : ∀ c, P c → ¬ P' c) : Logs log I (fun c => P c ∨ P' c) (x >>= f) Q' := by
  intro s hs
  obtain ⟨⟨hI, hQ⟩, hnew⟩ := hx s hs
  simp only [Bind.bind, EStateM.bind]
  cases hrun : x s with
  | ok a s₁ =>
    rw [hrun] at hI hQ hnew
    obtain ⟨hends, hmore⟩ := hf a (hQ a rfl) s₁ hI
    exact ⟨hends, logged_append hnew hmore hdisjoint⟩
  | error e s₁ =>
    rw [hrun] at hI hnew
    exact ⟨ends_error hI, logged_left hnew⟩

/-- What comes after leaves the log alone. -/
theorem Logs.bind_silent {Q : α → Prop} {Q' : β → Prop} {x : EStateM ε σ α}
    {f : α → EStateM ε σ β} (hx : Logs log I P x Q)
    (hf : ∀ a, Q a → Logs log I (fun _ => False) (f a) Q') : Logs log I P (x >>= f) Q' :=
  (hx.bind hf fun _ _ h => h).mono (fun _ hc => hc.resolve_right id) fun _ h => h

theorem Logs.tryCatch {Q : α → Prop} {x : EStateM ε σ α} {handle : ε → EStateM ε σ α}
    (hx : Logs log I P x Q) (hh : ∀ e, Logs log I P' (handle e) Q)
    (hdisjoint : ∀ c, P c → ¬ P' c) : Logs log I (fun c => P c ∨ P' c) (tryCatch x handle) Q := by
  intro s hs
  obtain ⟨⟨hI, hQ⟩, hnew⟩ := hx s hs
  simp only [MonadExcept.tryCatch, tryCatchThe, MonadExceptOf.tryCatch, EStateM.tryCatch]
  cases hrun : x s with
  | ok a s₁ =>
    rw [hrun] at hI hQ hnew
    exact ⟨⟨hI, hQ⟩, logged_left hnew⟩
  | error e s₁ =>
    rw [hrun] at hI hnew
    obtain ⟨hends, hmore⟩ := hh e s₁ hI
    exact ⟨hends, logged_append hnew hmore hdisjoint⟩

/-- Members that add entries of different kinds. -/
theorem Logs.mapM {P : α → γ → Prop} {f : α → EStateM ε σ β} {l : List α}
    (hf : ∀ a ∈ l, Logs log I (P a) (f a) fun _ => True)
    (hdisjoint : l.Pairwise fun a a' => ∀ c, P a c → ¬ P a' c) :
    Logs log I (fun c => ∃ a ∈ l, P a c) (l.mapM f) fun _ => True := by
  induction l with
  | nil => exact Logs.pure trivial
  | cons a l ih =>
    rw [List.forall_mem_cons] at hf
    rw [List.pairwise_cons] at hdisjoint
    rw [List.mapM_cons]
    have hrest : ∀ b : β, Logs log I (fun c => ∃ a' ∈ l, P a' c)
        (do let bs ← l.mapM f; return b :: bs) fun _ => True := fun b =>
      (ih hf.2 hdisjoint.2).bind_silent fun _ _ => Logs.pure trivial
    refine (Logs.bind hf.1 (fun b _ => hrest b) fun c hc hc' => ?_).mono (fun c hc => ?_)
      fun _ h => h
    · obtain ⟨a', ha', hc'⟩ := hc'
      exact hdisjoint.1 a' ha' c hc hc'
    · rcases hc with hc | ⟨a', ha', hc⟩
      · exact ⟨a, List.mem_cons_self, hc⟩
      · exact ⟨a', List.mem_cons_of_mem _ ha', hc⟩

end Multicorn.StateMonad
