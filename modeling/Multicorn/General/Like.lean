import Mathlib.Data.List.Forall2
import Mathlib.Data.List.Infix

/-! The patterns of SQL's LIKE, and the patterns without inner wildcards: these hold of a
text exactly when it has the literal part at the place the outer wildcards leave. -/
namespace Multicorn.Like

abbrev Str := List Char

/-- `same` compares a character of the pattern with one of the text. A pattern must not end
with the escape character. -/
def like (same : Char → Char → Bool) : Str → Str → Bool
  | [], t => t.isEmpty
  | '%' :: p, t => t.tails.any (like same p)
  | '_' :: p, t =>
    match t with
    | [] => false
    | _ :: t => like same p t
  | ['\\'], _ => false
  | '\\' :: a :: p, t =>
    match t with
    | [] => false
    | c :: t => same a c && like same p t
  | a :: p, t =>
    match t with
    | [] => false
    | c :: t => same a c && like same p t

def isWildcard (c : Char) : Bool := c = '%' || c = '_'

/-- The text a pattern without wildcards stands for, when only wildcards are escaped. -/
def unescape : Str → Option Str
  | [] => some []
  | ['\\'] => none
  | '\\' :: c :: rest => if isWildcard c then (unescape rest).map (c :: ·) else none
  | c :: rest => if isWildcard c then none else (unescape rest).map (c :: ·)

variable {same : Char → Char → Bool}

@[simp] theorem like_percent (p t : Str) :
    like same ('%' :: p) t = true ↔ ∃ u v, t = u ++ v ∧ like same p v = true := by
  simp only [like, List.any_eq_true, List.mem_tails]
  constructor
  · rintro ⟨v, ⟨u, rfl⟩, hv⟩
    exact ⟨u, v, rfl, hv⟩
  · rintro ⟨u, v, rfl, hv⟩
    exact ⟨v, ⟨u, rfl⟩, hv⟩

@[simp] theorem like_underscore (p t : Str) :
    like same ('_' :: p) t = true ↔ ∃ c v, t = c :: v ∧ like same p v = true := by
  cases t with
  | nil => simp [like]
  | cons c t => simp [like]

@[simp] theorem like_nil (t : Str) : like same [] t = true ↔ t = [] := by
  simp [like]

theorem like_escaped (a : Char) (p t : Str) :
    like same ('\\' :: a :: p) t = true ↔
      ∃ c v, t = c :: v ∧ same a c = true ∧ like same p v = true := by
  cases t with
  | nil => simp [like]
  | cons c t => simp [like]

theorem like_char {a : Char} (hw : isWildcard a = false) (hb : a ≠ '\\') (p t : Str) :
    like same (a :: p) t = true ↔ ∃ c v, t = c :: v ∧ same a c = true ∧ like same p v = true := by
  simp only [isWildcard, Bool.or_eq_false_iff, decide_eq_false_iff_not] at hw
  cases t with
  | nil => simp [like, hw, hb]
  | cons c t => simp [like, hw, hb]

/-- A literal part takes up a stretch of the text that is the same character by character. -/
theorem like_literal {body s : Str} (h : unescape body = some s) (p t : Str) :
    like same (body ++ p) t = true ↔
      ∃ u v, t = u ++ v ∧ List.Forall₂ (fun a c => same a c = true) s u ∧ like same p v = true := by
  induction body using unescape.induct generalizing s t with
  | case1 =>
    obtain rfl := Option.some.inj h
    simp
  | case2 => cases h
  | case3 c rest hw ih =>
    simp only [unescape, hw, if_true] at h
    obtain ⟨s', hs', rfl⟩ := Option.map_eq_some_iff.mp h
    simp only [List.cons_append, like_escaped, ih hs', List.forall₂_cons_left_iff]
    constructor
    · rintro ⟨d, _, rfl, hd, u, v, rfl, hu, hv⟩
      exact ⟨d :: u, v, rfl, ⟨d, u, hd, hu, rfl⟩, hv⟩
    · rintro ⟨_, v, rfl, ⟨d, u, hd, hu, rfl⟩, hv⟩
      exact ⟨d, u ++ v, rfl, hd, u, v, rfl, hu, hv⟩
  | case4 c rest hw =>
    simp [unescape, hw] at h
  | case5 c rest hne hne' hw => simp [unescape, hw] at h
  | case6 c rest hlast hmore hw ih =>
    have hback : c ≠ '\\' := by
      rintro rfl
      cases rest with
      | nil => exact hlast rfl rfl
      | cons d rest => exact hmore d rest rfl rfl
    have hplain : isWildcard c = false := by simpa using hw
    rw [unescape, if_neg hw] at h
    · obtain ⟨s', hs', rfl⟩ := Option.map_eq_some_iff.mp h
      simp only [List.cons_append, like_char hplain hback, ih hs', List.forall₂_cons_left_iff]
      constructor
      · rintro ⟨d, _, rfl, hd, u, v, rfl, hu, hv⟩
        exact ⟨d :: u, v, rfl, ⟨d, u, hd, hu, rfl⟩, hv⟩
      · rintro ⟨_, v, rfl, ⟨d, u, hd, hu, rfl⟩, hv⟩
        exact ⟨d, u ++ v, rfl, hd, u, v, rfl, hu, hv⟩
    · exact hlast
    · exact hmore

/-- A wildcard or nothing. -/
def Outer (w : Str) : Prop := w = [] ∨ w = ['%'] ∨ w = ['_']

theorem like_outer {w : Str} (h : Outer w) {p t : Str} (ht : like same (w ++ p) t = true) :
    ∃ u v, t = u ++ v ∧ like same p v = true := by
  obtain rfl | rfl | rfl := h
  · exact ⟨[], t, rfl, ht⟩
  · exact (like_percent p t).mp ht
  · obtain ⟨c, v, rfl, hv⟩ := (like_underscore p t).mp ht
    exact ⟨[c], v, rfl, hv⟩

/-- A text that matches has the literal part between what the outer wildcards take. -/
theorem infix_of_like {w body s rest t : Str} (hw : Outer w) (h : unescape body = some s)
    (ht : like same (w ++ (body ++ rest)) t = true) :
    ∃ u, u <:+: t ∧ List.Forall₂ (fun a c => same a c = true) s u := by
  obtain ⟨u, v, rfl, hv⟩ := like_outer hw ht
  obtain ⟨m, v, rfl, hm, -⟩ := (like_literal h rest _).mp hv
  exact ⟨m, ⟨u, v, by simp⟩, hm⟩

/-- After a `%`, a text that holds the literal part behind any characters of `w` matches, as the
wildcards of `w` also match the characters they are written with. -/
theorem like_of_infix {w body s u t : Str} (hw : Outer w) (h : unescape body = some s)
    (hu : u <:+: t) (hm : List.Forall₂ (fun a c => same a c = true) (w ++ s) u) :
    like same ('%' :: (w ++ (body ++ ['%']))) t = true := by
  obtain ⟨pre, post, rfl⟩ := hu
  have hlit : ∀ v, List.Forall₂ (fun a c => same a c = true) s v →
      like same (body ++ ['%']) (v ++ post) = true := by
    intro v hv
    have hend : like same ['%'] post = true := (like_percent _ _).mpr ⟨post, [], by simp, by simp⟩
    exact (like_literal h _ _).mpr ⟨v, post, rfl, hv, hend⟩
  obtain rfl | rfl | rfl := hw
  · exact (like_percent _ _).mpr ⟨pre, u ++ post, by simp, hlit u hm⟩
  · obtain ⟨c, v, -, hv, rfl⟩ := List.forall₂_cons_left_iff.mp hm
    have htwo : like same ('%' :: (body ++ ['%'])) (v ++ post) = true :=
      (like_percent _ _).mpr ⟨[], v ++ post, rfl, hlit v hv⟩
    exact (like_percent _ _).mpr ⟨pre ++ [c], v ++ post, by simp, htwo⟩
  · obtain ⟨c, v, -, hv, rfl⟩ := List.forall₂_cons_left_iff.mp hm
    have hone : like same ('_' :: (body ++ ['%'])) (c :: (v ++ post)) = true :=
      (like_underscore _ _).mpr ⟨c, v ++ post, rfl, hlit v hv⟩
    exact (like_percent _ _).mpr ⟨pre, c :: (v ++ post), by simp, hone⟩

end Multicorn.Like
