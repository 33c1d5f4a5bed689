import Multicorn.General.Sql

/-! A text that was written for a list of slots, with quoted names and raw labels, and what
reads it again. -/
namespace Multicorn.Sql

/-- A place in a grammar rule: a fixed token, a name, which after a dot may be any keyword, or
the label of a string. -/
inductive Slot
  | exact (t : Token)
  | name (n : Str) (dotted : Bool)
  | label (k : Str)

/-- The tokens that fill a slot. A word is no name when it is a reserved keyword. -/
def Slot.Admits (reserved : Str → Bool) : Slot → Token → Prop
  | .exact t, t' => t' = t
  | .name n dotted, t' => t' = .quoted n ∨ t' = .word n ∧ (dotted || !reserved n) = true
  | .label k, t' => t' = .quoted k ∨ t' = .word k

def ReadAs (reserved : Str → Bool) (slots : List Slot) (s : Str) : Prop :=
  ∃ ts, Lexes s ts ∧ List.Forall₂ (Slot.Admits reserved) slots ts

def quoteName (n : Str) : Str := '"' :: doubled '"' n ++ ['"']

/-- The names are quoted and the labels are not. A string follows a label. -/
inductive Written : Str → List Slot → Prop
  | done {gap} (hgap : Blank gap) : Written gap []
  | exact {gap text s t slots} (hgap : Blank gap)
      (hskip : skip .blank (text ++ s) = some (text ++ s)) (hread : read (text ++ s) = some (t, s))
      (hrest : Written s slots) : Written (gap ++ text ++ s) (.exact t :: slots)
  | name {gap n s slots} (dotted : Bool) (hgap : Blank gap) (hn : n ≠ []) (hend : s.head? ≠ some '"')
      (hrest : Written s slots) : Written (gap ++ quoteName n ++ s) (.name n dotted :: slots)
  | label {gap k s slots} (hgap : Blank gap) (hshort : gap.length ≤ 1)
      (hrest : Written (' ' :: '\'' :: s) slots) :
      Written (gap ++ k ++ ' ' :: '\'' :: s) (.label k :: slots)

/-- What may follow a name: not two quoted names. -/
def Settled : List Slot → Prop
  | [] => True
  | .exact (.quoted _) :: .exact t :: _ => ∀ n, t ≠ .quoted n
  | .exact (.quoted _) :: _ => False
  | .exact _ :: _ => True
  | _ => False

def Calm : List Slot → Prop
  | [] => True
  | .name _ _ :: slots => Settled slots ∧ Calm slots
  | _ :: slots => Calm slots

/-- The reader is behind the writer's place, after a character that is no blank. -/
def Ahead (u s : Str) : Prop := ∃ p c, s = p ++ c :: u ∧ space c = false

section Ahead

variable {u u' s gap text : Str} {t : Token}

theorem Ahead.of_length {x : Str} (h : Ahead u (x ++ s)) (hlen : u.length < s.length) :
    Ahead u s := by
  obtain ⟨p, c, hs, hc⟩ := h
  have hu : c :: u <:+ x ++ s := ⟨p, hs.symm⟩
  have hsuffix : c :: u <:+ s :=
    List.suffix_of_suffix_length_le hu (List.suffix_append x s) (by simpa [Nat.succ_le_iff] using hlen)
  obtain ⟨p', hp'⟩ := hsuffix
  exact ⟨p', c, hp'.symm, hc⟩

/-- The reader is past the blanks. -/
theorem Ahead.length_lt (h : Ahead u (gap ++ s)) (hgap : Blank gap) : u.length < s.length := by
  obtain ⟨p, c, hs, hc⟩ := h
  obtain ⟨p', rfl, hs'⟩ | ⟨x, rfl, hs'⟩ := List.append_eq_append_iff.mp hs
  · rw [hs']
    simp only [List.length_append, List.length_cons]
    omega
  · cases x with
    | nil =>
      rw [List.nil_append] at hs'
      rw [← hs']
      simp
    | cons d x =>
      obtain ⟨rfl, -⟩ := List.cons.inj hs'
      have hspace := hgap c (by simp)
      rw [hc] at hspace
      cases hspace

theorem Ahead.not_blank (h : Ahead u s) : ¬ Blank s := by
  intro hblank
  have hlt := Ahead.length_lt (s := []) (by rwa [List.append_nil]) hblank
  exact Nat.not_lt_zero _ hlt

/-- A token that is read leaves the reader after a character that is no blank. -/
theorem Ahead.next {s₁ : Str} (h : Ahead u s) (hskip : skip .blank u = some s₁)
    (hread : read s₁ = some (t, u')) : Ahead u' s ∧ u'.length + t.size ≤ u.length := by
  obtain ⟨p, c, rfl, hc⟩ := h
  obtain ⟨x, rfl⟩ := skip_suffix hskip
  obtain ⟨body, d, rfl, hd, hsize, -⟩ := read_eq hread
  constructor
  · exact ⟨p ++ c :: (x ++ body), d, by simp, hd⟩
  · simp only [List.length_append, List.length_cons]
    omega

theorem Ahead.pass {s₁ : Str} (h : Ahead u (gap ++ text ++ s)) (hgap : Blank gap)
    (hsize : text.length ≤ t.size) (hskip : skip .blank u = some s₁)
    (hread : read s₁ = some (t, u')) : Ahead u' s := by
  obtain ⟨hnext, hlen⟩ := h.next hskip hread
  rw [List.append_assoc] at h
  have hlt := h.length_lt hgap
  rw [List.length_append] at hlt
  exact hnext.of_length (by omega)

end Ahead

section Quotes

variable {s rest : Str} {t : Token}

theorem read_quote (h : read ('"' :: s) = some (t, rest)) :
    ∃ n, t = .quoted n ∧ readQuoted '"' s = some (n, rest) := by
  rw [read, if_pos rfl] at h
  obtain ⟨⟨n, r⟩, hn, hsome⟩ := Option.bind_eq_some_iff.mp h
  simp only at hsome
  split_ifs at hsome
  cases hsome
  exact ⟨n, rfl, hn⟩

theorem skip_quote (s : Str) : skip .blank ('"' :: s) = some ('"' :: s) :=
  skip_start rfl (by decide) (by decide) s

theorem read_quoted_eq {n : Str} (h : read s = some (.quoted n, rest)) :
    s = '"' :: doubled '"' n ++ '"' :: rest ∧ n ≠ [] := by
  cases s with
  | nil => cases h
  | cons c s =>
    simp only [read] at h
    split_ifs at h with hquote happ hword hprefix hdigit hsym
    · obtain ⟨⟨m, r⟩, hm, hsome⟩ := Option.bind_eq_some_iff.mp h
      simp only at hsome
      split_ifs at hsome with hnil
      cases hsome
      rw [hquote, readQuoted_eq hm]
      exact ⟨rfl, hnil⟩
    · obtain ⟨p, -, hsome⟩ := Option.map_eq_some_iff.mp h
      cases hsome
    all_goals cases h

theorem Lexes.quoted_of_quote {ts : List Token} (h : Lexes ('"' :: s) ts) :
    ∃ n rest us, ts = .quoted n :: us ∧ readQuoted '"' s = some (n, rest) ∧ Lexes rest us := by
  cases h with
  | done hskip =>
    rw [skip_quote] at hskip
    cases hskip
  | next hskip hread hrest =>
    rw [skip_quote] at hskip
    cases hskip
    obtain ⟨n, rfl, hn⟩ := read_quote hread
    exact ⟨n, _, _, rfl, hn, hrest⟩

/-- A quoted name that is read from the end of a name to the start of a quoted one is the blanks
between them. -/
theorem readQuoted_between {gap x : Str} (hgap : Blank gap) (hne : gap ≠ [])
    (h : readQuoted '"' (gap ++ '"' :: (doubled '"' x ++ s)) = some (x, rest)) :
    rest = gap ++ s := by
  obtain ⟨c, gap', rfl⟩ := List.exists_cons_of_ne_nil hne
  have hnot : '"' ∉ c :: gap' := by
    intro hmem
    exact absurd (hgap _ hmem) (by decide)
  have hc : c ≠ '"' := fun he => hnot (he ▸ List.mem_cons_self)
  have hcons : ∃ x', x = c :: x' := by
    rw [List.cons_append, readQuoted_cons_ne hc] at h
    obtain ⟨p, -, hp⟩ := Option.map_eq_some_iff.mp h
    exact ⟨p.1, (Prod.mk.inj hp).1.symm⟩
  obtain ⟨x', hx⟩ := hcons
  have hhead : (doubled '"' x ++ s).head? ≠ some '"' := by
    simp [hx, hc]
  have hgapread := readQuoted_doubled (c :: gap') hhead
  rw [doubled_of_notMem hnot, h] at hgapread
  obtain ⟨rfl, rfl⟩ := Prod.mk.inj (Option.some.inj hgapread)
  rw [doubled_of_notMem hnot]

/-- What is read from a closing quote on is a quoted name, which a name cannot be followed by. -/
theorem Written.not_stray {reserved : Str → Bool} {slots : List Slot} (hw : Written s slots)
    (hend : s.head? ≠ some '"') (hsettled : Settled slots) {us : List Token}
    (hlex : Lexes ('"' :: s) us) : ¬ List.Forall₂ (Slot.Admits reserved) slots us := by
  intro hall
  obtain ⟨x, rest, us, rfl, hx, hrest⟩ := hlex.quoted_of_quote
  cases hw with
  | done => cases hall
  | name => exact hsettled
  | label => exact hsettled
  | @exact gap text s t slots hgap hskip hread hw =>
    obtain ⟨hadm, hslots⟩ := List.forall₂_cons.mp hall
    obtain rfl : Token.quoted x = t := hadm
    obtain ⟨htext, -⟩ := read_quoted_eq hread
    have hne : gap ≠ [] := by
      rintro rfl
      rw [List.nil_append, htext] at hend
      exact hend rfl
    rw [List.append_assoc, htext] at hx
    have hleft := readQuoted_between hgap hne hx
    -- The next token would be a quoted name again.
    subst hleft
    have hquote : ∃ n us', us = .quoted n :: us' := by
      cases hrest with
      | done hskip =>
        rw [hgap.skip, skip_quote] at hskip
        cases hskip
      | next hskip hread hrest =>
        rw [hgap.skip, skip_quote] at hskip
        cases hskip
        obtain ⟨n, rfl, -⟩ := read_quote hread
        exact ⟨n, _, rfl⟩
    obtain ⟨n, us', rfl⟩ := hquote
    cases slots with
    | nil => cases hslots
    | cons slot slots =>
      have hnext := (List.forall₂_cons.mp hslots).1
      cases slot with
      | exact t => exact hsettled n hnext.symm
      | name => exact hsettled
      | label => exact hsettled

end Quotes

theorem quoteName_of_plain {n : Str} (h : plain n = true) : quoteName n = '"' :: n ++ ['"'] := by
  have hnot : '"' ∉ n := by
    intro hmem
    cases n with
    | nil => cases hmem
    | cons c n =>
      simp only [plain, Bool.and_eq_true, List.all_eq_true] at h
      obtain rfl | hmem := List.mem_cons.mp hmem
      · exact absurd h.1.1 (by decide)
      · exact absurd (h.2 _ hmem).1 (by decide)
  rw [quoteName, doubled_of_notMem hnot]

theorem skip_plain {w : Str} (h : plain w = true) (s : Str) :
    skip .blank (w ++ s) = some (w ++ s) := by
  cases w with
  | nil => cases h
  | cons c w =>
    simp only [plain, Bool.and_eq_true] at h
    have hstart := h.1.1
    apply skip_start
    · exact space_of_wordCont (wordCont_of_start hstart)
    · rintro rfl
      exact absurd hstart (by decide)
    · rintro rfl
      exact absurd hstart (by decide)

theorem length_le_doubled (q : Char) (s : Str) : s.length ≤ (doubled q s).length := by
  induction s with
  | nil => exact le_refl _
  | cons c s ih =>
    rw [doubled_cons]
    split_ifs <;> simp <;> omega

section Reading

variable {reserved : Str → Bool} {s : Str} {slots : List Slot}

/-- A reader that is behind never catches up. -/
theorem Written.not_ahead (hw : Written s slots) (hcalm : Calm slots) {u : Str} {us : List Token}
    (ha : Ahead u s) (hlex : Lexes u us) : ¬ List.Forall₂ (Slot.Admits reserved) slots us := by
  intro hall
  induction hw generalizing u us with
  | done hgap => exact ha.not_blank hgap
  | @exact gap text s t slots hgap hskip hread hw ih =>
    obtain ⟨t', us', hadm, hall', rfl⟩ := List.forall₂_cons_left_iff.mp hall
    obtain rfl : t' = t := hadm
    cases hlex with
    | next hskip' hread' hrest =>
      obtain ⟨body, c, hbody, -, hsize, -⟩ := read_eq hread
      have hlen : text.length ≤ t'.size := by
        have hlength := congrArg List.length hbody
        simp only [List.length_append, List.length_cons] at hlength
        omega
      exact ih hcalm (ha.pass hgap hlen hskip' hread') hrest hall'
  | @label gap k s slots hgap hshort hw ih =>
    obtain ⟨t', us', hadm, hall', rfl⟩ := List.forall₂_cons_left_iff.mp hall
    cases hlex with
    | next hskip' hread' hrest =>
      have hlen : k.length ≤ t'.size := by
        have hle := length_le_doubled '"' k
        obtain rfl | rfl := hadm
        · simp only [Token.size]
          omega
        · exact le_refl _
      exact ih hcalm (ha.pass hgap hlen hskip' hread') hrest hall'
  | @name gap n s slots dotted hgap hn hend hw ih =>
    obtain ⟨t', us', hadm, hall', rfl⟩ := List.forall₂_cons_left_iff.mp hall
    cases hlex with
    | @next _ u₁ _ u' _ hskip' hread' hrest =>
      obtain rfl | ⟨rfl, -⟩ := hadm
      · have hlen : (quoteName n).length ≤ (Token.quoted n).size := by
          simp [quoteName, Token.size]
        exact ih hcalm.2 (ha.pass hgap hlen hskip' hread') hrest hall'
      · -- The name is read without its quotes, and the closing one is left at most.
        obtain ⟨hnext, hlen⟩ := ha.next hskip' hread'
        rw [List.append_assoc] at ha
        have hlt := ha.length_lt hgap
        have hplain := plain_of_read hread'
        rw [quoteName_of_plain hplain] at hnext hlt
        simp only [Token.size, List.length_append, List.length_cons, List.length_nil] at hlen hlt
        obtain hshort | hle := Nat.lt_or_ge u'.length s.length
        · exact ih hcalm.2 (hnext.of_length hshort) hrest hall'
        · have hsuffix : u' <:+ '"' :: s := by
            obtain ⟨p, c, hp, -⟩ := hnext
            have hu : u' <:+ gap ++ ('"' :: n ++ ['"']) ++ s := ⟨p ++ [c], by rw [hp]; simp⟩
            have hquote : '"' :: s <:+ gap ++ ('"' :: n ++ ['"']) ++ s :=
              ⟨gap ++ '"' :: n, by simp⟩
            apply List.suffix_of_suffix_length_le hu hquote
            simp only [List.length_cons]
            omega
          obtain rfl | hsuffix := List.suffix_cons_iff.mp hsuffix
          · exact hw.not_stray hend hcalm.1 hrest hall'
          · obtain rfl := hsuffix.eq_of_length_le hle
            -- The last character of the word would be the closing quote.
            obtain ⟨body, c, hbody, -, -, hcont⟩ := read_eq hread'
            have hquote : c = '"' := by
              obtain ⟨p, c', hp, -⟩ := ha
              obtain ⟨y, rfl⟩ := skip_suffix hskip'
              rw [quoteName_of_plain hplain, hbody] at hp
              have hsplit : (gap ++ '"' :: n) ++ '"' :: u' = (p ++ c' :: (y ++ body)) ++ c :: u' := by
                simpa using hp
              have htail := List.append_inj_right' hsplit (by simp)
              exact (List.cons.inj htail).1.symm
            have hword := hcont n rfl
            rw [hquote] at hword
            exact absurd hword (by decide)

/-- A label that is not read as itself leaves the reader behind. -/
theorem Written.readAs_iff (hw : Written s slots) (hcalm : Calm slots) :
    ReadAs reserved slots s ↔ ∀ k, Slot.label k ∈ slots → plain k = true := by
  induction hw with
  | done hgap =>
    constructor
    · intro _ k hk
      cases hk
    · intro _
      exact ⟨[], hgap.lexes, .nil⟩
  | @exact gap text s t slots hgap hskip hread hw ih =>
    have hmem : ∀ k, Slot.label k ∈ Slot.exact t :: slots ↔ Slot.label k ∈ slots := by simp
    simp only [hmem, ← ih hcalm, ReadAs, lexes_cons_iff hgap hskip hread]
    constructor
    · rintro ⟨_, ⟨us, rfl, hus⟩, hall⟩
      exact ⟨us, hus, (List.forall₂_cons.mp hall).2⟩
    · rintro ⟨us, hus, hall⟩
      exact ⟨_, ⟨us, rfl, hus⟩, .cons rfl hall⟩
  | @name gap n s slots dotted hgap hn hend hw ih =>
    have hmem : ∀ k, Slot.label k ∈ Slot.name n dotted :: slots ↔ Slot.label k ∈ slots := by simp
    have hskip : skip .blank (quoteName n ++ s) = some (quoteName n ++ s) := skip_quote _
    have hread := read_quoted hn hend
    simp only [hmem, ← ih hcalm.2, ReadAs, lexes_cons_iff hgap hskip hread]
    constructor
    · rintro ⟨_, ⟨us, rfl, hus⟩, hall⟩
      exact ⟨us, hus, (List.forall₂_cons.mp hall).2⟩
    · rintro ⟨us, hus, hall⟩
      exact ⟨_, ⟨us, rfl, hus⟩, .cons (.inl rfl) hall⟩
  | @label gap k s slots hgap hshort hw ih =>
    have hmem : (∀ k', Slot.label k' ∈ Slot.label k :: slots → plain k' = true) ↔
        plain k = true ∧ ∀ k', Slot.label k' ∈ slots → plain k' = true := by simp
    rw [hmem, ← ih hcalm]
    by_cases hplain : plain k = true
    · have hread : read (k ++ ' ' :: '\'' :: s) = some (.word k, ' ' :: '\'' :: s) := by
        apply read_plain hplain
        intro c hc
        obtain rfl : ' ' = c := by simpa using hc
        decide
      have hskip := skip_plain hplain (' ' :: '\'' :: s)
      simp only [ReadAs, lexes_cons_iff hgap hskip hread, hplain, true_and]
      constructor
      · rintro ⟨_, ⟨us, rfl, hus⟩, hall⟩
        exact ⟨us, hus, (List.forall₂_cons.mp hall).2⟩
      · rintro ⟨us, hus, hall⟩
        exact ⟨_, ⟨us, rfl, hus⟩, .cons (.inr rfl) hall⟩
    · constructor
      · rintro ⟨ts, hlex, hall⟩
        exfalso
        obtain ⟨t, us, hadm, hall', rfl⟩ := List.forall₂_cons_left_iff.mp hall
        cases hlex with
        | @next _ s' _ rest _ hskip hread hrest =>
          obtain rfl | rfl := hadm
          · obtain ⟨y, hy⟩ := skip_suffix hskip
            obtain ⟨body, c, rfl, hc, hsize, -⟩ := read_eq hread
            have hbehind : Ahead rest (gap ++ k ++ ' ' :: '\'' :: s) :=
              ⟨y ++ body, c, by rw [← hy]; simp, hc⟩
            have hlen := congrArg List.length hy
            have hle := length_le_doubled '"' k
            simp only [Token.size, List.length_append, List.length_cons] at hlen hsize
            have hshorter : rest.length < (' ' :: '\'' :: s).length := by
              simp only [List.length_cons]
              omega
            exact hw.not_ahead hcalm (hbehind.of_length hshorter) hrest hall'
          · exact hplain (plain_of_read hread)
      · rintro ⟨hk, -⟩
        exact absurd hk hplain

end Reading

section Types

variable {q : Char} {s s' r rest : Str}

/-- What may follow a type expression. -/
def Bound (s : Str) : Prop := ∀ c, s.head? = some c → c = ' ' ∨ c = '\n' ∨ c = ','

def CommentFree (s : Str) : Prop := ¬ ['-', '-'] <:+: s ∧ ¬ ['/', '*'] <:+: s

theorem CommentFree.of_suffix (h : CommentFree s) (hs : s' <:+ s) : CommentFree s' :=
  ⟨fun hi => h.1 (hi.trans hs.isInfix), fun hi => h.2 (hi.trans hs.isInfix)⟩

theorem Bound.head_ne {p : Char → Bool} (h : Bound s) (hp : [' ', '\n', ','].all p = true) :
    ∀ c, s.head? = some c → p c = true := by
  intro c hc
  apply List.all_eq_true.mp hp
  simpa using h c hc

theorem readQuoted_rest {n : Str} (h : readQuoted q s = some (n, rest)) : rest.head? ≠ some q := by
  induction s using readQuoted.induct q generalizing n with
  | case1 => cases h
  | case2 =>
    simp only [readQuoted, if_true, Option.some.injEq, Prod.mk.injEq] at h
    obtain ⟨-, rfl⟩ := h
    simp
  | case3 c hc => simp [readQuoted, hc] at h
  | case4 s ih =>
    simp only [readQuoted, if_true, Option.map_eq_some_iff, Prod.mk.injEq, Prod.exists] at h
    obtain ⟨n', rest', h, -, rfl⟩ := h
    exact ih h
  | case5 c' s hc' =>
    simp only [readQuoted, if_true, hc', if_false, Option.some.injEq, Prod.mk.injEq] at h
    obtain ⟨-, rfl⟩ := h
    simpa using hc'
  | case6 c c' s hc ih =>
    simp only [readQuoted, hc, if_false, Option.map_eq_some_iff, Prod.mk.injEq, Prod.exists] at h
    obtain ⟨n', rest', h, -, rfl⟩ := h
    exact ih h

theorem readQuoted_append {n : Str} (h : readQuoted q s = some (n, rest))
    (hr : r.head? ≠ some q) : readQuoted q (s ++ r) = some (n, rest ++ r) := by
  have hrest := readQuoted_rest h
  rw [readQuoted_eq h, List.append_assoc, List.cons_append]
  apply readQuoted_doubled
  cases rest with
  | nil => exact hr
  | cons c rest => exact hrest

theorem while_append {p : Char → Bool} (hr : ∀ c, r.head? = some c → p c = false) (s : Str) :
    (s ++ r).takeWhile p = s.takeWhile p ∧ (s ++ r).dropWhile p = s.dropWhile p ++ r := by
  induction s with
  | nil =>
    cases r with
    | nil => exact ⟨rfl, rfl⟩
    | cons c r => simp [hr c rfl]
  | cons c s ih =>
    by_cases hc : p c = true
    · simpa [hc] using ih
    · simp [hc]

/-- A token is read in front of a text as it is read on its own. -/
theorem read_append {t : Token} (h : read s = some (t, rest)) (hb : Bound r) :
    read (s ++ r) = some (t, rest ++ r) := by
  have hne : ∀ c, [' ', '\n', ','].all (fun d => d != c) = true → r.head? ≠ some c := by
    intro c hall he
    have hc := hb.head_ne hall c he
    simp at hc
  have hstop : ∀ p : Char → Bool, [' ', '\n', ','].all (fun d => !p d) = true →
      ∀ c, r.head? = some c → p c = false := by
    intro p hall c hc
    simpa using hb.head_ne hall c hc
  cases s with
  | nil => cases h
  | cons c s =>
    rw [List.cons_append]
    simp only [read] at h ⊢
    split_ifs at h ⊢ with hquote happ hword hprefix' hprefix hdigit hsym
    · obtain ⟨⟨n, rest'⟩, hn, hsome⟩ := Option.bind_eq_some_iff.mp h
      simp only at hsome
      split_ifs at hsome with hnil
      cases hsome
      rw [readQuoted_append hn (hne '"' (by decide))]
      simp [hnil]
    · obtain ⟨⟨v, rest'⟩, hv, hsome⟩ := Option.map_eq_some_iff.mp h
      cases hsome
      rw [readQuoted_append hv (hne '\'' (by decide))]
      rfl
    · exfalso
      have hwhile := while_append (hstop wordCont (by decide)) s
      apply hprefix
      rw [hwhile.1, hwhile.2] at hprefix'
      simp only [Bool.and_eq_true, beq_iff_eq] at hprefix' ⊢
      refine ⟨hprefix'.1, ?_⟩
      cases hd : s.dropWhile wordCont with
      | nil =>
        rw [hd] at hprefix'
        exact absurd hprefix'.2 (hne '\'' (by decide))
      | cons d s' =>
        rw [hd] at hprefix'
        exact hprefix'.2
    · cases h
      have hwhile := while_append (hstop wordCont (by decide)) s
      rw [hwhile.1, hwhile.2]
    · cases h
      have hwhile := while_append (hstop digit (by decide)) s
      rw [hwhile.1, hwhile.2]
    · cases h
      rfl

/-- Without comments only blanks are skipped. -/
theorem CommentFree.skip (h : CommentFree s) (hskip : skip .blank s = some s') :
    ∃ gap, Blank gap ∧ s = gap ++ s' ∧
      (s' ≠ [] → ∀ r, Bound r → Sql.skip .blank (s' ++ r) = some (s' ++ r)) := by
  induction s with
  | nil =>
    cases hskip
    exact ⟨[], by simp [Blank], rfl, fun hne => absurd rfl hne⟩
  | cons c s ih =>
    by_cases hc : space c = true
    · rw [skip_space hc] at hskip
      obtain ⟨gap, hgap, rfl, hr⟩ := ih (h.of_suffix (List.suffix_cons c _)) hskip
      refine ⟨c :: gap, ?_, rfl, hr⟩
      intro d hd
      obtain rfl | hd := List.mem_cons.mp hd
      · exact hc
      · exact hgap d hd
    · rw [Bool.not_eq_true] at hc
      have hpair : ∀ a b : Char, ¬ [a, b] <:+: c :: s → ¬ (c = a ∧ s.head? = some b) := by
        rintro a b hinfix ⟨rfl, hb⟩
        obtain ⟨s'', rfl⟩ := List.head?_eq_some_iff.mp hb
        exact hinfix ⟨[], s'', rfl⟩
      have hdash := hpair '-' '-' h.1
      have hslash := hpair '/' '*' h.2
      rw [skip_solid hc hdash hslash] at hskip
      cases hskip
      refine ⟨[], by simp [Blank], rfl, ?_⟩
      intro _ r hr
      cases s with
      | nil =>
        have hne := hr.head_ne (p := fun d => d != '-' && d != '*') (by decide)
        apply skip_solid hc
        · rintro ⟨-, hd⟩
          exact absurd (hne _ hd) (by decide)
        · rintro ⟨-, hd⟩
          exact absurd (hne _ hd) (by decide)
      | cons d s => exact skip_solid hc hdash hslash

theorem Written.blank {gap : Str} (hgap : Blank gap) {t : Token} {slots : List Slot}
    (h : Written s (.exact t :: slots)) : Written (gap ++ s) (.exact t :: slots) := by
  cases h with
  | @exact gap' text s _ _ hgap' hskip hread hrest =>
    have hboth : Blank (gap ++ gap') := by
      intro c hc
      obtain hc | hc := List.mem_append.mp hc
      · exact hgap c hc
      · exact hgap' c hc
    rw [List.append_assoc gap', ← List.append_assoc gap, ← List.append_assoc]
    exact .exact hboth hskip hread hrest

/-- A type expression in front of what ends it. -/
theorem Written.type {x : Str} {ty : List Token} (hlex : Lexes x ty) (hfree : CommentFree x)
    {t : Token} {slots : List Slot} (hb : Bound s) (hw : Written s (.exact t :: slots)) :
    Written (x ++ s) (ty.map .exact ++ .exact t :: slots) := by
  induction hlex with
  | done hskip =>
    obtain ⟨gap, hgap, rfl, -⟩ := hfree.skip hskip
    rw [List.append_nil]
    exact hw.blank hgap
  | @next x y t' rest ts hskip hread hrest ih =>
    obtain ⟨gap, hgap, rfl, hstart⟩ := hfree.skip hskip
    obtain ⟨body, c, rfl, -⟩ := read_eq hread
    have hrestfree : CommentFree rest := hfree.of_suffix ⟨gap ++ body ++ [c], by simp⟩
    have hskip' := hstart (by simp) s hb
    have hread' := read_append hread hb
    have hsplit : body ++ c :: rest ++ s = (body ++ [c]) ++ (rest ++ s) := by simp
    rw [hsplit] at hskip' hread'
    have hwritten := Written.exact hgap hskip' hread' (ih hrestfree)
    simpa using hwritten

end Types

end Multicorn.Sql
