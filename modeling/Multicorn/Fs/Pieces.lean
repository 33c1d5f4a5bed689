import Multicorn.Fs.Pattern

/-! The pieces of a pattern between its slashes: each is a format string of its own, which
spells the part it was parsed into. -/
namespace Multicorn.Fs

variable {isidentifier : Str → Bool} {pattern : Str}

theorem NoDoubledBraces.of_append {a b : Str} (h : NoDoubledBraces (a ++ b)) :
    NoDoubledBraces a ∧ NoDoubledBraces b := by
  induction a with
  | nil => exact ⟨trivial, h⟩
  | cons c a ih =>
    cases a with
    | nil =>
      refine ⟨trivial, ?_⟩
      cases b with
      | nil => trivial
      | cons d b => exact h.2
    | cons d a =>
      obtain ⟨ha, hb⟩ := ih h.2
      exact ⟨⟨h.1, ha⟩, hb⟩

/-- The tokenizer looks back only for a brace. -/
theorem tokenizeFrom_slash_prev (s : Str) :
    tokenizeFrom (some '/') none s = tokenizeFrom none none s := by
  cases s with
  | nil => rfl
  | cons c rest =>
    by_cases hopen : c = '{'
    · subst hopen
      simp [tokenizeFrom]
    · by_cases hclose : c = '}'
      · subst hclose
        simp [tokenizeFrom]
      · simp [tokenizeFrom, hopen, hclose]

/-- A slash ends a piece: no field runs over it. -/
theorem tokenizeFrom_piece {s rest : Str} (hslash : '/' ∉ s) {prev : Option Char}
    {field : Option Str}
    (hraise : ∀ e, .raising e ∉ tokenizeFrom prev field (s ++ '/' :: rest))
    (hnames : ∀ name, .property name ∈ tokenizeFrom prev field (s ++ '/' :: rest) → '/' ∉ name) :
    ∃ tokens, tokenizeFrom prev field s = tokens ++ [.separator] ∧ .separator ∉ tokens ∧
      tokenizeFrom prev field (s ++ '/' :: rest) =
        tokens ++ .separator :: tokenizeFrom none none rest := by
  have hcons : ∀ (token : Token) (t t' : List Token), token ≠ .separator →
      (∃ tokens, t = tokens ++ [.separator] ∧ .separator ∉ tokens ∧
        t' = tokens ++ .separator :: tokenizeFrom none none rest) →
      ∃ tokens, token :: t = tokens ++ [.separator] ∧ .separator ∉ tokens ∧
        token :: t' = tokens ++ .separator :: tokenizeFrom none none rest := by
    rintro token _ _ hne ⟨tokens, rfl, hsep, rfl⟩
    refine ⟨token :: tokens, rfl, ?_, rfl⟩
    simpa [hsep] using hne.symm
  induction s generalizing prev field with
  | nil =>
    cases field with
    | none => exact ⟨[], rfl, by simp, by simp [tokenizeFrom, tokenizeFrom_slash_prev]⟩
    | some name =>
      have hgo : tokenizeFrom prev (some name) ('/' :: rest) =
          tokenizeFrom (some '/') (some (name ++ ['/'])) rest := by simp [tokenizeFrom]
      rw [List.nil_append, hgo] at hraise hnames
      obtain ⟨more, hmore⟩ := property_of_field hraise
      exact absurd (by simp) (hnames _ hmore)
  | cons c s ih =>
    rw [List.mem_cons, not_or] at hslash
    have hc : c ≠ '/' := Ne.symm hslash.1
    cases field with
    | some name =>
      simp only [List.cons_append, tokenizeFrom] at hraise hnames ⊢
      split_ifs at hraise hnames ⊢
      · apply hcons _ _ _ (by simp)
        exact ih hslash.2 (fun e he => hraise e (List.mem_cons_of_mem _ he))
          fun n hn => hnames n (List.mem_cons_of_mem _ hn)
      · exact ih hslash.2 hraise hnames
    | none =>
      have hhead : (c = '{' ∨ c = '}') ∧ (s ++ '/' :: rest).head? = some c ↔
          (c = '{' ∨ c = '}') ∧ s.head? = some c := by
        cases s with
        | nil =>
          have hne : '/' ≠ c := hslash.1
          simp [hne]
        | cons d s => simp
      simp only [List.cons_append, tokenizeFrom, if_neg hc, hhead] at hraise hnames ⊢
      split_ifs at hraise hnames ⊢
      · exact ih hslash.2 hraise hnames
      · exact absurd (List.mem_singleton_self _) (hraise .singleBrace)
      · exact ih hslash.2 hraise hnames
      · apply hcons _ _ _ (by simp)
        exact ih hslash.2 (fun e he => hraise e (List.mem_cons_of_mem _ he))
          fun n hn => hnames n (List.mem_cons_of_mem _ hn)

theorem count_separator (s : Str) (hslash : '/' ∉ s) (prev : Option Char) (field : Option Str) :
    (tokenizeFrom prev field s).count .separator ≤ 1 := by
  induction s generalizing prev field with
  | nil => cases field <;> simp [tokenizeFrom]
  | cons c s ih =>
    rw [List.mem_cons, not_or] at hslash
    have hc : c ≠ '/' := Ne.symm hslash.1
    cases field with
    | some name =>
      simp only [tokenizeFrom]
      split_ifs
      · simpa using ih hslash.2 _ _
      · exact ih hslash.2 _ _
    | none =>
      simp only [tokenizeFrom, if_neg hc]
      split_ifs
      · exact ih hslash.2 _ _
      · simp
      · exact ih hslash.2 _ _
      · simpa using ih hslash.2 _ _

/-- The tokens up to a separator make up one part. -/
theorem parseFrom_part {tokens more : List Token} (hsep : .separator ∉ tokens) {parts : List Part}
    {next : Part} {all : List Str} {result : List Part}
    (h : parseFrom isidentifier pattern parts next all (tokens ++ .separator :: more) = .ok result) :
    ∃ all', parseFrom isidentifier pattern (parts ++ [next ++ tokens.filterMap Token.atom]) [] all'
      more = .ok result := by
  induction tokens generalizing next all with
  | nil =>
    simp only [List.nil_append, parseFrom] at h
    split_ifs at h
    exact ⟨all, by simpa using h⟩
  | cons token tokens ih =>
    rw [List.mem_cons, not_or] at hsep
    cases token with
    | raising e => cases h
    | separator => exact absurd rfl hsep.1
    | property name =>
      simp only [List.cons_append, parseFrom] at h
      split_ifs at h
      obtain ⟨all', hrest⟩ := ih hsep.2 h
      exact ⟨all', by simpa [Token.atom] using hrest⟩
    | literal c =>
      simp only [List.cons_append, parseFrom] at h
      obtain ⟨all', hrest⟩ := ih hsep.2 h
      exact ⟨all', by simpa [Token.atom] using hrest⟩

theorem text_of_tokens {get : Str → Option Str} {tokens : List Token} (hsep : .separator ∉ tokens) :
    Part.text get (tokens.filterMap Token.atom) = tokens.flatMap (Token.text get) := by
  induction tokens with
  | nil => rfl
  | cons token tokens ih =>
    rw [List.mem_cons, not_or] at hsep
    cases token with
    | raising e => exact ih hsep.2
    | separator => exact absurd rfl hsep.1
    | property name => simp [Token.atom, Token.text, ih hsep.2]
    | literal c => simp [Token.atom, Token.text, ih hsep.2]

/-- Formatting the text spells the part. -/
def Formats (text : Str) (part : Part) : Prop :=
  ∀ get : Str → Option Str, (∀ name ∈ part.properties, (get name).isSome) →
    vformat text get = .ok (Part.text get part)

theorem formats_of_tokens {s : Str} {tokens : List Token}
    (htokens : tokenizeFrom none none s = tokens ++ [.separator]) (hsep : .separator ∉ tokens)
    (hdoubled : NoDoubledBraces s) (hraise : ∀ e, .raising e ∉ tokens)
    (hplain : ∀ name, .property name ∈ tokens → PlainName name) :
    Formats s (tokens.filterMap Token.atom) := by
  intro get hget
  have hmem : ∀ token, token ∈ tokenizeFrom none none s → token ≠ .separator → token ∈ tokens := by
    intro token htoken hne
    rw [htokens] at htoken
    simpa [hne] using htoken
  obtain ⟨tokens', htokens', hformat⟩ := @vformatFrom_eq get s none
    none hdoubled
    (fun e he => hraise e (hmem _ he (by simp)))
    (fun name hn => hplain name (hmem _ hn (by simp)))
    (fun name hn => hget name (by
      refine List.mem_filterMap.mpr ⟨.any name, ?_, rfl⟩
      exact List.mem_filterMap.mpr ⟨.property name, hmem _ hn (by simp), rfl⟩))
  obtain rfl : tokens = tokens' := List.append_inj_left' (htokens.symm.trans htokens') rfl
  rw [text_of_tokens hsep]
  exact hformat

private theorem pieces_of_parseFrom (n : ℕ) : ∀ (s : Str), s.length ≤ n → ∀ {parts : List Part}
    {all : List Str} {result : List Part},
    parseFrom isidentifier pattern parts [] all (tokenizeFrom none none s) = .ok result →
    NoDoubledBraces s → (∀ name, isidentifier name = true → PlainName name) →
    ∃ new, result = parts ++ new ∧ List.Forall₂ Formats (s.splitOn '/') new := by
  induction n with
  | zero =>
    intro s hs parts all result h
    obtain rfl : s = [] := List.length_eq_zero_iff.mp (Nat.le_zero.mp hs)
    simp [tokenizeFrom, parseFrom] at h
  | succ n ih =>
    intro s hs parts all result h hdoubled hid
    obtain ⟨hraise, hnames⟩ := tokens_of_parseFrom h
    have hplain : ∀ name, .property name ∈ tokenizeFrom none none s → PlainName name :=
      fun name hn => hid name (hnames name hn)
    by_cases hslash : '/' ∈ s
    · obtain ⟨a, b, rfl, ha⟩ := List.eq_append_cons_of_mem hslash
      obtain ⟨hda, hdb⟩ := hdoubled.of_append
      have hdb' : NoDoubledBraces b := (NoDoubledBraces.of_append (a := ['/']) hdb).2
      obtain ⟨tokens, htokens, hsep, hall⟩ := tokenizeFrom_piece ha hraise
        fun name hn hmem => (hplain name hn).2 _ hmem (by simp)
      rw [hall] at h hraise hplain
      obtain ⟨all', hrest⟩ := parseFrom_part hsep h
      have hlength : b.length ≤ n := by
        rw [List.length_append, List.length_cons] at hs
        omega
      obtain ⟨new, hresult, hnew⟩ := ih b hlength hrest hdb' hid
      refine ⟨tokens.filterMap Token.atom :: new, by simpa using hresult, ?_⟩
      rw [List.splitOn_append_cons_self_of_not_mem ha]
      refine .cons (formats_of_tokens htokens hsep hda ?_ ?_) hnew
      · exact fun e he => hraise e (List.mem_append_left _ he)
      · exact fun name hn => hplain name (List.mem_append_left _ hn)
    · obtain ⟨tokens, htokens⟩ := tokenizeFrom_end hraise
      have hsep : .separator ∉ tokens := by
        have hcount := count_separator s hslash none none
        rw [htokens, List.count_append, List.count_singleton_self] at hcount
        exact List.count_eq_zero.mp (by omega)
      rw [htokens] at h hraise hplain
      obtain ⟨all', hrest⟩ := parseFrom_part hsep h
      refine ⟨[tokens.filterMap Token.atom], ?_, ?_⟩
      · simpa [parseFrom] using hrest.symm
      · rw [List.splitOn_eq_singleton hslash]
        refine .cons (formats_of_tokens htokens hsep hdoubled ?_ ?_) .nil
        · exact fun e he => hraise e (List.mem_append_left _ he)
        · exact fun name hn => hplain name (List.mem_append_left _ hn)

/-- The pieces of an accepted pattern, with the parts they are. -/
theorem parsePattern_pieces {parts : List Part} (h : parsePattern isidentifier pattern = .ok parts)
    (hdoubled : NoDoubledBraces pattern) (hid : ∀ name, isidentifier name = true → PlainName name) :
    List.Forall₂ Formats (pattern.splitOn '/') parts := by
  obtain ⟨new, hnew, hpieces⟩ := pieces_of_parseFrom pattern.length pattern (Nat.le_refl _) h
    hdoubled hid
  rw [List.nil_append] at hnew
  rwa [hnew]

/-- A pattern whose pieces format to their parts formats to all of them. -/
theorem vformat_of_pieces {get : Str → Option Str} (n : ℕ) : ∀ {s : Str}, s.length ≤ n →
    ∀ {parts : List Part}, List.Forall₂ Formats (s.splitOn '/') parts →
    (∀ part ∈ parts, .lit '/' ∉ part) →
    (∀ name ∈ parts.flatMap Part.properties, (get name).isSome) →
    (∀ name value, get name = some value → '/' ∉ value) →
    ∃ text, vformat s get = .ok text ∧ text.splitOn '/' = parts.map (Part.text get) := by
  induction n with
  | zero =>
    intro s hs parts hpieces hslash hget hvalues
    obtain rfl : s = [] := List.length_eq_zero_iff.mp (Nat.le_zero.mp hs)
    cases hpieces with
    | @cons _ part _ parts hpart hrest =>
      cases hrest
      rw [List.flatMap_cons, List.flatMap_nil, List.append_nil] at hget
      have hnil : Part.text get part = [] := (Except.ok.inj (hpart get hget)).symm
      refine ⟨[], rfl, ?_⟩
      rw [List.map_cons, hnil]
      rfl
  | succ n ih =>
    intro s hs parts hpieces hslash hget hvalues
    by_cases hmem : '/' ∈ s
    · obtain ⟨a, b, rfl, ha⟩ := List.eq_append_cons_of_mem hmem
      rw [List.splitOn_append_cons_self_of_not_mem ha] at hpieces
      cases hpieces with
      | @cons _ part _ parts hpart hrest =>
        rw [List.forall_mem_cons] at hslash
        have hlength : b.length ≤ n := by
          rw [List.length_append, List.length_cons] at hs
          omega
        have hfirst := hpart get fun name hname => hget name (by
          rw [List.flatMap_cons]
          exact List.mem_append_left _ hname)
        obtain ⟨text, htext, hsplit⟩ := ih hlength hrest hslash.2 (fun name hname => hget name (by
          rw [List.flatMap_cons]
          exact List.mem_append_right _ hname)) hvalues
        have hplain := Part.slash_not_mem hslash.1 hvalues
        refine ⟨Part.text get part ++ '/' :: text, ?_, ?_⟩
        · have hmore : vformatFrom get none ('/' :: b) = .ok ('/' :: text) := by
            rw [vformatFrom_char (by decide)]
            unfold vformat at htext
            rw [htext]
            rfl
          unfold vformat
          rw [vformatFrom_append hfirst, hmore]
          rfl
        · rw [List.splitOn_append_cons_self_of_not_mem hplain, hsplit]
          rfl
    · rw [List.splitOn_eq_singleton hmem] at hpieces
      cases hpieces with
      | @cons _ part _ parts hpart hrest =>
        cases hrest
        rw [List.flatMap_cons, List.flatMap_nil, List.append_nil] at hget
        rw [List.forall_mem_cons] at hslash
        refine ⟨_, hpart get hget, ?_⟩
        rw [List.splitOn_eq_singleton (Part.slash_not_mem hslash.1 hvalues)]
        rfl

end Multicorn.Fs
