import Mathlib.Algebra.GroupWithZero.Nat
import Multicorn.Fs.GetItems

/-! The tokenizer of patterns against the grammar of format strings. -/
namespace Multicorn.Fs

/-- Literals, doubled braces and plain fields, as `str.format` reads them from the left. -/
def formatTokens (field : Option Str) : Str → Option (List Token)
  | [] => if field.isSome then none else some []
  | c :: rest =>
    match field with
    | some name =>
      if c = '}' then (formatTokens none rest).map (.property name :: ·)
      else if c ∈ ['{', '[', '.', '!', ':'] then none
      else formatTokens (some (name ++ [c])) rest
    | none =>
      if c = '{' ∨ c = '}' then
        match rest with
        | [] => none
        | d :: rest' =>
          if d = c then (formatTokens none rest').map (.literal c :: ·)
          else if c = '}' then none
          else formatTokens (some []) (d :: rest')
      else (formatTokens none rest).map ((if c = '/' then .separator else .literal c) :: ·)

def propertyNames (tokens : List Token) : List Str :=
  tokens.filterMap fun
    | .property name => some name
    | _ => none

/-- The fields are distinct identifiers, and no part between the slashes is empty. -/
structure WellFormed (isidentifier : Str → Bool) (tokens : List Token) : Prop where
  identifiers : ∀ name ∈ propertyNames tokens, isidentifier name = true
  distinct : (propertyNames tokens).Nodup
  nonempty : [] ∉ tokens.splitOn .separator

/-- The grammar has the pattern. -/
def InGrammar (isidentifier : Str → Bool) (pattern : Str) : Prop :=
  ∃ tokens, formatTokens none pattern = some tokens ∧ WellFormed isidentifier tokens

/-- The tokenizer accepts what is in the grammar, and formatting spells its tokens. -/
def Agrees (isidentifier : Str → Bool) (pattern : Str) : Prop :=
  ((∃ parts, parsePattern isidentifier pattern = .ok parts) ↔ InGrammar isidentifier pattern) ∧
    ∀ parts, parsePattern isidentifier pattern = .ok parts →
      ∀ get : Str → Option Str,
        (∀ name, .property name ∈ tokenizePattern pattern → (get name).isSome) →
        vformat pattern get =
          .ok ((tokenizePattern pattern).dropLast.flatMap (Token.text get))

/-- The pattern that the tokenizer takes `s` for: outside of the fields a run of equal braces,
and any `}` that follow a field, are one doubled brace. -/
def respell (prev : Option Char) (infield : Bool) : Str → Str
  | [] => []
  | c :: rest =>
    if infield then c :: respell (some c) (c ≠ '}') rest
    else if (c = '{' ∨ c = '}') ∧ rest.head? = some c then respell (some c) false rest
    else if (c = '{' ∨ c = '}') ∧ prev = some c then c :: c :: respell (some c) false rest
    else c :: respell (some c) (c = '{') rest

theorem respell_head? (prev : Option Char) (infield : Bool) (s : Str) :
    (respell prev infield s).head? = s.head? := by
  induction s generalizing prev infield with
  | nil => rfl
  | cons c rest ih =>
    rw [respell]
    split_ifs with _ hrun
    · rfl
    · rw [ih, hrun.2, List.head?_cons]
    · rfl
    · rfl

/-! What the grammar says of the respelled pattern is what the tokenizer does. -/

theorem formatTokens_brace {c : Char} (hc : c = '{' ∨ c = '}') (s : Str) :
    formatTokens none (c :: c :: s) = (formatTokens none s).map (.literal c :: ·) := by
  rw [formatTokens]
  simp [hc]

theorem formatTokens_open {s : Str} (h : s.head? ≠ some '{') :
    formatTokens none ('{' :: s) = formatTokens (some []) s := by
  cases s with
  | nil => simp [formatTokens]
  | cons d s =>
    have hd : d ≠ '{' := fun he => h (by rw [he, List.head?_cons])
    conv_lhs => rw [formatTokens]
    simp [hd]

theorem formatTokens_close {s : Str} (h : s.head? ≠ some '}') :
    formatTokens none ('}' :: s) = none := by
  cases s with
  | nil => simp [formatTokens]
  | cons d s =>
    have hd : d ≠ '}' := fun he => h (by rw [he, List.head?_cons])
    rw [formatTokens]
    simp [hd]

theorem formatTokens_char {c : Char} (h : ¬ (c = '{' ∨ c = '}')) (s : Str) :
    formatTokens none (c :: s) =
      (formatTokens none s).map ((if c = '/' then .separator else .literal c) :: ·) := by
  cases s with
  | nil => simp [formatTokens, h]
  | cons d s => simp only [formatTokens, h, if_false]

theorem tokenizeFrom_of_formatTokens {s : Str} {prev : Option Char} {field : Option Str}
    {tokens : List Token} (h : formatTokens field (respell prev field.isSome s) = some tokens) :
    tokenizeFrom prev field s = tokens ++ [.separator] := by
  induction s generalizing prev field tokens with
  | nil =>
    cases field with
    | none =>
      obtain rfl : [] = tokens := by simpa [respell, formatTokens] using h
      rfl
    | some name => simp [respell, formatTokens] at h
  | cons c rest ih =>
    cases field with
    | some name =>
      simp only [respell, Option.isSome_some, if_true, formatTokens] at h
      rw [tokenizeFrom]
      by_cases hc : c = '}'
      · simp only [hc, if_true] at h ⊢
        obtain ⟨more, hmore, rfl⟩ := Option.map_eq_some_iff.mp h
        rw [@ih (some '}') none more (by simpa using hmore)]
        rfl
      · simp only [hc, if_false] at h ⊢
        split_ifs at h
        exact ih (by simpa [hc] using h)
    | none =>
      simp only [respell, Option.isSome_none, Bool.false_eq_true, if_false] at h
      by_cases hb : c = '{' ∨ c = '}'
      · have hslash : c ≠ '/' := by
          rcases hb with rfl | rfl <;> decide
        rw [tokenizeFrom, if_neg hslash]
        by_cases hhead : rest.head? = some c
        · rw [if_pos ⟨hb, hhead⟩] at h ⊢
          exact @ih (some c) none _ h
        · rw [if_neg fun hrun => hhead hrun.2] at h ⊢
          by_cases hprev : prev = some c
          · rw [if_pos ⟨hb, hprev⟩, formatTokens_brace hb] at h
            obtain ⟨more, hmore, rfl⟩ := Option.map_eq_some_iff.mp h
            rw [if_neg fun hp => hp.2 hprev, if_neg fun hp => hp.2 hprev,
              @ih (some c) none more hmore]
            rfl
          · rw [if_neg fun hp => hprev hp.2] at h
            rcases hb with rfl | rfl
            · rw [formatTokens_open (by rwa [respell_head?])] at h
              simp only [hprev, ne_eq, not_false_eq_true, and_true, if_true]
              rw [if_neg (by decide)]
              exact @ih (some '{') (some []) _ (by simpa using h)
            · rw [formatTokens_close (by rwa [respell_head?])] at h
              cases h
      · have hopen : c ≠ '{' := fun he => hb (.inl he)
        have hclose : c ≠ '}' := fun he => hb (.inr he)
        rw [if_neg fun hrun => hb hrun.1, if_neg fun hrun => hb hrun.1, formatTokens_char hb] at h
        obtain ⟨more, hmore, rfl⟩ := Option.map_eq_some_iff.mp h
        have hrest := @ih (some c) none more (by simpa [hopen] using hmore)
        rw [tokenizeFrom]
        by_cases hslash : c = '/'
        · simp only [hslash, if_true] at hrest ⊢
          rw [hrest]
          rfl
        · simp only [hslash, hopen, hclose, false_or, false_and, if_false]
          rw [hrest]
          rfl

theorem formatTokens_of_tokenizeFrom {s : Str} {prev : Option Char} {field : Option Str}
    (hraise : ∀ e, .raising e ∉ tokenizeFrom prev field s)
    (hplain : ∀ name, .property name ∈ tokenizeFrom prev field s → PlainName name) :
    (formatTokens field (respell prev field.isSome s)).isSome := by
  induction s generalizing prev field with
  | nil =>
    cases field with
    | none => rfl
    | some name => exact absurd (List.mem_singleton_self _) (hraise .unmatchedBrace)
  | cons c rest ih =>
    cases field with
    | some name =>
      simp only [respell, Option.isSome_some, if_true, formatTokens]
      rw [tokenizeFrom] at hraise hplain
      by_cases hc : c = '}'
      · simp only [hc, if_true] at hraise hplain ⊢
        have hrest := @ih (some '}') none (fun e he => hraise e (List.mem_cons_of_mem _ he))
          fun n hn => hplain n (List.mem_cons_of_mem _ hn)
        simpa using hrest
      · simp only [hc, if_false] at hraise hplain ⊢
        obtain ⟨more, hmore⟩ := property_of_field hraise
        have hchar : c ∉ ['{', '[', '.', '!', ':'] := by
          have hname := (hplain _ hmore).2 c (by simp)
          simp only [List.mem_cons, List.not_mem_nil, or_false, not_or] at hname ⊢
          tauto
        rw [if_neg hchar]
        have hrest := ih hraise hplain
        simpa [hc] using hrest
    | none =>
      simp only [respell, Option.isSome_none, Bool.false_eq_true, if_false]
      rw [tokenizeFrom] at hraise hplain
      by_cases hb : c = '{' ∨ c = '}'
      · have hslash : c ≠ '/' := by
          rcases hb with rfl | rfl <;> decide
        simp only [hslash, if_false] at hraise hplain
        by_cases hhead : rest.head? = some c
        · rw [if_pos ⟨hb, hhead⟩] at hraise hplain ⊢
          exact @ih (some c) none hraise hplain
        · rw [if_neg fun hrun => hhead hrun.2] at hraise hplain ⊢
          by_cases hprev : prev = some c
          · rw [if_neg fun hp => hp.2 hprev, if_neg fun hp => hp.2 hprev] at hraise hplain
            rw [if_pos ⟨hb, hprev⟩, formatTokens_brace hb, Option.isSome_map]
            exact @ih (some c) none (fun e he => hraise e (List.mem_cons_of_mem _ he))
              fun n hn => hplain n (List.mem_cons_of_mem _ hn)
          · rw [if_neg fun hp => hprev hp.2]
            rcases hb with rfl | rfl
            · rw [if_neg fun hp => absurd hp.1 (by decide), if_pos ⟨rfl, hprev⟩] at hraise hplain
              rw [formatTokens_open (by rwa [respell_head?])]
              have hrest := ih hraise hplain
              simpa using hrest
            · rw [if_pos ⟨rfl, hprev⟩] at hraise
              exact absurd (List.mem_singleton_self _) (hraise .singleBrace)
      · have hopen : c ≠ '{' := fun he => hb (.inl he)
        have hclose : c ≠ '}' := fun he => hb (.inr he)
        rw [if_neg fun hrun => hb hrun.1, if_neg fun hrun => hb hrun.1, formatTokens_char hb,
          Option.isSome_map]
        have htail : ∀ token, token ∈ tokenizeFrom (some c) none rest →
            token ∈ (if c = '/' then Token.separator :: tokenizeFrom (some c) none rest
              else if (c = '{' ∨ c = '}') ∧ rest.head? = some c then tokenizeFrom (some c) none rest
              else if c = '}' ∧ prev ≠ some c then [.raising .singleBrace]
              else if c = '{' ∧ prev ≠ some c then tokenizeFrom (some c) (some []) rest
              else .literal c :: tokenizeFrom (some c) none rest) := by
          intro token htoken
          by_cases hslash : c = '/'
          · rw [if_pos hslash]
            exact List.mem_cons_of_mem _ htoken
          · simp [hslash, hopen, hclose, htoken]
        have hrest := @ih (some c) none (fun e he => hraise e (htail _ he))
          fun n hn => hplain n (htail _ hn)
        simpa [hopen] using hrest

theorem vformatFrom_of_formatTokens {get : Str → Option Str} {field : Option Str} {s : Str}
    {tokens : List Token} (h : formatTokens field s = some tokens)
    (hnames : ∀ name ∈ propertyNames tokens, name.all Char.isDigit = false ∧ (get name).isSome) :
    vformatFrom get field s = .ok (tokens.flatMap (Token.text get)) := by
  fun_induction formatTokens field s generalizing tokens with
  | case1 => cases h
  | case2 field hfield =>
    cases h
    obtain rfl : field = none := by simpa using hfield
    rfl
  | case3 rest name ih =>
    obtain ⟨more, hmore, rfl⟩ := Option.map_eq_some_iff.mp h
    have hall : name.all Char.isDigit = false ∧ (get name).isSome :=
      hnames name (List.mem_cons_self)
    obtain ⟨value, hvalue⟩ := Option.isSome_iff_exists.mp hall.2
    have hrest := ih hmore fun n hn => hnames n (List.mem_cons_of_mem _ hn)
    simp [vformatFrom, fieldValue, hall.1, hvalue, hrest, Token.text, bind, Except.bind, pure,
      Except.pure]
  | case4 => cases h
  | case5 c rest name hc hspecial ih =>
    simp only [vformatFrom, hc, hspecial, if_false]
    exact ih h hnames
  | case6 => cases h
  | case7 c rest hc ih =>
    obtain ⟨more, hmore, rfl⟩ := Option.map_eq_some_iff.mp h
    have hrest := ih hmore hnames
    simp [vformatFrom, hc, hrest, Token.text, bind, Except.bind, pure, Except.pure]
  | case8 => cases h
  | case9 c hc d rest hd hclose ih =>
    obtain rfl : c = '{' := hc.resolve_right hclose
    rw [vformatFrom]
    simp only [true_or, hd, hclose, if_true, if_false]
    exact ih h hnames
  | case10 c rest hc ih =>
    obtain ⟨more, hmore, rfl⟩ := Option.map_eq_some_iff.mp h
    have htext : Token.text get (if c = '/' then .separator else .literal c) = [c] := by
      split_ifs with hslash
      · rw [hslash]
        rfl
      · rfl
    have hsub : ∀ name ∈ propertyNames more, name ∈ propertyNames
        ((if c = '/' then .separator else .literal c) :: more) := by
      intro name hname
      split_ifs <;> exact hname
    rw [vformatFrom_char hc, ih hmore fun n hn => hnames n (hsub n hn), List.flatMap_cons, htext]
    rfl

theorem not_raising_of_formatTokens {field : Option Str} {s : Str} {tokens : List Token}
    (h : formatTokens field s = some tokens) : ∀ e, .raising e ∉ tokens := by
  intro e
  fun_induction formatTokens field s generalizing tokens with
  | case1 => cases h
  | case2 =>
    cases h
    exact List.not_mem_nil
  | case3 rest name ih =>
    obtain ⟨more, hmore, rfl⟩ := Option.map_eq_some_iff.mp h
    simpa using ih hmore
  | case4 => cases h
  | case5 c rest name hc hspecial ih => exact ih h
  | case6 => cases h
  | case7 c rest hc ih =>
    obtain ⟨more, hmore, rfl⟩ := Option.map_eq_some_iff.mp h
    simpa using ih hmore
  | case8 => cases h
  | case9 c hc d rest hd hclose ih => exact ih h
  | case10 c rest hc ih =>
    obtain ⟨more, hmore, rfl⟩ := Option.map_eq_some_iff.mp h
    have hhead : .raising e ≠ (if c = '/' then Token.separator else .literal c) := by
      split_ifs <;> simp
    rw [List.mem_cons, not_or]
    exact ⟨hhead, ih hmore⟩

/-- `pre` is the part read so far. -/
theorem parseFrom_ok_iff {isidentifier : Str → Bool} {pattern : Str} {tokens pre : List Token}
    (hraise : ∀ e, .raising e ∉ tokens) (hpre : .separator ∉ pre) {parts : List Part}
    {next : Part} (hnext : next = [] ↔ pre = []) {all : List Str} :
    (∃ r, parseFrom isidentifier pattern parts next all (tokens ++ [.separator]) = .ok r) ↔
      (∀ name ∈ propertyNames tokens, isidentifier name = true) ∧
        (propertyNames tokens).Nodup ∧ (∀ name ∈ propertyNames tokens, name ∉ all) ∧
        [] ∉ (pre ++ tokens).splitOn .separator := by
  induction tokens generalizing pre parts next all with
  | nil =>
    rw [List.append_nil, List.splitOn_eq_singleton hpre, List.nil_append, parseFrom]
    by_cases hempty : next = []
    · have hsplit : pre = [] := hnext.mp hempty
      simp [hempty, hsplit]
    · have hsplit : pre ≠ [] := fun he => hempty (hnext.mpr he)
      simp [hempty, hsplit.symm, parseFrom, propertyNames]
  | cons token tokens ih =>
    have hraise' : ∀ e, .raising e ∉ tokens := fun e he => hraise e (List.mem_cons_of_mem _ he)
    cases token with
    | raising e => exact absurd List.mem_cons_self (hraise e)
    | separator =>
      have hnames : propertyNames (.separator :: tokens) = propertyNames tokens := rfl
      rw [List.splitOn_append_cons_self_of_not_mem hpre, hnames, List.cons_append, parseFrom]
      by_cases hempty : next = []
      · have hsplit : pre = [] := hnext.mp hempty
        simp [hempty, hsplit]
      · have hsplit : pre ≠ [] := fun he => hempty (hnext.mpr he)
        rw [if_neg hempty, @ih [] hraise' List.not_mem_nil _ _ (by simp)]
        simp [hsplit.symm]
    | property name =>
      have hnames : propertyNames (.property name :: tokens) = name :: propertyNames tokens := rfl
      have hassoc : pre ++ .property name :: tokens = (pre ++ [.property name]) ++ tokens := by simp
      rw [hassoc, hnames, List.cons_append, parseFrom]
      by_cases hid : isidentifier name = false
      · simp [hid]
      · rw [if_neg hid]
        have hid' : isidentifier name = true := by simpa using hid
        by_cases hall : name ∈ all
        · simp [hall]
        · rw [if_neg hall, @ih (pre ++ [.property name]) hraise' (by simpa using hpre) _ _ (by simp)]
          simp only [List.forall_mem_cons, List.nodup_cons, hid', hall, not_false_eq_true, true_and]
          simp only [List.mem_cons, not_or]
          constructor
          · rintro ⟨hids, hnodup, hnew, hparts⟩
            exact ⟨hids, ⟨fun hmem => (hnew name hmem).1 rfl, hnodup⟩, fun n hn => (hnew n hn).2,
              hparts⟩
          · rintro ⟨hids, ⟨hfresh, hnodup⟩, hnew, hparts⟩
            exact ⟨hids, hnodup, fun n hn => ⟨fun he => hfresh (he ▸ hn), hnew n hn⟩, hparts⟩
    | literal c =>
      have hnames : propertyNames (.literal c :: tokens) = propertyNames tokens := rfl
      have hassoc : pre ++ .literal c :: tokens = (pre ++ [.literal c]) ++ tokens := by simp
      rw [hassoc, hnames, List.cons_append, parseFrom,
        @ih (pre ++ [.literal c]) hraise' (by simpa using hpre) _ _ (by simp)]

section Acceptance

variable {isidentifier : Str → Bool} {pattern : Str}

/-- The parser accepts a pattern when the grammar has the respelled one, with the same tokens. -/
theorem parsePattern_ok_iff (hid : ∀ name, isidentifier name = true → PlainName name) :
    (∃ parts, parsePattern isidentifier pattern = .ok parts) ↔
      InGrammar isidentifier (respell none false pattern) := by
  have hwell : ∀ {tokens}, formatTokens none (respell none false pattern) = some tokens →
      ((∃ parts, parsePattern isidentifier pattern = .ok parts) ↔
        WellFormed isidentifier tokens) := by
    intro tokens htokens
    have hraise := not_raising_of_formatTokens htokens
    have hsplit : tokenizeFrom none none pattern = tokens ++ [.separator] :=
      @tokenizeFrom_of_formatTokens pattern none none tokens htokens
    unfold parsePattern tokenizePattern
    rw [hsplit, @parseFrom_ok_iff isidentifier pattern tokens [] hraise List.not_mem_nil _ _ (by simp)]
    constructor
    · rintro ⟨hids, hnodup, -, hparts⟩
      exact ⟨hids, hnodup, hparts⟩
    · rintro ⟨hids, hnodup, hparts⟩
      exact ⟨hids, hnodup, fun _ _ => List.not_mem_nil, hparts⟩
  constructor
  · rintro ⟨parts, h⟩
    obtain ⟨hraise, hnames⟩ := tokens_of_parseFrom h
    obtain ⟨tokens, htokens⟩ := Option.isSome_iff_exists.mp
      (formatTokens_of_tokenizeFrom hraise fun name hn => hid name (hnames name hn))
    exact ⟨tokens, htokens, (hwell htokens).mp ⟨parts, h⟩⟩
  · rintro ⟨tokens, htokens, hform⟩
    exact (hwell htokens).mpr hform

end Acceptance

/-! A pattern in the grammar does not get longer when it is respelled. -/

theorem exists_run (c : Char) (rest : Str) :
    ∃ k tail, c :: rest = List.replicate (k + 1) c ++ tail ∧ tail.head? ≠ some c := by
  induction rest with
  | nil => exact ⟨0, [], rfl, by simp⟩
  | cons d rest ih =>
    by_cases hd : d = c
    · obtain ⟨k, tail, hrun, htail⟩ := ih
      refine ⟨k + 1, tail, ?_, htail⟩
      rw [hd, hrun]
      rfl
    · exact ⟨0, d :: rest, rfl, by simpa using hd⟩

theorem respell_run {c : Char} (hc : c = '{' ∨ c = '}') (k : ℕ) (prev : Option Char) {tail : Str}
    (htail : tail.head? ≠ some c) :
    respell prev false (List.replicate (k + 2) c ++ tail) =
      c :: c :: respell (some c) false tail := by
  induction k generalizing prev with
  | zero => simp [respell, hc, htail, List.replicate_succ]
  | succ k ih =>
    have hhead : (List.replicate (k + 2) c ++ tail).head? = some c := by
      simp [List.replicate_succ]
    rw [List.replicate_succ, List.cons_append, respell, if_neg Bool.false_ne_true,
      if_pos ⟨hc, hhead⟩, ih]

/-- Where a run of braces leaves the grammar: after it, or in a field that it opens. -/
theorem formatTokens_run {c : Char} (hc : c = '{' ∨ c = '}') (k : ℕ) {tail : Str}
    (htail : tail.head? ≠ some c) {tokens : List Token}
    (h : formatTokens none (List.replicate k c ++ tail) = some tokens) :
    ∃ field more, formatTokens field tail = some more ∧ (c = '}' → field = none) := by
  induction k using Nat.strong_induction_on generalizing tokens with
  | _ k ih =>
    match k with
    | 0 => exact ⟨none, tokens, h, fun _ => rfl⟩
    | 1 =>
      rcases hc with rfl | rfl
      · have hopen : formatTokens (some []) tail = some tokens := by
          rw [← formatTokens_open htail]
          exact h
        exact ⟨some [], tokens, hopen, fun he => absurd he (by decide)⟩
      · have hclose : formatTokens none ('}' :: tail) = some tokens := h
        rw [formatTokens_close htail] at hclose
        cases hclose
    | k + 2 =>
      rw [List.replicate_succ, List.replicate_succ, List.cons_append, List.cons_append,
        formatTokens_brace hc] at h
      obtain ⟨more, hmore, -⟩ := Option.map_eq_some_iff.mp h
      exact ih k (by omega) hmore

/-- `t` is `s` or shorter. -/
def Shortened (t s : Str) : Prop := t = s ∨ t.length < s.length

theorem Shortened.cons {t s : Str} (h : Shortened t s) (c : Char) :
    Shortened (c :: t) (c :: s) := by
  rcases h with rfl | hlt
  · exact .inl rfl
  · exact .inr (by simpa using hlt)

theorem Shortened.run {t s : Str} (h : Shortened t s) (c : Char) (k : ℕ) :
    Shortened (c :: c :: t) (List.replicate (k + 2) c ++ s) := by
  cases k with
  | zero => exact (h.cons c).cons c
  | succ k =>
    right
    rcases h with rfl | hlt
    · simp
      omega
    · simp
      omega

/-- `infield` is what the tokenizer makes of it. It is in a field only where the grammar is in
one, and does not stand within a run that it could take for another one. -/
theorem respell_shortened (n : ℕ) : ∀ s : Str, s.length ≤ n → ∀ {prev : Option Char}
    {infield : Bool} {field : Option Str} {tokens : List Token},
    formatTokens field s = some tokens → (infield = true → field.isSome) →
    (infield = false → (prev = some '{' → s.head? ≠ some '{') ∧
      (field.isSome → prev = some '}' → s.head? ≠ some '}')) →
    Shortened (respell prev infield s) s := by
  induction n with
  | zero =>
    intro s hs
    obtain rfl : s = [] := List.length_eq_zero_iff.mp (Nat.le_zero.mp hs)
    exact fun _ _ _ => .inl rfl
  | succ n ih =>
    intro s hs prev infield field tokens h hsync hprev
    cases s with
    | nil => exact .inl rfl
    | cons c rest =>
      have hrest : rest.length ≤ n := by
        rw [List.length_cons] at hs
        omega
      cases infield with
      | true =>
        obtain ⟨name, rfl⟩ := Option.isSome_iff_exists.mp (hsync rfl)
        rw [respell, if_pos rfl]
        rw [formatTokens] at h
        apply Shortened.cons
        by_cases hc : c = '}'
        · subst hc
          rw [if_pos rfl] at h
          obtain ⟨more, hmore, -⟩ := Option.map_eq_some_iff.mp h
          exact ih rest hrest hmore (by simp) fun _ => ⟨by simp, by simp⟩
        · rw [if_neg hc] at h
          split_ifs at h
          exact ih rest hrest h (by simp) (by simp [hc])
      | false =>
        by_cases hb : c = '{' ∨ c = '}'
        · obtain ⟨k, tail, hrun, htail⟩ := exists_run c rest
          have hlength : tail.length ≤ n := by
            have := congrArg List.length hrun
            rw [List.length_cons, List.length_append, List.length_replicate] at this
            omega
          have hafter : ∀ {field : Option Str}, (some c = some '{' → tail.head? ≠ some '{') ∧
              (field.isSome → some c = some '}' → tail.head? ≠ some '}') := by
            intro field
            constructor
            · intro he
              obtain rfl : c = '{' := Option.some.inj he
              exact htail
            · intro _ he
              obtain rfl : c = '}' := Option.some.inj he
              exact htail
          rw [hrun] at h ⊢
          cases k with
          | succ k =>
            have hnext : ∃ field' more, formatTokens field' tail = some more := by
              cases field with
              | none =>
                obtain ⟨field', more, hmore, -⟩ := formatTokens_run hb (k + 2) htail h
                exact ⟨field', more, hmore⟩
              | some name =>
                rw [List.replicate_succ, List.cons_append, formatTokens] at h
                split_ifs at h with hclose hspecial
                · obtain ⟨more, hmore, -⟩ := Option.map_eq_some_iff.mp h
                  obtain ⟨field', more', hmore', -⟩ := formatTokens_run hb (k + 1) htail hmore
                  exact ⟨field', more', hmore'⟩
                · exact absurd (by simp [hb.resolve_right hclose]) hspecial
            obtain ⟨field', more, hmore⟩ := hnext
            rw [respell_run hb k prev htail]
            exact (ih tail hlength hmore (by simp) fun _ => hafter).run c k
          | zero =>
            have hsingle : List.replicate (0 + 1) c ++ tail = c :: tail := rfl
            obtain rfl : rest = tail := by
              rw [hsingle] at hrun
              exact (List.cons.inj hrun).2
            rw [hsingle] at h ⊢
            have hnot : ¬ prev = some c := by
              intro he
              rcases hb with rfl | rfl
              · exact (hprev rfl).1 he rfl
              · cases field with
                | none =>
                  rw [formatTokens_close htail] at h
                  cases h
                | some name => exact (hprev rfl).2 rfl he rfl
            rw [respell, if_neg Bool.false_ne_true, if_neg fun hp => htail hp.2,
              if_neg fun hp => hnot hp.2]
            apply Shortened.cons
            cases field with
            | none =>
              rcases hb with rfl | rfl
              · rw [formatTokens_open htail] at h
                exact ih rest hrest h (by simp) (by simp)
              · rw [formatTokens_close htail] at h
                cases h
            | some name =>
              rw [formatTokens] at h
              split_ifs at h with hclose hspecial
              · obtain ⟨more, hmore, -⟩ := Option.map_eq_some_iff.mp h
                subst hclose
                exact ih rest hrest hmore (by simp) fun _ => hafter
              · exact absurd (by simp [hb.resolve_right hclose]) hspecial
        · have hopen : c ≠ '{' := fun he => hb (.inl he)
          have hclose : c ≠ '}' := fun he => hb (.inr he)
          rw [respell, if_neg Bool.false_ne_true, if_neg fun hp => hb hp.1,
            if_neg fun hp => hb hp.1]
          apply Shortened.cons
          cases field with
          | none =>
            rw [formatTokens_char hb] at h
            obtain ⟨more, hmore, -⟩ := Option.map_eq_some_iff.mp h
            exact ih rest hrest hmore (by simp [hopen]) fun _ => ⟨by simp [hopen], by simp⟩
          | some name =>
            rw [formatTokens, if_neg hclose] at h
            split_ifs at h
            exact ih rest hrest h (by simp) fun _ => ⟨by simp [hopen], by simp [hclose]⟩

/-! The length of a pattern is known from what it formats to. -/

def Token.sourceLength : Token → ℕ
  | .property name => name.length + 2
  | .separator => 1
  | .literal c => if c = '{' ∨ c = '}' then 2 else 1
  | .raising _ => 0

theorem length_of_formatTokens {field : Option Str} {s : Str} {tokens : List Token}
    (h : formatTokens field s = some tokens) :
    s.length + field.elim 0 (·.length + 1) = (tokens.map Token.sourceLength).sum := by
  fun_induction formatTokens field s generalizing tokens with
  | case1 => cases h
  | case2 field hfield =>
    cases h
    obtain rfl : field = none := by simpa using hfield
    rfl
  | case3 rest name ih =>
    obtain ⟨more, hmore, rfl⟩ := Option.map_eq_some_iff.mp h
    have hrest := ih hmore
    simp only [Option.elim_none, Option.elim_some, List.length_cons, List.map_cons, List.sum_cons,
      Token.sourceLength] at hrest ⊢
    omega
  | case4 => cases h
  | case5 c rest name hc hspecial ih =>
    have hrest := ih h
    simp only [Option.elim_some, List.length_cons, List.length_append, List.length_nil]
      at hrest ⊢
    omega
  | case6 => cases h
  | case7 c rest hc ih =>
    obtain ⟨more, hmore, rfl⟩ := Option.map_eq_some_iff.mp h
    have hrest := ih hmore
    simp only [Option.elim_none, List.length_cons, List.map_cons, List.sum_cons,
      Token.sourceLength, hc, if_true] at hrest ⊢
    omega
  | case8 => cases h
  | case9 c hc d rest hd hclose ih =>
    have hrest := ih h
    simp only [Option.elim_none, Option.elim_some, List.length_cons, List.length_nil] at hrest ⊢
    omega
  | case10 c rest hc ih =>
    obtain ⟨more, hmore, rfl⟩ := Option.map_eq_some_iff.mp h
    have hrest := ih hmore
    have hone : Token.sourceLength (if c = '/' then .separator else .literal c) = 1 := by
      split_ifs
      · rfl
      · simp [Token.sourceLength, hc]
    simp only [Option.elim_none, List.length_cons, List.map_cons, List.sum_cons, hone] at hrest ⊢
    omega

/-- Texts of the tokens, with the same value for all properties but `p`. -/
theorem length_text (p : Str) (tokens : List Token) :
    (tokens.flatMap (Token.text fun name => some (if name = p then ['x'] else []))).length =
      (tokens.flatMap (Token.text fun _ => some [])).length + (propertyNames tokens).count p := by
  induction tokens with
  | nil => rfl
  | cons token tokens ih =>
    rw [List.flatMap_cons, List.flatMap_cons, List.length_append, List.length_append, ih]
    cases token with
    | property name =>
      have hnames : propertyNames (.property name :: tokens) = name :: propertyNames tokens := rfl
      rw [hnames, List.count_cons]
      by_cases hp : name = p
      · simp [Token.text, hp]
        omega
      · simp [Token.text, hp]
    | separator =>
      have hnames : propertyNames (.separator :: tokens) = propertyNames tokens := rfl
      simp only [hnames, Token.text]
      omega
    | literal c =>
      have hnames : propertyNames (.literal c :: tokens) = propertyNames tokens := rfl
      simp only [hnames, Token.text]
      omega
    | raising e =>
      have hnames : propertyNames (.raising e :: tokens) = propertyNames tokens := rfl
      simp only [hnames, Token.text]
      omega

theorem sourceLength_eq (tokens : List Token) :
    (tokens.map Token.sourceLength).sum =
      ((tokens.flatMap (Token.text fun _ => some [])).map fun c =>
        if c = '{' ∨ c = '}' then 2 else 1).sum +
      ((propertyNames tokens).map (·.length + 2)).sum := by
  induction tokens with
  | nil => rfl
  | cons token tokens ih =>
    rw [List.map_cons, List.sum_cons, ih, List.flatMap_cons, List.map_append, List.sum_append]
    cases token with
    | property name =>
      have hnames : propertyNames (.property name :: tokens) = name :: propertyNames tokens := rfl
      rw [hnames]
      simp only [Token.sourceLength, Token.text, Option.getD_some, List.map_nil, List.sum_nil,
        List.map_cons, List.sum_cons]
      omega
    | separator =>
      have hnames : propertyNames (.separator :: tokens) = propertyNames tokens := rfl
      simp [hnames, Token.sourceLength, Token.text, Nat.add_assoc]
    | literal c =>
      have hnames : propertyNames (.literal c :: tokens) = propertyNames tokens := rfl
      simp [hnames, Token.sourceLength, Token.text, Nat.add_assoc]
    | raising e =>
      have hnames : propertyNames (.raising e :: tokens) = propertyNames tokens := rfl
      simp [hnames, Token.sourceLength, Token.text]

/-- Tokens that always format alike come from patterns of one length. -/
theorem sourceLength_congr {tokens tokens' : List Token}
    (h : ∀ get : Str → Option Str, (∀ name, (get name).isSome) →
      tokens.flatMap (Token.text get) = tokens'.flatMap (Token.text get)) :
    (tokens.map Token.sourceLength).sum = (tokens'.map Token.sourceLength).sum := by
  have hempty := h (fun _ => some []) fun _ => rfl
  have hnames : (propertyNames tokens).Perm (propertyNames tokens') := by
    rw [List.perm_iff_count]
    intro p
    have hlength := congrArg List.length
      (h (fun name => some (if name = p then ['x'] else [])) fun _ => rfl)
    rw [length_text, length_text, hempty] at hlength
    omega
  rw [sourceLength_eq, sourceLength_eq, hempty, (hnames.map _).sum_nat]

section Main

variable {isidentifier : Str → Bool} (hid : ∀ name, isidentifier name = true → PlainName name)

include hid in
theorem vformat_of_inGrammar {pattern : Str} {tokens : List Token}
    (h : formatTokens none pattern = some tokens) (hform : WellFormed isidentifier tokens)
    {get : Str → Option Str} (hget : ∀ name ∈ propertyNames tokens, (get name).isSome) :
    vformat pattern get = .ok (tokens.flatMap (Token.text get)) := by
  apply vformatFrom_of_formatTokens h
  intro name hname
  exact ⟨(hid name (hform.identifiers name hname)).1, hget name hname⟩

theorem mem_propertyNames {name : Str} {tokens : List Token} :
    name ∈ propertyNames tokens ↔ .property name ∈ tokens := by
  unfold propertyNames
  rw [List.mem_filterMap]
  constructor
  · rintro ⟨token, htoken, hname⟩
    cases token with
    | property n =>
      obtain rfl : n = name := by simpa using hname
      exact htoken
    | _ => cases hname
  · intro h
    exact ⟨_, h, rfl⟩

include hid in
/-- The tokenizer agrees with `str.format` on a pattern exactly when respelling it changes
nothing, or leads from one string outside of the grammar to another. -/
theorem tokenizer_agrees_iff (pattern : Str) :
    Agrees isidentifier pattern ↔ respell none false pattern = pattern ∨
      (¬ InGrammar isidentifier pattern ∧
        ¬ InGrammar isidentifier (respell none false pattern)) := by
  have haccept := @parsePattern_ok_iff _ pattern hid
  have htokenize : ∀ {tokens}, formatTokens none (respell none false pattern) = some tokens →
      tokenizePattern pattern = tokens ++ [.separator] := fun h =>
    @tokenizeFrom_of_formatTokens pattern none none _ h
  constructor
  · rintro ⟨hiff, htext⟩
    by_cases haccepted : ∃ parts, parsePattern isidentifier pattern = .ok parts
    · left
      obtain ⟨tokens, htokens, hform⟩ := haccept.mp haccepted
      obtain ⟨tokens', htokens', hform'⟩ := hiff.mp haccepted
      obtain ⟨parts, hparts⟩ := haccepted
      have hsame : ∀ get : Str → Option Str, (∀ name, (get name).isSome) →
          tokens.flatMap (Token.text get) = tokens'.flatMap (Token.text get) := by
        intro get hget
        have hspelled := htext parts hparts get fun name _ => hget name
        rw [htokenize htokens, List.dropLast_concat,
          vformat_of_inGrammar hid htokens' hform' fun name _ => hget name] at hspelled
        exact (Except.ok.inj hspelled).symm
      have hlength := length_of_formatTokens htokens
      have hlength' := length_of_formatTokens htokens'
      rw [sourceLength_congr hsame, ← hlength'] at hlength
      have hshort : Shortened (respell none false pattern) pattern :=
        respell_shortened _ pattern (Nat.le_refl _) htokens' (by simp) (by simp)
      rcases hshort with heq | hlt
      · exact heq
      · simp only [Option.elim_none, Nat.add_zero] at hlength
        omega
    · exact .inr ⟨fun h => haccepted (hiff.mpr h), fun h => haccepted (haccept.mpr h)⟩
  · rintro (heq | ⟨hout, hout'⟩)
    · rw [heq] at haccept htokenize
      refine ⟨haccept, fun parts hparts get hget => ?_⟩
      obtain ⟨tokens, htokens, hform⟩ := haccept.mp ⟨parts, hparts⟩
      rw [htokenize htokens, List.dropLast_concat]
      apply vformat_of_inGrammar hid htokens hform
      intro name hname
      apply hget
      rw [htokenize htokens]
      exact List.mem_append_left _ (mem_propertyNames.mp hname)
    · have hrefused : ¬ ∃ parts, parsePattern isidentifier pattern = .ok parts := fun h =>
        hout' (haccept.mp h)
      refine ⟨iff_of_false hrefused hout, fun parts hparts => absurd ⟨parts, hparts⟩ hrefused⟩

end Main

/-- A doubled brace on each side of a field, and a field at the end. -/
theorem agrees_doubledBraces :
    Agrees letters "\x7b\x7ba\x7d\x7d/\x7bb\x7d.\x7bc\x7d".toList :=
  (tokenizer_agrees_iff (fun _ => plainName_of_letters) _).mpr (.inl (by decide))

/-- A single brace behind a field is accepted as a literal, and of braces in a row three times
only one is seen, so that what `str.format` takes for a field is none. -/
theorem disagrees_runs :
    ¬ Agrees letters "\x7ba\x7d\x7d".toList ∧
    ¬ Agrees letters "\x7b\x7b\x7ba\x7d\x7d\x7d".toList := by
  constructor
  · rintro ⟨hiff, -⟩
    have hparse : parsePattern letters "\x7ba\x7d\x7d".toList =
        .ok [[.any ['a'], .lit '}']] := by decide
    obtain ⟨tokens, htokens, -⟩ := hiff.mp ⟨_, hparse⟩
    have hnone : formatTokens none "\x7ba\x7d\x7d".toList = none := by decide
    rw [hnone] at htokens
    cases htokens
  · rintro ⟨-, htext⟩
    have hparse : parsePattern letters "\x7b\x7b\x7ba\x7d\x7d\x7d".toList =
        .ok [[.lit '{', .lit 'a', .lit '}']] := by decide
    have hformat : vformat "\x7b\x7b\x7ba\x7d\x7d\x7d".toList (fun _ => some []) =
        .ok ['{', '}'] := by decide +kernel
    have htokens : tokenizePattern "\x7b\x7b\x7ba\x7d\x7d\x7d".toList =
        [.literal '{', .literal 'a', .literal '}', .separator] := by decide
    have hspelled := htext _ hparse (fun _ => some []) fun _ _ => rfl
    rw [hformat, htokens] at hspelled
    cases hspelled

end Multicorn.Fs
