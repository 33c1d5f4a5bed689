import Mathlib.Data.List.Forall2
import Mathlib.Data.List.Infix
import Mathlib.Data.List.TakeWhile

/-! Tokens of SQL: identifiers that are folded or quoted, strings with doubled quotes, and
comments. The other kinds of string constants are not read. -/
namespace Multicorn.Sql

abbrev Str := List Char

inductive Token
  | word (name : Str)
  | quoted (name : Str)
  | str (value : Str)
  | number (digits : Str)
  | sym (c : Char)
  deriving DecidableEq

def space (c : Char) : Bool :=
  c == ' ' || c == '\t' || c == '\n' || c == '\r' || c == '\x0b' || c == '\x0c'

def lower (c : Char) : Bool := 'a' ≤ c && c ≤ 'z'

def upper (c : Char) : Bool := 'A' ≤ c && c ≤ 'Z'

def digit (c : Char) : Bool := '0' ≤ c && c ≤ '9'

/-- Letters, underscore and everything outside ASCII. -/
def wordStart (c : Char) : Bool := lower c || upper c || c == '_' || 128 ≤ c.toNat

def wordCont (c : Char) : Bool := wordStart c || digit c || c == '$'

def symbol (c : Char) : Bool := c ∈ ",()[].;:+-*/%^<>=~!@#&|?".toList

def fold (c : Char) : Char := if upper c then Char.ofNat (c.toNat + 32) else c

/-- What may surround a token: nothing of what is read next, or a comment. -/
inductive Skip
  | blank
  | line
  | block (depth : ℕ)

/-- Blanks and comments before a token. A block comment that does not end is an error. -/
def skip : Skip → Str → Option Str
  | .blank, '-' :: '-' :: s => skip .line s
  | .blank, '/' :: '*' :: s => skip (.block 0) s
  | .blank, c :: s => if space c then skip .blank s else some (c :: s)
  | .blank, [] => some []
  | .line, c :: s => if c == '\n' || c == '\r' then skip .blank s else skip .line s
  | .line, [] => some []
  | .block depth, '/' :: '*' :: s => skip (.block (depth + 1)) s
  | .block 0, '*' :: '/' :: s => skip .blank s
  | .block (depth + 1), '*' :: '/' :: s => skip (.block depth) s
  | .block depth, _ :: s => skip (.block depth) s
  | .block _, [] => none

/-- The text up to the closing quote, in which a quote is doubled. -/
def readQuoted (q : Char) : Str → Option (Str × Str)
  | [] => none
  | [c] => if c = q then some ([], []) else none
  | c :: c' :: s =>
    if c = q then
      if c' = q then (readQuoted q s).map fun p => (q :: p.1, p.2) else some ([], c' :: s)
    else (readQuoted q (c' :: s)).map fun p => (c :: p.1, p.2)

/-- The letters that make a quote after them start another kind of constant. -/
def constantPrefix (w : Str) : Bool := w == ['e'] || w == ['b'] || w == ['x'] || w == ['n']

def read : Str → Option (Token × Str)
  | [] => none
  | c :: s =>
    if c = '"' then (readQuoted '"' s).bind fun p =>
      if p.1 = [] then none else some (.quoted p.1, p.2)
    else if c = '\'' then (readQuoted '\'' s).map fun p => (.str p.1, p.2)
    else if wordStart c then
      let w := (c :: s.takeWhile wordCont).map fold
      let rest := s.dropWhile wordCont
      if constantPrefix w && rest.head? == some '\'' then none else some (.word w, rest)
    else if digit c then some (.number (c :: s.takeWhile digit), s.dropWhile digit)
    else if symbol c then some (.sym c, s)
    else none

def lexFrom : ℕ → Str → Option (List Token)
  | 0, _ => none
  | n + 1, s =>
    match skip .blank s with
    | none => none
    | some [] => some []
    | some s' =>
      match read s' with
      | none => none
      | some (t, rest) => (lexFrom n rest).map (t :: ·)

/-- All tokens of a text. -/
def lex (s : Str) : Option (List Token) := lexFrom (s.length + 1) s

section Quoted

variable {q : Char}

/-- A text as it stands between quotes. -/
def doubled (q : Char) (s : Str) : Str := s.flatMap fun c => if c = q then [q, q] else [c]

@[simp] theorem doubled_nil : doubled q [] = [] := rfl

@[simp] theorem doubled_cons (c : Char) (s : Str) :
    doubled q (c :: s) = (if c = q then [q, q] else [c]) ++ doubled q s := rfl

theorem doubled_of_notMem {s : Str} (h : q ∉ s) : doubled q s = s := by
  induction s with
  | nil => rfl
  | cons c s ih =>
    rw [List.mem_cons, not_or] at h
    rw [doubled_cons, if_neg (Ne.symm h.1), ih h.2]
    rfl

theorem readQuoted_cons_ne {c : Char} (h : c ≠ q) (s : Str) :
    readQuoted q (c :: s) = (readQuoted q s).map fun p => (c :: p.1, p.2) := by
  cases s with
  | nil => simp [readQuoted, h]
  | cons c' s => rw [readQuoted, if_neg h]

theorem readQuoted_close {rest : Str} (h : rest.head? ≠ some q) :
    readQuoted q (q :: rest) = some ([], rest) := by
  cases rest with
  | nil => simp [readQuoted]
  | cons c rest =>
    have hc : c ≠ q := by simpa using h
    rw [readQuoted, if_pos rfl, if_neg hc]

theorem readQuoted_doubled (n : Str) {rest : Str} (h : rest.head? ≠ some q) :
    readQuoted q (doubled q n ++ q :: rest) = some (n, rest) := by
  induction n with
  | nil => exact readQuoted_close h
  | cons c n ih =>
    by_cases hc : c = q
    · rw [doubled_cons, if_pos hc, List.append_assoc]
      change readQuoted q (q :: q :: (doubled q n ++ q :: rest)) = _
      rw [readQuoted, if_pos rfl, if_pos rfl, ih, hc]
      rfl
    · rw [doubled_cons, if_neg hc, List.append_assoc]
      change readQuoted q (c :: (doubled q n ++ q :: rest)) = _
      rw [readQuoted_cons_ne hc, ih]
      rfl

theorem readQuoted_eq {s n rest : Str} (h : readQuoted q s = some (n, rest)) :
    s = doubled q n ++ q :: rest := by
  induction s using readQuoted.induct q generalizing n with
  | case1 => cases h
  | case2 =>
    simp only [readQuoted, if_true, Option.some.injEq, Prod.mk.injEq] at h
    obtain ⟨rfl, rfl⟩ := h
    rfl
  | case3 c hc => simp [readQuoted, hc] at h
  | case4 s ih =>
    simp only [readQuoted, if_true, Option.map_eq_some_iff, Prod.mk.injEq, Prod.exists] at h
    obtain ⟨n', rest', h, rfl, rfl⟩ := h
    rw [ih h, doubled_cons, if_pos rfl]
    rfl
  | case5 c' s hc' =>
    simp only [readQuoted, if_true, hc', if_false, Option.some.injEq, Prod.mk.injEq] at h
    obtain ⟨rfl, rfl⟩ := h
    rfl
  | case6 c c' s hc ih =>
    simp only [readQuoted, hc, if_false, Option.map_eq_some_iff, Prod.mk.injEq, Prod.exists] at h
    obtain ⟨n', rest', h, rfl, rfl⟩ := h
    rw [ih h, doubled_cons, if_neg hc]
    rfl

end Quoted

/-- How long a token is at least in any text. -/
def Token.size : Token → ℕ
  | .word name => name.length
  | .quoted name => (doubled '"' name).length + 2
  | .str value => (doubled '\'' value).length + 2
  | .number digits => digits.length
  | .sym _ => 1

theorem space_cases {c : Char} (h : space c = true) :
    c = ' ' ∨ c = '\t' ∨ c = '\n' ∨ c = '\r' ∨ c = '\x0b' ∨ c = '\x0c' := by
  simpa [space, or_assoc] using h

theorem space_eq_false {p : Char → Bool} {c : Char} (hc : p c = true)
    (h : [' ', '\t', '\n', '\r', '\x0b', '\x0c'].all (fun c => !p c) = true) :
    space c = false := by
  rw [Bool.eq_false_iff]
  intro hs
  have hmem : c ∈ [' ', '\t', '\n', '\r', '\x0b', '\x0c'] := by
    simpa using space_cases hs
  have hno := List.all_eq_true.mp h c hmem
  rw [hc] at hno
  cases hno

theorem space_of_wordCont {c : Char} (h : wordCont c = true) : space c = false :=
  space_eq_false h (by decide)

theorem wordCont_of_start {c : Char} (h : wordStart c = true) : wordCont c = true := by
  simp [wordCont, h]

private theorem last_of_takeWhile {p : Char → Bool} {c : Char} (hc : p c = true) (s : Str) :
    ∃ body last, c :: s = body ++ last :: s.dropWhile p ∧ p last = true ∧
      body.length + 1 = (c :: s.takeWhile p).length := by
  have hne : c :: s.takeWhile p ≠ [] := List.cons_ne_nil _ _
  refine ⟨(c :: s.takeWhile p).dropLast, (c :: s.takeWhile p).getLast hne, ?_, ?_, ?_⟩
  · rw [List.append_cons, List.dropLast_append_getLast hne, List.cons_append,
      List.takeWhile_append_dropWhile]
  · obtain h | h := List.mem_cons.mp (List.getLast_mem hne)
    · rw [h, hc]
    · exact List.mem_takeWhile_imp h
  · rw [List.length_dropLast]
    simp

/-- A token ends with a character that is no blank, and has its size. -/
theorem read_eq {s rest : Str} {t : Token} (h : read s = some (t, rest)) :
    ∃ body c, s = body ++ c :: rest ∧ space c = false ∧ body.length + 1 = t.size ∧
      (∀ w, t = .word w → wordCont c = true) := by
  cases s with
  | nil => cases h
  | cons c s =>
    simp only [read] at h
    split_ifs at h with hquote happ hword hprefix hdigit hsym
    · obtain ⟨⟨n, r⟩, hn, hsome⟩ := Option.bind_eq_some_iff.mp h
      simp only at hsome
      split_ifs at hsome with hnil
      cases hsome
      refine ⟨c :: doubled '"' n, '"', ?_, rfl, ?_, ?_⟩
      · rw [readQuoted_eq hn, hquote]
        rfl
      · simp [Token.size]
      · intro w hw
        cases hw
    · obtain ⟨⟨v, r⟩, hv, hsome⟩ := Option.map_eq_some_iff.mp h
      cases hsome
      refine ⟨c :: doubled '\'' v, '\'', ?_, rfl, ?_, ?_⟩
      · rw [readQuoted_eq hv, happ]
        rfl
      · simp [Token.size]
      · intro w hw
        cases hw
    · cases h
      obtain ⟨body, last, hs, hlast, hlen⟩ := last_of_takeWhile (wordCont_of_start hword) s
      refine ⟨body, last, hs, space_of_wordCont hlast, ?_, fun _ _ => hlast⟩
      rw [hlen, Token.size, List.length_map]
    · cases h
      obtain ⟨body, last, hs, hlast, hlen⟩ := last_of_takeWhile hdigit s
      refine ⟨body, last, hs, space_eq_false hlast (by decide), hlen, ?_⟩
      intro w hw
      cases hw
    · cases h
      refine ⟨[], c, rfl, space_eq_false hsym (by decide), rfl, ?_⟩
      intro w hw
      cases hw

/-- The tokens that a text is read as. -/
inductive Lexes : Str → List Token → Prop
  | done {s} (hskip : skip .blank s = some []) : Lexes s []
  | next {s s' t rest ts} (hskip : skip .blank s = some s') (hread : read s' = some (t, rest))
      (hrest : Lexes rest ts) : Lexes s (t :: ts)

theorem skip_suffix {m : Skip} {s s' : Str} (h : skip m s = some s') : s' <:+ s := by
  fun_induction skip m s with
  | case1 s ih => exact (ih h).trans ⟨['-', '-'], rfl⟩
  | case2 s ih => exact (ih h).trans ⟨['/', '*'], rfl⟩
  | case3 c s _ _ hc ih => exact (ih h).trans (List.suffix_cons c s)
  | case4 c s _ _ hc =>
    cases h
    exact List.suffix_rfl
  | case5 =>
    cases h
    exact List.suffix_rfl
  | case6 c s hc ih => exact (ih h).trans (List.suffix_cons c s)
  | case7 c s hc ih => exact (ih h).trans (List.suffix_cons c s)
  | case8 =>
    cases h
    exact List.suffix_rfl
  | case9 depth s ih => exact (ih h).trans ⟨['/', '*'], rfl⟩
  | case10 s ih => exact (ih h).trans ⟨['*', '/'], rfl⟩
  | case11 depth s ih => exact (ih h).trans ⟨['*', '/'], rfl⟩
  | case12 depth c s _ _ _ ih => exact (ih h).trans (List.suffix_cons c s)
  | case13 => cases h

theorem read_length {s rest : Str} {t : Token} (h : read s = some (t, rest)) :
    rest.length < s.length := by
  obtain ⟨body, c, rfl, -⟩ := read_eq h
  simp only [List.length_append, List.length_cons]
  omega

theorem lexes_of_lexFrom {n : ℕ} {s : Str} {ts : List Token} (h : lexFrom n s = some ts) :
    Lexes s ts := by
  induction n generalizing s ts with
  | zero => cases h
  | succ n ih =>
    simp only [lexFrom] at h
    split at h
    · cases h
    · next hskip =>
      cases h
      exact .done hskip
    · next s' hne hskip =>
      split at h
      · cases h
      · next t rest hread =>
        obtain ⟨ts', hts, rfl⟩ := Option.map_eq_some_iff.mp h
        exact .next hskip hread (ih hts)

theorem lexFrom_of_lexes {s : Str} {ts : List Token} (h : Lexes s ts) :
    ∀ n, s.length < n → lexFrom n s = some ts := by
  induction h with
  | done hskip =>
    intro n hn
    obtain ⟨m, rfl⟩ := Nat.exists_eq_succ_of_ne_zero (Nat.ne_of_gt (Nat.zero_lt_of_lt hn))
    simp [lexFrom, hskip]
  | @next s s' t rest ts hskip hread _ ih =>
    intro n hn
    obtain ⟨m, rfl⟩ := Nat.exists_eq_succ_of_ne_zero (Nat.ne_of_gt (Nat.zero_lt_of_lt hn))
    have hle := (skip_suffix hskip).length_le
    have hlt := read_length hread
    have hrest := ih m (by omega)
    cases s' with
    | nil => cases hread
    | cons c s' => simp [lexFrom, hskip, hread, hrest]

theorem lex_eq_some_iff {s : Str} {ts : List Token} : lex s = some ts ↔ Lexes s ts := by
  constructor
  · exact lexes_of_lexFrom
  · intro h
    exact lexFrom_of_lexes h _ (Nat.lt_succ_self _)

theorem Lexes.unique {s : Str} {ts us : List Token} (ht : Lexes s ts) (hu : Lexes s us) :
    ts = us := by
  rw [← lex_eq_some_iff] at ht hu
  rw [ht] at hu
  exact Option.some.inj hu

theorem skip_space {c : Char} (h : space c = true) (s : Str) :
    skip .blank (c :: s) = skip .blank s := by
  obtain rfl | rfl | rfl | rfl | rfl | rfl := space_cases h <;> simp [skip, space]

def Blank (s : Str) : Prop := ∀ c ∈ s, space c = true

theorem blank_of_all {s : Str} (h : s.all space = true) : Blank s :=
  fun c hc => List.all_eq_true.mp h c hc

theorem Blank.skip {gap : Str} (h : Blank gap) (s : Str) :
    skip .blank (gap ++ s) = skip .blank s := by
  induction gap with
  | nil => rfl
  | cons c gap ih =>
    rw [List.cons_append, skip_space (h c (by simp)), ih fun d hd => h d (List.mem_cons_of_mem c hd)]

theorem Blank.lexes {gap : Str} (h : Blank gap) : Lexes gap [] := by
  have hskip := h.skip []
  rw [List.append_nil] at hskip
  exact .done hskip

/-- A character that is no blank and starts no comment is where the next token starts. -/
theorem skip_solid {c : Char} {s : Str} (h : space c = false)
    (hdash : ¬ (c = '-' ∧ s.head? = some '-')) (hslash : ¬ (c = '/' ∧ s.head? = some '*')) :
    skip .blank (c :: s) = some (c :: s) := by
  rw [Sql.skip]
  · simp [h]
  · rintro s' hc rfl
    exact hdash ⟨hc, rfl⟩
  · rintro s' hc rfl
    exact hslash ⟨hc, rfl⟩

theorem skip_start {c : Char} (h : space c = false) (hdash : c ≠ '-') (hslash : c ≠ '/') (s : Str) :
    skip .blank (c :: s) = some (c :: s) :=
  skip_solid h (fun hc => hdash hc.1) (fun hc => hslash hc.1)

/-- A token that is read after blanks is the first of the text. -/
theorem lexes_cons_iff {gap text s : Str} {t : Token} {ts : List Token} (hgap : Blank gap)
    (hskip : skip .blank (text ++ s) = some (text ++ s)) (hread : read (text ++ s) = some (t, s)) :
    Lexes (gap ++ text ++ s) ts ↔ ∃ us, ts = t :: us ∧ Lexes s us := by
  have hstart : skip .blank (gap ++ text ++ s) = some (text ++ s) := by
    rw [List.append_assoc, hgap.skip, hskip]
  constructor
  · intro h
    cases h with
    | done hdone =>
      rw [hstart] at hdone
      rw [Option.some.inj hdone] at hread
      cases hread
    | next hskip' hread' hrest =>
      rw [hstart] at hskip'
      cases hskip'
      rw [hread] at hread'
      cases hread'
      exact ⟨_, rfl, hrest⟩
  · rintro ⟨us, rfl, hus⟩
    exact .next hstart hread hus

/-- A name that is read as itself: it does not start with a digit, and has no upper case. -/
def plain : Str → Bool
  | [] => false
  | c :: s => wordStart c && !upper c && s.all fun d => wordCont d && !upper d

theorem lower_fold {c : Char} (h : upper c = true) : lower (fold c) = true := by
  have hall : ∀ n < 91, 65 ≤ n → lower (Char.ofNat (n + 32)) = true := by decide
  have hbounds : 65 ≤ c.toNat ∧ c.toNat ≤ 90 := by
    simpa [upper, Char.le_def, UInt32.le_iff_toNat_le] using h
  rw [fold, if_pos h]
  exact hall c.toNat (by omega) hbounds.1

theorem upper_of_lower {c : Char} (h : lower c = true) : upper c = false := by
  simp only [lower, upper, Bool.and_eq_true, decide_eq_true_eq, Bool.and_eq_false_iff,
    decide_eq_false_iff_not] at h ⊢
  right
  intro hle
  exact absurd (Char.le_trans h.1 hle) (show ¬ 'a' ≤ 'Z' by decide)

theorem upper_fold (c : Char) : upper (fold c) = false := by
  by_cases h : upper c = true
  · exact upper_of_lower (lower_fold h)
  · rw [fold, if_neg h]
    simpa using h

theorem wordStart_fold {c : Char} (h : wordStart c = true) : wordStart (fold c) = true := by
  by_cases hc : upper c = true
  · simp [wordStart, lower_fold hc]
  · rw [fold, if_neg hc]
    exact h

theorem wordCont_fold {c : Char} (h : wordCont c = true) : wordCont (fold c) = true := by
  by_cases hc : upper c = true
  · simp [wordCont, wordStart, lower_fold hc]
  · rw [fold, if_neg hc]
    exact h

theorem fold_of_not_upper {s : Str} (h : ∀ c ∈ s, upper c = false) : s.map fold = s := by
  conv_rhs => rw [← List.map_id s]
  apply List.map_congr_left
  intro c hc
  simp [fold, h c hc]

/-- What a word is read as is plain. -/
theorem plain_of_read {s rest : Str} {w : Str} (h : read s = some (.word w, rest)) :
    plain w = true := by
  cases s with
  | nil => cases h
  | cons c s =>
    simp only [read] at h
    split_ifs at h with hquote happ hword hprefix hdigit hsym
    · obtain ⟨p, -, hsome⟩ := Option.bind_eq_some_iff.mp h
      split_ifs at hsome
      cases hsome
    · obtain ⟨p, -, hsome⟩ := Option.map_eq_some_iff.mp h
      cases hsome
    · cases h
      have hrest : ∀ d ∈ s.takeWhile wordCont, (wordCont (fold d) && !upper (fold d)) = true := by
        intro d hd
        simp [wordCont_fold (List.mem_takeWhile_imp hd), upper_fold]
      simpa [plain, wordStart_fold hword, upper_fold] using hrest
    all_goals cases h

theorem read_word {c : Char} {w s : Str} (hstart : wordStart c = true)
    (hrest : ∀ d ∈ w, wordCont d = true)
    (hs : ∀ d, s.head? = some d → wordCont d = false ∧ d ≠ '\'') :
    read (c :: w ++ s) = some (.word ((c :: w).map fold), s) := by
  have hquote : c ≠ '"' := by
    rintro rfl
    exact absurd hstart (by decide)
  have happ : c ≠ '\'' := by
    rintro rfl
    exact absurd hstart (by decide)
  have hstop : s.takeWhile wordCont = [] ∧ s.dropWhile wordCont = s := by
    cases s with
    | nil => exact ⟨rfl, rfl⟩
    | cons d s => simp [(hs d rfl).1]
  have htake : (w ++ s).takeWhile wordCont = w := by
    rw [List.takeWhile_append_of_pos hrest, hstop.1, List.append_nil]
  have hdrop : (w ++ s).dropWhile wordCont = s := by
    rw [List.dropWhile_append_of_pos hrest, hstop.2]
  have hnot : (s.head? == some '\'') = false := by
    cases s with
    | nil => rfl
    | cons d s => simpa using (hs d rfl).2
  rw [List.cons_append, read, if_neg hquote, if_neg happ, if_pos hstart]
  simp [htake, hdrop, hnot]

theorem read_plain {w : Str} (h : plain w = true) {s : Str}
    (hs : ∀ c, s.head? = some c → wordCont c = false ∧ c ≠ '\'') :
    read (w ++ s) = some (.word w, s) := by
  cases w with
  | nil => cases h
  | cons c w =>
    simp only [plain, Bool.and_eq_true, Bool.not_eq_true', List.all_eq_true] at h
    obtain ⟨⟨hstart, hup⟩, hrest⟩ := h
    have hfold : (c :: w).map fold = c :: w := by
      apply fold_of_not_upper
      intro d hd
      obtain rfl | hd := List.mem_cons.mp hd
      · exact hup
      · exact (hrest d hd).2
    rw [read_word hstart (fun d hd => (hrest d hd).1) hs, hfold]

theorem read_quoted {n : Str} (hn : n ≠ []) {s : Str} (hs : s.head? ≠ some '"') :
    read ('"' :: doubled '"' n ++ ['"'] ++ s) = some (.quoted n, s) := by
  have happend : '"' :: doubled '"' n ++ ['"'] ++ s = '"' :: (doubled '"' n ++ '"' :: s) := by simp
  rw [happend, read, if_pos rfl, readQuoted_doubled n hs]
  simp [hn]

theorem read_str (v : Str) {s : Str} (hs : s.head? ≠ some '\'') :
    read ('\'' :: doubled '\'' v ++ ['\''] ++ s) = some (.str v, s) := by
  have happend : '\'' :: doubled '\'' v ++ ['\''] ++ s = '\'' :: (doubled '\'' v ++ '\'' :: s) := by
    simp
  rw [happend, read, if_neg (by decide), if_pos rfl, readQuoted_doubled v hs]
  rfl

end Multicorn.Sql
