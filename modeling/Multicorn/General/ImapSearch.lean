import Mathlib.Data.List.Infix

/-! Search criteria of an IMAP server: their words, the keys they are made of and what a key
says of a mail. -/
namespace Multicorn.ImapSearch

abbrev Str := List Char

scoped instance lawfulBEqStr : LawfulBEq Str := inferInstance

/-- A word or a quoted string. -/
inductive Tok
  | lparen
  | rparen
  | atom (s : Str)
  | str (s : Str)
  deriving DecidableEq

/-- The printable ASCII characters without the specials of the grammar. -/
def isAtomChar (c : Char) : Bool :=
  33 ≤ c.toNat && c.toNat ≤ 126 && !(['(', ')', '\x7b', '%', '*', '"', '\\', ']'].contains c)

/-- What may stand in a quoted string as it is. -/
def isQuotable (c : Char) : Bool :=
  c ≠ '"' && c ≠ '\\' && c ≠ '\r' && c ≠ '\n' && c ≠ Char.ofNat 0

inductive Mode
  | between
  | atom (s : Str)
  | quoted (s : Str)
  | escaped (s : Str)

def lexFrom : Mode → Str → Option (List Tok)
  | .between, [] => some []
  | .atom s, [] => some [.atom s]
  | .quoted _, [] => none
  | .escaped _, [] => none
  | .between, c :: rest =>
    if c = ' ' then lexFrom .between rest
    else if c = '(' then (lexFrom .between rest).map (.lparen :: ·)
    else if c = ')' then (lexFrom .between rest).map (.rparen :: ·)
    else if c = '"' then lexFrom (.quoted []) rest
    else if isAtomChar c then lexFrom (.atom [c]) rest
    else none
  | .atom s, c :: rest =>
    if c = ' ' then (lexFrom .between rest).map (.atom s :: ·)
    else if c = '(' then (lexFrom .between rest).map ([.atom s, .lparen] ++ ·)
    else if c = ')' then (lexFrom .between rest).map ([.atom s, .rparen] ++ ·)
    else if isAtomChar c then lexFrom (.atom (s ++ [c])) rest
    else none
  | .quoted s, c :: rest =>
    if c = '"' then (lexFrom .between rest).map (.str s :: ·)
    else if c = '\\' then lexFrom (.escaped s) rest
    else if isQuotable c then lexFrom (.quoted (s ++ [c])) rest
    else none
  | .escaped s, c :: rest =>
    if c = '"' ∨ c = '\\' then lexFrom (.quoted (s ++ [c])) rest else none

def lex (s : Str) : Option (List Tok) := lexFrom .between s

/-- `flag` is a system flag, written without its backslash. -/
inductive SearchKey
  | all
  | header (field value : Str)
  | text (value : Str)
  | flag (name : Str)
  | keyword (name : Str)
  | not (key : SearchKey)
  | or (a b : SearchKey)
  | and (keys : List SearchKey)

def systemFlags : List Str :=
  ["Seen".toList, "Flagged".toList, "Deleted".toList, "Draft".toList, "Recent".toList]

def upper (s : Str) : Str := s.map Char.toUpper

/-- The system flag a word stands for. -/
def systemFlag (word : Str) : Option Str := systemFlags.find? fun flag => upper flag == upper word

/-- A field name or a value, as a word or quoted. -/
def astring : List Tok → Option (Str × List Tok)
  | .atom s :: rest => some (s, rest)
  | .str s :: rest => some (s, rest)
  | _ => none

def word : List Tok → Option (Str × List Tok)
  | .atom s :: rest => some (s, rest)
  | _ => none

def addressFields : List Str := ["BCC".toList, "CC".toList, "FROM".toList, "TO".toList]

mutual

def parseKey : ℕ → List Tok → Option (SearchKey × List Tok)
  | 0, _ => none
  | fuel + 1, .lparen :: rest =>
    match parseKeys fuel rest with
    | some (key :: keys, .rparen :: rest) => some (.and (key :: keys), rest)
    | _ => none
  | fuel + 1, .atom s :: rest =>
    if upper s = "ALL".toList then some (.all, rest)
    else if upper s = "NOT".toList then
      (parseKey fuel rest).map fun p => (.not p.1, p.2)
    else if upper s = "OR".toList then
      match parseKey fuel rest with
      | none => none
      | some (a, rest) => (parseKey fuel rest).map fun p => (.or a p.1, p.2)
    else if upper s = "HEADER".toList then
      match astring rest with
      | none => none
      | some (field, rest) => (astring rest).map fun p => (.header field p.1, p.2)
    else if upper s = "TEXT".toList then (astring rest).map fun p => (.text p.1, p.2)
    else if upper s ∈ addressFields then (astring rest).map fun p => (.header (upper s) p.1, p.2)
    else if upper s = "KEYWORD".toList then (word rest).map fun p => (.keyword p.1, p.2)
    else (systemFlag s).map fun flag => (.flag flag, rest)
  | _, _ => none

/-- Keys up to a closing parenthesis or the end. -/
def parseKeys : ℕ → List Tok → Option (List SearchKey × List Tok)
  | 0, _ => none
  | _ + 1, [] => some ([], [])
  | _ + 1, .rparen :: rest => some ([], .rparen :: rest)
  | fuel + 1, toks =>
    match parseKey fuel toks with
    | none => none
    | some (key, rest) => (parseKeys fuel rest).map fun p => (key :: p.1, p.2)

end

/-- A criterion is a run of one or more keys that must all hold. Every key takes a word, so twice
their number is enough fuel. -/
def parse (criterion : Str) : Option (List SearchKey) :=
  match lex criterion with
  | none => none
  | some toks =>
    match parseKeys (2 * toks.length + 1) toks with
    | some (key :: keys, []) => some (key :: keys)
    | _ => none

/-- What a server knows of a mail; `header` is the content of a field. -/
structure Mail where
  header : Str → Str
  text : Str
  flags : List Str

/-- `s` contains `value` when letter case is folded. -/
def Contains (fold : Char → Char) (s value : Str) : Prop := value.map fold <:+: s.map fold

mutual

def SearchKey.Holds (fold : Char → Char) (m : Mail) : SearchKey → Prop
  | .all => True
  | .header field value => Contains fold (m.header field) value
  | .text value => Contains fold m.text value
  | .flag name => '\\' :: name ∈ m.flags
  | .keyword name => name ∈ m.flags
  | .not key => ¬ key.Holds fold m
  | .or a b => a.Holds fold m ∨ b.Holds fold m
  | .and keys => SearchKey.AllHold fold m keys

def SearchKey.AllHold (fold : Char → Char) (m : Mail) : List SearchKey → Prop
  | [] => True
  | key :: keys => key.Holds fold m ∧ SearchKey.AllHold fold m keys

end

/-- The mail satisfies a criterion; one that cannot be read is refused. -/
def Satisfies (fold : Char → Char) (m : Mail) (criterion : Str) : Prop :=
  ∃ keys, parse criterion = some keys ∧ SearchKey.AllHold fold m keys

/-! Reading a criterion from its parts. -/

/-- A word ends here. -/
def Ends (rest : Str) : Prop := rest = [] ∨ ∃ c r, rest = c :: r ∧ (c = ' ' ∨ c = ')')

theorem lexFrom_append {s rest : Str} {mode : Mode} {toks : List Tok}
    (h : lexFrom mode s = some toks) (hrest : Ends rest) :
    lexFrom mode (s ++ rest) = (lexFrom .between rest).map (toks ++ ·) := by
  induction s generalizing mode toks with
  | nil =>
    cases mode with
    | between =>
      obtain rfl := Option.some.inj h
      simp
    | atom s =>
      obtain rfl := Option.some.inj h
      obtain rfl | ⟨c, r, rfl, rfl | rfl⟩ := hrest <;> simp [lexFrom, Function.comp_def]
    | quoted s => cases h
    | escaped s => cases h
  | cons c s ih =>
    rw [List.cons_append]
    cases mode <;> simp only [lexFrom] at h ⊢ <;> split_ifs at h ⊢ <;>
      first
      | exact ih h
      | cases h
      | (obtain ⟨toks', h', rfl⟩ := Option.map_eq_some_iff.mp h
         rw [ih h']
         simp [Function.comp_def])

theorem lex_append {s rest : Str} {toks : List Tok} (h : lex s = some toks) (hrest : Ends rest) :
    lex (s ++ rest) = (lex rest).map (toks ++ ·) := lexFrom_append h hrest

theorem lex_space (rest : Str) : lex (' ' :: rest) = lex rest := by
  simp [lex, lexFrom]

theorem ends_space (rest : Str) : Ends (' ' :: rest) := .inr ⟨' ', rest, rfl, .inl rfl⟩

theorem ends_rparen (rest : Str) : Ends (')' :: rest) := .inr ⟨')', rest, rfl, .inr rfl⟩

/-- Two parts with a blank between them. -/
theorem lex_words {s t : Str} {toks toks' : List Tok} (hs : lex s = some toks)
    (ht : lex t = some toks') : lex (s ++ ' ' :: t) = some (toks ++ toks') := by
  rw [lex_append hs (ends_space t), lex_space, ht]
  rfl

/-- A word of the grammar. -/
def IsWord (s : Str) : Prop := s ≠ [] ∧ ∀ c ∈ s, isAtomChar c = true

theorem isWord_of_all {s : Str} (h : (s ≠ [] && s.all isAtomChar) = true) : IsWord s := by
  obtain ⟨hne, hall⟩ : s ≠ [] ∧ s.all isAtomChar = true := by simpa using h
  exact ⟨hne, fun c hc => List.all_eq_true.mp hall c hc⟩

theorem isAtomChar_ne {c : Char} (h : isAtomChar c = true) :
    c ≠ ' ' ∧ c ≠ '(' ∧ c ≠ ')' ∧ c ≠ '"' := by
  refine ⟨?_, ?_, ?_, ?_⟩ <;>
    · rintro rfl
      exact absurd h (by decide)

theorem lexFrom_atom {w : Str} (h : ∀ c ∈ w, isAtomChar c = true) (s : Str) :
    lexFrom (.atom s) w = some [.atom (s ++ w)] := by
  induction w generalizing s with
  | nil => simp [lexFrom]
  | cons c w ih =>
    have hc := h c List.mem_cons_self
    obtain ⟨hsp, hl, hr, -⟩ := isAtomChar_ne hc
    have hrest := ih (fun d hd => h d (List.mem_cons_of_mem _ hd)) (s ++ [c])
    simp [lexFrom, hsp, hl, hr, hc, hrest]

theorem lex_word {w : Str} (h : IsWord w) : lex w = some [.atom w] := by
  obtain ⟨hne, hw⟩ := h
  obtain ⟨c, w, rfl⟩ := List.exists_cons_of_ne_nil hne
  have hc := hw c List.mem_cons_self
  obtain ⟨hsp, hl, hr, hq⟩ := isAtomChar_ne hc
  have hrest := lexFrom_atom (fun d hd => hw d (List.mem_cons_of_mem _ hd)) [c]
  simp [lex, lexFrom, hsp, hl, hr, hq, hc, hrest]

/-- A value that may be quoted as it is. -/
def Quotable (s : Str) : Prop := ∀ c ∈ s, isQuotable c = true

def quoted (s : Str) : Str := '"' :: (s ++ ['"'])

theorem lexFrom_quoted {v : Str} (h : Quotable v) (s : Str) :
    lexFrom (.quoted s) (v ++ ['"']) = some [.str (s ++ v)] := by
  induction v generalizing s with
  | nil => simp [lexFrom]
  | cons c v ih =>
    have hc := h c List.mem_cons_self
    have hquote : c ≠ '"' := by
      rintro rfl
      exact absurd hc (by decide)
    have hback : c ≠ '\\' := by
      rintro rfl
      exact absurd hc (by decide)
    have hrest := ih (fun d hd => h d (List.mem_cons_of_mem _ hd)) (s ++ [c])
    simp [lexFrom, hquote, hback, hc, hrest]

theorem lex_quoted {v : Str} (h : Quotable v) : lex (quoted v) = some [.str v] := by
  have hv := lexFrom_quoted h []
  simpa [lex, quoted, lexFrom] using hv

/-- The tokens are one key in front of any others. -/
def ReadsKey (toks : List Tok) (key : SearchKey) : Prop :=
  ∃ c, c + 1 ≤ 2 * toks.length ∧
    ∀ fuel rest, parseKey (fuel + c) (toks ++ rest) = some (key, rest)

/-- Here a run of keys stops. -/
def Stops (rest : List Tok) : Prop := rest = [] ∨ ∃ r, rest = .rparen :: r

def ReadsKeys (toks : List Tok) (keys : List SearchKey) : Prop :=
  ∃ c, c ≤ 2 * toks.length + 1 ∧
    ∀ fuel rest, Stops rest → parseKeys (fuel + c) (toks ++ rest) = some (keys, rest)

theorem readsKeys_nil : ReadsKeys [] [] := by
  refine ⟨1, by decide, fun fuel rest hrest => ?_⟩
  obtain rfl | ⟨r, rfl⟩ := hrest <;> simp [parseKeys]

theorem ReadsKey.cons {toks toks' : List Tok} {key : SearchKey} {keys : List SearchKey}
    (h : ReadsKey toks key) (hs : ReadsKeys toks' keys) : ReadsKeys (toks ++ toks') (key :: keys) := by
  obtain ⟨c, hc, hread⟩ := h
  obtain ⟨c', hc', hreads⟩ := hs
  refine ⟨c + c' + 1, ?_, fun fuel rest hrest => ?_⟩
  · rw [List.length_append]
    omega
  have hkey : parseKey (fuel + (c + c')) (toks ++ (toks' ++ rest)) = some (key, toks' ++ rest) := by
    rw [show fuel + (c + c') = fuel + c' + c by omega]
    exact hread _ _
  have hkeys : parseKeys (fuel + (c + c')) (toks' ++ rest) = some (keys, rest) := by
    rw [show fuel + (c + c') = fuel + c + c' by omega]
    exact hreads _ _ hrest
  rw [show fuel + (c + c' + 1) = fuel + (c + c') + 1 by omega, List.append_assoc]
  cases htoks : toks ++ (toks' ++ rest) with
  | nil =>
    rw [htoks] at hkey
    have : fuel + (c + c') ≠ 0 := by
      intro h0
      rw [h0] at hkey
      simp [parseKey] at hkey
    obtain ⟨n, hn⟩ := Nat.exists_eq_succ_of_ne_zero this
    rw [hn] at hkey
    simp [parseKey] at hkey
  | cons tok r =>
    rw [htoks] at hkey
    cases tok with
    | rparen =>
      cases hn : fuel + (c + c') with
      | zero => simp [hn, parseKey] at hkey
      | succ n => simp [hn, parseKey] at hkey
    | lparen => simp [parseKeys, hkey, hkeys]
    | atom s => simp [parseKeys, hkey, hkeys]
    | str s => simp [parseKeys, hkey, hkeys]

theorem ReadsKeys.parens {toks : List Tok} {keys : List SearchKey} (h : ReadsKeys toks keys)
    (hne : keys ≠ []) : ReadsKey (.lparen :: (toks ++ [.rparen])) (.and keys) := by
  obtain ⟨c, hc, hreads⟩ := h
  obtain ⟨key, keys, rfl⟩ := List.exists_cons_of_ne_nil hne
  refine ⟨c + 1, ?_, fun fuel rest => ?_⟩
  · simp only [List.length_cons, List.length_append, List.length_nil]
    omega
  have hbody := hreads fuel (.rparen :: rest) (.inr ⟨rest, rfl⟩)
  rw [show fuel + (c + 1) = fuel + c + 1 by omega]
  simp [parseKey, hbody]

theorem ReadsKey.not {toks : List Tok} {key : SearchKey} (h : ReadsKey toks key) :
    ReadsKey (.atom "NOT".toList :: toks) (.not key) := by
  obtain ⟨c, hc, hread⟩ := h
  refine ⟨c + 1, ?_, fun fuel rest => ?_⟩
  · rw [List.length_cons]
    omega
  have hkey := hread fuel rest
  rw [show fuel + (c + 1) = fuel + c + 1 by omega, List.cons_append, parseKey]
  simp [upper, hkey]

theorem ReadsKey.or {toks toks' : List Tok} {a b : SearchKey} (ha : ReadsKey toks a)
    (hb : ReadsKey toks' b) : ReadsKey (.atom "OR".toList :: (toks ++ toks')) (.or a b) := by
  obtain ⟨c, hc, hreada⟩ := ha
  obtain ⟨c', hc', hreadb⟩ := hb
  refine ⟨c + c' + 1, ?_, fun fuel rest => ?_⟩
  · rw [List.length_cons, List.length_append]
    omega
  have hfirst : parseKey (fuel + (c + c')) (toks ++ (toks' ++ rest)) = some (a, toks' ++ rest) := by
    rw [show fuel + (c + c') = fuel + c' + c by omega]
    exact hreada _ _
  have hsecond : parseKey (fuel + (c + c')) (toks' ++ rest) = some (b, rest) := by
    rw [show fuel + (c + c') = fuel + c + c' by omega]
    exact hreadb _ _
  rw [show fuel + (c + c' + 1) = fuel + (c + c') + 1 by omega, List.cons_append, parseKey]
  simp [upper, hfirst, hsecond]

theorem readsKey_header {field : Tok} {name : Str} (hfield : astring [field] = some (name, []))
    (value : Str) :
    ReadsKey [.atom "HEADER".toList, field, .str value] (.header name value) := by
  refine ⟨1, by simp, fun fuel rest => ?_⟩
  cases field <;> simp_all [parseKey, upper, astring]

theorem readsKey_text (value : Str) : ReadsKey [.atom "TEXT".toList, .str value] (.text value) := by
  refine ⟨1, by simp, fun fuel rest => ?_⟩
  simp [parseKey, upper, astring]

theorem readsKey_address {field : Str} (h : field ∈ addressFields) (value : Str) :
    ReadsKey [.atom field, .str value] (.header field value) := by
  refine ⟨1, by simp, fun fuel rest => ?_⟩
  simp only [addressFields, List.mem_cons, List.not_mem_nil, or_false] at h
  rcases h with rfl | rfl | rfl | rfl <;> simp [parseKey, upper, astring, addressFields]

theorem readsKey_keyword (name : Str) :
    ReadsKey [.atom "KEYWORD".toList, .atom name] (.keyword name) := by
  refine ⟨1, by simp, fun fuel rest => ?_⟩
  simp [parseKey, upper, word, addressFields]

/-! What a text denotes. -/

def DenotesKey (s : Str) (key : SearchKey) : Prop := ∃ toks, lex s = some toks ∧ ReadsKey toks key

/-- A text without a key denotes nothing. -/
def Denotes (s : Str) (keys : List SearchKey) : Prop :=
  keys ≠ [] ∧ ∃ toks, lex s = some toks ∧ ReadsKeys toks keys

/-- A text that denotes keys is read as these. -/
theorem Denotes.parse {s : Str} {keys : List SearchKey} (h : Denotes s keys) :
    parse s = some keys := by
  obtain ⟨hne, toks, hlex, c, hc, hreads⟩ := h
  obtain ⟨key, keys, rfl⟩ := List.exists_cons_of_ne_nil hne
  have hrun := hreads (2 * toks.length + 1 - c) [] (.inl rfl)
  rw [show 2 * toks.length + 1 - c + c = 2 * toks.length + 1 by omega, List.append_nil] at hrun
  rw [ImapSearch.parse, hlex]
  simp [hrun]

/-- A server refuses a criterion without a key. -/
theorem parse_nil : parse [] = none := rfl

theorem DenotesKey.denotes {s : Str} {key : SearchKey} (h : DenotesKey s key) : Denotes s [key] := by
  obtain ⟨toks, hlex, hread⟩ := h
  refine ⟨List.cons_ne_nil _ _, toks, hlex, ?_⟩
  simpa using hread.cons readsKeys_nil

theorem DenotesKey.cons {s t : Str} {key : SearchKey} {keys : List SearchKey}
    (h : DenotesKey s key) (ht : Denotes t keys) : Denotes (s ++ ' ' :: t) (key :: keys) := by
  obtain ⟨toks, hlex, hread⟩ := h
  obtain ⟨-, toks', hlex', hreads⟩ := ht
  exact ⟨List.cons_ne_nil _ _, toks ++ toks', lex_words hlex hlex', hread.cons hreads⟩

def parens (s : Str) : Str := '(' :: (s ++ [')'])

theorem lex_parens {s : Str} {toks : List Tok} (h : lex s = some toks) :
    lex (parens s) = some (.lparen :: (toks ++ [.rparen])) := by
  have hclose : lex (s ++ [')']) = some (toks ++ [.rparen]) := by
    rw [lex_append h (ends_rparen [])]
    simp [lex, lexFrom]
  have hopen : lex (parens s) = (lex (s ++ [')'])).map (.lparen :: ·) := by
    simp [lex, lexFrom, parens]
  rw [hopen, hclose]
  rfl

theorem Denotes.parens {s : Str} {keys : List SearchKey} (h : Denotes s keys) :
    DenotesKey (parens s) (.and keys) := by
  obtain ⟨hne, toks, hlex, hreads⟩ := h
  exact ⟨_, lex_parens hlex, hreads.parens hne⟩

theorem isWord_not : IsWord "NOT".toList := isWord_of_all (by decide)

theorem isWord_or : IsWord "OR".toList := isWord_of_all (by decide)

theorem DenotesKey.not {s : Str} {key : SearchKey} (h : DenotesKey s key) :
    DenotesKey ("NOT".toList ++ ' ' :: s) (.not key) := by
  obtain ⟨toks, hlex, hread⟩ := h
  exact ⟨_, lex_words (lex_word isWord_not) hlex, hread.not⟩

theorem DenotesKey.or {s t : Str} {a b : SearchKey} (ha : DenotesKey s a) (hb : DenotesKey t b) :
    DenotesKey (ImapSearch.parens ("OR".toList ++ ' ' :: (s ++ ' ' :: t))) (.and [.or a b]) := by
  obtain ⟨toks, hlex, hread⟩ := ha
  obtain ⟨toks', hlex', hread'⟩ := hb
  have hword : lex ("OR".toList ++ ' ' :: (s ++ ' ' :: t)) =
      some (.atom "OR".toList :: (toks ++ toks')) :=
    lex_words (lex_word isWord_or) (lex_words hlex hlex')
  have hkeys : ReadsKeys (.atom "OR".toList :: (toks ++ toks')) [.or a b] := by
    simpa using (hread.or hread').cons readsKeys_nil
  exact Denotes.parens ⟨List.cons_ne_nil _ _, _, hword, hkeys⟩

theorem denotesKey_header {field value : Str} (hf : IsWord field) (hv : Quotable value) :
    DenotesKey ("HEADER".toList ++ ' ' :: (field ++ ' ' :: quoted value)) (.header field value) := by
  have hheader : IsWord "HEADER".toList := isWord_of_all (by decide)
  exact ⟨_, lex_words (lex_word hheader) (lex_words (lex_word hf) (lex_quoted hv)),
    readsKey_header rfl value⟩

theorem denotesKey_text {value : Str} (hv : Quotable value) :
    DenotesKey ("TEXT".toList ++ ' ' :: quoted value) (.text value) := by
  have htext : IsWord "TEXT".toList := isWord_of_all (by decide)
  exact ⟨_, lex_words (lex_word htext) (lex_quoted hv), readsKey_text value⟩

theorem denotesKey_address {field value : Str} (hf : field ∈ addressFields) (hv : Quotable value) :
    DenotesKey (field ++ ' ' :: quoted value) (.header field value) := by
  have hword : IsWord field := by
    simp only [addressFields, List.mem_cons, List.not_mem_nil, or_false] at hf
    rcases hf with rfl | rfl | rfl | rfl
    · exact isWord_of_all (by decide)
    · exact isWord_of_all (by decide)
    · exact isWord_of_all (by decide)
    · exact isWord_of_all (by decide)
  exact ⟨_, lex_words (lex_word hword) (lex_quoted hv), readsKey_address hf value⟩

theorem denotesKey_keyword {name : Str} (hn : IsWord name) :
    DenotesKey ("KEYWORD".toList ++ ' ' :: name) (.keyword name) := by
  have hkeyword : IsWord "KEYWORD".toList := isWord_of_all (by decide)
  exact ⟨_, lex_words (lex_word hkeyword) (lex_word hn), readsKey_keyword name⟩

end Multicorn.ImapSearch
