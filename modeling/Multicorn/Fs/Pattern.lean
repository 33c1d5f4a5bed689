import Multicorn.Fs.Os

/-! Patterns of file names: the tokenizer, the regular expressions built from its tokens, and
the format string the same pattern is for `vformat`. -/
namespace Multicorn.Fs

/-- The messages of the `ValueError`s a pattern is refused with. -/
inductive PatternError
  | singleBrace
  | unmatchedBrace
  | emptyPart (pattern : Str)
  | invalidName (token : Str)
  | repeatedName (token pattern : Str)
  deriving DecidableEq

/-- `raising` stands for the error the generator raises when it is asked for the next token. -/
inductive Token
  | property (name : Str)
  | separator
  | literal (c : Char)
  | raising (e : PatternError)
  deriving DecidableEq

/-- The loop of `_tokenize_pattern`. `field` is the name read so far inside a field. -/
def tokenizeFrom (prev : Option Char) (field : Option Str) : Str → List Token
  | [] => if field.isSome then [.raising .unmatchedBrace] else [.separator]
  | c :: rest =>
    match field with
    | some name =>
      if c = '}' then .property name :: tokenizeFrom (some c) none rest
      else tokenizeFrom (some c) (some (name ++ [c])) rest
    | none =>
      if c = '/' then .separator :: tokenizeFrom (some c) none rest
      else if (c = '{' ∨ c = '}') ∧ rest.head? = some c then tokenizeFrom (some c) none rest
      else if c = '}' ∧ prev ≠ some c then [.raising .singleBrace]
      else if c = '{' ∧ prev ≠ some c then tokenizeFrom (some c) (some []) rest
      else .literal c :: tokenizeFrom (some c) none rest

def tokenizePattern (pattern : Str) : List Token := tokenizeFrom none none pattern

/-- A piece of a regular expression: an escaped character or `(?P<name>.*)`. -/
inductive Atom
  | lit (c : Char)
  | any (name : Str)
  deriving DecidableEq

/-- The expression `^...$` of one part of the pattern. -/
abbrev Part := List Atom

def Part.properties (part : Part) : List Str :=
  part.filterMap fun
    | .any name => some name
    | .lit _ => none

/-- The loop of `_parse_pattern`. -/
def parseFrom (isidentifier : Str → Bool) (pattern : Str) (parts : List Part) (next : Part)
    (all : List Str) : List Token → Except PatternError (List Part)
  | [] => .ok parts
  | .raising e :: _ => .error e
  | .separator :: rest =>
    if next = [] then .error (.emptyPart pattern)
    else parseFrom isidentifier pattern (parts ++ [next]) [] all rest
  | .property name :: rest =>
    if isidentifier name = false then .error (.invalidName name)
    else if name ∈ all then .error (.repeatedName name pattern)
    else parseFrom isidentifier pattern parts (next ++ [.any name]) (name :: all) rest
  | .literal c :: rest => parseFrom isidentifier pattern parts (next ++ [.lit c]) all rest

def parsePattern (isidentifier : Str → Bool) (pattern : Str) : Except PatternError (List Part) :=
  parseFrom isidentifier pattern [] [] [] (tokenizePattern pattern)

/-- `match` of a part: each `.*` takes as much as it can, up to a newline, and gives back what
the rest needs. `$` also matches before a newline at the end. -/
def matchPart : Part → Str → Option (List (Str × Str))
  | [], s => if s = [] ∨ s = ['\n'] then some [] else none
  | .lit c :: part, s =>
    match s with
    | d :: rest => if c = d then matchPart part rest else none
    | [] => none
  | .any name :: part, s =>
    (List.range ((s.takeWhile (· ≠ '\n')).length + 1)).reverse.findSome? fun k =>
      (matchPart part (s.drop k)).map ((name, s.take k) :: ·)

/-- How `vformat` fails. `unsupported` is a field with a conversion, a format, an attribute
or an index, which is not modelled. -/
inductive FormatError
  | single
  | expectedBrace
  | keyError (name : Str)
  | indexError
  | unsupported
  deriving DecidableEq

def fieldValue (get : Str → Option Str) (name : Str) : Except FormatError Str :=
  if name.all Char.isDigit then .error .indexError
  else
    match get name with
    | some value => .ok value
    | none => .error (.keyError name)

/-- `vformat` of a string of literals and plain fields. -/
def vformatFrom (get : Str → Option Str) (field : Option Str) : Str → Except FormatError Str
  | [] => if field.isSome then .error .expectedBrace else .ok []
  | c :: rest =>
    match field with
    | some name =>
      if c = '}' then do
        let value ← fieldValue get name
        let text ← vformatFrom get none rest
        return value ++ text
      else if c ∈ ['{', '[', '.', '!', ':'] then .error .unsupported
      else vformatFrom get (some (name ++ [c])) rest
    | none =>
      if c = '{' ∨ c = '}' then
        match rest with
        | [] => .error .single
        | d :: rest' =>
          if d = c then do
            let text ← vformatFrom get none rest'
            return c :: text
          else if c = '}' then .error .single
          else vformatFrom get (some []) (d :: rest')
      else do
        let text ← vformatFrom get none rest
        return c :: text

def vformat (pattern : Str) (get : Str → Option Str) : Except FormatError Str :=
  vformatFrom get none pattern

/-- No brace stands next to one of its kind. -/
def NoDoubledBraces : Str → Prop
  | c :: d :: rest => ¬ ((c = '{' ∨ c = '}') ∧ c = d) ∧ NoDoubledBraces (d :: rest)
  | _ => True

/-- What a part of the pattern becomes under an assignment of values. -/
def Part.text (get : Str → Option Str) (part : Part) : Str :=
  part.flatMap fun
    | .lit c => [c]
    | .any name => (get name).getD []

def Token.text (get : Str → Option Str) : Token → Str
  | .property name => (get name).getD []
  | .separator => ['/']
  | .literal c => [c]
  | .raising _ => []

/-- What is known of an identifier: it is not empty, does not start with a digit, and none of
the characters that have a meaning in a field stands in it. -/
def PlainName (name : Str) : Prop :=
  name.all Char.isDigit = false ∧ ∀ c ∈ name, c ∉ ['{', '}', '[', '.', '!', ':', '/']

section Text

variable {get : Str → Option Str}

@[simp] theorem Part.text_lit (c : Char) (part : Part) :
    Part.text get (.lit c :: part) = c :: Part.text get part := rfl

@[simp] theorem Part.text_any (name : Str) (part : Part) :
    Part.text get (.any name :: part) = (get name).getD [] ++ Part.text get part := rfl

/-- A part formats to the name it matched, but for a newline at the end. -/
theorem text_of_matchPart {part : Part} {s : Str} {props : List (Str × Str)}
    (h : matchPart part s = some props) (hget : ∀ p ∈ props, get p.1 = some p.2) :
    s = Part.text get part ∨ s = Part.text get part ++ ['\n'] := by
  induction part generalizing s props with
  | nil =>
    unfold matchPart at h
    split_ifs at h with hs
    exact hs
  | cons atom part ih =>
    cases atom with
    | lit c =>
      cases s with
      | nil => cases h
      | cons d rest =>
        unfold matchPart at h
        simp only at h
        split_ifs at h with hc
        subst hc
        rcases ih h hget with hrest | hrest
        · left
          rw [Part.text_lit, ← hrest]
        · right
          rw [Part.text_lit, List.cons_append, ← hrest]
    | any name =>
      unfold matchPart at h
      obtain ⟨k, -, hk⟩ := List.exists_of_findSome?_eq_some h
      obtain ⟨props', hmatch, rfl⟩ := Option.map_eq_some_iff.mp hk
      rw [List.forall_mem_cons] at hget
      have hsplit : s = s.take k ++ s.drop k := (List.take_append_drop k s).symm
      rw [Part.text_any, hget.1]
      rcases ih hmatch hget.2 with hrest | hrest
      · left
        rw [← hrest]
        exact hsplit
      · right
        rw [Option.getD_some, List.append_assoc, ← hrest]
        exact hsplit

theorem keys_of_matchPart {part : Part} {s : Str} {props : List (Str × Str)}
    (h : matchPart part s = some props) : props.map (·.1) = part.properties := by
  induction part generalizing s props with
  | nil =>
    unfold matchPart at h
    split_ifs at h
    cases h
    rfl
  | cons atom part ih =>
    cases atom with
    | lit c =>
      cases s with
      | nil => cases h
      | cons d rest =>
        unfold matchPart at h
        simp only at h
        split_ifs at h
        exact ih h
    | any name =>
      unfold matchPart at h
      obtain ⟨k, -, hk⟩ := List.exists_of_findSome?_eq_some h
      obtain ⟨props', hmatch, rfl⟩ := Option.map_eq_some_iff.mp hk
      rw [List.map_cons, ih hmatch]
      rfl

/-- The parser lets no error of the tokenizer pass, and takes identifiers only. -/
theorem tokens_of_parseFrom {isidentifier : Str → Bool} {pattern : Str} {tokens : List Token}
    {parts : List Part} {next : Part} {all : List Str} {result : List Part}
    (h : parseFrom isidentifier pattern parts next all tokens = .ok result) :
    (∀ e, .raising e ∉ tokens) ∧ ∀ name, .property name ∈ tokens → isidentifier name = true := by
  induction tokens generalizing parts next all with
  | nil => simp
  | cons token tokens ih =>
    cases token with
    | raising e => cases h
    | separator =>
      simp only [parseFrom] at h
      split_ifs at h
      simpa using ih h
    | property name =>
      simp only [parseFrom] at h
      split_ifs at h with hid
      have hname : isidentifier name = true := by simpa using hid
      obtain ⟨hraise, hnames⟩ := ih h
      refine ⟨by simpa using hraise, fun n hn => ?_⟩
      rcases List.mem_cons.mp hn with hn | hn
      · cases hn
        exact hname
      · exact hnames n hn
    | literal c => simpa using ih h

/-- A field that is closed becomes a property whose name goes on from what was read. -/
theorem property_of_field {s : Str} {prev : Option Char} {name : Str}
    (h : ∀ e, .raising e ∉ tokenizeFrom prev (some name) s) :
    ∃ more, .property (name ++ more) ∈ tokenizeFrom prev (some name) s := by
  induction s generalizing prev name with
  | nil =>
    have hraise := h .unmatchedBrace
    simp [tokenizeFrom] at hraise
  | cons c rest ih =>
    simp only [tokenizeFrom] at h ⊢
    split_ifs at h ⊢ with hc
    · exact ⟨[], by simp⟩
    · obtain ⟨more, hmore⟩ := ih h
      exact ⟨c :: more, by simpa using hmore⟩

private theorem NoDoubledBraces.step {prev : Option Char} {c : Char} {rest : Str}
    (h : NoDoubledBraces (prev.toList ++ c :: rest)) :
    (∀ p, prev = some p → (c = '{' ∨ c = '}') → p ≠ c) ∧
      NoDoubledBraces ((some c).toList ++ rest) := by
  cases prev with
  | none => exact ⟨fun p hp => (by cases hp), h⟩
  | some p =>
    obtain ⟨hpair, hrest⟩ := h
    refine ⟨fun q hq hbrace he => hpair ?_, hrest⟩
    cases hq
    exact ⟨he ▸ hbrace, he⟩

private theorem NoDoubledBraces.head_ne {c : Char} {rest : Str}
    (h : NoDoubledBraces ((some c).toList ++ rest)) (hb : c = '{' ∨ c = '}') :
    rest.head? ≠ some c := by
  cases rest with
  | nil => simp
  | cons d rest =>
    intro hd
    obtain rfl : d = c := by simpa using hd
    exact h.1 ⟨hb, rfl⟩

theorem vformatFrom_char {c : Char} (h : ¬ (c = '{' ∨ c = '}')) (rest : Str) :
    vformatFrom get none (c :: rest) = (vformatFrom get none rest).map (c :: ·) := by
  cases rest with
  | nil => simp [vformatFrom, h, bind, Except.bind, pure, Except.pure, Except.map]
  | cons d rest =>
    simp only [vformatFrom, h, if_false, bind, Except.bind, pure, Except.pure, Except.map]

/-- Formatting goes on after a text that is formatted to its end. -/
theorem vformatFrom_append {field : Option Str} {a t : Str}
    (h : vformatFrom get field a = .ok t) (b : Str) :
    vformatFrom get field (a ++ b) = (vformatFrom get none b).map (t ++ ·) := by
  have hid : ∀ x : Except FormatError Str, x = x.map ([] ++ ·) := by
    intro x
    cases x <;> rfl
  fun_induction vformatFrom get field a generalizing t with
  | case1 => cases h
  | case2 field hfield =>
    cases h
    obtain rfl : field = none := by simpa using hfield
    exact hid _
  | case3 rest name ih =>
    cases hvalue : fieldValue get name with
    | error e =>
      rw [hvalue] at h
      cases h
    | ok value =>
      cases hrest : vformatFrom get none rest with
      | error e =>
        rw [hvalue, hrest] at h
        cases h
      | ok text =>
        rw [hvalue, hrest] at h
        obtain rfl : value ++ text = t := Except.ok.inj h
        rw [List.cons_append, vformatFrom, if_pos rfl, hvalue, ih hrest]
        cases vformatFrom get none b with
        | error e => rfl
        | ok more =>
          show Except.ok (value ++ (text ++ more)) = Except.ok (value ++ text ++ more)
          rw [List.append_assoc]
  | case4 => cases h
  | case5 c rest name hc hspecial ih =>
    rw [List.cons_append, vformatFrom]
    simp only [hc, hspecial, if_false]
    exact ih h
  | case6 => cases h
  | case7 c rest hc ih =>
    cases hrest : vformatFrom get none rest with
    | error e =>
      rw [hrest] at h
      cases h
    | ok text =>
      rw [hrest] at h
      obtain rfl : c :: text = t := Except.ok.inj h
      rw [List.cons_append, List.cons_append, vformatFrom]
      simp only [hc, if_true, ih hrest]
      cases vformatFrom get none b <;> rfl
  | case8 => cases h
  | case9 c hc d rest hd hclose ih =>
    obtain rfl : c = '{' := hc.resolve_right hclose
    have hrest := ih h
    rw [List.cons_append] at hrest
    rw [List.cons_append, List.cons_append, vformatFrom]
    simp only [true_or, hd, hclose, if_true, if_false]
    exact hrest
  | case10 c rest hc ih =>
    cases hrest : vformatFrom get none rest with
    | error e =>
      rw [hrest] at h
      cases h
    | ok text =>
      rw [hrest] at h
      obtain rfl : c :: text = t := Except.ok.inj h
      rw [List.cons_append, vformatFrom_char hc, ih hrest]
      cases vformatFrom get none b <;> rfl
/-- Without doubled braces, the tokenizer and `vformat` read a pattern in the same way. -/
theorem vformatFrom_eq {s : Str} {prev : Option Char} {field : Option Str}
    (hdoubled : NoDoubledBraces (prev.toList ++ s))
    (hraise : ∀ e, .raising e ∉ tokenizeFrom prev field s)
    (hplain : ∀ name, .property name ∈ tokenizeFrom prev field s → PlainName name)
    (hget : ∀ name, .property name ∈ tokenizeFrom prev field s → (get name).isSome) :
    ∃ tokens, tokenizeFrom prev field s = tokens ++ [.separator] ∧
      vformatFrom get field s = .ok (tokens.flatMap (Token.text get)) := by
  induction s generalizing prev field with
  | nil =>
    cases field with
    | none => exact ⟨[], rfl, rfl⟩
    | some name => exact absurd (List.mem_singleton_self _) (hraise .unmatchedBrace)
  | cons c rest ih =>
    obtain ⟨hprev, hrest⟩ := hdoubled.step
    cases field with
    | some name =>
      by_cases hc : c = '}'
      · simp only [tokenizeFrom, if_pos hc, List.mem_cons, not_or] at hraise hplain hget ⊢
        obtain ⟨tokens, htokens, hformat⟩ := ih hrest (fun e => (hraise e).2)
          (fun n hn => hplain n (.inr hn)) (fun n hn => hget n (.inr hn))
        obtain ⟨value, hvalue⟩ := Option.isSome_iff_exists.mp (hget name (.inl rfl))
        have hdigits := (hplain name (.inl rfl)).1
        refine ⟨.property name :: tokens, by rw [htokens]; rfl, ?_⟩
        simp [vformatFrom, hc, fieldValue, hdigits, hvalue, hformat, Token.text, bind, Except.bind,
          pure, Except.pure]
      · simp only [tokenizeFrom, if_neg hc] at hraise hplain hget ⊢
        obtain ⟨more, hmore⟩ := property_of_field hraise
        have hchar : c ∉ ['{', '[', '.', '!', ':'] := by
          have hname := (hplain _ hmore).2 c (by simp)
          simp only [List.mem_cons, List.not_mem_nil, or_false, not_or] at hname ⊢
          tauto
        simp only [vformatFrom, if_neg hc, if_neg hchar]
        exact ih hrest hraise hplain hget
    | none =>
      by_cases hb : c = '{' ∨ c = '}'
      · have hhead : rest.head? ≠ some c := hrest.head_ne hb
        have hprev' : prev ≠ some c := fun h => hprev c h hb rfl
        have hslash : c ≠ '/' := by
          rcases hb with rfl | rfl <;> decide
        rcases hb with rfl | rfl
        · simp only [tokenizeFrom, if_neg hslash, hhead, hprev', and_false, if_false, ne_eq,
            not_false_eq_true, and_true, if_true] at hraise hplain hget ⊢
          obtain ⟨tokens, htokens, hformat⟩ := ih hrest (by simpa using hraise)
            (by simpa using hplain) (by simpa using hget)
          refine ⟨tokens, by simpa using htokens, ?_⟩
          cases rest with
          | nil => simp [tokenizeFrom] at hraise
          | cons d rest =>
            have hd : d ≠ '{' := fun h => hhead (by rw [h]; rfl)
            simpa [vformatFrom, hd] using hformat
        · simp [tokenizeFrom, hhead, hprev'] at hraise
      · have htok : tokenizeFrom prev none (c :: rest) =
            (if c = '/' then .separator else .literal c) :: tokenizeFrom (some c) none rest := by
          obtain ⟨hopen, hclose⟩ := not_or.mp hb
          by_cases hslash : c = '/' <;> simp [tokenizeFrom, hslash, hopen, hclose]
        rw [htok] at hraise hplain hget ⊢
        obtain ⟨tokens, htokens, hformat⟩ := ih hrest
          (fun e he => hraise e (List.mem_cons_of_mem _ he))
          (fun n hn => hplain n (List.mem_cons_of_mem _ hn))
          (fun n hn => hget n (List.mem_cons_of_mem _ hn))
        refine ⟨(if c = '/' then .separator else .literal c) :: tokens, by rw [htokens]; rfl, ?_⟩
        have htext : Token.text get (if c = '/' then .separator else .literal c) = [c] := by
          split_ifs with hslash
          · rw [hslash]
            rfl
          · rfl
        rw [vformatFrom_char hb, hformat, List.flatMap_cons, htext]
        rfl

end Text

section Accepted

/-- The atom a token adds to the part it stands in. -/
def Token.atom : Token → Option Atom
  | .property name => some (.any name)
  | .literal c => some (.lit c)
  | .separator => none
  | .raising _ => none

variable {isidentifier : Str → Bool} {pattern : Str}

private theorem atoms_of_parseFrom {tokens : List Token} {parts : List Part} {next : Part}
    {all : List Str} {result : List Part}
    (h : parseFrom isidentifier pattern parts next all (tokens ++ [.separator]) = .ok result) :
    result.flatten = parts.flatten ++ next ++ tokens.filterMap Token.atom := by
  induction tokens generalizing parts next all with
  | nil =>
    simp only [List.nil_append, parseFrom] at h
    split_ifs at h
    cases h
    simp
  | cons token tokens ih =>
    cases token with
    | raising e => cases h
    | separator =>
      simp only [List.cons_append, parseFrom] at h
      split_ifs at h
      rw [ih h, List.filterMap_cons_none (a := Token.separator) rfl]
      simp
    | property name =>
      simp only [List.cons_append, parseFrom] at h
      split_ifs at h
      simp [ih h, Token.atom]
    | literal c =>
      simp only [List.cons_append, parseFrom] at h
      simp [ih h, Token.atom]

private theorem names_of_parseFrom {tokens : List Token} {parts : List Part} {next : Part}
    {all : List Str} {result : List Part}
    (h : parseFrom isidentifier pattern parts next all tokens = .ok result) :
    (Part.properties (tokens.filterMap Token.atom)).Nodup ∧
      ∀ name ∈ Part.properties (tokens.filterMap Token.atom), name ∉ all := by
  induction tokens generalizing parts next all with
  | nil => simp [Part.properties]
  | cons token tokens ih =>
    cases token with
    | raising e => cases h
    | separator =>
      simp only [parseFrom] at h
      split_ifs at h
      exact ih h
    | property name =>
      simp only [parseFrom] at h
      split_ifs at h with hid hall
      obtain ⟨hnodup, hnew⟩ := ih h
      have hname : name ∉ Part.properties (tokens.filterMap Token.atom) := fun hmem =>
        hnew name hmem (List.mem_cons_self ..)
      refine ⟨List.nodup_cons.mpr ⟨hname, hnodup⟩, fun n hn => ?_⟩
      rcases List.mem_cons.mp hn with rfl | hn
      · exact hall
      · exact fun hmem => hnew n hn (List.mem_cons_of_mem _ hmem)
    | literal c => exact ih h

private theorem literal_ne_slash {s : Str} {prev : Option Char} {field : Option Str} {c : Char}
    (h : .literal c ∈ tokenizeFrom prev field s) : c ≠ '/' := by
  induction s generalizing prev field with
  | nil => cases field <;> simp [tokenizeFrom] at h
  | cons d rest ih =>
    cases field with
    | some name =>
      simp only [tokenizeFrom] at h
      split_ifs at h
      · exact ih (by simpa using h)
      · exact ih h
    | none =>
      simp only [tokenizeFrom] at h
      split_ifs at h with hslash
      · exact ih (by simpa using h)
      · exact ih h
      · simp at h
      · exact ih h
      · rcases List.mem_cons.mp h with h | h
        · cases h
          exact hslash
        · exact ih h

theorem tokenizeFrom_end {s : Str} {prev : Option Char} {field : Option Str}
    (h : ∀ e, .raising e ∉ tokenizeFrom prev field s) :
    ∃ tokens, tokenizeFrom prev field s = tokens ++ [.separator] := by
  have hcons : ∀ {token : Token} {rest : List Token}, (∃ tokens, rest = tokens ++ [.separator]) →
      ∃ tokens, token :: rest = tokens ++ [.separator] := by
    rintro token rest ⟨tokens, rfl⟩
    exact ⟨token :: tokens, rfl⟩
  induction s generalizing prev field with
  | nil =>
    cases field with
    | none => exact ⟨[], rfl⟩
    | some name => exact absurd (List.mem_singleton_self _) (h .unmatchedBrace)
  | cons c rest ih =>
    cases field with
    | some name =>
      simp only [tokenizeFrom] at h ⊢
      split_ifs at h ⊢
      · exact hcons (ih fun e he => h e (List.mem_cons_of_mem _ he))
      · exact ih h
    | none =>
      simp only [tokenizeFrom] at h ⊢
      split_ifs at h ⊢
      · exact hcons (ih fun e he => h e (List.mem_cons_of_mem _ he))
      · exact ih h
      · exact absurd (List.mem_singleton_self _) (h .singleBrace)
      · exact ih h
      · exact hcons (ih fun e he => h e (List.mem_cons_of_mem _ he))

/-- What parsing establishes: the names of the properties are distinct, and no part has a
slash in it. -/
theorem parsePattern_parts {parts : List Part} (h : parsePattern isidentifier pattern = .ok parts) :
    (parts.flatMap Part.properties).Nodup ∧ ∀ part ∈ parts, .lit '/' ∉ part := by
  obtain ⟨tokens, htokens⟩ := tokenizeFrom_end (tokens_of_parseFrom h).1
  unfold parsePattern tokenizePattern at h
  rw [htokens] at h
  have hatoms := atoms_of_parseFrom h
  simp only [List.flatten_nil, List.nil_append] at hatoms
  obtain ⟨hnodup, -⟩ := names_of_parseFrom h
  constructor
  · have hflat : parts.flatMap Part.properties = Part.properties parts.flatten := by
      simp only [Part.properties, List.filterMap_flatten, List.flatMap]
      rfl
    rw [hflat, hatoms]
    have hlast : List.filterMap Token.atom [Token.separator] = [] := rfl
    rwa [List.filterMap_append, hlast, List.append_nil] at hnodup
  · intro part hpart hslash
    have hmem : Atom.lit '/' ∈ tokens.filterMap Token.atom := by
      rw [← hatoms]
      exact List.mem_flatten.mpr ⟨part, hpart, hslash⟩
    obtain ⟨token, htoken, hatom⟩ := List.mem_filterMap.mp hmem
    have hliteral : token = .literal '/' := by
      cases token <;> simp [Token.atom] at hatom
      rw [hatom]
    subst hliteral
    have hin : Token.literal '/' ∈ tokenizeFrom none none pattern := by
      rw [htokens]
      exact List.mem_append_left _ htoken
    exact literal_ne_slash hin rfl

variable {get : Str → Option Str}

theorem Part.slash_not_mem {part : Part} (hpart : .lit '/' ∉ part)
    (hget : ∀ name value, get name = some value → '/' ∉ value) : '/' ∉ Part.text get part := by
  intro hmem
  obtain ⟨atom, hatom, hin⟩ := List.mem_flatMap.mp hmem
  cases atom with
  | lit c =>
    obtain rfl := List.mem_singleton.mp hin
    exact hpart hatom
  | any name =>
    cases hvalue : get name with
    | none => simp [hvalue] at hin
    | some value =>
      simp only [hvalue, Option.getD_some] at hin
      exact hget name value hvalue hin

end Accepted

end Multicorn.Fs
