import Mathlib.Data.List.DropRight
import Mathlib.Data.List.Forall2
import Mathlib.Logic.Function.Basic

/-! The array literals of PostgreSQL: a reader after `array_in`, and the texts it reads back
as a given array. Only texts without explicit dimensions are read; they start at a brace. -/
namespace Multicorn.ArrayLiteral

abbrev Bytes := List UInt8

def openBrace : UInt8 := 123
def closeBrace : UInt8 := 125
def comma : UInt8 := 44
def quote : UInt8 := 34
def backslash : UInt8 := 92
def space : UInt8 := 32

def isSpace (b : UInt8) : Bool := b = space || (9 ≤ b && b ≤ 13)

/-- A NULL element has no text. -/
inductive Token
  | levelStart
  | levelEnd
  | delim
  | elem (text : Option Bytes)

def readQuoted : Bytes → Option (Bytes × Bytes)
  | [] => none
  | b :: rest =>
    if b = backslash then
      match rest with
      | [] => none
      | c :: rest => (readQuoted rest).map fun p => (c :: p.1, p.2)
    else if b = quote then some ([], rest)
    else (readQuoted rest).map fun p => (b :: p.1, p.2)

/-- The characters up to the delimiter, each with whether it was escaped. -/
def readUnquoted : Bytes → Option (List (UInt8 × Bool) × Bytes)
  | [] => none
  | b :: rest =>
    if b = openBrace ∨ b = quote then none
    else if b = backslash then
      match rest with
      | [] => none
      | c :: rest => (readUnquoted rest).map fun p => ((c, true) :: p.1, p.2)
    else if b = comma ∨ b = closeBrace then some ([], b :: rest)
    else (readUnquoted rest).map fun p => ((b, false) :: p.1, p.2)

def upper (b : UInt8) : UInt8 := if 97 ≤ b ∧ b ≤ 122 then b - 32 else b

/-- `NULL` in any case. -/
def isNull (text : Bytes) : Bool := text.map upper == [78, 85, 76, 76]

/-- Trailing blanks do not count unless they were escaped, and an escape keeps the word
NULL from being read as a null. -/
def unquotedElem (chars : List (UInt8 × Bool)) : Option Bytes :=
  let text := (chars.rdropWhile fun c => !c.2 && isSpace c.1).map (·.1)
  if (chars.all fun c => !c.2) && isNull text then none else some text

/-- After a quoted element only a delimiter, a brace or the end may follow. -/
def followsQuoted (rest : Bytes) : Bool :=
  match rest with
  | [] => true
  | b :: _ => b = comma || b = openBrace || b = closeBrace

def readToken : Bytes → Option (Token × Bytes)
  | [] => none
  | b :: rest =>
    if b = openBrace then some (.levelStart, rest)
    else if b = closeBrace then some (.levelEnd, rest)
    else if b = quote then
      match readQuoted rest with
      | none => none
      | some (text, rest) =>
        let rest := rest.dropWhile isSpace
        if followsQuoted rest then some (.elem (some text), rest) else none
    else if b = comma then some (.delim, rest)
    else if isSpace b then readToken rest
    else (readUnquoted (b :: rest)).map fun p => (.elem (unquotedElem p.1), p.2)

def maxDim : ℕ := 6

/-- `nelems` counts the elements of the open levels, the innermost first; `dim` holds the
lengths of the levels that were closed once. -/
structure ReadState where
  nelems : List ℕ
  ndim : ℕ
  frozen : Bool
  dim : ℕ → Option ℕ
  expectDelim : Bool
  elems : List (Option Bytes)

namespace ReadState

def init : ReadState := ⟨[], 0, false, fun _ => none, false, []⟩

def bump (nelems : List ℕ) : List ℕ := nelems.modifyHead (· + 1)

def apply (st : ReadState) : Token → Option ReadState
  | .levelStart =>
    if st.expectDelim ∨ maxDim ≤ st.nelems.length then none
    else if st.nelems.length < st.ndim then some { st with nelems := 0 :: st.nelems }
    else if st.frozen then none
    else some { st with nelems := 0 :: st.nelems, ndim := st.nelems.length + 1 }
  | .levelEnd =>
    match st.nelems with
    | [] => none
    | n :: outer =>
      if 0 < n ∧ !st.expectDelim then none
      else
        match st.dim outer.length with
        | none =>
          some { st with
            nelems := bump outer, expectDelim := true,
            dim := Function.update st.dim outer.length (some n) }
        | some m =>
          if n = m then some { st with nelems := bump outer, expectDelim := true } else none
  | .delim => if st.expectDelim then some { st with expectDelim := false } else none
  | .elem text =>
    if st.expectDelim ∨ st.nelems.length ≠ st.ndim then none
    else some { st with
      nelems := bump st.nelems, frozen := true, expectDelim := true,
      elems := st.elems ++ [text] }

end ReadState

/-- Tokens are read until the outermost level is closed. -/
def readArrayStr : ℕ → Bytes → ReadState → Option (ReadState × Bytes)
  | 0, _, _ => none
  | fuel + 1, s, st =>
    match readToken s with
    | none => none
    | some (tok, rest) =>
      match st.apply tok with
      | none => none
      | some st =>
        if st.nelems = [] then some (st, rest) else readArrayStr fuel rest st

/-- An array whose lower bounds are all 1. -/
structure Array where
  dims : List ℕ
  elems : List (Option Bytes)
  deriving DecidableEq

/-- An array without elements has no dimensions. -/
def ReadState.result (st : ReadState) : Array :=
  if st.elems = [] then ⟨[], []⟩
  else ⟨(List.range st.ndim).map fun l => (st.dim l).getD 0, st.elems⟩

/-- Every token takes a character, so the length of the text is enough fuel. -/
def arrayIn (s : Bytes) : Option Array :=
  match s.dropWhile isSpace with
  | [] => none
  | b :: rest =>
    if b = openBrace then
      match readArrayStr (rest.length + 1) (b :: rest) ReadState.init with
      | none => none
      | some (st, rest) => if rest.all isSpace then some st.result else none
    else none

/-- What follows an element inside braces. -/
def Ends (rest : Bytes) : Prop := ∃ b rest', rest = b :: rest' ∧ (b = comma ∨ b = closeBrace)

theorem ends_comma (rest : Bytes) : Ends (comma :: rest) := ⟨_, _, rfl, .inl rfl⟩

theorem ends_closeBrace (rest : Bytes) : Ends (closeBrace :: rest) := ⟨_, _, rfl, .inr rfl⟩

/-- `text` is read as the one element `e`. -/
structure ReadsAs (text : Bytes) (e : Option Bytes) : Prop where
  nul : 0 ∉ text
  pos : 0 < text.length
  read : ∀ rest, Ends rest → readToken (text ++ rest) = some (.elem e, rest)

def commaSep : List Bytes → Bytes
  | [] => []
  | [text] => text
  | text :: texts => text ++ comma :: space :: commaSep texts

def braced (body : Bytes) : Bytes := openBrace :: (body ++ [closeBrace])

/-- `text` is a literal of an array with these dimensions and elements. -/
def Literal : List ℕ → Bytes → List (Option Bytes) → Prop
  | [], text, elems => ∃ e, ReadsAs text e ∧ elems = [e]
  | d :: dims, text, elems =>
    0 < d ∧ ∃ texts elemss, texts.length = d ∧ List.Forall₂ (Literal dims) texts elemss ∧
      text = braced (commaSep texts) ∧ elems = elemss.flatten

/-! Quoted and plain elements. -/

def escape (b : UInt8) : Bytes := if b = quote ∨ b = backslash then [backslash, b] else [b]

def quoted (text : Bytes) : Bytes := quote :: (text.flatMap escape ++ [quote])

theorem readQuoted_plain {b : UInt8} (hb : b ≠ backslash) (hq : b ≠ quote) (rest : Bytes) :
    readQuoted (b :: rest) = (readQuoted rest).map fun p => (b :: p.1, p.2) := by
  rw [readQuoted.eq_def]
  simp only [hb, hq, if_false]

theorem readQuoted_quote (rest : Bytes) : readQuoted (quote :: rest) = some ([], rest) := by
  rw [readQuoted.eq_def]
  simp only [show quote ≠ backslash by decide, if_false, if_true]

theorem readQuoted_escape (b : UInt8) (rest : Bytes) :
    readQuoted (escape b ++ rest) = (readQuoted rest).map fun p => (b :: p.1, p.2) := by
  unfold escape
  split_ifs with h
  · simp [readQuoted]
  · rw [not_or] at h
    exact readQuoted_plain h.2 h.1 rest

theorem readQuoted_quoted (text rest : Bytes) :
    readQuoted (text.flatMap escape ++ quote :: rest) = some (text, rest) := by
  induction text with
  | nil => exact readQuoted_quote rest
  | cons b text ih =>
    rw [List.flatMap_cons, List.append_assoc, readQuoted_escape, ih]
    rfl

theorem isSpace_of_ends {rest : Bytes} (h : Ends rest) :
    rest.dropWhile isSpace = rest ∧ followsQuoted rest = true := by
  obtain ⟨b, rest', rfl, rfl | rfl⟩ := h
  · exact ⟨by rw [List.dropWhile_cons_of_neg (by decide)], by simp [followsQuoted]⟩
  · exact ⟨by rw [List.dropWhile_cons_of_neg (by decide)], by simp [followsQuoted]⟩

theorem nul_not_mem_quoted {text : Bytes} (h : 0 ∉ text) : 0 ∉ quoted text := by
  have hesc : ∀ b ∈ text, 0 ∉ escape b := by
    intro b hb
    have hne : (0 : UInt8) ≠ b := fun h0 => h (h0 ▸ hb)
    unfold escape
    split_ifs <;> simp [hne, backslash]
  simp only [quoted, List.mem_cons, List.mem_append, List.mem_flatMap, not_or, not_exists, not_and,
    List.not_mem_nil, not_false_eq_true, and_true]
  exact ⟨by decide, hesc, by decide⟩

theorem readsAs_quoted {text : Bytes} (h : 0 ∉ text) : ReadsAs (quoted text) (some text) where
  nul := nul_not_mem_quoted h
  pos := by simp [quoted]
  read rest hrest := by
    obtain ⟨hdrop, hfollows⟩ := isSpace_of_ends hrest
    simp [quoted, readToken, show quote ≠ openBrace by decide, show quote ≠ closeBrace by decide,
      readQuoted_quoted, hdrop, hfollows]

/-- A character that needs no quoting. -/
def plain (b : UInt8) : Bool :=
  b ≠ 0 && b ≠ openBrace && b ≠ closeBrace && b ≠ quote && b ≠ backslash && b ≠ comma && !isSpace b

theorem readUnquoted_of_ends {rest : Bytes} (h : Ends rest) : readUnquoted rest = some ([], rest) := by
  obtain ⟨b, rest', rfl, rfl | rfl⟩ := h <;>
    · rw [readUnquoted.eq_def]
      rfl

theorem readUnquoted_plain {text rest : Bytes} (h : ∀ b ∈ text, plain b = true) (hrest : Ends rest) :
    readUnquoted (text ++ rest) = some (text.map fun b => (b, false), rest) := by
  induction text with
  | nil => exact readUnquoted_of_ends hrest
  | cons b text ih =>
    have hb := h b List.mem_cons_self
    simp only [plain, Bool.and_eq_true, decide_eq_true_eq, ne_eq] at hb
    rw [List.cons_append, readUnquoted.eq_def]
    simp [hb, ih fun c hc => h c (List.mem_cons_of_mem _ hc)]

theorem readsAs_plain {text : Bytes} (hne : text ≠ []) (h : ∀ b ∈ text, plain b = true)
    (hnull : isNull text = false) : ReadsAs text (some text) where
  nul h0 := absurd (h 0 h0) (by decide)
  pos := List.length_pos_iff.mpr hne
  read rest hrest := by
    have hread := readUnquoted_plain h hrest
    have hlast : ((text.map fun b => (b, false)).rdropWhile fun c => !c.2 && isSpace c.1) =
        text.map fun b => (b, false) := by
      rw [List.rdropWhile_eq_self_iff]
      intro hl
      have hmem : text.getLast hne ∈ text := List.getLast_mem hne
      have hsp := h _ hmem
      simp only [plain, Bool.and_eq_true] at hsp
      simpa [List.getLast_map] using hsp.2
    have helem : unquotedElem (text.map fun b => (b, false)) = some text := by
      simp [unquotedElem, hlast, hnull, Function.comp_def]
    obtain ⟨b, text', rfl⟩ := List.exists_cons_of_ne_nil hne
    have hb := h b List.mem_cons_self
    simp only [plain, Bool.and_eq_true, decide_eq_true_eq, ne_eq, Bool.not_eq_true'] at hb
    rw [List.cons_append] at hread ⊢
    rw [readToken]
    simp only [hb, if_false, hread, Option.map_some, helem, Bool.false_eq_true]

/-! Reading a literal inside an open level. -/

/-- The lengths of the levels from `level` on are known to be `dims`. -/
def Settled (dim : ℕ → Option ℕ) : ℕ → List ℕ → Prop
  | _, [] => True
  | level, d :: dims => dim level = some d ∧ Settled dim (level + 1) dims

def settle (dim : ℕ → Option ℕ) : ℕ → List ℕ → ℕ → Option ℕ
  | _, [] => dim
  | level, d :: dims => Function.update (settle dim (level + 1) dims) level (some d)

theorem settle_of_lt {dim : ℕ → Option ℕ} {level l : ℕ} (dims : List ℕ) (h : l < level) :
    settle dim level dims l = dim l := by
  induction dims generalizing level with
  | nil => rfl
  | cons d dims ih =>
    rw [settle, Function.update_of_ne (by omega), ih (by omega)]

theorem settle_of_settled {dim : ℕ → Option ℕ} {level : ℕ} {dims : List ℕ}
    (h : Settled dim level dims) : settle dim level dims = dim := by
  induction dims generalizing level with
  | nil => rfl
  | cons d dims ih =>
    rw [settle, ih h.2, ← h.1, Function.update_eq_self]

theorem Settled.congr {dim dim' : ℕ → Option ℕ} {level : ℕ} {dims : List ℕ}
    (h : Settled dim level dims) (heq : ∀ l, level ≤ l → dim' l = dim l) :
    Settled dim' level dims := by
  induction dims generalizing level with
  | nil => trivial
  | cons d dims ih =>
    exact ⟨(heq level le_rfl).trans h.1, ih h.2 fun l hl => heq l (by omega)⟩

theorem settled_settle (dim : ℕ → Option ℕ) (level : ℕ) (dims : List ℕ) :
    Settled (settle dim level dims) level dims := by
  induction dims generalizing level with
  | nil => trivial
  | cons d dims ih =>
    refine ⟨Function.update_self .., (ih (level + 1)).congr fun l hl => ?_⟩
    rw [settle, Function.update_of_ne (by omega)]

theorem Settled.map_getD {dim : ℕ → Option ℕ} {level : ℕ} {dims : List ℕ}
    (h : Settled dim level dims) :
    (List.range' level dims.length).map (fun l => (dim l).getD 0) = dims := by
  induction dims generalizing level with
  | nil => rfl
  | cons d dims ih =>
    rw [List.length_cons, List.range'_succ, List.map_cons, ih h.2, h.1]
    rfl

namespace ReadState

/-- A value of these dimensions may follow: either none was read yet, or its levels are
settled already. -/
structure Ready (st : ReadState) (dims : List ℕ) : Prop where
  expects : st.expectDelim = false
  deep : st.nelems.length + dims.length ≤ maxDim
  levels : (st.frozen = false ∧ st.ndim = st.nelems.length ∧
      ∀ l, st.nelems.length ≤ l → st.dim l = none) ∨
    (st.frozen = true ∧ st.ndim = st.nelems.length + dims.length ∧
      Settled st.dim st.nelems.length dims)

/-- The state after such a value, counted with the `n` elements of the innermost level. -/
def after (st : ReadState) (dims : List ℕ) (n : ℕ) (elems : List (Option Bytes)) : ReadState where
  nelems := st.nelems.modifyHead (· + n)
  ndim := st.nelems.length + dims.length
  frozen := true
  dim := settle st.dim st.nelems.length dims
  expectDelim := true
  elems := st.elems ++ elems

@[simp] theorem length_nelems_after (st : ReadState) (dims : List ℕ) (n : ℕ)
    (elems : List (Option Bytes)) :
    (st.after dims n elems).nelems.length = st.nelems.length := by
  simp [after]

/-- After a value and a delimiter the next value of the level may follow. -/
theorem Ready.next {st : ReadState} {dims : List ℕ} (h : st.Ready dims) (n : ℕ)
    (elems : List (Option Bytes)) :
    ({ st.after dims n elems with expectDelim := false } : ReadState).Ready dims where
  expects := rfl
  deep := by simpa using h.deep
  levels := by
    refine .inr ⟨rfl, by simp [after], ?_⟩
    simpa [after] using settled_settle st.dim st.nelems.length dims

end ReadState

/-- Once the innermost level is not the last one, a token read is a token left to read. -/
theorem readArrayStr_step {s rest : Bytes} {st st' : ReadState} {tok : Token}
    (hread : readToken s = some (tok, rest)) (happly : st.apply tok = some st')
    (hopen : st'.nelems ≠ []) (fuel : ℕ) :
    readArrayStr (fuel + 1) s st = readArrayStr fuel rest st' := by
  rw [readArrayStr]
  simp only [hread, happly, hopen, if_false]

theorem readToken_comma (rest : Bytes) : readToken (comma :: rest) = some (.delim, rest) := by
  rw [readToken.eq_def]
  rfl

theorem readToken_space (rest : Bytes) : readToken (space :: rest) = readToken rest := by
  rw [readToken.eq_def]
  rfl

theorem readArrayStr_space (fuel : ℕ) (rest : Bytes) (st : ReadState) :
    readArrayStr fuel (space :: rest) st = readArrayStr fuel rest st := by
  cases fuel with
  | zero => rfl
  | succ fuel => rw [readArrayStr, readArrayStr, readToken_space]

/-- Reading `text` inside an open level takes `n` values of these dimensions in. -/
def Reads (dims : List ℕ) (text : Bytes) (n : ℕ) (elems : List (Option Bytes)) : Prop :=
  ∀ st : ReadState, st.Ready dims → st.nelems ≠ [] →
    ∃ c ≤ text.length, ∀ fuel rest, Ends rest →
      readArrayStr (fuel + c) (text ++ rest) st = readArrayStr fuel rest (st.after dims n elems)

theorem reads_elem {text : Bytes} {e : Option Bytes} (h : ReadsAs text e) :
    Reads [] text 1 [e] := by
  intro st hst hopen
  refine ⟨1, h.pos, fun fuel rest hrest => ?_⟩
  have hndim : st.ndim = st.nelems.length := by
    obtain ⟨-, h, -⟩ | ⟨-, h, -⟩ := hst.levels
    · exact h
    · exact h
  have happly : st.apply (.elem e) = some (st.after [] 1 [e]) := by
    simp [ReadState.apply, hst.expects, hndim, ReadState.after, ReadState.bump, settle]
  refine readArrayStr_step (h.read rest hrest) happly ?_ fuel
  simpa [ReadState.after] using hopen

theorem reads_commaSep {dims : List ℕ} {texts : List Bytes} {elemss : List (List (Option Bytes))}
    (h : List.Forall₂ (fun text elems => Reads dims text 1 elems) texts elemss) (hne : texts ≠ []) :
    Reads dims (commaSep texts) texts.length elemss.flatten := by
  induction h with
  | nil => exact absurd rfl hne
  | @cons text elems texts elemss hhead htail ih =>
    intro st hst hopen
    obtain ⟨c₁, hc₁, hfirst⟩ := hhead st hst hopen
    cases texts with
    | nil =>
      obtain rfl := List.forall₂_nil_left_iff.mp htail
      exact ⟨c₁, hc₁, by simpa [commaSep] using hfirst⟩
    | cons text' texts =>
      let st₁ : ReadState := { st.after dims 1 elems with expectDelim := false }
      have hopen₁ : st₁.nelems ≠ [] := by simpa [st₁, ReadState.after] using hopen
      obtain ⟨c₂, hc₂, hrest⟩ := ih (by simp) st₁ (hst.next 1 elems) hopen₁
      refine ⟨c₂ + 1 + c₁, ?_, fun fuel rest hends => ?_⟩
      · simp only [commaSep, List.length_append, List.length_cons]
        omega
      have happly : (st.after dims 1 elems).apply .delim = some st₁ := by
        simp [ReadState.apply, ReadState.after, st₁]
      have hafter : st₁.after dims (texts.length + 1) (elemss.flatten) =
          st.after dims (texts.length + 2) (elems ++ elemss.flatten) := by
        have hsettled := settle_of_settled (settled_settle st.dim st.nelems.length dims)
        simp [st₁, ReadState.after, hsettled, List.modifyHead_modifyHead, Function.comp_def,
          Nat.add_assoc, Nat.add_comm 1]
      calc readArrayStr (fuel + (c₂ + 1 + c₁)) (commaSep (text :: text' :: texts) ++ rest) st
          = readArrayStr (fuel + c₂ + 1 + c₁)
              (text ++ comma :: space :: (commaSep (text' :: texts) ++ rest)) st := by
            simp [commaSep, Nat.add_assoc]
        _ = readArrayStr (fuel + c₂ + 1) (comma :: space :: (commaSep (text' :: texts) ++ rest))
              (st.after dims 1 elems) := hfirst _ _ (ends_comma _)
        _ = readArrayStr (fuel + c₂) (commaSep (text' :: texts) ++ rest) st₁ := by
            rw [readArrayStr_step (readToken_comma _) happly hopen₁, readArrayStr_space]
        _ = readArrayStr fuel rest (st₁.after dims (texts.length + 1) elemss.flatten) :=
            hrest fuel rest hends
        _ = _ := by rw [hafter]; rfl

theorem readToken_openBrace (rest : Bytes) :
    readToken (openBrace :: rest) = some (.levelStart, rest) := by
  rw [readToken.eq_def]
  rfl

theorem readToken_closeBrace (rest : Bytes) :
    readToken (closeBrace :: rest) = some (.levelEnd, rest) := by
  rw [readToken.eq_def]
  rfl

namespace ReadState

/-- A brace opens a level in which values with the remaining dimensions are read. -/
theorem Ready.enter {st : ReadState} {d : ℕ} {dims : List ℕ} (h : st.Ready (d :: dims)) :
    ∃ st₁, st.apply .levelStart = some st₁ ∧ st₁.Ready dims ∧ st₁.nelems = 0 :: st.nelems ∧
      st₁.dim = st.dim ∧ st₁.elems = st.elems := by
  have hdeep : st.nelems.length + dims.length + 1 ≤ maxDim := by simpa [Nat.add_assoc] using h.deep
  have hlevel : ¬ maxDim ≤ st.nelems.length := by omega
  obtain ⟨hfrozen, hndim, hnone⟩ | ⟨hfrozen, hndim, -, hsettled⟩ := h.levels
  · refine ⟨{ st with nelems := 0 :: st.nelems, ndim := st.nelems.length + 1 }, ?_,
      ⟨h.expects, by simpa using by omega, .inl ⟨hfrozen, by simp, fun l hl => hnone l ?_⟩⟩,
      rfl, rfl, rfl⟩
    · simp [apply, h.expects, hlevel, hndim, hfrozen]
    · simp only [List.length_cons] at hl
      omega
  · rw [List.length_cons] at hndim
    refine ⟨{ st with nelems := 0 :: st.nelems }, ?_,
      ⟨h.expects, by simpa using by omega, .inr ⟨hfrozen, ?_, hsettled⟩⟩, rfl, rfl, rfl⟩
    · simp [apply, h.expects, hlevel, hndim]
    · simp only [List.length_cons]
      omega

/-- The closing brace counts the level as one value of the outer one. -/
theorem Ready.leave {st st₁ : ReadState} {d : ℕ} {dims : List ℕ} (h : st.Ready (d :: dims))
    (elems : List (Option Bytes)) (hnelems : st₁.nelems = 0 :: st.nelems)
    (hdim : st₁.dim = st.dim) (helems : st₁.elems = st.elems) :
    (st₁.after dims d elems).apply .levelEnd = some (st.after (d :: dims) 1 elems) := by
  have hsame : settle st.dim (st.nelems.length + 1) dims st.nelems.length =
      st.dim st.nelems.length := settle_of_lt dims (by omega)
  obtain ⟨-, -, hnone⟩ | ⟨-, -, hlevel, hsettled⟩ := h.levels
  · simp [apply, after, hnelems, hdim, helems, hsame, hnone, bump, settle, Nat.add_assoc,
      Nat.add_comm 1]
  · have hkept : settle st.dim (st.nelems.length + 1) dims = st.dim := settle_of_settled hsettled
    have hfull : settle st.dim st.nelems.length (d :: dims) = st.dim :=
      settle_of_settled ⟨hlevel, hsettled⟩
    simp [apply, after, hnelems, hdim, helems, hkept, hfull, hlevel, bump, Nat.add_assoc,
      Nat.add_comm 1]

end ReadState

theorem reads_braced {d : ℕ} {dims : List ℕ} {body : Bytes} {elems : List (Option Bytes)}
    (h : Reads dims body d elems) : Reads (d :: dims) (braced body) 1 elems := by
  intro st hst hopen
  obtain ⟨st₁, happly, hst₁, hnelems, hdim, helems⟩ := hst.enter
  obtain ⟨c, hc, hbody⟩ := h st₁ hst₁ (by simp [hnelems])
  refine ⟨c + 2, ?_, fun fuel rest _ => ?_⟩
  · simp only [braced, List.length_cons, List.length_append, List.length_nil]
    omega
  have hleave := hst.leave elems hnelems hdim helems
  calc readArrayStr (fuel + (c + 2)) (braced body ++ rest) st
      = readArrayStr (fuel + 1 + c + 1) (openBrace :: (body ++ closeBrace :: rest)) st := by
        rw [show fuel + (c + 2) = fuel + 1 + c + 1 by omega]
        simp [braced]
    _ = readArrayStr (fuel + 1 + c) (body ++ closeBrace :: rest) st₁ :=
        readArrayStr_step (readToken_openBrace _) happly (by simp [hnelems]) _
    _ = readArrayStr (fuel + 1) (closeBrace :: rest) (st₁.after dims d elems) :=
        hbody _ _ (ends_closeBrace _)
    _ = readArrayStr fuel rest (st.after (d :: dims) 1 elems) :=
        readArrayStr_step (readToken_closeBrace _) hleave (by simpa [ReadState.after] using hopen) _

theorem Literal.reads {dims : List ℕ} {text : Bytes} {elems : List (Option Bytes)}
    (h : Literal dims text elems) : Reads dims text 1 elems := by
  induction dims generalizing text elems with
  | nil =>
    obtain ⟨e, he, rfl⟩ := h
    exact reads_elem he
  | cons d dims ih =>
    obtain ⟨hd, texts, elemss, rfl, htexts, rfl, rfl⟩ := h
    refine reads_braced (reads_commaSep (htexts.imp fun _ _ => ih) ?_)
    exact List.length_pos_iff.mp hd

theorem Literal.length_pos {dims : List ℕ} {text : Bytes} {elems : List (Option Bytes)}
    (h : Literal dims text elems) : 0 < elems.length := by
  induction dims generalizing text elems with
  | nil =>
    obtain ⟨e, -, rfl⟩ := h
    exact Nat.zero_lt_one
  | cons d dims ih =>
    obtain ⟨hd, texts, elemss, rfl, htexts, -, rfl⟩ := h
    cases htexts with
    | nil => exact absurd hd (Nat.lt_irrefl 0)
    | cons h _ =>
      have := ih h
      rw [List.flatten_cons, List.length_append]
      omega

theorem nul_not_mem_commaSep {texts : List Bytes} (h : ∀ text ∈ texts, 0 ∉ text) :
    0 ∉ commaSep texts := by
  induction texts with
  | nil => exact List.not_mem_nil
  | cons text texts ih =>
    have htext := h text List.mem_cons_self
    have htexts := ih fun t ht => h t (List.mem_cons_of_mem _ ht)
    cases texts with
    | nil => exact htext
    | cons text' texts =>
      simp only [commaSep, List.mem_append, List.mem_cons, not_or]
      exact ⟨htext, by decide, by decide, htexts⟩

theorem Literal.nul_not_mem {dims : List ℕ} {text : Bytes} {elems : List (Option Bytes)}
    (h : Literal dims text elems) : 0 ∉ text := by
  induction dims generalizing text elems with
  | nil =>
    obtain ⟨e, he, -⟩ := h
    exact he.nul
  | cons d dims ih =>
    obtain ⟨-, texts, elemss, -, htexts, rfl, -⟩ := h
    have hnul : ∀ text ∈ texts, 0 ∉ text := by
      intro text htext
      obtain ⟨i, hi, rfl⟩ := List.mem_iff_getElem.mp htext
      exact ih (htexts.get hi (htexts.length_eq ▸ hi))
    simp [braced, nul_not_mem_commaSep hnul, openBrace, closeBrace]

/-- A literal is read back as its array. -/
theorem arrayIn_literal {dims : List ℕ} {text : Bytes} {elems : List (Option Bytes)}
    (h : Literal dims text elems) (hpos : dims ≠ []) (hmax : dims.length ≤ maxDim) :
    arrayIn text = some ⟨dims, elems⟩ := by
  have hcount := h.length_pos
  obtain ⟨d, dims, rfl⟩ := List.exists_cons_of_ne_nil hpos
  obtain ⟨hd, texts, elemss, rfl, htexts, rfl, rfl⟩ := h
  have hbody := reads_commaSep (htexts.imp fun _ _ h => Literal.reads h) (List.length_pos_iff.mp hd)
  have hinit : ReadState.init.Ready (texts.length :: dims) :=
    ⟨rfl, by simpa [ReadState.init] using hmax, .inl ⟨rfl, rfl, fun _ _ => rfl⟩⟩
  obtain ⟨st₁, happly, hst₁, hnelems, hdim, helems⟩ := hinit.enter
  obtain ⟨c, hc, hread⟩ := hbody st₁ hst₁ (by simp [hnelems])
  have hleave := hinit.leave elemss.flatten hnelems hdim helems
  -- the last brace closes the outermost level, which ends the reading
  have hlast : ∀ fuel, readArrayStr (fuel + 1) [closeBrace]
      (st₁.after dims texts.length elemss.flatten) =
        some (ReadState.init.after (texts.length :: dims) 1 elemss.flatten, []) := by
    intro fuel
    have hclosed : (ReadState.init.after (texts.length :: dims) 1 elemss.flatten).nelems = [] := rfl
    rw [readArrayStr, readToken_closeBrace]
    simp only [hleave, hclosed, if_true]
  have hall : readArrayStr ((commaSep texts ++ [closeBrace]).length + 1) (braced (commaSep texts))
      ReadState.init =
        some (ReadState.init.after (texts.length :: dims) 1 elemss.flatten, []) := by
    have hfuel : (commaSep texts ++ [closeBrace]).length + 1 =
        (commaSep texts).length - c + 1 + c + 1 := by
      simp only [List.length_append, List.length_singleton]
      omega
    rw [hfuel, braced, readArrayStr_step (readToken_openBrace _) happly (by simp [hnelems]),
      hread _ _ (ends_closeBrace _), hlast]
  have hdims : (List.range (dims.length + 1)).map (fun l =>
      (settle ReadState.init.dim 0 (texts.length :: dims) l).getD 0) = texts.length :: dims := by
    rw [List.range_eq_range']
    exact (settled_settle ReadState.init.dim 0 (texts.length :: dims)).map_getD
  have hstart : (braced (commaSep texts)).dropWhile isSpace = braced (commaSep texts) :=
    List.dropWhile_cons_of_neg (by decide)
  have hne : elemss.flatten ≠ [] := List.length_pos_iff.mp hcount
  rw [arrayIn, hstart]
  simp only [braced, if_true] at hall ⊢
  rw [hall]
  simp only [ReadState.result, ReadState.after, ReadState.init] at hdims ⊢
  simp [hne, hdims]

/-! Elements that were left out. -/

theorem commaSep_append {texts more : List Bytes} (h : texts ≠ []) (hmore : more ≠ []) :
    commaSep (texts ++ more) = commaSep texts ++ comma :: space :: commaSep more := by
  induction texts with
  | nil => exact absurd rfl h
  | cons text texts ih =>
    cases texts with
    | nil =>
      obtain ⟨text', more, rfl⟩ := List.exists_cons_of_ne_nil hmore
      rfl
    | cons text' texts =>
      have := ih (by simp)
      simp only [List.cons_append] at this ⊢
      simp [commaSep, this]

theorem readArrayStr_stuck {s rest : Bytes} {st : ReadState} {tok : Token}
    (hread : readToken s = some (tok, rest)) (happly : st.apply tok = none) (fuel : ℕ) :
    readArrayStr fuel s st = none := by
  cases fuel with
  | zero => rfl
  | succ fuel =>
    rw [readArrayStr]
    simp only [hread, happly]

/-- Where an element is expected, a comma or the closing brace is refused, but for the brace
of an empty level. -/
theorem readArrayStr_missing {st : ReadState} (hst : st.expectDelim = false) {n : ℕ}
    {outer : List ℕ} (hn : st.nelems = n :: outer) {rest : List Bytes} (h : 0 < n ∨ rest ≠ [])
    (fuel : ℕ) : readArrayStr fuel (commaSep ([] :: rest) ++ [closeBrace]) st = none := by
  cases rest with
  | nil =>
    have hpos : 0 < n := h.resolve_right fun hne => hne rfl
    exact readArrayStr_stuck (readToken_closeBrace []) (by simp [ReadState.apply, hn, hst, hpos]) fuel
  | cons text rest =>
    exact readArrayStr_stuck (readToken_comma _) (by simp [ReadState.apply, hst]) fuel

/-- A one-dimensional literal that lacks an element is refused unless it is `{}`. -/
theorem arrayIn_missing {texts rest : List Bytes} (htexts : ∀ text ∈ texts, ∃ e, ReadsAs text e)
    (h : texts ≠ [] ∨ rest ≠ []) : arrayIn (braced (commaSep (texts ++ [] :: rest))) = none := by
  have hinit : ReadState.init.Ready [1] :=
    ⟨rfl, by decide, .inl ⟨rfl, rfl, fun _ _ => rfl⟩⟩
  obtain ⟨st₁, happly, hst₁, hnelems, -, -⟩ := hinit.enter
  have hopen₁ : st₁.nelems ≠ [] := by simp [hnelems]
  have hbody : ∀ fuel, (commaSep (texts ++ [] :: rest)).length ≤ fuel →
      readArrayStr fuel (commaSep (texts ++ [] :: rest) ++ [closeBrace]) st₁ = none := by
    intro fuel hfuel
    by_cases hne : texts = []
    · subst hne
      exact readArrayStr_missing hst₁.expects hnelems (.inr (h.resolve_left fun h => h rfl)) fuel
    have hreads : ∃ elemss, List.Forall₂ (fun text elems => Reads [] text 1 elems) texts elemss := by
      clear h hfuel hne
      induction texts with
      | nil => exact ⟨[], .nil⟩
      | cons text texts ih =>
        obtain ⟨e, he⟩ := htexts text List.mem_cons_self
        obtain ⟨elemss, helemss⟩ := ih fun t ht => htexts t (List.mem_cons_of_mem _ ht)
        exact ⟨[e] :: elemss, .cons (reads_elem he) helemss⟩
    obtain ⟨elemss, helemss⟩ := hreads
    obtain ⟨c, hc, hread⟩ := reads_commaSep helemss hne st₁ hst₁ hopen₁
    rw [commaSep_append hne (by simp)] at hfuel ⊢
    simp only [List.length_append, List.length_cons] at hfuel
    obtain ⟨k, rfl⟩ : ∃ k, fuel = k + 1 + c := ⟨fuel - 1 - c, by omega⟩
    let st₂ : ReadState := { st₁.after [] texts.length elemss.flatten with expectDelim := false }
    have hdelim : (st₁.after [] texts.length elemss.flatten).apply .delim = some st₂ := by
      simp [ReadState.apply, ReadState.after, st₂]
    have hn : st₂.nelems = texts.length :: [] := by
      simp [st₂, ReadState.after, hnelems, ReadState.init]
    rw [List.append_assoc, List.cons_append, List.cons_append, hread _ _ (ends_comma _),
      readArrayStr_step (readToken_comma _) hdelim (by simp [hn]), readArrayStr_space]
    exact readArrayStr_missing rfl hn (.inl (List.length_pos_iff.mpr hne)) k
  have hstart : (braced (commaSep (texts ++ [] :: rest))).dropWhile isSpace =
      braced (commaSep (texts ++ [] :: rest)) := List.dropWhile_cons_of_neg (by decide)
  rw [arrayIn, hstart]
  simp only [braced, if_true]
  rw [readArrayStr_step (readToken_openBrace _) happly hopen₁, hbody _ (by simp)]

end Multicorn.ArrayLiteral
