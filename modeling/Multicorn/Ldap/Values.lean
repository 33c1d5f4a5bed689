import Mathlib.Data.List.Forall2
import Multicorn.Ldap.Request

/-! Which values keep to the grammar: strings always, being translated, and lists when their
text needs no escape and has no parenthesis. -/
namespace Multicorn.LdapFilter

/-! Values and their characters. -/

theorem normal_ne_backslash {c : Char} (h : normal c = true) : c ≠ '\\' := by
  rintro rfl
  revert h
  decide

theorem validValue_cons {star : Bool} {c : Char} (hc : c ≠ '\\') (s : Str) :
    validValue star (c :: s) = ((normal c || (star && c = '*')) && validValue star s) := by
  rw [validValue]
  rintro a b rest rfl
  exact absurd rfl hc

theorem validValue_of_chars {star : Bool} {s : Str}
    (h : ∀ c ∈ s, normal c = true ∨ star = true ∧ c = '*') : validValue star s = true := by
  induction s with
  | nil => rfl
  | cons c s ih =>
    have hc := h c (by simp)
    have hne : c ≠ '\\' := by
      obtain hn | ⟨-, rfl⟩ := hc
      · exact normal_ne_backslash hn
      · decide
    rw [validValue_cons hne, ih (fun d hd => h d (List.mem_cons_of_mem c hd))]
    obtain hn | ⟨rfl, rfl⟩ := hc
    · simp [hn]
    · simp

/-- A backslash stands only before hexadecimal digits. -/
theorem validValue_escape {star : Bool} {s : Str} (h : validValue star s = true) {x : Char}
    (hx : ['\\', x] <:+: s) : (hexDigit x).isSome = true := by
  have hback : (hexDigit '\\').isSome = false := by decide
  induction s using validValue.induct with
  | case1 => simp at hx
  | case2 a b rest ih =>
    simp only [validValue, Bool.and_eq_true] at h
    obtain hx | hx := List.infix_cons_iff.mp hx
    · obtain ⟨tail, ht⟩ := hx
      simp only [List.cons_append, List.cons.injEq, true_and] at ht
      rw [ht.1]
      exact h.1.1
    · obtain ⟨tail, ht⟩ | hx := List.infix_cons_iff.mp hx
      · simp only [List.cons_append, List.cons.injEq] at ht
        rw [← ht.1, hback] at h
        simp at h
      · obtain ⟨tail, ht⟩ | hx := List.infix_cons_iff.mp hx
        · simp only [List.cons_append, List.cons.injEq] at ht
          rw [← ht.1, hback] at h
          simp at h
        · exact ih h.2 hx
  | case3 c rest hne ih =>
    rw [validValue] at h
    · simp only [Bool.and_eq_true, Bool.or_eq_true, decide_eq_true_eq] at h
      obtain ⟨tail, ht⟩ | hx := List.infix_cons_iff.mp hx
      · have hc : c = '\\' := by
          simp only [List.cons_append, List.cons.injEq] at ht
          exact ht.1.symm
        obtain hn | ⟨-, he⟩ := h.1
        · exact absurd hc (normal_ne_backslash hn)
        · rw [hc] at he
          cases he
      · exact ih h.2 hx
    · exact hne

theorem splitOn_append_of_notMem {sep : Char} {w : Str} (hw : sep ∉ w) (s : Str) :
    (w ++ s).splitOn sep = (s.splitOn sep).modifyHead (w ++ ·) := by
  induction w with
  | nil =>
    cases h : s.splitOn sep with
    | nil => simp [h]
    | cons part parts => simp [h]
  | cons c w ih =>
    have hc : (c == sep) = false := by
      have hne : c ≠ sep := fun he => hw (by simp [he])
      simpa using hne
    rw [List.cons_append, List.splitOn_cons_eq_if_modifyHead, hc,
      ih (List.not_mem_of_not_mem_cons hw)]
    cases s.splitOn sep with
    | nil => rfl
    | cons part parts => rfl

/-! What values stand for. -/

theorem octets_cons {c : Char} (hc : c ≠ '\\') (s : Str) :
    octets (c :: s) = String.utf8EncodeChar c ++ octets s := by
  rw [octets]
  rintro a b rest rfl
  exact absurd rfl hc

theorem decode_of_octets {value s : Str} (h : octets value = s.flatMap String.utf8EncodeChar) :
    decode value = some s := by
  have hu : (octets value).toByteArray = s.utf8Encode := by
    rw [h]
    rfl
  rw [decode, hu, List.utf8Decode?_utf8Encode]
  rfl

theorem octets_of_no_escape {s : Str} (h : '\\' ∉ s) :
    octets s = s.flatMap String.utf8EncodeChar := by
  induction s with
  | nil => rfl
  | cons c s ih =>
    have hc : c ≠ '\\' := fun he => h (by simp [he])
    rw [octets_cons hc, ih (List.not_mem_of_not_mem_cons h), List.flatMap_cons]

theorem mapM_decode {values texts : List Str}
    (h : List.Forall₂ (fun value text => decode value = some text) values texts) :
    values.mapM decode = some texts := by
  induction h with
  | nil => rfl
  | cons hd _ ih => simp [List.mapM_cons, hd, ih]

theorem mem_of_mem_splitOn {sep : Char} {s part : Str} (hp : part ∈ s.splitOn sep) :
    ∀ c ∈ part, c ∈ s := by
  intro c hc
  have hjoin : [sep].intercalate (s.splitOn sep) = s := List.intercalate_splitOn sep
  rw [← hjoin]
  generalize s.splitOn sep = parts at hp
  induction parts with
  | nil => cases hp
  | cons first parts ih =>
    cases parts with
    | nil =>
      have he : part = first := by simpa using hp
      simpa [List.intercalate, he] using he ▸ hc
    | cons next parts =>
      have hstep : List.intercalate [sep] (first :: next :: parts) =
          first ++ sep :: List.intercalate [sep] (next :: parts) := by
        simp [List.intercalate, List.intersperse]
      rw [hstep, List.mem_append, List.mem_cons]
      obtain rfl | hp := List.mem_cons.mp hp
      · exact Or.inl hc
      · exact Or.inr (Or.inr (ih hp))

/-- Without escapes the parts of a value stand for themselves. -/
theorem decode_plain {s : Str} (h : '\\' ∉ s) :
    (s.splitOn '*').mapM decode = some (s.splitOn '*') := by
  apply mapM_decode
  rw [List.forall₂_same]
  intro part hp
  apply decode_of_octets
  apply octets_of_no_escape
  intro hm
  exact h (mem_of_mem_splitOn hp _ hm)

end Multicorn.LdapFilter

namespace Multicorn.Ldap
open Multicorn.LdapFilter

/-! Strings. -/

/-- What a character becomes: itself, or its octet. -/
theorem translateChar_cases (c : Char) :
    (translateChar c = [c] ∧ normal c = true) ∨
      ∃ a b n, translateChar c = ['\\', a, b] ∧ hexDigit a = some (n / 16) ∧
        hexDigit b = some (n % 16) ∧ String.utf8EncodeChar c = [UInt8.ofNat n] := by
  by_cases hs : c ∈ SPECIAL_CHARS.map Prod.fst
  · right
    simp only [SPECIAL_CHARS, List.map_cons, List.map_nil, List.mem_cons, List.not_mem_nil,
      or_false] at hs
    obtain rfl | rfl | rfl | rfl | rfl | rfl := hs
    · exact ⟨'2', 'a', 0x2a, by decide⟩
    · exact ⟨'2', '8', 0x28, by decide⟩
    · exact ⟨'2', '9', 0x29, by decide⟩
    · exact ⟨'5', 'c', 0x5c, by decide⟩
    · exact ⟨'0', '0', 0, by decide⟩
    · exact ⟨'2', 'f', 0x2f, by decide⟩
  · left
    have hl : SPECIAL_CHARS.lookup c = none := by
      rw [List.lookup_eq_none_iff]
      intro p hp
      have hne : c ≠ p.1 := fun he => hs (List.mem_map.mpr ⟨p, hp, he.symm⟩)
      simpa using hne
    simp only [SPECIAL_CHARS, List.map_cons, List.map_nil, List.mem_cons, List.not_mem_nil,
      or_false, not_or] at hs
    refine ⟨by simp [translateChar, hl], ?_⟩
    simp only [normal, Bool.and_eq_true, decide_eq_true_eq]
    tauto

theorem translate_cons (c : Char) (s : Str) : translate (c :: s) = translateChar c ++ translate s :=
  rfl

theorem hexDigit_ne {c : Char} {n : ℕ} (h : hexDigit c = some n) : c ≠ '*' ∧ c ≠ '%' := by
  constructor
  · rintro rfl
    revert h
    simp [show hexDigit '*' = none by decide]
  · rintro rfl
    revert h
    simp [show hexDigit '%' = none by decide]

theorem translateChar_chars {c d : Char} (h : d ∈ translateChar c) : d ≠ '*' ∧ (d = '%' → c = '%') := by
  obtain ⟨ht, hn⟩ | ⟨a, b, n, ht, ha, hb, -⟩ := translateChar_cases c
  · rw [ht] at h
    obtain rfl := List.mem_singleton.mp h
    constructor
    · rintro rfl
      revert hn
      decide
    · exact id
  · rw [ht] at h
    simp only [List.mem_cons, List.not_mem_nil, or_false] at h
    obtain rfl | rfl | rfl := h
    · exact ⟨by decide, fun he => absurd he (by decide)⟩
    · exact ⟨(hexDigit_ne ha).1, fun he => absurd he (hexDigit_ne ha).2⟩
    · exact ⟨(hexDigit_ne hb).1, fun he => absurd he (hexDigit_ne hb).2⟩

theorem translate_no_star (s : Str) : '*' ∉ translate s := by
  intro h
  obtain ⟨c, -, hc⟩ := List.mem_flatMap.mp h
  exact (translateChar_chars hc).1 rfl

theorem octets_translate (s : Str) : octets (translate s) = s.flatMap String.utf8EncodeChar := by
  induction s with
  | nil => rfl
  | cons c s ih =>
    rw [translate_cons, List.flatMap_cons, ← ih]
    obtain ⟨ht, hn⟩ | ⟨a, b, n, ht, ha, hb, hc⟩ := translateChar_cases c
    · rw [ht]
      exact octets_cons (normal_ne_backslash hn) _
    · have hsum : n / 16 * 16 + n % 16 = n := by omega
      rw [ht, hc]
      change octets ('\\' :: a :: b :: translate s) = _
      rw [octets, ha, hb]
      simp [hsum]

theorem decode_translate (s : Str) : decode (translate s) = some s :=
  decode_of_octets (octets_translate s)

/-- A translated character, with any rest. -/
theorem validValue_translateChar {star : Bool} (c : Char) (s : Str) :
    validValue star (translateChar c ++ s) = validValue star s := by
  obtain ⟨ht, hn⟩ | ⟨a, b, n, ht, ha, hb, -⟩ := translateChar_cases c
  · rw [ht]
    change validValue star (c :: s) = _
    rw [validValue_cons (normal_ne_backslash hn), hn]
    rfl
  · rw [ht]
    change validValue star ('\\' :: a :: b :: s) = _
    rw [validValue, ha, hb]
    rfl

theorem validValue_translate (star : Bool) (s : Str) : validValue star (translate s) = true := by
  induction s with
  | nil => rfl
  | cons c s ih => rw [translate_cons, validValue_translateChar, ih]

theorem replacePercent_translateChar {c : Char} (hc : c ≠ '%') :
    replacePercent (translateChar c) = translateChar c := by
  unfold replacePercent
  conv_rhs => rw [← List.map_id (translateChar c)]
  apply List.map_congr_left
  intro d hd
  have hne : d ≠ '%' := fun he => hc ((translateChar_chars hd).2 he)
  rw [if_neg hne]
  rfl

theorem replacePercent_append (s t : Str) :
    replacePercent (s ++ t) = replacePercent s ++ replacePercent t := List.map_append

theorem validValue_pattern (s : Str) : validValue true (replacePercent (translate s)) = true := by
  induction s with
  | nil => rfl
  | cons c s ih =>
    rw [translate_cons, replacePercent_append]
    by_cases hc : c = '%'
    · subst hc
      change validValue true ('*' :: replacePercent (translate s)) = true
      rw [validValue_cons (by decide), ih]
      decide
    · rw [replacePercent_translateChar hc, validValue_translateChar, ih]

/-- The percent signs of a pattern, and no other characters, become the asterisks. -/
theorem splitOn_pattern (s : Str) :
    (replacePercent (translate s)).splitOn '*' = (s.splitOn '%').map translate := by
  induction s with
  | nil => rfl
  | cons c s ih =>
    rw [translate_cons, replacePercent_append, List.splitOn_cons_eq_if_modifyHead]
    by_cases hc : c = '%'
    · subst hc
      change ('*' :: replacePercent (translate s)).splitOn '*' = _
      rw [List.splitOn_cons_eq_if_modifyHead, ih]
      rfl
    · have hstar : '*' ∉ translateChar c := fun h => (translateChar_chars h).1 rfl
      have hne : (c == '%') = false := by simpa using hc
      rw [replacePercent_translateChar hc, splitOn_append_of_notMem hstar, ih, hne]
      cases s.splitOn '%' with
      | nil => rfl
      | cons part parts => rfl

/-! Lists. -/

namespace LdapFdw

variable (t : LdapFdw)

/-- A character that is shown as itself and means nothing in a filter. -/
def plainChar (star : Bool) (c : Char) : Bool :=
  t.printed c && c ≠ '(' && c ≠ ')' && c ≠ '\\' && (star || c ≠ '*')

/-- A string is shown in one of the two quotes, and holds the other one at most. -/
def plainAtom (star : Bool) : Atom → Bool
  | .str s => s.all (t.plainChar star) && !('\'' ∈ s && '"' ∈ s)
  | _ => true

def plainValue (star : Bool) : Value → Bool
  | .atom _ => true
  | .list elems => elems.all (t.plainAtom star)

theorem printed_control {c : Char} (h : ¬ ' ' ≤ c ∧ ¬ '~' < c) : t.printed c = false := by
  simp [printed, h.1, h.2]

theorem reprChar_plain {quote c : Char} (hq : c ≠ quote) (hc : c ≠ '\\') (hp : t.printed c = true) :
    t.reprChar quote c = [c] := by
  have hctl : ∀ d : Char, t.printed d = false → c ≠ d := by
    rintro d hd rfl
    rw [hp] at hd
    cases hd
  have ht : c ≠ '\t' := hctl _ (t.printed_control (by decide))
  have hn : c ≠ '\n' := hctl _ (t.printed_control (by decide))
  have hr : c ≠ '\r' := hctl _ (t.printed_control (by decide))
  simp [reprChar, hq, hc, ht, hn, hr, hp]

/-- Any other character is shown with a backslash before something that is not an octet. -/
theorem reprChar_escaped {quote c : Char} (hquote : quote = '\'' ∨ quote = '"')
    (h : c = quote ∨ c = '\\' ∨ t.printed c = false) :
    ∃ x, ['\\', x] <:+: t.reprChar quote c ∧ hexDigit x = none := by
  by_cases hq : c = quote ∨ c = '\\'
  · refine ⟨c, by simp [reprChar, hq], ?_⟩
    obtain rfl | rfl := hq
    · obtain rfl | rfl := hquote <;> decide
    · decide
  · have hp : t.printed c = false := by tauto
    simp only [reprChar, if_neg hq, hp, Bool.false_eq_true, if_false]
    split_ifs
    · exact ⟨'t', List.infix_rfl, by decide⟩
    · exact ⟨'n', List.infix_rfl, by decide⟩
    · exact ⟨'r', List.infix_rfl, by decide⟩
    · exact ⟨'x', (List.prefix_append ['\\', 'x'] _).isInfix, by decide⟩
    · exact ⟨'u', (List.prefix_append ['\\', 'u'] _).isInfix, by decide⟩
    · exact ⟨'U', (List.prefix_append ['\\', 'U'] _).isInfix, by decide⟩

theorem quoteOf_eq (s : Str) : quoteOf s = '\'' ∨ quoteOf s = '"' := by
  unfold quoteOf
  split_ifs
  · exact Or.inr rfl
  · exact Or.inl rfl

/-- A string that holds the quote it is shown in holds both. -/
theorem quoteOf_mem {s : Str} : quoteOf s ∈ s ↔ '\'' ∈ s ∧ '"' ∈ s := by
  unfold quoteOf
  split_ifs with h
  · tauto
  · tauto

/-- The characters that may stand in the text of a list. -/
def Harmless (star : Bool) (s : Str) : Prop := ∀ c ∈ s, normal c = true ∨ star = true ∧ c = '*'

theorem Harmless.append {star : Bool} {s u : Str} (hs : Harmless star s) (hu : Harmless star u) :
    Harmless star (s ++ u) := by
  intro c hc
  obtain hc | hc := List.mem_append.mp hc
  · exact hs c hc
  · exact hu c hc

theorem harmless_of_normal (star : Bool) {s : Str} (h : s.all normal = true) : Harmless star s :=
  fun c hc => Or.inl (List.all_eq_true.mp h c hc)

theorem harmless_number (star : Bool) (n : Number) : Harmless star n.text := by
  intro c hc
  left
  have h := List.all_eq_true.mp n.chars c hc
  simp only [normal, Bool.and_eq_true, decide_eq_true_eq]
  refine ⟨⟨⟨⟨?_, ?_⟩, ?_⟩, ?_⟩, ?_⟩
  all_goals
    rintro rfl
    revert h
    decide

theorem harmless_none (star : Bool) : Harmless star "None".toList :=
  harmless_of_normal star (by decide)

theorem harmless_repr {star : Bool} {a : Atom} (h : t.plainAtom star a = true) :
    Harmless star (t.repr a) := by
  cases a with
  | number n => exact harmless_number star n
  | none => exact harmless_none star
  | str s =>
    simp only [plainAtom, Bool.and_eq_true, List.all_eq_true, Bool.not_eq_true',
      Bool.and_eq_false_iff, decide_eq_false_iff_not] at h
    have hquote : normal (quoteOf s) = true := by
      obtain hq | hq := quoteOf_eq s
      · rw [hq]
        decide
      · rw [hq]
        decide
    have hnot : quoteOf s ∉ s := by
      rw [quoteOf_mem]
      tauto
    intro c hc
    simp only [repr, List.mem_cons, List.mem_append, List.mem_flatMap, List.not_mem_nil,
      or_false] at hc
    obtain rfl | ⟨d, hd, hc⟩ | rfl := hc
    · exact Or.inl hquote
    · have hplain := h.1 d hd
      simp only [plainChar, Bool.and_eq_true, decide_eq_true_eq, Bool.or_eq_true] at hplain
      obtain ⟨⟨⟨⟨hp, h1⟩, h2⟩, h3⟩, h4⟩ := hplain
      have hne : d ≠ quoteOf s := fun he => hnot (he ▸ hd)
      rw [t.reprChar_plain hne h3 hp] at hc
      obtain rfl := List.mem_singleton.mp hc
      by_cases hs : c = '*'
      · right
        exact ⟨by tauto, hs⟩
      · left
        have h0 : c ≠ '\x00' := by
          rintro rfl
          revert hp
          simp [t.printed_control (c := '\x00') (by decide)]
        simp [normal, h0, h1, h2, h3, hs]
    · exact Or.inl hquote

theorem harmless_elemsStr {star : Bool} {elems : List Atom}
    (h : ∀ a ∈ elems, t.plainAtom star a = true) : Harmless star (t.elemsStr elems) := by
  induction elems using elemsStr.induct with
  | case1 => simp [Harmless, elemsStr]
  | case2 a => exact t.harmless_repr (h a (by simp))
  | case3 a elems hne ih =>
    have hsep : Harmless star [',', ' '] := harmless_of_normal star (by decide)
    have htail := ih fun b hb => h b (List.mem_cons_of_mem a hb)
    have hfull := (t.harmless_repr (h a (by simp))).append (hsep.append htail)
    rw [elemsStr]
    · exact hfull
    · exact hne

theorem harmless_list {star : Bool} {elems : List Atom}
    (h : ∀ a ∈ elems, t.plainAtom star a = true) : Harmless star (t.str (.list elems)) := by
  have hopen : Harmless star ['['] := harmless_of_normal star (by decide)
  have hclose : Harmless star [']'] := harmless_of_normal star (by decide)
  exact hopen.append ((t.harmless_elemsStr h).append hclose)

theorem repr_infix {elems : List Atom} {a : Atom} (ha : a ∈ elems) :
    t.repr a <:+: t.str (.list elems) := by
  have helems : t.repr a <:+: t.elemsStr elems := by
    induction elems using elemsStr.induct with
    | case1 => cases ha
    | case2 b =>
      rw [List.mem_singleton.mp ha]
      exact List.infix_rfl
    | case3 b elems hne ih =>
      have hstep : t.elemsStr (b :: elems) = t.repr b ++ ([',', ' '] ++ t.elemsStr elems) := by
        rw [elemsStr]
        · rfl
        · exact hne
      rw [hstep]
      obtain rfl | ha := List.mem_cons.mp ha
      · exact (List.prefix_append _ _).isInfix
      · exact (ih ha).trans ((List.suffix_append _ _).trans (List.suffix_append _ _)).isInfix
  exact helems.trans ⟨['['], [']'], rfl⟩

theorem reprChar_infix {s : Str} {c : Char} (hc : c ∈ s) :
    t.reprChar (quoteOf s) c <:+: t.repr (.str s) := by
  obtain ⟨u, v, rfl⟩ := List.append_of_mem hc
  refine ⟨quoteOf (u ++ c :: v) :: u.flatMap (t.reprChar (quoteOf (u ++ c :: v))),
    v.flatMap (t.reprChar (quoteOf (u ++ c :: v))) ++ [quoteOf (u ++ c :: v)], ?_⟩
  simp [repr]

/-- The text of a list keeps to the grammar only when all its elements are plain. -/
theorem plainAtom_of_valid {star : Bool} {elems : List Atom}
    (hvalid : validValue true (t.str (.list elems)) = true)
    (hstar : star = false → '*' ∉ t.str (.list elems)) {a : Atom} (ha : a ∈ elems) :
    t.plainAtom star a = true := by
  cases a with
  | number n => rfl
  | none => rfl
  | str s =>
    have hin : ∀ c ∈ s, t.reprChar (quoteOf s) c <:+: t.str (.list elems) :=
      fun c hc => (t.reprChar_infix hc).trans (t.repr_infix ha)
    have hshown : ∀ c ∈ s, c ≠ quoteOf s ∧ c ≠ '\\' ∧ t.printed c = true := by
      intro c hc
      by_contra hbad
      obtain ⟨x, hx, hhex⟩ := t.reprChar_escaped (quoteOf_eq s)
        (show c = quoteOf s ∨ c = '\\' ∨ t.printed c = false by
          rw [← Bool.not_eq_true]
          tauto)
      have hsome := validValue_escape hvalid (hx.trans (hin c hc))
      rw [hhex] at hsome
      cases hsome
    have hmem : ∀ c ∈ s, c ∈ t.str (.list elems) := by
      intro c hc
      obtain ⟨h1, h2, h3⟩ := hshown c hc
      have hsub := (hin c hc).subset
      rw [t.reprChar_plain h1 h2 h3] at hsub
      exact hsub (by simp)
    simp only [plainAtom, Bool.and_eq_true, List.all_eq_true, Bool.not_eq_true',
      Bool.and_eq_false_iff, decide_eq_false_iff_not]
    constructor
    · intro c hc
      obtain ⟨-, h2, h3⟩ := hshown c hc
      have hparens := validValue_chars hvalid c (hmem c hc)
      have hs : star = true ∨ c ≠ '*' := by
        cases star with
        | true => exact Or.inl rfl
        | false =>
          right
          rintro rfl
          exact hstar rfl (hmem _ hc)
      simp [plainChar, h2, h3, hparens.1, hparens.2, hs]
    · have hq : quoteOf s ∉ s := fun hm => (hshown _ hm).1 rfl
      rw [quoteOf_mem] at hq
      tauto

theorem valid_of_plain {star : Bool} (operator : Str) {value : Value}
    (h : t.plainValue star value = true) : validValue true (t.val operator value) = true := by
  have hharmless : ∀ {s : Str}, Harmless star s → validValue true s = true := by
    intro s hs
    apply validValue_of_chars
    intro c hc
    obtain hn | ⟨-, he⟩ := hs c hc
    · exact Or.inl hn
    · exact Or.inr ⟨rfl, he⟩
  cases value with
  | atom a =>
    cases a with
    | str s =>
      simp only [val]
      split_ifs
      · exact validValue_pattern s
      · exact validValue_translate true s
    | number n => exact hharmless (harmless_number star n)
    | none => exact hharmless (harmless_none star)
  | list elems =>
    simp only [plainValue, List.all_eq_true] at h
    exact hharmless (t.harmless_list h)

/-- Under `=` a plain value has no asterisk. -/
theorem star_notMem_val {value : Value} (h : t.plainValue false value = true) :
    '*' ∉ t.val eqOp value := by
  have hharmless : ∀ {s : Str}, Harmless false s → '*' ∉ s := by
    intro s hs hm
    obtain hn | ⟨he, -⟩ := hs _ hm
    · revert hn
      decide
    · cases he
  cases value with
  | atom a =>
    cases a with
    | str s => exact translate_no_star s
    | number n => exact hharmless (harmless_number false n)
    | none => exact hharmless (harmless_none false)
  | list elems =>
    simp only [plainValue, List.all_eq_true] at h
    exact hharmless (t.harmless_list h)

/-- A qual keeps to the grammar, and adds no asterisk under `=`, exactly when its value is
plain. -/
theorem plainValue_iff {operator : Str} (hop : operator = eqOp ∨ operator = likeOp) (value : Value) :
    t.plainValue (operator = likeOp) value = true ↔
      validValue true (t.val operator value) = true ∧
        (operator = eqOp → '*' ∉ t.val operator value) := by
  constructor
  · intro h
    refine ⟨t.valid_of_plain operator h, ?_⟩
    rintro rfl
    exact t.star_notMem_val h
  · rintro ⟨hvalid, hno⟩
    cases value with
    | atom a => rfl
    | list elems =>
      simp only [plainValue, List.all_eq_true]
      intro a ha
      refine t.plainAtom_of_valid hvalid (fun hs => hno ?_) ha
      simpa using hop.resolve_right (by simpa using hs)

end LdapFdw

end Multicorn.Ldap
