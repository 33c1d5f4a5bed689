import Mathlib.Data.List.Basic
import Mathlib.Data.List.Forall2
import Mathlib.Data.List.Induction
import Mathlib.Data.List.Infix
import Multicorn.General.Kleene

/-! LDAP search filters in their string form: the grammar, that a string has at most one
reading, and when an entry matches. -/
namespace Multicorn.LdapFilter
open Multicorn.Kleene

abbrev Str := List Char

/-- The comparisons of an item; the rule of an extensible match is written with its colons. -/
inductive FilterType
  | equal
  | approx
  | greaterOrEqual
  | lessOrEqual
  | extensible (rule : Str)
  deriving DecidableEq

/-- A filter with the values as they are written; an `equal` item whose value holds asterisks
is a presence or a substring assertion. -/
inductive Filter
  | and (filters : List Filter)
  | or (filters : List Filter)
  | not (filter : Filter)
  | item (attr : Str) (type : FilterType) (value : Str)

/-! The grammar. -/

def FilterType.text : FilterType → Str
  | .equal => []
  | .approx => ['~']
  | .greaterOrEqual => ['>']
  | .lessOrEqual => ['<']
  | .extensible rule => rule ++ [':']

mutual

def Filter.text : Filter → Str
  | .and filters => '(' :: '&' :: (Filter.texts filters ++ [')'])
  | .or filters => '(' :: '|' :: (Filter.texts filters ++ [')'])
  | .not filter => '(' :: '!' :: (filter.text ++ [')'])
  | .item attr type value => '(' :: (attr ++ type.text ++ '=' :: (value ++ [')']))

def Filter.texts : List Filter → Str
  | [] => []
  | filter :: filters => filter.text ++ Filter.texts filters

end

def keyChar (c : Char) : Bool := c.isAlphanum || c = '-'

/-- A number without leading zeros. -/
def number : Str → Bool
  | [] => false
  | ['0'] => true
  | '0' :: _ => false
  | digits => digits.all Char.isDigit

def descr : Str → Bool
  | [] => false
  | c :: rest => c.isAlpha && rest.all keyChar

def numericOid (s : Str) : Bool := 2 ≤ (s.splitOn '.').length && (s.splitOn '.').all number

def oid (s : Str) : Bool := descr s || numericOid s

def attributeDescription (s : Str) : Bool :=
  match s.splitOn ';' with
  | [] => false
  | type :: options => oid type && options.all fun option => !option.isEmpty && option.all keyChar

def hexDigit (c : Char) : Option ℕ :=
  if c.isDigit then some (c.toNat - '0'.toNat)
  else if 'a' ≤ c ∧ c ≤ 'f' then some (c.toNat - 'a'.toNat + 10)
  else if 'A' ≤ c ∧ c ≤ 'F' then some (c.toNat - 'A'.toNat + 10)
  else none

/-- The characters that stand for themselves in a value. -/
def normal (c : Char) : Bool :=
  c ≠ '\x00' && c ≠ '(' && c ≠ ')' && c ≠ '*' && c ≠ '\\'

/-- Normal characters and escaped octets, and asterisks where the item allows them. -/
def validValue (star : Bool) : Str → Bool
  | [] => true
  | '\\' :: a :: b :: rest => (hexDigit a).isSome && (hexDigit b).isSome && validValue star rest
  | c :: rest => (normal c || (star && c = '*')) && validValue star rest

/-- The rule of an extensible match: `:dn`, a matching rule, or both. -/
def validRule (rule : Str) : Bool :=
  match rule.splitOn ':' with
  | [[]] => true
  | [[], a] => a = ['d', 'n'] || oid a
  | [[], a, b] => a = ['d', 'n'] && oid b
  | _ => false

/-- Without an attribute there must be a matching rule. -/
def bareRule (rule : Str) : Bool := validRule rule && rule ≠ [] && rule ≠ [':', 'd', 'n']

def validItem (attr : Str) (type : FilterType) (value : Str) : Bool :=
  (match type with
    | .extensible rule =>
      validRule rule && (attributeDescription attr || (attr.isEmpty && bareRule rule))
    | _ => attributeDescription attr) &&
  validValue (type = .equal) value

mutual

/-- The filter is one the grammar has. -/
def Filter.wf : Filter → Bool
  | .and filters => !filters.isEmpty && Filter.wfs filters
  | .or filters => !filters.isEmpty && Filter.wfs filters
  | .not filter => filter.wf
  | .item attr type value => validItem attr type value

def Filter.wfs : List Filter → Bool
  | [] => true
  | filter :: filters => filter.wf && Filter.wfs filters

end

/-- The string is a filter of the grammar, and this is its reading. -/
def ReadsAs (s : Str) (f : Filter) : Prop := f.wf = true ∧ f.text = s

/-! What characters the parts of an item can hold. -/

def attrChar (c : Char) : Bool := keyChar c || c = '.' || c = ';'

theorem mem_splitOn (sep : Char) {s : Str} {c : Char} (hc : c ∈ s) :
    c = sep ∨ ∃ part ∈ s.splitOn sep, c ∈ part := by
  have h : [sep].intercalate (s.splitOn sep) = s := List.intercalate_splitOn sep
  rw [← h] at hc
  generalize s.splitOn sep = parts at hc
  induction parts with
  | nil => simp [List.intercalate] at hc
  | cons part parts ih =>
    cases parts with
    | nil =>
      right
      exact ⟨part, by simp, by simpa [List.intercalate] using hc⟩
    | cons next parts =>
      have hstep : List.intercalate [sep] (part :: next :: parts) =
          part ++ sep :: List.intercalate [sep] (next :: parts) := by
        simp [List.intercalate, List.intersperse]
      rw [hstep, List.mem_append, List.mem_cons] at hc
      obtain hc | hc | hc := hc
      · exact Or.inr ⟨part, by simp, hc⟩
      · exact Or.inl hc
      · obtain hc | ⟨p, hp, hcp⟩ := ih hc
        · exact Or.inl hc
        · exact Or.inr ⟨p, List.mem_cons_of_mem _ hp, hcp⟩

theorem keyChar_of_digit {c : Char} (h : c.isDigit = true) : keyChar c = true := by
  simp [keyChar, Char.isAlphanum, h]

theorem keyChar_of_number {s : Str} (h : number s = true) : ∀ c ∈ s, keyChar c = true := by
  intro c hc
  match s, h with
  | ['0'], _ =>
    have he : c = '0' := by simpa using hc
    rw [he]
    decide
  | '0' :: _ :: _, h => simp [number] at h
  | d :: rest, h =>
    by_cases hd : d = '0'
    · subst hd
      cases rest with
      | nil =>
        have he : c = '0' := by simpa using hc
        rw [he]
        decide
      | cons _ _ => simp [number] at h
    · have hall : (d :: rest).all Char.isDigit = true := by
        rw [number] at h
        · exact h
        · simp
        · intro he
          exact absurd (List.cons.inj he).1 hd
        · intro tail he
          exact hd (List.cons.inj he).1
      exact keyChar_of_digit (List.all_eq_true.mp hall c hc)

theorem keyChar_of_descr {s : Str} (h : descr s = true) : ∀ c ∈ s, keyChar c = true := by
  cases s with
  | nil => intro c hc; cases hc
  | cons d rest =>
    simp only [descr, Bool.and_eq_true, List.all_eq_true] at h
    intro c hc
    obtain rfl | hc := List.mem_cons.mp hc
    · simp [keyChar, Char.isAlphanum, h.1]
    · exact h.2 c hc

theorem oid_chars {s : Str} (h : oid s = true) : ∀ c ∈ s, keyChar c = true ∨ c = '.' := by
  intro c hc
  simp only [oid, numericOid, Bool.or_eq_true, Bool.and_eq_true, List.all_eq_true] at h
  obtain h | ⟨-, h⟩ := h
  · exact Or.inl (keyChar_of_descr h c hc)
  · obtain hd | ⟨part, hp, hcp⟩ := mem_splitOn '.' hc
    · exact Or.inr hd
    · exact Or.inl (keyChar_of_number (h part hp) c hcp)

theorem attrChar_of_oid {s : Str} (h : oid s = true) : ∀ c ∈ s, attrChar c = true := by
  intro c hc
  obtain hk | rfl := oid_chars h c hc
  · simp [attrChar, hk]
  · decide

theorem attributeDescription_chars {s : Str} (h : attributeDescription s = true) :
    ∀ c ∈ s, attrChar c = true := by
  intro c hc
  cases hs : s.splitOn ';' with
  | nil => simp [attributeDescription, hs] at h
  | cons type options =>
    simp only [attributeDescription, hs, Bool.and_eq_true, List.all_eq_true] at h
    obtain rfl | ⟨part, hp, hcp⟩ := mem_splitOn ';' hc
    · decide
    · rw [hs] at hp
      obtain rfl | hp := List.mem_cons.mp hp
      · exact attrChar_of_oid h.1 c hcp
      · have hk := (h.2 part hp).2 c hcp
        simp [attrChar, hk]

theorem attributeDescription_ne_nil {s : Str} (h : attributeDescription s = true) : s ≠ [] := by
  rintro rfl
  revert h
  decide

/-! A string has at most one reading. -/

/-- The left side of an item: the attribute and what stands before the equals sign. -/
def left (attr : Str) (type : FilterType) : Str := attr ++ type.text

theorem validValue_chars {star : Bool} {s : Str} (h : validValue star s = true) :
    ∀ c ∈ s, c ≠ '(' ∧ c ≠ ')' := by
  have hhex : ∀ c : Char, (hexDigit c).isSome = true → c ≠ '(' ∧ c ≠ ')' := by
    intro c hc
    constructor
    · rintro rfl
      revert hc
      decide
    · rintro rfl
      revert hc
      decide
  induction s using validValue.induct with
  | case1 => simp
  | case2 a b rest ih =>
    simp only [validValue, Bool.and_eq_true] at h
    intro c hc
    simp only [List.mem_cons] at hc
    obtain rfl | rfl | rfl | hc := hc
    · decide
    · exact hhex _ h.1.1
    · exact hhex _ h.1.2
    · exact ih h.2 c hc
  | case3 d rest hne ih =>
    rw [validValue] at h
    · simp only [Bool.and_eq_true, Bool.or_eq_true] at h
      intro c hc
      obtain rfl | hc := List.mem_cons.mp hc
      · obtain hn | ⟨-, he⟩ := h.1
        · simp only [normal, Bool.and_eq_true, decide_eq_true_eq] at hn
          exact ⟨hn.1.1.1.2, hn.1.1.2⟩
        · simp only [decide_eq_true_eq] at he
          rw [he]
          decide
      · exact ih h.2 c hc
    · exact hne

theorem validRule_chars {rule : Str} (h : validRule rule = true) :
    ∀ c ∈ rule, keyChar c = true ∨ c = '.' ∨ c = ':' := by
  have hdn : ∀ a : Str, a = ['d', 'n'] ∨ oid a = true → ∀ c ∈ a, keyChar c = true ∨ c = '.' := by
    rintro a (rfl | ha)
    · have hletters : ['d', 'n'].all keyChar = true := by decide
      intro c hc
      exact Or.inl (List.all_eq_true.mp hletters c hc)
    · exact oid_chars ha
  intro c hc
  obtain rfl | ⟨part, hp, hcp⟩ := mem_splitOn ':' hc
  · exact Or.inr (Or.inr rfl)
  · suffices hpart : keyChar c = true ∨ c = '.' by tauto
    unfold validRule at h
    split at h
    · next hs => simp_all
    · next a hs =>
      simp only [Bool.or_eq_true, decide_eq_true_eq] at h
      simp only [hs, List.mem_cons, List.not_mem_nil, or_false] at hp
      obtain rfl | rfl := hp
      · cases hcp
      · exact hdn _ h c hcp
    · next a b hs =>
      simp only [Bool.and_eq_true, decide_eq_true_eq] at h
      simp only [hs, List.mem_cons, List.not_mem_nil, or_false] at hp
      obtain rfl | rfl | rfl := hp
      · cases hcp
      · exact hdn _ (Or.inl h.1) c hcp
      · exact hdn _ (Or.inr h.2) c hcp
    · cases h

theorem head_of_splitOn {s : Str} {sep : Char} {parts : List Str}
    (h : s.splitOn sep = [] :: parts) : s = [] ∨ ∃ rest, s = sep :: rest := by
  cases s with
  | nil => exact Or.inl rfl
  | cons c rest =>
    right
    rw [List.splitOn_cons_eq_if_modifyHead] at h
    split_ifs at h with hc
    · exact ⟨rest, by rw [eq_of_beq hc]⟩
    · cases hs : rest.splitOn sep with
      | nil => exact absurd hs (List.splitOn_ne_nil _ _)
      | cons part parts' => simp [hs] at h

/-- The mark of a comparison does not begin with a character of an attribute. -/
theorem text_start {type : FilterType} (h : ∀ rule, type = .extensible rule → validRule rule) :
    type.text = [] ∨ ∃ c rest, type.text = c :: rest ∧ attrChar c = false ∧
      c ≠ '&' ∧ c ≠ '|' ∧ c ≠ '!' := by
  cases type with
  | equal => exact Or.inl rfl
  | approx => exact Or.inr ⟨'~', [], rfl, by decide⟩
  | greaterOrEqual => exact Or.inr ⟨'>', [], rfl, by decide⟩
  | lessOrEqual => exact Or.inr ⟨'<', [], rfl, by decide⟩
  | extensible rule =>
    right
    have hr := h rule rfl
    have hstart : rule = [] ∨ ∃ rest, rule = ':' :: rest := by
      unfold validRule at hr
      split at hr
      · next hs => exact head_of_splitOn hs
      · next hs => exact head_of_splitOn hs
      · next hs => exact head_of_splitOn hs
      · cases hr
    obtain rfl | ⟨rest, rfl⟩ := hstart
    · exact ⟨':', [], rfl, by decide⟩
    · exact ⟨':', rest ++ [':'], rfl, by decide⟩

theorem text_chars {type : FilterType} (h : ∀ rule, type = .extensible rule → validRule rule) :
    ∀ c ∈ type.text, c ≠ '=' ∧ c ≠ '(' ∧ c ≠ ')' := by
  cases type with
  | equal => simp [FilterType.text]
  | approx => simp [FilterType.text]
  | greaterOrEqual => simp [FilterType.text]
  | lessOrEqual => simp [FilterType.text]
  | extensible rule =>
    intro c hc
    obtain hc | hc := List.mem_append.mp hc
    · have hchars := validRule_chars (h rule rfl) c hc
      constructor
      · rintro rfl
        revert hchars
        decide
      · constructor
        · rintro rfl
          revert hchars
          decide
        · rintro rfl
          revert hchars
          decide
    · rw [List.mem_singleton.mp hc]
      decide

theorem takeWhile_left {attr : Str} {type : FilterType} (ha : ∀ c ∈ attr, attrChar c = true)
    (h : ∀ rule, type = .extensible rule → validRule rule) :
    (left attr type).takeWhile attrChar = attr := by
  rw [left, List.takeWhile_append_of_pos ha]
  obtain ht | ⟨c, rest, ht, hc, -⟩ := text_start h
  · simp [ht]
  · simp [ht, hc]

theorem FilterType.text_inj {a b : FilterType} (h : a.text = b.text) : a = b := by
  have hlast : ∀ rule : Str, (FilterType.extensible rule).text.getLast? = some ':' := by
    intro rule
    simp [FilterType.text]
  cases a with
  | extensible rule =>
    cases b with
    | extensible rule' => exact congrArg FilterType.extensible (List.append_cancel_right h)
    | _ =>
      have hl := hlast rule
      rw [h] at hl
      cases hl
  | _ =>
    cases b with
    | extensible rule =>
      have hl := hlast rule
      rw [← h] at hl
      cases hl
    | _ => first | rfl | cases h

/-- What an item of the grammar is made of. -/
structure ItemParts (attr : Str) (type : FilterType) (value : Str) : Prop where
  attr_chars : ∀ c ∈ attr, attrChar c = true
  valid_rule : ∀ rule, type = .extensible rule → validRule rule
  value_chars : ∀ c ∈ value, c ≠ '(' ∧ c ≠ ')'
  nonempty : attr = [] → type.text ≠ []

theorem validItem.parts {attr : Str} {type : FilterType} {value : Str}
    (h : validItem attr type value = true) : ItemParts attr type value := by
  simp only [validItem, Bool.and_eq_true] at h
  obtain ⟨hleft, hvalue⟩ := h
  have hattr : attributeDescription attr = true ∨ attr = [] ∧ ∃ rule, type = .extensible rule := by
    cases type with
    | extensible rule =>
      simp only [Bool.and_eq_true, Bool.or_eq_true, List.isEmpty_iff] at hleft
      obtain ha | ⟨ha, -⟩ := hleft.2
      · exact Or.inl ha
      · exact Or.inr ⟨ha, rule, rfl⟩
    | _ => exact Or.inl hleft
  constructor
  · obtain ha | ⟨rfl, -⟩ := hattr
    · exact attributeDescription_chars ha
    · simp
  · rintro rule rfl
    simp only [Bool.and_eq_true] at hleft
    exact hleft.1
  · exact validValue_chars hvalue
  · intro he
    obtain ha | ⟨-, rule, rfl⟩ := hattr
    · exact absurd he (attributeDescription_ne_nil ha)
    · simp [FilterType.text]

variable {attr attr' : Str} {type type' : FilterType} {value value' : Str}

theorem ItemParts.left_chars (h : ItemParts attr type value) :
    ∀ c ∈ left attr type, c ≠ '=' ∧ c ≠ '(' ∧ c ≠ ')' := by
  intro c hc
  obtain hc | hc := List.mem_append.mp hc
  · have ha := h.attr_chars c hc
    constructor
    · rintro rfl
      revert ha
      decide
    · constructor
      · rintro rfl
        revert ha
        decide
      · rintro rfl
        revert ha
        decide
  · exact text_chars h.valid_rule c hc

theorem ItemParts.left_start (h : ItemParts attr type value) :
    ∃ c rest, left attr type = c :: rest ∧ c ≠ '&' ∧ c ≠ '|' ∧ c ≠ '!' := by
  cases attr with
  | nil =>
    obtain ht | ⟨c, rest, ht, -, hc⟩ := text_start h.valid_rule
    · exact absurd ht (h.nonempty rfl)
    · exact ⟨c, rest, by rw [left, ht]; rfl, hc⟩
  | cons c rest =>
    have ha := h.attr_chars c (by simp)
    refine ⟨c, rest ++ type.text, rfl, ?_, ?_, ?_⟩
    · rintro rfl
      revert ha
      decide
    · rintro rfl
      revert ha
      decide
    · rintro rfl
      revert ha
      decide

theorem ItemParts.left_inj (h : ItemParts attr type value) (h' : ItemParts attr' type' value')
    (he : left attr type = left attr' type') : attr = attr' ∧ type = type' := by
  have ha : attr = attr' := by
    rw [← takeWhile_left h.attr_chars h.valid_rule, he, takeWhile_left h'.attr_chars h'.valid_rule]
  subst ha
  have ht : type.text = type'.text := List.append_cancel_left he
  exact ⟨rfl, FilterType.text_inj ht⟩

/-- The first occurrence of a character tells where a text is cut. -/
theorem cut_inj {c : Char} {u u' r r' : Str} (hu : c ∉ u) (hu' : c ∉ u')
    (h : u ++ c :: r = u' ++ c :: r') : u = u' ∧ r = r' := by
  induction u generalizing u' with
  | nil =>
    cases u' with
    | nil => exact ⟨rfl, (List.cons.inj h).2⟩
    | cons d u' => exact absurd (by rw [(List.cons.inj h).1]; simp) hu'
  | cons d u ih =>
    cases u' with
    | nil => exact absurd (by rw [(List.cons.inj h).1]; simp) hu
    | cons d' u' =>
      obtain ⟨rfl, htail⟩ := List.cons.inj h
      obtain ⟨rfl, hr⟩ :=
        ih (List.not_mem_of_not_mem_cons hu) (List.not_mem_of_not_mem_cons hu') htail
      exact ⟨rfl, hr⟩

theorem ItemParts.body_inj (h : ItemParts attr type value) (h' : ItemParts attr' type' value')
    {r r' : Str}
    (he : left attr type ++ '=' :: (value ++ ')' :: r) =
      left attr' type' ++ '=' :: (value' ++ ')' :: r')) :
    attr = attr' ∧ type = type' ∧ value = value' ∧ r = r' := by
  have hl : '=' ∉ left attr type := fun hm => (h.left_chars '=' hm).1 rfl
  have hl' : '=' ∉ left attr' type' := fun hm => (h'.left_chars '=' hm).1 rfl
  obtain ⟨hleft, hrest⟩ := cut_inj hl hl' he
  have hv : ')' ∉ value := fun hm => (h.value_chars ')' hm).2 rfl
  have hv' : ')' ∉ value' := fun hm => (h'.value_chars ')' hm).2 rfl
  obtain ⟨hvalue, hr⟩ := cut_inj hv hv' hrest
  obtain ⟨ha, ht⟩ := h.left_inj h' hleft
  exact ⟨ha, ht, hvalue, hr⟩

theorem text_item (r : Str) :
    (Filter.item attr type value).text ++ r = '(' :: (left attr type ++ '=' :: (value ++ ')' :: r)) := by
  simp [Filter.text, left]

theorem Filter.text_start (f : Filter) : ∃ rest, f.text = '(' :: rest := by
  cases f with
  | _ => exact ⟨_, rfl⟩

/-- An item is told from the other filters by its second character. -/
theorem item_ne {c : Char} (h : ItemParts attr type value) (hc : c = '&' ∨ c = '|' ∨ c = '!')
    (r s : Str) : (Filter.item attr type value).text ++ r ≠ '(' :: c :: s := by
  obtain ⟨d, rest, hd, h1, h2, h3⟩ := h.left_start
  rw [text_item, hd]
  intro he
  have hdc : d = c := (List.cons.inj (List.cons.inj he).2).1
  subst hdc
  obtain rfl | rfl | rfl := hc
  · exact h1 rfl
  · exact h2 rfl
  · exact h3 rfl

mutual

theorem Filter.text_inj : ∀ f g : Filter, f.wf = true → g.wf = true → ∀ r r',
    f.text ++ r = g.text ++ r' → f = g ∧ r = r'
  | .and fs, .and gs, hf, hg, r, r', h => by
    simp only [Filter.wf, Bool.and_eq_true] at hf hg
    simp only [Filter.text, List.cons_append, List.append_assoc, List.nil_append,
      List.cons.injEq, true_and] at h
    obtain ⟨rfl, rfl⟩ := Filter.texts_inj fs gs hf.2 hg.2 r r' h
    exact ⟨rfl, rfl⟩
  | .or fs, .or gs, hf, hg, r, r', h => by
    simp only [Filter.wf, Bool.and_eq_true] at hf hg
    simp only [Filter.text, List.cons_append, List.append_assoc, List.nil_append,
      List.cons.injEq, true_and] at h
    obtain ⟨rfl, rfl⟩ := Filter.texts_inj fs gs hf.2 hg.2 r r' h
    exact ⟨rfl, rfl⟩
  | .not f, .not g, hf, hg, r, r', h => by
    simp only [Filter.text, List.cons_append, List.append_assoc, List.nil_append,
      List.cons.injEq, true_and] at h
    obtain ⟨rfl, hr⟩ := Filter.text_inj f g hf hg _ _ h
    exact ⟨rfl, (List.cons.inj hr).2⟩
  | .item a t v, .item a' t' v', hf, hg, r, r', h => by
    rw [text_item, text_item, List.cons.injEq] at h
    obtain ⟨rfl, rfl, rfl, rfl⟩ := (validItem.parts hf).body_inj (validItem.parts hg) h.2
    exact ⟨rfl, rfl⟩
  | .item a t v, .and gs, hf, _, r, r', h => absurd h (item_ne (validItem.parts hf) (by simp) _ _)
  | .item a t v, .or gs, hf, _, r, r', h => absurd h (item_ne (validItem.parts hf) (by simp) _ _)
  | .item a t v, .not g, hf, _, r, r', h => absurd h (item_ne (validItem.parts hf) (by simp) _ _)
  | .and gs, .item a t v, _, hg, r, r', h =>
    absurd h.symm (item_ne (validItem.parts hg) (by simp) _ _)
  | .or gs, .item a t v, _, hg, r, r', h =>
    absurd h.symm (item_ne (validItem.parts hg) (by simp) _ _)
  | .not g, .item a t v, _, hg, r, r', h =>
    absurd h.symm (item_ne (validItem.parts hg) (by simp) _ _)
  | .and _, .or _, _, _, _, _, h => by simp [Filter.text] at h
  | .and _, .not _, _, _, _, _, h => by simp [Filter.text] at h
  | .or _, .and _, _, _, _, _, h => by simp [Filter.text] at h
  | .or _, .not _, _, _, _, _, h => by simp [Filter.text] at h
  | .not _, .and _, _, _, _, _, h => by simp [Filter.text] at h
  | .not _, .or _, _, _, _, _, h => by simp [Filter.text] at h

theorem Filter.texts_inj : ∀ fs gs : List Filter, Filter.wfs fs = true → Filter.wfs gs = true →
    ∀ r r', Filter.texts fs ++ ')' :: r = Filter.texts gs ++ ')' :: r' → fs = gs ∧ r = r'
  | [], [], _, _, r, r', h => ⟨rfl, (List.cons.inj h).2⟩
  | [], g :: gs, _, _, r, r', h => by
    obtain ⟨rest, hg⟩ := g.text_start
    simp [Filter.texts, hg] at h
  | f :: fs, [], _, _, r, r', h => by
    obtain ⟨rest, hf⟩ := f.text_start
    simp [Filter.texts, hf] at h
  | f :: fs, g :: gs, hf, hg, r, r', h => by
    simp only [Filter.wfs, Bool.and_eq_true] at hf hg
    simp only [Filter.texts, List.append_assoc] at h
    obtain ⟨rfl, hrest⟩ := Filter.text_inj f g hf.1 hg.1 _ _ h
    obtain ⟨rfl, rfl⟩ := Filter.texts_inj fs gs hf.2 hg.2 r r' hrest
    exact ⟨rfl, rfl⟩

end

/-- A string has at most one reading. -/
theorem ReadsAs.unique {s : Str} {f g : Filter} (hf : ReadsAs s f) (hg : ReadsAs s g) : f = g := by
  have h : f.text ++ [] = g.text ++ [] := by rw [hf.2, hg.2]
  exact (Filter.text_inj f g hf.1 hg.1 [] [] h).1

/-! The structure of a filter. -/

mutual

/-- The filter without its values. -/
def Filter.shape : Filter → Filter
  | .and filters => .and (Filter.shapes filters)
  | .or filters => .or (Filter.shapes filters)
  | .not filter => .not filter.shape
  | .item attr type _ => .item attr type []

def Filter.shapes : List Filter → List Filter
  | [] => []
  | filter :: filters => filter.shape :: Filter.shapes filters

end

mutual

/-- The values of the items, from left to right. -/
def Filter.values : Filter → List Str
  | .and filters => Filter.valuesAll filters
  | .or filters => Filter.valuesAll filters
  | .not filter => filter.values
  | .item _ _ value => [value]

def Filter.valuesAll : List Filter → List Str
  | [] => []
  | filter :: filters => filter.values ++ Filter.valuesAll filters

end

mutual

theorem Filter.length_values_shape : ∀ f : Filter, f.shape.values.length = f.values.length
  | .and filters => Filter.length_valuesAll_shapes filters
  | .or filters => Filter.length_valuesAll_shapes filters
  | .not filter => filter.length_values_shape
  | .item _ _ _ => rfl

theorem Filter.length_valuesAll_shapes : ∀ filters : List Filter,
    (Filter.valuesAll (Filter.shapes filters)).length = (Filter.valuesAll filters).length
  | [] => rfl
  | filter :: filters => by
    simp only [Filter.shapes, Filter.valuesAll, List.length_append, filter.length_values_shape,
      Filter.length_valuesAll_shapes filters]

end

/-- The three assertions written with an equals sign. -/
inductive Form
  | equality
  | presence
  | substrings (count : ℕ)
  deriving DecidableEq

def form (value : Str) : Form :=
  if value = ['*'] then .presence
  else if '*' ∈ value then .substrings (value.splitOn '*').length
  else .equality

theorem form_eq_equality {value : Str} : form value = .equality ↔ '*' ∉ value := by
  unfold form
  split_ifs with h h'
  · simp [h]
  · simp [h']
  · simp [h']

/-! Conjunctions with one more item at each level. -/

/-- The items are attributes with values, the last one outermost. -/
def nest (first : Filter) (items : List (Str × Str)) : Filter :=
  items.foldl (fun f item => .and [f, .item item.1 .equal item.2]) first

/-- What stands behind the first filter. -/
def nestTail (items : List (Str × Str)) : Str :=
  items.flatMap fun item => '(' :: (item.1 ++ '=' :: (item.2 ++ [')', ')']))

theorem nest_concat (first : Filter) (items : List (Str × Str)) (item : Str × Str) :
    nest first (items ++ [item]) = .and [nest first items, .item item.1 .equal item.2] := by
  simp [nest]

theorem nest_text (first : Filter) (items : List (Str × Str)) :
    (nest first items).text =
      (List.replicate items.length ['(', '&']).flatten ++ (first.text ++ nestTail items) := by
  induction items using List.reverseRecOn with
  | nil => simp [nest, nestTail]
  | append_singleton items item ih =>
    rw [nest_concat]
    simp only [Filter.text, Filter.texts, ih, FilterType.text, nestTail, List.flatMap_append,
      List.length_append, List.length_singleton, List.replicate_succ, List.flatten_cons]
    simp [List.append_assoc]

theorem nest_wf (first : Filter) (items : List (Str × Str)) : (nest first items).wf = true ↔
    first.wf = true ∧ ∀ item ∈ items, validItem item.1 .equal item.2 = true := by
  induction items using List.reverseRecOn with
  | nil => simp [nest]
  | append_singleton items item ih =>
    rw [nest_concat]
    simp only [Filter.wf, Filter.wfs, List.isEmpty_cons, Bool.not_false, Bool.true_and,
      Bool.and_true, Bool.and_eq_true, ih, List.mem_append, List.mem_singleton, or_imp, forall_and,
      forall_eq]
    tauto

theorem nest_values (attr value : Str) (items : List (Str × Str)) :
    (nest (.item attr .equal value) items).values = value :: items.map Prod.snd := by
  induction items using List.reverseRecOn with
  | nil => simp [nest, Filter.values]
  | append_singleton items item ih =>
    rw [nest_concat]
    simp [Filter.values, Filter.valuesAll, ih]

/-- The shape forgets only the values. -/
theorem nest_shape (attr value value' : Str) {items items' : List (Str × Str)}
    (h : items.map Prod.fst = items'.map Prod.fst) :
    (nest (.item attr .equal value) items).shape = (nest (.item attr .equal value') items').shape := by
  induction items using List.reverseRecOn generalizing items' with
  | nil =>
    have hn : items' = [] := List.map_eq_nil_iff.mp h.symm
    subst hn
    simp [nest, Filter.shape]
  | append_singleton items item ih =>
    induction items' using List.reverseRecOn with
    | nil => simp at h
    | append_singleton items' item' =>
      simp only [List.map_append, List.map_cons, List.map_nil] at h
      obtain ⟨hinit, hlast⟩ := List.append_inj' h rfl
      have hfst : item.1 = item'.1 := by simpa using hlast
      simp only [nest_concat, Filter.shape, Filter.shapes, ih hinit, hfst]

theorem shape_item {f : Filter} {attr : Str} {type : FilterType}
    (h : f.shape = .item attr type []) : ∃ value, f = .item attr type value := by
  cases f with
  | item attr' type' value =>
    simp only [Filter.shape, Filter.item.injEq, and_true] at h
    obtain ⟨rfl, rfl⟩ := h
    exact ⟨value, rfl⟩
  | _ => simp [Filter.shape] at h

theorem shape_and_pair {f a b : Filter} (h : f.shape = .and [a, b]) :
    ∃ x y, f = .and [x, y] ∧ x.shape = a ∧ y.shape = b := by
  cases f with
  | and filters =>
    match filters, h with
    | [x, y], h =>
      simp only [Filter.shape, Filter.shapes, Filter.and.injEq, List.cons.injEq, and_true] at h
      exact ⟨x, y, rfl, h.1, h.2⟩
    | [], h => simp [Filter.shape, Filter.shapes] at h
    | [_], h => simp [Filter.shape, Filter.shapes] at h
    | _ :: _ :: _ :: _, h => simp [Filter.shape, Filter.shapes] at h
  | _ => simp [Filter.shape] at h

/-- A filter of the same shape is a nested conjunction of the same attributes. -/
theorem of_nest_shape {attr value : Str} {items : List (Str × Str)} {g : Filter}
    (h : g.shape = (nest (.item attr .equal value) items).shape) :
    ∃ value' items', g = nest (.item attr .equal value') items' ∧
      items'.map Prod.fst = items.map Prod.fst := by
  induction items using List.reverseRecOn generalizing g with
  | nil =>
    obtain ⟨value', rfl⟩ := shape_item h
    exact ⟨value', [], rfl, rfl⟩
  | append_singleton items item ih =>
    rw [nest_concat] at h
    obtain ⟨x, y, rfl, hx, hy⟩ := shape_and_pair h
    obtain ⟨value', items', rfl, hitems⟩ := ih hx
    obtain ⟨last, rfl⟩ := shape_item hy
    refine ⟨value', items' ++ [(item.1, last)], ?_, by simp [hitems]⟩
    rw [nest_concat]

def isParen (c : Char) : Bool := c = '(' || c = ')'

theorem countP_nestTail {items items' : List (Str × Str)}
    (h : items.map Prod.fst = items'.map Prod.fst) :
    (nestTail items).countP isParen + (items'.map Prod.snd).flatten.countP isParen =
      (nestTail items').countP isParen + (items.map Prod.snd).flatten.countP isParen := by
  induction items generalizing items' with
  | nil =>
    have hn : items' = [] := List.map_eq_nil_iff.mp h.symm
    simp [hn]
  | cons item items ih =>
    cases items' with
    | nil => simp at h
    | cons item' items' =>
      simp only [List.map_cons, List.cons.injEq] at h
      have hrest := ih h.2
      simp only [nestTail, List.flatMap_cons, List.map_cons, List.flatten_cons, List.countP_append,
        List.countP_cons, h.1] at hrest ⊢
      omega

/-- Values without parentheses are told apart by the texts; it is enough to know this of one
side, since both sides have as many parentheses. -/
theorem nestTail_inj {items items' : List (Str × Str)}
    (h : items.map Prod.fst = items'.map Prod.fst)
    (hclean : ∀ item ∈ items, ∀ c ∈ item.2, isParen c = false)
    (he : nestTail items = nestTail items') : items = items' := by
  have hcount := countP_nestTail h
  have hzero : (items.map Prod.snd).flatten.countP isParen = 0 := by
    rw [List.countP_eq_zero]
    intro c hc
    simp only [List.mem_flatten, List.mem_map] at hc
    obtain ⟨_, ⟨item, hi, rfl⟩, hc⟩ := hc
    simpa using hclean item hi c hc
  have hzero' : (items'.map Prod.snd).flatten.countP isParen = 0 := by
    rw [he] at hcount
    omega
  have hclean' : ∀ item ∈ items', ∀ c ∈ item.2, isParen c = false := by
    intro item hi c hc
    have hn := List.countP_eq_zero.mp hzero' c
      (List.mem_flatten.mpr ⟨item.2, List.mem_map.mpr ⟨item, hi, rfl⟩, hc⟩)
    simpa using hn
  clear hcount hzero hzero'
  have hno : ∀ {w : Str}, (∀ c ∈ w, isParen c = false) → ')' ∉ w := by
    intro w hw hm
    have hp := hw _ hm
    revert hp
    decide
  induction items generalizing items' with
  | nil =>
    have hn : items' = [] := List.map_eq_nil_iff.mp h.symm
    exact hn.symm
  | cons item items ih =>
    cases items' with
    | nil => simp at h
    | cons item' items' =>
      simp only [List.map_cons, List.cons.injEq] at h
      have hcut : item.2 ++ ')' :: (')' :: nestTail items) =
          item'.2 ++ ')' :: (')' :: nestTail items') := by
        simpa [nestTail, h.1] using he
      obtain ⟨hvalue, hrest⟩ := cut_inj (hno (hclean item (by simp)))
        (hno (hclean' item' (by simp))) hcut
      have htail : items = items' := by
        apply ih h.2
        · intro i hi
          exact hclean i (List.mem_cons_of_mem _ hi)
        · exact (List.cons.inj hrest).2
        · intro i hi
          exact hclean' i (List.mem_cons_of_mem _ hi)
      rw [htail, Prod.ext h.1 hvalue]

/-! When an entry matches. -/

/-- The octets a value stands for. -/
def octets : Str → List UInt8
  | [] => []
  | '\\' :: a :: b :: rest =>
    UInt8.ofNat ((hexDigit a).getD 0 * 16 + (hexDigit b).getD 0) :: octets rest
  | c :: rest => String.utf8EncodeChar c ++ octets rest

/-- The characters of a value without asterisks, when its octets encode some. -/
def decode (value : Str) : Option Str :=
  (octets value).toByteArray.utf8Decode?.map Array.toList

/-- The parts in order, the first at the start and the last at the end. -/
def matchParts : List Str → Str → Bool
  | [], t => t.isEmpty
  | [p], t => t = p
  | p :: ps, t => p.isPrefixOf t && (t.drop p.length).tails.any (matchParts ps)

theorem matchParts_cons {p : Str} {ps : List Str} (hps : ps ≠ []) (t : Str) :
    matchParts (p :: ps) t = true ↔ ∃ u v, t = p ++ (u ++ v) ∧ matchParts ps v = true := by
  cases ps with
  | nil => exact absurd rfl hps
  | cons q qs =>
    simp only [matchParts, Bool.and_eq_true, List.isPrefixOf_iff_prefix, List.any_eq_true,
      List.mem_tails]
    constructor
    · rintro ⟨⟨w, rfl⟩, v, hv, hm⟩
      rw [List.drop_left] at hv
      obtain ⟨u, rfl⟩ := hv
      exact ⟨u, v, rfl, hm⟩
    · rintro ⟨u, v, rfl, hm⟩
      exact ⟨List.prefix_append _ _, v, by simp, hm⟩

/-- Parts that match do so after any change of the characters. -/
theorem matchParts_map (f : Char → Char) {parts : List Str} {t : Str}
    (h : matchParts parts t = true) : matchParts (parts.map (List.map f)) (t.map f) = true := by
  induction parts generalizing t with
  | nil => simpa [matchParts] using h
  | cons p ps ih =>
    by_cases hps : ps = []
    · subst hps
      have he : t = p := by simpa [matchParts] using h
      simp [matchParts, he]
    · obtain ⟨u, v, rfl, hm⟩ := (matchParts_cons hps t).mp h
      rw [List.map_cons, matchParts_cons (by simpa using hps)]
      exact ⟨u.map f, v.map f, by simp, ih hm⟩

/-- An entry has values under attribute descriptions, whose letter case does not matter. -/
structure Entry where
  values : Str → List Str
  anyCase : ∀ a b, a.map Char.toLower = b.map Char.toLower → values a = values b
  described : ∀ a, values a ≠ [] → attributeDescription a = true

/-- What the server takes as the same character, and its other comparisons. -/
structure Server where
  fold : Char → Char
  other : Entry → Str → FilterType → Str → Option Bool

namespace Server

variable (S : Server)

/-- A value of the attribute matches the parts, up to case. -/
def hasMatch (e : Entry) (attr : Str) (parts : List Str) : Bool :=
  (e.values attr).any fun v => matchParts (parts.map (List.map S.fold)) (v.map S.fold)

def item (e : Entry) (attr : Str) : FilterType → Str → Option Bool
  | .equal, value => ((value.splitOn '*').mapM decode).map (S.hasMatch e attr)
  | type, value => S.other e attr type value

mutual

def eval (e : Entry) : Filter → Option Bool
  | .and filters => all3 (evals e filters)
  | .or filters => any3 (evals e filters)
  | .not filter => not3 (eval e filter)
  | .item attr type value => S.item e attr type value

def evals (e : Entry) : List Filter → List (Option Bool)
  | [] => []
  | filter :: filters => eval e filter :: evals e filters

end

theorem eval_nest (e : Entry) (first : Filter) (items : List (Str × Str)) :
    S.eval e (nest first items) = some true ↔
      S.eval e first = some true ∧ ∀ item ∈ items, S.item e item.1 .equal item.2 = some true := by
  induction items using List.reverseRecOn with
  | nil => simp [nest]
  | append_singleton items item ih =>
    rw [nest_concat, eval, all3_eq_true]
    simp only [evals, eval, List.mem_cons, List.mem_append, List.not_mem_nil, or_false, or_imp,
      forall_and, forall_eq, ih]
    tauto

theorem item_equal (e : Entry) (attr : Str) {value : Str} {parts : List Str}
    (h : (value.splitOn '*').mapM decode = some parts) :
    S.item e attr .equal value = some true ↔ S.hasMatch e attr parts = true := by
  simp [item, h]

theorem described_of_match {e : Entry} {attr : Str} {parts : List Str}
    (h : S.hasMatch e attr parts = true) : attributeDescription attr = true := by
  apply e.described
  intro hnil
  simp [hasMatch, hnil] at h

/-- The string is a filter, and it is true of the entry. -/
def Matches (e : Entry) (s : Str) : Prop := ∃ f, ReadsAs s f ∧ S.eval e f = some true

end Server

end Multicorn.LdapFilter
