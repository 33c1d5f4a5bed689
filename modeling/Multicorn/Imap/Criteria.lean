import Multicorn.Imap.Conditions

/-! When the criteria keep every mail that the quals ask for: the quals that are translated to
a weaker condition, and those for which a mail is lost. -/
namespace Multicorn.Imap
open Multicorn.ImapSearch
open Multicorn.Like (like isWildcard unescape Outer)
open ImapFdw (flagKey spaced atoms)

/-! The search text of a pattern. -/

theorem exists_outer_dropLeading (v : Str) : ∃ w, Outer w ∧ v = w ++ dropLeading v := by
  cases v with
  | nil => exact ⟨[], .inl rfl, rfl⟩
  | cons c v =>
    by_cases hc : isWildcard c = true
    · have hcases : c = '%' ∨ c = '_' := by simpa [isWildcard] using hc
      refine ⟨[c], ?_, by simp [dropLeading, hc]⟩
      rcases hcases with rfl | rfl
      · exact .inr (.inl rfl)
      · exact .inr (.inr rfl)
    · exact ⟨[], .inl rfl, by simp [dropLeading, hc]⟩

theorem exists_outer_dropTrailing (v : Str) : ∃ w, Outer w ∧ v = dropTrailing v ++ w := by
  rcases List.eq_nil_or_concat v with rfl | ⟨init, c, rfl⟩
  · exact ⟨[], .inl rfl, rfl⟩
  · by_cases hc : isWildcard c = true
    · have hcases : c = '%' ∨ c = '_' := by simpa [isWildcard] using hc
      refine ⟨[c], ?_, by simp [dropTrailing, hc]⟩
      rcases hcases with rfl | rfl
      · exact .inr (.inl rfl)
      · exact .inr (.inr rfl)
    · exact ⟨[], .inl rfl, by simp [dropTrailing, hc]⟩

/-- A pattern is its stripped part between outer wildcards. -/
theorem exists_outer_stripped (v : Str) :
    ∃ w w', Outer w ∧ Outer w' ∧ v = w ++ (stripped v ++ w') := by
  obtain ⟨w, hw, hv⟩ := exists_outer_dropLeading v
  obtain ⟨w', hw', hv'⟩ := exists_outer_dropTrailing (dropLeading v)
  exact ⟨w, w', hw, hw', hv.trans (congrArg (w ++ ·) hv')⟩

theorem replaceEscaped_plain {w c : Char} (hc : c ≠ '\\') (rest : Str) :
    replaceEscaped w (c :: rest) = c :: replaceEscaped w rest := by
  rw [replaceEscaped]
  rintro _ _ rfl
  exact absurd rfl hc

/-- The two replacements undo the escapes of a text without wildcards. -/
theorem replaceEscaped_of_unescape {body s : Str} (h : unescape body = some s) :
    replaceEscaped '_' (replaceEscaped '%' body) = s := by
  induction body using Multicorn.Like.unescape.induct generalizing s with
  | case1 =>
    obtain rfl := Option.some.inj h
    rfl
  | case2 => cases h
  | case3 c rest hw ih =>
    simp only [unescape, hw, if_true] at h
    obtain ⟨s', hs', rfl⟩ := Option.map_eq_some_iff.mp h
    have hcases : c = '%' ∨ c = '_' := by simpa [isWildcard] using hw
    rcases hcases with rfl | rfl
    · have hpercent : replaceEscaped '%' ('\\' :: '%' :: rest) = '%' :: replaceEscaped '%' rest := by
        simp [replaceEscaped]
      rw [hpercent, replaceEscaped_plain (by decide), ih hs']
    · have hkeep : replaceEscaped '%' ('\\' :: '_' :: rest) =
          '\\' :: '_' :: replaceEscaped '%' rest := by
        rw [replaceEscaped, if_neg (by decide), replaceEscaped_plain (by decide)]
      rw [hkeep, replaceEscaped, if_pos rfl, ih hs']
  | case4 c rest hw => simp [unescape, hw] at h
  | case5 c rest _ _ hw => simp [unescape, hw] at h
  | case6 c rest hlast hmore hw ih =>
    have hback : c ≠ '\\' := by
      rintro rfl
      cases rest with
      | nil => exact hlast rfl rfl
      | cons d rest => exact hmore d rest rfl rfl
    rw [unescape, if_neg hw] at h
    · obtain ⟨s', hs', rfl⟩ := Option.map_eq_some_iff.mp h
      rw [replaceEscaped_plain hback, replaceEscaped_plain hback, ih hs']
    · exact hlast
    · exact hmore

/-! Comparisons and the substring test. -/

theorem infix_of_contains {fold : Char → Char} {x s : Str} (h : Contains fold x s) :
    ∃ u, u <:+: x ∧ s.map fold = u.map fold := by
  obtain ⟨a, b, hab⟩ := h
  obtain ⟨p, b', hx, hp, -⟩ := List.map_eq_append_iff.mp hab.symm
  obtain ⟨a', u, hpu, -, hu⟩ := List.map_eq_append_iff.mp hp
  refine ⟨u, ⟨a', b', ?_⟩, hu.symm⟩
  rw [hx, hpu]

theorem contains_of_isInfix {fold : Char → Char} {x s u : Str} (hu : u <:+: x)
    (hs : s.map fold = u.map fold) : Contains fold x s := by
  obtain ⟨a, b, rfl⟩ := hu
  refine ⟨a.map fold, b.map fold, ?_⟩
  rw [hs]
  simp

theorem contains_trans {fold : Char → Char} {x y s : Str} (h : Contains fold x s) (hxy : x <:+: y) :
    Contains fold y s := by
  obtain ⟨u, hu, hs⟩ := infix_of_contains h
  exact contains_of_isInfix (hu.trans hxy) hs

namespace Comparison

variable {S : Comparison}

theorem map_fold_of_same {same : Char → Char → Bool}
    (hsame : ∀ a c, same a c = true → S.fold a = S.fold c) {s u : Str}
    (h : List.Forall₂ (fun a c => same a c = true) s u) : s.map S.fold = u.map S.fold := by
  induction h with
  | nil => rfl
  | cons hac _ ih => rw [List.map_cons, List.map_cons, hsame _ _ hac, ih]

/-- A text that matches a pattern contains the search text. -/
theorem contains_of_like {same : Char → Char → Bool}
    (hsame : ∀ a c, same a c = true → S.fold a = S.fold c) {v s x : Str}
    (hv : unescape (stripped v) = some s) (h : like same v x = true) : Contains S.fold x s := by
  obtain ⟨w, w', hw, -, hparts⟩ := exists_outer_stripped v
  rw [hparts] at h
  obtain ⟨u, hu, hm⟩ := Like.infix_of_like hw hv h
  exact contains_of_isInfix hu (map_fold_of_same hsame hm)

theorem folded_same (a c : Char) (h : S.folded a c = true) : S.fold a = S.fold c := by
  simpa [folded] using h

theorem exact_same (a c : Char) (h : exact a c = true) : S.fold a = S.fold c := by
  have hac : a = c := by simpa [exact] using h
  rw [hac]

theorem forall₂_folded {s u : Str} (h : s.map S.fold = u.map S.fold) :
    List.Forall₂ (fun a c => S.folded a c = true) s u := by
  have hmap : List.Forall₂ (fun a c => a = c) (s.map S.fold) (u.map S.fold) := by
    rw [List.forall₂_eq_eq_eq]
    exact h
  simpa [folded] using hmap

/-- All characters have no other case. -/
def Caseless (S : Comparison) (s : Str) : Prop := ∀ c ∈ s, ∀ d, S.fold c = S.fold d → c = d

theorem forall₂_exact {s u : Str} (hs : S.Caseless s) (h : s.map S.fold = u.map S.fold) :
    List.Forall₂ (fun a c => exact a c = true) s u := by
  induction s generalizing u with
  | nil =>
    have hu : u = [] := by simpa using h.symm
    rw [hu]
    exact .nil
  | cons c s ih =>
    cases u with
    | nil => cases h
    | cons d u =>
      obtain ⟨hcd, hrest⟩ := List.cons.inj h
      have hc : c = d := hs c List.mem_cons_self d hcd
      have hs' : S.Caseless s := fun a ha => hs a (List.mem_cons_of_mem c ha)
      exact .cons (by simpa [exact] using hc) (ih hs' hrest)

end Comparison

/-! The quals that keep every match. -/

section
variable (t : ImapFdw) (S : Comparison) (key : Str)

/-- The value can be searched for on this column: a plain header needs a word for its name,
and there the code gives up on an empty value. -/
def ImapFdw.Searchable (s : Str) : Prop :=
  some key ≠ t.flags_column ∧ Quotable s ∧
    (some key = t.payload_column ∨ key ∈ SEARCH_HEADERS ∨ (IsWord key ∧ s ≠ []))

/-- The criterion for this value is empty. -/
def Dropped (operator : Operator) (value : Option Str) : Prop :=
  (∃ name, operator = .other name) ∨
    (operator.isPattern = true ∧ ∃ v, value = some v ∧ normalizePattern v = none)

/-- The values whose criterion holds of every mail that compares well with them. -/
inductive Handled : Operator → Option Str → Prop
  | equal {v : Str} (h : t.Searchable key v) : Handled .eq (some v)
  | similar {operator : Operator} {v s : Str} (hop : operator = .like ∨ operator = .ilike)
      (hv : unescape (stripped v) = some s) (h : t.Searchable key s) : Handled operator (some v)
  | dissimilar {operator : Operator} {w body s : Str}
      (hop : operator = .notIlike ∨ (operator = .notLike ∧ S.Caseless (w ++ s)))
      (hw : Outer w) (hbody : unescape body = some s) (hquot : Quotable (w ++ s))
      (hflag : standardFlag (w ++ s) = none) (hkey : key ∈ SEARCH_HEADERS)
      (hpayload : some key ≠ t.payload_column) (hflags : some key ≠ t.flags_column) :
      Handled operator (some ('%' :: (w ++ (body ++ ['%']))))
  | missing {operator : Operator} (hflags : some key ≠ t.flags_column)
      (hkey : some key = t.payload_column ∨ key ∈ SEARCH_HEADERS) : Handled operator none

/-- An array of flags that are words and not names of standard flags. To contain none is an empty
criterion. -/
def ImapFdw.FlagWords (operator : Operator) (values : List (Option Str)) : Prop :=
  ((operator = .contains ∧ values ≠ []) ∨ operator = .overlaps) ∧ some key = t.flags_column ∧
    some key ≠ t.payload_column ∧
    ∀ v ∈ values, ∃ word, v = some word ∧ IsWord word ∧ standardFlag word = none

end

/-- The quals whose criteria hold of every mail that satisfies them. An empty criterion is refused
by the server; under ANY it drops out of the alternatives, which is right when all of them do. -/
def Comparison.QualHandled (S : Comparison) (t : ImapFdw) (q : Qual) : Prop :=
  match q.value with
  | .scalar .null => False
  | .scalar (.text v) => Handled t S q.field_name q.operator (some v) ∧ ¬ Dropped q.operator (some v)
  | .scalar (.array vs) => t.FlagWords q.field_name q.operator vs
  | .any vs => (∀ v ∈ vs, Dropped q.operator v) ∨
      ∀ v ∈ vs, Handled t S q.field_name q.operator v ∧ ¬ Dropped q.operator v
  | .all vs => ∀ v ∈ vs, Handled t S q.field_name q.operator v ∧ ¬ Dropped q.operator v

section
variable {t : ImapFdw} {S : Comparison} {key : Str}

theorem makeCondition_pattern {operator : Operator} (h : operator.isPattern = true) (v : Str) :
    t.makeCondition key operator (.text v) =
      match normalizePattern v with
      | none => .ok (some [])
      | some s => t.keyCondition key operator (.text s) := by
  cases hv : normalizePattern v <;> cases operator <;>
    simp_all [ImapFdw.makeCondition, Operator.isPattern]

theorem makeCondition_dropped {operator : Operator} {value : Option Str}
    (h : Dropped operator value) : t.makeCondition key operator (element value) = .ok (some []) := by
  obtain ⟨name, rfl⟩ | ⟨hpattern, v, rfl, hv⟩ := h
  · rfl
  · rw [element, makeCondition_pattern hpattern, hv]

theorem negation_positive {operator : Operator} (h : operator.isNegated = false)
    (value : QualValue) : t.negation key operator value = ([], value) := by
  simp [ImapFdw.negation, h]

theorem keyCondition_payload {operator : Operator} {value : QualValue}
    (hflags : some key ≠ t.flags_column) (hpayload : some key = t.payload_column) :
    t.keyCondition key operator value = .ok (some ((t.negation key operator value).1 ++
      "TEXT ".toList ++ quoted (t.valueStr (t.negation key operator value).2))) := by
  cases hn : t.negation key operator value
  simp only [ImapFdw.keyCondition, hn]
  rw [if_neg hflags, if_pos hpayload]

theorem keyCondition_address {operator : Operator} {value : QualValue}
    (hflags : some key ≠ t.flags_column) (hpayload : some key ≠ t.payload_column)
    (hkey : key ∈ SEARCH_HEADERS) :
    t.keyCondition key operator value = .ok (some ((t.negation key operator value).1 ++
      key ++ ' ' :: quoted (t.valueStr (t.negation key operator value).2))) := by
  cases hn : t.negation key operator value
  simp only [ImapFdw.keyCondition, hn]
  rw [if_neg hflags, if_neg hpayload, if_pos hkey]

/-- What a search on the column asks of a mail. -/
def ImapFdw.searchKey (t : ImapFdw) (key s : Str) : SearchKey :=
  if some key = t.payload_column then .text s else .header key s

theorem keyCondition_search {operator : Operator} {s : Str} (h : t.Searchable key s)
    (hop : operator.isNegated = false) :
    ∃ c, t.keyCondition key operator (.text s) = .ok (some c) ∧
      DenotesKey c (t.searchKey key s) := by
  obtain ⟨hflags, hquot, hkey⟩ := h
  by_cases hpayload : some key = t.payload_column
  · refine ⟨"TEXT".toList ++ ' ' :: quoted s, ?_, ?_⟩
    · rw [keyCondition_payload hflags hpayload, negation_positive hop]
      simp [ImapFdw.valueStr]
    · rw [ImapFdw.searchKey, if_pos hpayload]
      exact denotesKey_text hquot
  · rw [ImapFdw.searchKey, if_neg hpayload]
    by_cases haddress : key ∈ SEARCH_HEADERS
    · refine ⟨key ++ ' ' :: quoted s, ?_, denotesKey_address haddress hquot⟩
      rw [keyCondition_address hflags hpayload haddress, negation_positive hop]
      simp [ImapFdw.valueStr]
    · obtain ⟨hword, hs⟩ : IsWord key ∧ s ≠ [] := by
        simpa [hpayload, haddress] using hkey
      refine ⟨"HEADER".toList ++ ' ' :: (key ++ ' ' :: quoted s), ?_, denotesKey_header hword hquot⟩
      obtain ⟨a, s, rfl⟩ := List.exists_cons_of_ne_nil hs
      simp only [ImapFdw.keyCondition, negation_positive hop]
      rw [if_neg hflags, if_neg hpayload, if_neg haddress]
      simp [ImapFdw.valueStr]

theorem keyCondition_notSearch {operator : Operator} {s : Str} (hop : operator.isNegated = true)
    (hquot : Quotable s) (hflag : standardFlag s = none) (hkey : key ∈ SEARCH_HEADERS)
    (hpayload : some key ≠ t.payload_column) (hflags : some key ≠ t.flags_column) :
    ∃ c, t.keyCondition key operator (.text s) = .ok (some c) ∧
      DenotesKey c (.not (.header key s)) := by
  refine ⟨"NOT".toList ++ ' ' :: (key ++ ' ' :: quoted s), ?_, (denotesKey_address hkey hquot).not⟩
  rw [keyCondition_address hflags hpayload hkey]
  simp [ImapFdw.negation, hop, hflags, hflag, ImapFdw.valueStr]

theorem negation_null (hflags : some key ≠ t.flags_column) (operator : Operator) :
    t.negation key operator .null =
      (if operator.isNegated then "NOT ".toList else [], .null) := by
  by_cases hop : operator.isNegated = true
  · simp [ImapFdw.negation, hop, hflags]
  · simp [ImapFdw.negation, hop]

/-- A key in front of which the negation may stand. -/
theorem denotesKey_negated {s : Str} {k : SearchKey} (h : DenotesKey s k) (b : Bool) :
    ∃ k', DenotesKey ((if b then "NOT ".toList else []) ++ s) k' := by
  cases b with
  | false => exact ⟨k, h⟩
  | true => exact ⟨.not k, h.not⟩

/-- A search for the text of None, whatever the operator. -/
theorem keyCondition_missing {operator : Operator} (hflags : some key ≠ t.flags_column)
    (hkey : some key = t.payload_column ∨ key ∈ SEARCH_HEADERS) :
    ∃ c k, t.keyCondition key operator .null = .ok (some c) ∧ DenotesKey c k := by
  have hquot : Quotable "None".toList := by
    intro c hc
    have hletter : c = 'N' ∨ c = 'o' ∨ c = 'n' ∨ c = 'e' := by
      have hmem : c ∈ ['N', 'o', 'n', 'e'] := hc
      simpa using hmem
    rcases hletter with rfl | rfl | rfl | rfl <;> decide
  by_cases hpayload : some key = t.payload_column
  · obtain ⟨k, hk⟩ := denotesKey_negated (denotesKey_text hquot) operator.isNegated
    refine ⟨_, k, ?_, hk⟩
    rw [keyCondition_payload hflags hpayload, negation_null hflags]
    simp [ImapFdw.valueStr]
  · have haddress : key ∈ SEARCH_HEADERS := hkey.resolve_left hpayload
    obtain ⟨k, hk⟩ := denotesKey_negated (denotesKey_address haddress hquot) operator.isNegated
    refine ⟨_, k, ?_, hk⟩
    rw [keyCondition_address hflags hpayload haddress, negation_null hflags]
    simp [ImapFdw.valueStr]

theorem column_text {m : Message} (hflags : some key ≠ t.flags_column) :
    ∃ x, t.column m key = .text x ∧
      (some key = t.payload_column → x = m.payload) ∧
      (some key ≠ t.payload_column → x = m.header key) := by
  by_cases hpayload : some key = t.payload_column
  · exact ⟨m.payload, by rw [ImapFdw.column, if_pos hpayload], fun _ => rfl, absurd hpayload⟩
  · refine ⟨m.header key, ?_, fun h => absurd h hpayload, fun _ => rfl⟩
    rw [ImapFdw.column, if_neg hpayload, if_neg hflags]

/-- A mail whose column contains the search text is found. -/
theorem searchKey_holds {m : Message} {s x : Str}
    (hpayload : some key = t.payload_column → x = m.payload)
    (hheader : some key ≠ t.payload_column → x = m.header key) (h : Contains S.fold x s) :
    (t.searchKey key s).Holds S.fold m.toMail := by
  by_cases hkey : some key = t.payload_column
  · rw [ImapFdw.searchKey, if_pos hkey, SearchKey.Holds]
    rw [hpayload hkey] at h
    exact contains_trans h m.payload_infix
  · rw [ImapFdw.searchKey, if_neg hkey, SearchKey.Holds]
    rwa [hheader hkey] at h

theorem stripped_percents {w body : Str} :
    stripped ('%' :: (w ++ (body ++ ['%']))) = w ++ body := by
  have hlast : (w ++ (body ++ ['%'])).getLast? = some '%' := by
    rw [← List.append_assoc, List.getLast?_concat]
  have hinit : (w ++ (body ++ ['%'])).dropLast = w ++ body := by
    rw [← List.append_assoc, List.dropLast_concat]
  simp [stripped, dropLeading, dropTrailing, isWildcard, hlast, hinit]

theorem replaceEscaped_outer {w body s : Str} (hw : Outer w) (h : unescape body = some s) :
    replaceEscaped '_' (replaceEscaped '%' (w ++ body)) = w ++ s := by
  have hbody := replaceEscaped_of_unescape h
  obtain rfl | rfl | rfl := hw
  · exact hbody
  · rw [List.singleton_append, replaceEscaped_plain (by decide), replaceEscaped_plain (by decide),
      hbody, List.singleton_append]
  · rw [List.singleton_append, replaceEscaped_plain (by decide), replaceEscaped_plain (by decide),
      hbody, List.singleton_append]

theorem makeCondition_searched {operator : Operator} {v s : Str}
    (hpattern : operator.isPattern = true) (hd : ¬ Dropped operator (some v))
    (hs : replaceEscaped '_' (replaceEscaped '%' (stripped v)) = s) :
    t.makeCondition key operator (.text v) = t.keyCondition key operator (.text s) := by
  have hsome : normalizePattern v = some s := by
    by_cases hinner : innerWildcard (stripped v) = true
    · have hnone : normalizePattern v = none := by rw [normalizePattern, if_pos hinner]
      exact absurd (.inr ⟨hpattern, v, rfl, hnone⟩) hd
    · rw [normalizePattern, if_neg hinner, hs]
  rw [makeCondition_pattern hpattern, hsome]

theorem similar_contains {operator : Operator} {v s x : Str}
    (hop : operator = .like ∨ operator = .ilike) (hv : unescape (stripped v) = some s)
    (h : S.Holds operator (.text x) (.text v)) : Contains S.fold x s := by
  rcases hop with rfl | rfl
  · exact Comparison.contains_of_like Comparison.exact_same hv h
  · exact Comparison.contains_of_like Comparison.folded_same hv h

theorem dissimilar_not_contains {operator : Operator} {w body s x : Str}
    (hop : operator = .notIlike ∨ (operator = .notLike ∧ S.Caseless (w ++ s)))
    (hw : Outer w) (hbody : unescape body = some s)
    (h : S.Holds operator (.text x) (.text ('%' :: (w ++ (body ++ ['%']))))) :
    ¬ Contains S.fold x (w ++ s) := by
  intro hcontains
  obtain ⟨u, hu, hmap⟩ := infix_of_contains hcontains
  rcases hop with rfl | ⟨rfl, hcase⟩
  · have hlike := Like.like_of_infix hw hbody hu (Comparison.forall₂_folded hmap)
    exact Bool.false_ne_true (Eq.trans (Eq.symm h) hlike)
  · have hlike := Like.like_of_infix hw hbody hu (Comparison.forall₂_exact hcase hmap)
    exact Bool.false_ne_true (Eq.trans (Eq.symm h) hlike)

/-- The criterion of a handled value holds of every mail that compares well with the value. -/
theorem makeCondition_handled {operator : Operator} {value : Option Str}
    (h : Handled t S key operator value) (hd : ¬ Dropped operator value) :
    ∃ c k, t.makeCondition key operator (element value) = .ok (some c) ∧ DenotesKey c k ∧
      ∀ m, S.Holds operator (t.column m key) (element value) → k.Holds S.fold m.toMail := by
  cases h with
  | @equal v hsearch =>
    have hnegated : Operator.eq.isNegated = false := rfl
    obtain ⟨c, hc, hden⟩ := keyCondition_search hsearch hnegated
    refine ⟨c, _, hc, hden, fun m hm => ?_⟩
    obtain ⟨x, hx, hpayload, hheader⟩ := column_text (m := m) hsearch.1
    rw [hx] at hm
    have heq : x = v := hm
    exact searchKey_holds hpayload hheader (contains_of_isInfix List.infix_rfl (by rw [heq]))
  | @similar _ v s hop hv hsearch =>
    have hpattern : operator.isPattern = true := by rcases hop with rfl | rfl <;> rfl
    have hpositive : operator.isNegated = false := by rcases hop with rfl | rfl <;> rfl
    obtain ⟨c, hc, hden⟩ := keyCondition_search hsearch hpositive
    refine ⟨c, _, ?_, hden, fun m hm => ?_⟩
    · rw [element, makeCondition_searched hpattern hd (replaceEscaped_of_unescape hv), hc]
    · obtain ⟨x, hx, hpayload, hheader⟩ := column_text (m := m) hsearch.1
      rw [hx] at hm
      exact searchKey_holds hpayload hheader (similar_contains hop hv hm)
  | @dissimilar _ w body s hop hw hbody hquot hflag hkey hpayload hflags =>
    have hpattern : operator.isPattern = true := by rcases hop with rfl | ⟨rfl, -⟩ <;> rfl
    have hnegated : operator.isNegated = true := by rcases hop with rfl | ⟨rfl, -⟩ <;> rfl
    obtain ⟨c, hc, hden⟩ := keyCondition_notSearch (t := t) hnegated hquot hflag hkey hpayload hflags
    have hs := replaceEscaped_outer hw hbody
    rw [← stripped_percents] at hs
    refine ⟨c, _, ?_, hden, fun m hm => ?_⟩
    · rw [element, makeCondition_searched hpattern hd hs, hc]
    · obtain ⟨x, hx, -, hheader⟩ := column_text (m := m) hflags
      rw [hx] at hm
      rw [SearchKey.Holds, SearchKey.Holds, ← hheader hpayload]
      exact dissimilar_not_contains hop hw hbody hm
  | missing hflags hkey =>
    have hcriterion : ∃ c k, t.keyCondition key operator .null = .ok (some c) ∧ DenotesKey c k :=
      keyCondition_missing hflags hkey
    obtain ⟨c, k, hc, hden⟩ := hcriterion
    have hother : ∀ name, operator ≠ .other name := fun name hname => hd (.inl ⟨name, hname⟩)
    refine ⟨c, k, ?_, hden, fun m hm => ?_⟩
    · cases operator <;> simp_all [ImapFdw.makeCondition, element]
    · cases operator <;> simp_all [Comparison.Holds, element]

/-! Alternatives. -/

theorem denotesKey_ne_nil {c : Str} {k : SearchKey} (h : DenotesKey c k) : c ≠ [] := by
  rintro rfl
  obtain ⟨toks, hlex, cost, hcost, -⟩ := h
  have htoks : toks = [] := by simpa [lex, lexFrom] using hlex.symm
  rw [htoks] at hcost
  simp at hcost

theorem or_denotes {cs : List Str} {α : Type} {H : Message → α → Prop} {vs : List α}
    (h : List.Forall₂ (fun v c => ∃ k, DenotesKey c k ∧ ∀ m, H m v → k.Holds S.fold m.toMail) vs cs)
    {c : Str} {k : SearchKey} (hc : DenotesKey c k) :
    ∃ k', DenotesKey (cs.foldl (fun x y => "(OR ".toList ++ x ++ ' ' :: y ++ [')']) c) k' ∧
      ∀ m : Message, (k.Holds S.fold m.toMail ∨ ∃ v ∈ vs, H m v) → k'.Holds S.fold m.toMail := by
  induction h generalizing c k with
  | nil =>
    refine ⟨k, hc, fun m hm => ?_⟩
    simpa using hm
  | @cons v d vs ds hd _ ih =>
    obtain ⟨k₁, hden, hholds⟩ := hd
    obtain ⟨k', hden', hholds'⟩ := ih (hc.or hden)
    refine ⟨k', ?_, fun m hm => ?_⟩
    · simpa [parens] using hden'
    · apply hholds' m
      have hor : (SearchKey.and [.or k k₁]).Holds S.fold m.toMail ↔
          k.Holds S.fold m.toMail ∨ k₁.Holds S.fold m.toMail := by
        simp [SearchKey.Holds, SearchKey.AllHold]
      obtain hk | ⟨a, ha, hm⟩ := hm
      · exact .inl (hor.mpr (.inl hk))
      · rcases List.mem_cons.mp ha with rfl | ha
        · exact .inl (hor.mpr (.inr (hholds m hm)))
        · exact .inr ⟨a, ha, hm⟩

/-- What is written for alternatives holds of a mail when one of them does. -/
theorem makeOr_denotes {α : Type} {H : Message → α → Prop} {vs : List α} {cs : List Str}
    (h : List.Forall₂ (fun v c => ∃ k, DenotesKey c k ∧ ∀ m, H m v → k.Holds S.fold m.toMail) vs cs)
    (hne : ∀ c ∈ cs, c ≠ "()".toList) :
    ∀ c, makeOr (cs.map some) = some c →
      ∃ k, DenotesKey c k ∧ ∀ m : Message, (∃ v ∈ vs, H m v) → k.Holds S.fold m.toMail := by
  have hkeep : (cs.map some).filterMap (fun x => if x = some "()".toList then none else x) = cs := by
    rw [List.filterMap_map]
    apply (List.filterMap_congr ?_).trans List.filterMap_some
    intro c hc
    simpa using hne c hc
  intro c hc
  rw [makeOr, hkeep] at hc
  cases h with
  | nil => cases hc
  | @cons v d vs ds hd hrest =>
    obtain ⟨k₁, hden, hholds⟩ := hd
    obtain ⟨k, hk, hall⟩ := or_denotes hrest hden
    refine ⟨k, ?_, fun m hm => hall m ?_⟩
    · rwa [Option.some.inj hc] at hk
    · obtain ⟨a, ha, hm⟩ := hm
      rcases List.mem_cons.mp ha with rfl | ha
      · exact .inl (hholds m hm)
      · exact .inr ⟨a, ha, hm⟩

/-! Quals. -/

theorem mapM_ok {α β : Type} {f : α → Except Raise β} {R : α → β → Prop} {l : List α}
    (h : ∀ a ∈ l, ∃ b, f a = .ok b ∧ R a b) : ∃ bs, l.mapM f = .ok bs ∧ List.Forall₂ R l bs := by
  induction l with
  | nil => exact ⟨[], rfl, .nil⟩
  | cons a l ih =>
    obtain ⟨b, hb, hab⟩ := h a List.mem_cons_self
    obtain ⟨bs, hbs, hall⟩ := ih fun a ha => h a (List.mem_cons_of_mem _ ha)
    refine ⟨b :: bs, ?_, .cons hab hall⟩
    rw [List.mapM_cons, hb, hbs]
    rfl

theorem exists_of_forall₂_right {α β : Type} {R : α → β → Prop} {l : List α} {bs : List β}
    (h : List.Forall₂ R l bs) : ∀ b ∈ bs, ∃ a ∈ l, R a b := by
  induction h with
  | nil => simp
  | @cons a b l bs hab _ ih =>
    intro b' hb'
    rcases List.mem_cons.mp hb' with rfl | hb'
    · exact ⟨a, List.mem_cons_self, hab⟩
    · obtain ⟨a', ha', hR⟩ := ih b' hb'
      exact ⟨a', List.mem_cons_of_mem _ ha', hR⟩

/-- A condition, when it is one, is read as keys that hold of the mails with `P`. -/
def Sound (S : Comparison) (P : Message → Prop) (condition : Option Str) : Prop :=
  ∀ c, condition = some c →
    ∃ keys, Denotes c keys ∧ ∀ m, P m → SearchKey.AllHold S.fold m.toMail keys

theorem sound_none {P : Message → Prop} : Sound S P none := nofun

theorem sound_key {P : Message → Prop} {c : Str} {k : SearchKey} (hc : DenotesKey c k)
    (hk : ∀ m, P m → k.Holds S.fold m.toMail) : Sound S P (some c) := by
  intro c' hc'
  obtain rfl := Option.some.inj hc'
  exact ⟨[k], hc.denotes, fun m hm => ⟨hk m hm, trivial⟩⟩

theorem Sound.mono {P Q : Message → Prop} {c : Option Str} (h : Sound S P c)
    (hPQ : ∀ m, Q m → P m) : Sound S Q c := by
  intro c' hc'
  obtain ⟨keys, hden, hkeys⟩ := h c' hc'
  exact ⟨keys, hden, fun m hm => hkeys m (hPQ m hm)⟩

theorem makeCondition_sound {operator : Operator} {value : Option Str}
    (h : Handled t S key operator value) (hd : ¬ Dropped operator value) :
    ∃ c, t.makeCondition key operator (element value) = .ok c ∧
      Sound S (fun m => S.Holds operator (t.column m key) (element value)) c := by
  obtain ⟨c, k, hc, hden, hk⟩ := makeCondition_handled h hd
  exact ⟨_, hc, sound_key hden hk⟩

/-- The criterion for a list under ANY, when each value has one or none has. -/
theorem any_sound {operator : Operator} {vs : List (Option Str)}
    (h : (∀ v ∈ vs, Dropped operator v) ∨
      ∀ v ∈ vs, Handled t S key operator v ∧ ¬ Dropped operator v) :
    ∃ cs, vs.mapM (fun v => t.makeCondition key operator (element v)) = .ok cs ∧
      Sound S (fun m => ∃ v ∈ vs, S.Holds operator (t.column m key) (element v))
        (makeOr (cs.map fun c => some (parens (c.getD "None".toList)))) := by
  rcases h with hd | h
  · obtain ⟨cs, hcs, hall⟩ := mapM_ok (R := fun _ c => c = some [])
      fun v hv => ⟨_, makeCondition_dropped (hd v hv), rfl⟩
    refine ⟨cs, hcs, ?_⟩
    have hnone : (cs.map fun c => some (parens (c.getD "None".toList))).filterMap
        (fun x => if x = some "()".toList then none else x) = [] := by
      rw [List.filterMap_map, List.filterMap_eq_nil_iff]
      intro c hc
      obtain ⟨-, -, rfl⟩ := exists_of_forall₂_right hall c hc
      rfl
    rw [makeOr, hnone]
    exact sound_none
  · obtain ⟨cs, hcs, hall⟩ := mapM_ok (f := fun v => t.makeCondition key operator (element v))
      (R := fun v c => ∃ d k, c = some d ∧ DenotesKey d k ∧ ∀ m,
        S.Holds operator (t.column m key) (element v) → k.Holds S.fold m.toMail)
      fun v hv => by
        obtain ⟨c, k, hc, hden, hk⟩ := makeCondition_handled (h v hv).1 (h v hv).2
        exact ⟨_, hc, c, k, rfl, hden, hk⟩
    refine ⟨cs, hcs, ?_⟩
    have hparens : ∀ c ∈ cs.map fun c => parens (c.getD "None".toList), c ≠ "()".toList := by
      intro c hc
      obtain ⟨oc, hoc, rfl⟩ := List.mem_map.mp hc
      obtain ⟨v, -, d, k, rfl, hden, -⟩ := exists_of_forall₂_right hall oc hoc
      obtain ⟨a, d, rfl⟩ := List.exists_cons_of_ne_nil (denotesKey_ne_nil hden)
      intro heq
      have hcons : a :: (d ++ [')']) = [')'] := (List.cons.inj heq).2
      simpa using congrArg List.length hcons
    have hkeys : List.Forall₂ (fun v c => ∃ k, DenotesKey c k ∧ ∀ m : Message,
        S.Holds operator (t.column m key) (element v) → k.Holds S.fold m.toMail) vs
        (cs.map fun c => parens (c.getD "None".toList)) := by
      rw [List.forall₂_map_right_iff]
      refine hall.imp ?_
      rintro v c ⟨d, k, rfl, hden, hk⟩
      exact ⟨_, hden.denotes.parens, fun m hm => ⟨hk m hm, trivial⟩⟩
    intro c hc
    have hor := makeOr_denotes hkeys hparens c (by rw [List.map_map]; exact hc)
    obtain ⟨k, hden, hk⟩ := hor
    exact ⟨[k], hden.denotes, fun m hm => ⟨hk m hm, trivial⟩⟩

/-- The criterion of one flag, which is a keyword of the mail. -/
theorem flagKey_word {v : Option Str}
    (h : ∃ word, v = some word ∧ IsWord word ∧ standardFlag word = none) :
    ∃ c, flagKey v = .ok c ∧ ∃ word, v = some word ∧ DenotesKey c (.keyword word) := by
  obtain ⟨word, rfl, hword, hflag⟩ := h
  refine ⟨"KEYWORD".toList ++ ' ' :: word, ?_, word, rfl, denotesKey_keyword hword⟩
  rw [flagKey, hflag]
  rfl

theorem spaced_denotes {vs : List (Option Str)} {cs : List Str} (hne : vs ≠ [])
    (h : List.Forall₂ (fun v c => ∃ word, v = some word ∧ DenotesKey c (.keyword word)) vs cs) :
    ∃ keys, Denotes (spaced cs) keys ∧
      ∀ m : Message, (∀ v ∈ vs, ∃ f ∈ m.flags, v = some f) → SearchKey.AllHold S.fold m.toMail keys := by
  induction h with
  | nil => exact absurd rfl hne
  | @cons v c vs cs hc hrest ih =>
    obtain ⟨word, rfl, hden⟩ := hc
    have hfirst : ∀ m : Message, (∀ v ∈ some word :: vs, ∃ f ∈ m.flags, v = some f) →
        (SearchKey.keyword word).Holds S.fold m.toMail := by
      intro m hm
      obtain ⟨f, hf, hword⟩ := hm _ List.mem_cons_self
      obtain rfl := Option.some.inj hword
      exact hf
    cases hrest with
    | nil => exact ⟨_, hden.denotes, fun m hm => ⟨hfirst m hm, trivial⟩⟩
    | @cons v' c' vs' cs' hc' hrest' =>
      obtain ⟨keys, hkeys, hall⟩ := ih (List.cons_ne_nil _ _)
      refine ⟨_, hden.cons hkeys, fun m hm => ⟨hfirst m hm, hall m fun v hv => ?_⟩⟩
      exact hm v (List.mem_cons_of_mem _ hv)

theorem column_flags {m : Message} (hflags : some key = t.flags_column)
    (hpayload : some key ≠ t.payload_column) : t.column m key = .array m.flags := by
  rw [ImapFdw.column, if_neg hpayload, if_pos hflags]

theorem flagWords_sound {operator : Operator} {vs : List (Option Str)}
    (h : t.FlagWords key operator vs) :
    ∃ c, t.makeCondition key operator (.array vs) = .ok c ∧
      Sound S (fun m => S.Holds operator (t.column m key) (.array vs)) c := by
  obtain ⟨hop, hflags, hpayload, hwords⟩ := h
  obtain ⟨cs, hcs, hall⟩ := mapM_ok fun v hv => flagKey_word (hwords v hv)
  have hkeys : vs.mapM flagKey = .ok cs := hcs
  rcases hop with ⟨rfl, hne⟩ | rfl
  · refine ⟨some (spaced cs), ?_, ?_⟩
    · show t.keyCondition key .contains (.array vs) = _
      simp [ImapFdw.keyCondition, ImapFdw.negation, Operator.isNegated, hflags, atoms]
      show (fun a => some (spaced a)) <$> vs.mapM flagKey = _
      rw [hkeys]
      rfl
    · intro c hc
      obtain rfl := Option.some.inj hc
      obtain ⟨keys, hden, hall⟩ := spaced_denotes hne hall
      refine ⟨keys, hden, fun m hm => hall m ?_⟩
      have hm : S.Holds .contains (t.column m key) (.array vs) := hm
      rwa [column_flags hflags hpayload] at hm
  · have hparens : List.Forall₂ (fun v c => ∃ k, DenotesKey c k ∧ ∀ m : Message,
        (∃ f ∈ m.flags, v = some f) → k.Holds S.fold m.toMail) vs (cs.map parens) := by
      rw [List.forall₂_map_right_iff]
      refine hall.imp ?_
      rintro v c ⟨word, rfl, hden⟩
      refine ⟨_, hden.denotes.parens, ?_⟩
      rintro m ⟨f, hf, hword⟩
      obtain rfl := Option.some.inj hword
      exact ⟨hf, trivial⟩
    have hne : ∀ c ∈ cs.map parens, c ≠ "()".toList := by
      intro c hc heq
      obtain ⟨d, hd, rfl⟩ := List.mem_map.mp hc
      obtain ⟨v, -, word, -, hden⟩ := exists_of_forall₂_right hall d hd
      obtain ⟨a, d, rfl⟩ := List.exists_cons_of_ne_nil (denotesKey_ne_nil hden)
      have hcons : a :: (d ++ [')']) = [')'] := (List.cons.inj heq).2
      simpa using congrArg List.length hcons
    refine ⟨makeOr ((cs.map parens).map some), ?_, ?_⟩
    · show t.keyCondition key .overlaps (.array vs) = _
      simp [ImapFdw.keyCondition, ImapFdw.negation, Operator.isNegated, hflags, atoms]
      show (fun a => makeOr (a.map fun key => some (parens key))) <$> vs.mapM flagKey = _
      rw [hkeys]
      rfl
    · intro c hc
      obtain ⟨k, hden, hk⟩ := makeOr_denotes hparens hne c hc
      refine ⟨[k], hden.denotes, fun m hm => ⟨hk m ?_, trivial⟩⟩
      have hm : S.Holds .overlaps (t.column m key) (.array vs) := hm
      rw [column_flags hflags hpayload] at hm
      obtain ⟨f, hf, hmem⟩ := hm
      exact ⟨some f, hmem, f, hf, rfl⟩

/-- The conditions of a handled qual hold of every mail that satisfies it. -/
theorem qualConditions_sound {q : Qual} (h : S.QualHandled t q) :
    ∃ cs, t.qualConditions q = .ok cs ∧ ∀ c ∈ cs, Sound S (fun m => S.QualHolds t m q) c := by
  obtain ⟨key, operator, value⟩ := q
  have hscalar : ∀ v, (∃ c, t.makeCondition key operator v = .ok c ∧
        Sound S (fun m => S.Holds operator (t.column m key) v ∨ (operator = .ne ∧ v = .null)) c) →
      ∃ cs, t.qualConditions ⟨key, operator, .scalar v⟩ = .ok cs ∧
        ∀ c ∈ cs, Sound S (fun m => S.QualHolds t m ⟨key, operator, .scalar v⟩) c := by
    rintro v ⟨c, hc, hsound⟩
    refine ⟨[c], by simp [ImapFdw.qualConditions, hc], ?_⟩
    simpa [Comparison.QualHolds] using hsound
  cases value with
  | scalar v =>
    cases v with
    | null => exact absurd h id
    | text s =>
      obtain ⟨c, hc, hsound⟩ := makeCondition_sound h.1 h.2
      exact hscalar _ ⟨c, hc, hsound.mono fun m hm => by simpa [element] using hm⟩
    | array vs =>
      obtain ⟨c, hc, hsound⟩ := flagWords_sound h
      exact hscalar _ ⟨c, hc, hsound.mono fun m hm => by simpa using hm⟩
  | any vs =>
    obtain ⟨cs, hcs, hsound⟩ := any_sound h
    refine ⟨[makeOr (cs.map fun c => some (parens (c.getD "None".toList)))], ?_, ?_⟩
    · simp [ImapFdw.qualConditions, hcs]
    · simpa [Comparison.QualHolds] using hsound
  | all vs =>
    obtain ⟨cs, hcs, hall⟩ := mapM_ok fun v hv => makeCondition_sound (h v hv).1 (h v hv).2
    refine ⟨cs, hcs, fun c hc => ?_⟩
    obtain ⟨v, hv, hsound⟩ := exists_of_forall₂_right hall c hc
    exact hsound.mono fun m hm => hm v hv

theorem extractConditions_sound {quals : List Qual} (h : ∀ q ∈ quals, S.QualHandled t q) :
    ∃ cs, t.extractConditions quals = .ok cs ∧
      ∀ c ∈ cs, Sound S (fun m => ∀ q ∈ quals, S.QualHolds t m q) (some c) := by
  obtain ⟨css, hcss, hall⟩ := mapM_ok fun q hq => qualConditions_sound (h q hq)
  refine ⟨_, by rw [ImapFdw.extractConditions, hcss]; rfl, fun c hc => ?_⟩
  obtain ⟨oc, hoc, hsome⟩ := List.mem_filterMap.mp hc
  obtain ⟨cs, hcs, hmem⟩ := List.mem_flatten.mp hoc
  obtain ⟨q, hq, hsound⟩ := exists_of_forall₂_right hall cs hcs
  have hoc' : oc = some c := by
    by_cases hempty : oc = some "()".toList
    · rw [if_pos hempty] at hsome
      cases hsome
    · rwa [if_neg hempty] at hsome
  rw [← hoc']
  exact (hsound oc hmem).mono fun m hm => hm q hq

end

/-- When every qual is handled, or no mail satisfies them all, the criteria exclude no mail
that satisfies the quals. -/
theorem keepsMatches_of_handled (S : Comparison) (t : ImapFdw) (quals : List Qual)
    (h : (∀ m, ¬ ∀ q ∈ quals, S.QualHolds t m q) ∨ ∀ q ∈ quals, S.QualHandled t q)
    (m : Message) : S.KeepsMatches t quals m := by
  intro hm
  rcases h with hnone | hall
  · exact absurd hm (hnone m)
  · obtain ⟨cs, hcs, hsound⟩ := extractConditions_sound hall
    refine ⟨cs, hcs, fun c hc => ?_⟩
    obtain ⟨keys, hden, hkeys⟩ := hsound c hc c rfl
    exact ⟨keys, hden.parse, hkeys m hm⟩

/-- A single value without a criterion is refused, and every mail that compares well with it is
lost. -/
theorem not_keepsMatches_of_dropped (S : Comparison) (t : ImapFdw) {key : Str} {operator : Operator}
    {v : Str} {m : Message} (hd : Dropped operator (some v))
    (hm : S.Holds operator (t.column m key) (.text v)) :
    ¬ S.KeepsMatches t [⟨key, operator, .scalar (.text v)⟩] m := by
  intro h
  have hconditions : t.extractConditions [⟨key, operator, .scalar (.text v)⟩] = .ok [[]] := by
    have hc : t.makeCondition key operator (.text v) = .ok (some []) := makeCondition_dropped hd
    simp [ImapFdw.extractConditions, ImapFdw.qualConditions, hc]
  obtain ⟨cs, hcs, hall⟩ := h fun q hq => by
    obtain rfl := List.mem_singleton.mp hq
    exact .inl hm
  obtain rfl : [[]] = cs := Except.ok.inj (hconditions.symm.trans hcs)
  obtain ⟨keys, hparse, -⟩ := hall [] (List.mem_singleton.mpr rfl)
  rw [parse_nil] at hparse
  cases hparse

/-- A mail from `a` to `c`. -/
def addressed : Message where
  header key := if key = "FROM".toList then ['a'] else ['c']
  text := []
  flags := []
  payload := []
  payload_infix := List.infix_rfl

/-- A text is searched for in From, and another one excluded from To. -/
theorem keepsMatches_addresses :
    Comparison.KeepsMatches ⟨Char.toLower, fun _ _ _ => False⟩ ⟨none, none, fun _ => []⟩
      [⟨"FROM".toList, .eq, .scalar (.text "a".toList)⟩,
        ⟨"TO".toList, .notIlike, .all [some "%b%".toList]⟩] addressed := by
  apply keepsMatches_of_handled
  right
  intro q hq
  have hquot : ∀ c, isQuotable c = true → Quotable [c] := by
    intro c hc d hd
    rwa [List.mem_singleton.mp hd]
  rcases List.mem_cons.mp hq with rfl | hq
  · refine ⟨Handled.equal ⟨by decide, hquot 'a' (by decide), .inr (.inl (by decide))⟩, ?_⟩
    rintro (⟨name, hname⟩ | ⟨hpattern, -⟩)
    · cases hname
    · cases hpattern
  · obtain rfl := List.mem_singleton.mp hq
    intro v hv
    obtain rfl := List.mem_singleton.mp hv
    refine ⟨@Handled.dissimilar _ _ _ _ [] ['b'] ['b'] (.inl rfl) (.inl rfl) rfl
      (hquot 'b' (by decide)) (by decide) (by decide) (by decide) (by decide), ?_⟩
    rintro (⟨name, hname⟩ | ⟨-, v, hv, hnone⟩)
    · cases hname
    · obtain rfl := Option.some.inj hv
      exact absurd hnone (by decide)

/-- Every Subject is LIKE '%', but an empty search text is taken to match nothing. -/
theorem anySubject_noMatch :
    ¬ ∀ (S : Comparison) (t : ImapFdw) (quals : List Qual) (m : Message), S.KeepsMatches t quals m := by
  intro h
  let m : Message := ⟨⟨fun _ => [], [], []⟩, [], List.infix_rfl⟩
  have hkeeps := h ⟨Char.toLower, fun _ _ _ => False⟩ ⟨none, none, fun _ => []⟩
    [⟨"Subject".toList, .like, .scalar (.text "%".toList)⟩] m
  obtain ⟨cs, hcs, -⟩ := hkeeps fun q hq => by
    obtain rfl := List.mem_singleton.mp hq
    left
    show like Comparison.exact ['%'] [] = true
    decide
  have hraise : ImapFdw.extractConditions ⟨none, none, fun _ => []⟩
      [⟨"Subject".toList, .like, .scalar (.text "%".toList)⟩] = .error .noMatchPossible := by
    rfl
  rw [hraise] at hcs
  cases hcs

end Multicorn.Imap
