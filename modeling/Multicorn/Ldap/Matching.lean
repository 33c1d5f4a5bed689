import Multicorn.General.Like
import Multicorn.Ldap.Injection

/-! Which entries that satisfy the quals the server returns for the request. -/
namespace Multicorn.Ldap
open Multicorn.LdapFilter
open Multicorn.Like (like)

inductive ColumnValue
  | scalar (s : Str)
  | array (values : List Str)

/-- The comparisons that are not translated, and those of columns that are not plain text. -/
structure SqlSemantics where
  other : Str → Option Str → Atom → Prop
  typed : Qual → Option ColumnValue → Prop

def lower (s : Str) : Str := s.map Char.toLower

def isTextType (type_name : Str) : Bool :=
  type_name = "text".toList || type_name = "character varying".toList

namespace LdapFdw

variable (t : LdapFdw)

/-- `field_definitions`; of two columns that differ in case only the last one is kept. -/
def field_definitions (key : Str) : Option ColumnDefinition :=
  t.field_list.reverse.find? fun field => lower field.column_name = key

/-- What `execute` puts into the column of a row: the first value, or all for an array type. -/
def litem (e : Entry) (pgcolname : Str) : Option ColumnValue :=
  match t.field_definitions (lower pgcolname) with
  | none => none
  | some field =>
    if field.column_name ≠ pgcolname then none
    else if "[]".toList <:+ field.type_name then
      if e.values pgcolname = [] then none else some (.array (e.values pgcolname))
    else
      match e.values pgcolname with
      | [] => none
      | value :: _ => if value = [] then none else some (.scalar value)

def isText (column_name : Str) : Bool :=
  match t.field_definitions (lower column_name) with
  | none => false
  | some field => isTextType field.type_name

/-- The value of a text column. -/
def text (e : Entry) (column_name : Str) : Option Str :=
  match t.litem e column_name with
  | some (.scalar s) => some s
  | _ => none

end LdapFdw

namespace SqlSemantics

variable (Q : SqlSemantics)

/-- The comparison of a text with one value is true. -/
def compare (operator : Str) (col : Option Str) (a : Atom) : Prop :=
  if operator = LdapFdw.eqOp then
    match col, a with
    | some s, .str v => s = v
    | _, _ => False
  else if operator = LdapFdw.likeOp then
    match col, a with
    | some s, .str p => like (fun a c => decide (a = c)) p s = true
    | _, _ => False
  else Q.other operator col a

/-- A qual on a text column holds; `IS NULL` comes as `=` with None. -/
def textHolds (col : Option Str) : Operator → Value → Prop
  | .scalar operator, .atom .none => operator = LdapFdw.eqOp ∧ col = none ∨
      operator ≠ LdapFdw.eqOp ∧ Q.compare operator col .none
  | .scalar operator, .atom a => Q.compare operator col a
  | .array operator true, .list elems => ∃ a ∈ elems, Q.compare operator col a
  | .array operator false, .list elems => ∀ a ∈ elems, Q.compare operator col a
  | _, _ => False

/-- The row that the entry gives satisfies the qual. -/
def Holds (t : LdapFdw) (e : Entry) (qual : Qual) : Prop :=
  if t.isText qual.field_name then
    Q.textHolds (t.text e qual.field_name) qual.operator qual.value
  else Q.typed qual (t.litem e qual.field_name)

end SqlSemantics

namespace LdapFdw

variable (t : LdapFdw) (S : Server) (Q : SqlSemantics)

/-- The entry is of the object class that the table is about; an asterisk stands for any. -/
def OfClass (e : Entry) : Prop :=
  (oid t.object_class = true ∨ t.object_class = ['*']) ∧
    S.hasMatch e "objectClass".toList (t.object_class.splitOn '*') = true

/-- The server returns the entry if its row satisfies the quals. -/
def Keeps (quals : List Qual) (e : Entry) : Prop :=
  t.OfClass S e → (∀ qual ∈ quals, Q.Holds t e qual) → S.Matches e (t.request quals)

/-- A string compared with a text for equality, or a pattern whose only special characters are
percent signs. -/
def translated (qual : Qual) : Bool :=
  t.isText qual.field_name &&
    match qual.operator, qual.value with
    | .scalar operator, .atom (.str s) =>
      operator = eqOp || (operator = likeOp && s.all fun c => c ≠ '_' && c ≠ '\\')
    | _, _ => false

/-- The texts between the wildcards that the server sees. -/
def parts (qual : Qual) : List Str :=
  match qual.value with
  | .atom (.str s) => if qual.operator.name = likeOp then s.splitOn '%' else [s]
  | value => (t.str value).splitOn '*'

/-- A value of the attribute is spelled, up to case, as the qual's value is written. -/
def Spelled (e : Entry) (qual : Qual) : Prop :=
  t.plainValue true qual.value = true ∧ S.hasMatch e qual.field_name (t.parts qual) = true

/-- Every qual that is pushed without being a translation of what it says finds its spelling in
the entry. -/
def Covered (quals : List Qual) (e : Entry) : Prop :=
  t.OfClass S e → (∀ qual ∈ quals, Q.Holds t e qual) →
    ∀ qual ∈ pushedQuals quals, t.translated qual = false → t.Spelled S e qual

/-! The characters that the server sees. -/

theorem backslash_notMem {star : Bool} {s : Str} (h : Harmless star s) : '\\' ∉ s := by
  intro hm
  obtain hn | ⟨-, he⟩ := h _ hm
  · revert hn
    decide
  · revert he
    decide

theorem decode_val {qual : Qual}
    (hop : qual.operator.name = eqOp ∨ qual.operator.name = likeOp)
    (hplain : t.plainValue true qual.value = true) :
    ((t.val qual.operator.name qual.value).splitOn '*').mapM decode = some (t.parts qual) := by
  obtain ⟨field_name, operator, value⟩ := qual
  cases value with
  | atom a =>
    cases a with
    | str s =>
      simp only [parts, val]
      split_ifs
      · rw [splitOn_pattern]
        apply mapM_decode
        rw [List.forall₂_map_left_iff]
        exact List.forall₂_same.mpr fun part _ => decode_translate part
      · rw [List.splitOn_eq_singleton (translate_no_star s)]
        exact mapM_decode (List.Forall₂.cons (decode_translate s) List.Forall₂.nil)
    | number n => exact decode_plain (backslash_notMem (harmless_number true n))
    | none => exact decode_plain (backslash_notMem (harmless_none true))
  | list elems =>
    simp only [plainValue, List.all_eq_true] at hplain
    exact decode_plain (backslash_notMem (t.harmless_list hplain))

theorem valid_of_class {e : Entry} (h : t.OfClass S e) : validValue true t.object_class = true := by
  obtain ho | ho := h.1
  · apply validValue_of_chars
    intro c hc
    left
    have hchar := attrChar_of_oid ho c hc
    simp only [normal, Bool.and_eq_true, decide_eq_true_eq]
    refine ⟨⟨⟨⟨?_, ?_⟩, ?_⟩, ?_⟩, ?_⟩
    all_goals
      rintro rfl
      revert hchar
      decide
  · rw [ho]
    decide

theorem classItem_eval {e : Entry} (h : t.OfClass S e) :
    S.eval e t.classItem = some true := by
  have hback : '\\' ∉ t.object_class := by
    obtain ho | ho := h.1
    · intro hm
      have hchar := attrChar_of_oid ho _ hm
      revert hchar
      decide
    · rw [ho]
      decide
  exact (S.item_equal e _ (decode_plain hback)).mpr h.2

/-! Strings are translated faithfully. -/

theorem matchParts_of_like {p s : Str} (hp : ∀ c ∈ p, c ≠ '_' ∧ c ≠ '\\')
    (h : like (fun a c => decide (a = c)) p s = true) : matchParts (p.splitOn '%') s = true := by
  induction p generalizing s with
  | nil =>
    have hs : s = [] := (Like.like_nil s).mp h
    simp [hs, matchParts]
  | cons c p ih =>
    have hrest : ∀ d ∈ p, d ≠ '_' ∧ d ≠ '\\' := fun d hd => hp d (List.mem_cons_of_mem c hd)
    obtain ⟨hus, hback⟩ := hp c (by simp)
    rw [List.splitOn_cons_eq_if_modifyHead]
    by_cases hc : c = '%'
    · subst hc
      obtain ⟨u, v, rfl, hv⟩ := (Like.like_percent p s).mp h
      simp only [beq_self_eq_true, if_true]
      rw [matchParts_cons (List.splitOn_ne_nil _ _)]
      exact ⟨u, v, rfl, ih hrest hv⟩
    · have hw : Like.isWildcard c = false := by simp [Like.isWildcard, hc, hus]
      obtain ⟨d, v, rfl, hd, hv⟩ := (Like.like_char hw hback p s).mp h
      have hcd : c = d := by simpa using hd
      subst hcd
      have hm := ih hrest hv
      have hne : (c == '%') = false := by simpa using hc
      rw [hne]
      cases hsplit : p.splitOn '%' with
      | nil => exact absurd hsplit (List.splitOn_ne_nil _ _)
      | cons part rest =>
        rw [hsplit] at hm
        simp only [Bool.false_eq_true, if_false, List.modifyHead_cons]
        by_cases hr : rest = []
        · subst hr
          simpa [matchParts] using hm
        · obtain ⟨u, w, rfl, hw⟩ := (matchParts_cons hr v).mp hm
          rw [matchParts_cons hr]
          exact ⟨u, w, rfl, hw⟩

theorem text_mem {e : Entry} {column_name v : Str} (h : t.text e column_name = some v) :
    v ∈ e.values column_name := by
  unfold text at h
  split at h
  · next s hs =>
    obtain rfl := Option.some.inj h
    unfold litem at hs
    split at hs
    · cases hs
    · split_ifs at hs
      · cases hs
      · split at hs
        · cases hs
        · next value rest he =>
          split_ifs at hs
          obtain rfl : value = s := by simpa using hs
          rw [he]
          simp
  · cases h

theorem spelled_of_translated {e : Entry} {qual : Qual} (htr : t.translated qual = true)
    (hold : Q.Holds t e qual) : t.Spelled S e qual := by
  obtain ⟨field_name, operator, value⟩ := qual
  simp only [translated, Bool.and_eq_true] at htr
  obtain ⟨htext, htr⟩ := htr
  rw [SqlSemantics.Holds, if_pos htext] at hold
  split at htr
  · next operator s =>
    simp only [SqlSemantics.textHolds, SqlSemantics.compare] at hold
    simp only [Bool.or_eq_true, Bool.and_eq_true, decide_eq_true_eq, List.all_eq_true] at htr
    refine ⟨rfl, ?_⟩
    cases hcol : t.text e field_name with
    | none =>
      rw [hcol] at hold
      obtain rfl | ⟨rfl, -⟩ := htr
      · simp at hold
      · simp [eqOp, likeOp] at hold
    | some v =>
      rw [hcol] at hold
      have hmem := t.text_mem hcol
      have hmatch : matchParts (t.parts ⟨field_name, .scalar operator, .atom (.str s)⟩) v = true := by
        obtain rfl | ⟨rfl, hchars⟩ := htr
        · have hv : v = s := by simpa using hold
          have hne : eqOp ≠ likeOp := by decide
          simp [parts, Operator.name, hne, matchParts, hv]
        · have hne : likeOp ≠ eqOp := by decide
          rw [if_neg hne, if_pos rfl] at hold
          exact matchParts_of_like hchars hold
      exact List.any_eq_true.mpr ⟨v, hmem, matchParts_map S.fold hmatch⟩
  · cases htr

theorem Spelled.validQual {e : Entry} {qual : Qual} (h : t.Spelled S e qual) : t.ValidQual qual :=
  ⟨S.described_of_match h.2, t.valid_of_plain _ h.1⟩

theorem Spelled.item {e : Entry} {qual : Qual} (h : t.Spelled S e qual)
    (hop : qual.operator.name = eqOp ∨ qual.operator.name = likeOp) :
    S.item e (t.item qual).1 .equal (t.item qual).2 = some true :=
  (S.item_equal e _ (t.decode_val hop h.1)).mpr h.2

theorem keeps_of_covered {quals : List Qual} {e : Entry} (h : t.Covered S Q quals e) :
    t.Keeps S Q quals e := by
  intro hclass hold
  have hspelled : ∀ qual ∈ pushedQuals quals, t.Spelled S e qual := by
    intro qual hq
    cases htr : t.translated qual with
    | false => exact h hclass hold qual hq htr
    | true => exact t.spelled_of_translated S Q htr (hold qual (List.mem_filter.mp hq).1)
  refine ⟨t.filter quals, t.request_reads (t.valid_of_class S hclass) ?_, ?_⟩
  · intro qual hq hp
    have hm : qual ∈ pushedQuals quals := List.mem_filter.mpr ⟨hq, hp⟩
    exact (hspelled qual hm).validQual t S
  · rw [filter_eq_nest, S.eval_nest]
    refine ⟨t.classItem_eval S hclass, ?_⟩
    intro item hi
    obtain ⟨qual, hq, rfl⟩ := List.mem_map.mp hi
    exact (hspelled qual hq).item t S (operator_of_pushed hq)

theorem plainValue_mono {star : Bool} {value : Value} (h : t.plainValue star value = true) :
    t.plainValue true value = true := by
  cases value with
  | atom a => rfl
  | list elems =>
    simp only [plainValue, List.all_eq_true] at h ⊢
    intro a ha
    have hp := h a ha
    cases a with
    | str s =>
      simp only [plainAtom, plainChar, Bool.and_eq_true, List.all_eq_true, Bool.true_or,
        and_true] at hp ⊢
      exact ⟨fun c hc => (hp.1 c hc).1, hp.2⟩
    | _ => rfl

theorem covered_of_keeps {quals : List Qual} {e : Entry} (hplain : t.Plain quals)
    (h : t.Keeps S Q quals e) : t.Covered S Q quals e := by
  intro hclass hold qual hq _
  obtain ⟨f, hf, heval⟩ := h hclass hold
  obtain rfl := hf.unique hplain.reads
  rw [filter_eq_nest, S.eval_nest] at heval
  have hitem := heval.2 (t.item qual) (List.mem_map.mpr ⟨qual, hq, rfl⟩)
  have hvalue := t.plainValue_mono (hplain.value qual hq)
  refine ⟨hvalue, ?_⟩
  exact (S.item_equal e _ (t.decode_val (operator_of_pushed hq) hvalue)).mp hitem

/-- The server keeps an entry that satisfies the quals when the quals that are not translated
find their spelling in it; when these quals are plain, it does so only then. -/
theorem keeps_iff (quals : List Qual) (e : Entry) :
    (t.Covered S Q quals e → t.Keeps S Q quals e) ∧
      (t.Plain quals → (t.Keeps S Q quals e ↔ t.Covered S Q quals e)) :=
  ⟨t.keeps_of_covered S Q, fun hplain =>
    ⟨t.covered_of_keeps S Q hplain, t.keeps_of_covered S Q⟩⟩

end LdapFdw

theorem isAlpha_of_toLower {c : Char} (h : c.toLower.isAlpha = true) : c.isAlpha = true := by
  by_cases hu : c.isUpper = true
  · have halpha : c.isAlpha = (c.isUpper || c.isLower) := rfl
    rw [halpha, hu, Bool.true_or]
  · have he : c.toLower = c := by
      have hrange : ¬ (c.val ≥ 'A'.val ∧ c.val ≤ 'Z'.val) := of_decide_eq_false
        (Bool.eq_false_iff.mpr hu)
      exact dif_neg hrange
    rw [he] at h
    exact h

theorem attributeDescription_of_letters {s : Str} (hne : s ≠ [])
    (h : ∀ c ∈ s, c.toLower.isAlpha = true) : attributeDescription s = true := by
  have halpha : ∀ c ∈ s, c.isAlpha = true := fun c hc => isAlpha_of_toLower (h c hc)
  have hsemi : ';' ∉ s := by
    intro hm
    have ha := halpha _ hm
    revert ha
    decide
  rw [attributeDescription, List.splitOn_eq_singleton hsemi]
  cases s with
  | nil => exact absurd rfl hne
  | cons c rest =>
    have hrest : rest.all keyChar = true := by
      rw [List.all_eq_true]
      intro d hd
      simp [keyChar, Char.isAlphanum, halpha d (List.mem_cons_of_mem c hd)]
    simp [oid, descr, halpha c (by simp), hrest]

/-- A person with one name. -/
def person (cn : Str) : Entry where
  values := fun attr =>
    if lower attr = "cn".toList then [cn]
    else if lower attr = "objectclass".toList then ["person".toList] else []
  anyCase := by
    intro a b h
    change lower a = lower b at h
    rw [h]
  described := by
    intro a h
    have hletters : ∀ w : Str, w.all Char.isAlpha = true → w ≠ [] → lower a = w →
        attributeDescription a = true := by
      rintro w hw hne rfl
      apply attributeDescription_of_letters
      · rintro rfl
        exact hne rfl
      · intro c hc
        exact List.all_eq_true.mp hw _ (List.mem_map.mpr ⟨c, hc, rfl⟩)
    by_cases hcn : lower a = "cn".toList
    · exact hletters _ (by decide) (by decide) hcn
    · by_cases hclass : lower a = "objectclass".toList
      · exact hletters _ (by decide) (by decide) hclass
      · rw [if_neg hcn, if_neg hclass] at h
        exact absurd rfl h

/-- A server that takes small and capital letters as the same. -/
def anyCaseServer : Server where
  fold := Char.toLower
  other := fun _ _ _ _ => none

def noOther : SqlSemantics where
  other := fun _ _ _ => False
  typed := fun _ _ => False

def likePattern (p : Str) : Qual where
  field_name := "cn".toList
  operator := .scalar ['~', '~']
  value := .atom (.str p)

theorem people_ofClass (cn : Str) : people.OfClass anyCaseServer (person cn) := by
  refine ⟨Or.inl (by decide), ?_⟩
  have hvalues : (person cn).values "objectClass".toList = ["person".toList] := rfl
  rw [Server.hasMatch, hvalues]
  decide

theorem plain_pattern (p : Str) : people.Plain [likePattern p] := by
  refine ⟨by decide, ?_, ?_⟩
  all_goals
    intro qual hq
    obtain rfl : qual = likePattern p := by
      simpa [pushedQuals] using (List.mem_filter.mp hq).1
  · exact (by decide : attributeDescription "cn".toList = true)
  · rfl

theorem holds_likePattern {p : Str} {c : Char} {cn : Str}
    (h : like (fun a c => decide (a = c)) p (c :: cn) = true) :
    noOther.Holds people (person (c :: cn)) (likePattern p) := by
  have htype : people.isText (likePattern p).field_name = true := rfl
  have htext : people.text (person (c :: cn)) (likePattern p).field_name = some (c :: cn) := rfl
  have hcompare : noOther.compare LdapFdw.likeOp (some (c :: cn)) (.str p) := h
  rw [SqlSemantics.Holds, if_pos htype, htext]
  exact hcompare

theorem keeps_person :
    (∀ qual ∈ [likePattern "A%".toList], noOther.Holds people (person "Ann".toList) qual) ∧
      people.Keeps anyCaseServer noOther [likePattern "A%".toList] (person "Ann".toList) ∧
      (people.Keeps anyCaseServer noOther [likePattern "A%".toList] (person "Ann".toList) ↔
        people.Covered anyCaseServer noOther [likePattern "A%".toList] (person "Ann".toList)) := by
  have hholds : ∀ qual ∈ [likePattern "A%".toList],
      noOther.Holds people (person "Ann".toList) qual := by
    intro qual hq
    obtain rfl := List.mem_singleton.mp hq
    exact holds_likePattern (by decide)
  have hcovered : people.Covered anyCaseServer noOther [likePattern "A%".toList]
      (person "Ann".toList) := by
    intro _ _ qual hq htr
    obtain rfl : qual = likePattern "A%".toList := by
      simpa [pushedQuals] using (List.mem_filter.mp hq).1
    have hyes : people.translated (likePattern "A%".toList) = true := by decide
    rw [hyes] at htr
    cases htr
  have h := people.keeps_iff anyCaseServer noOther [likePattern "A%".toList] (person "Ann".toList)
  exact ⟨hholds, h.1 hcovered, h.2 (plain_pattern _)⟩

/-- The underscore of a pattern is sent as it is, and the server looks for it. -/
theorem lost_person : ¬∀ (t : LdapFdw) (S : Server) (Q : SqlSemantics) (quals : List Qual)
    (e : Entry), t.Keeps S Q quals e := by
  intro h
  have hcovered := people.covered_of_keeps anyCaseServer noOther (plain_pattern _)
    (h people anyCaseServer noOther [likePattern "a_c".toList] (person "abc".toList))
  have hold : ∀ qual ∈ [likePattern "a_c".toList], noOther.Holds people (person "abc".toList) qual := by
    intro qual hq
    obtain rfl := List.mem_singleton.mp hq
    exact holds_likePattern (by decide)
  have hspelled := hcovered (people_ofClass _) hold _
    (List.mem_filter.mpr ⟨List.mem_singleton.mpr rfl, by decide⟩) (by decide)
  have hno : anyCaseServer.hasMatch (person "abc".toList) "cn".toList
      (people.parts (likePattern "a_c".toList)) = false := by decide
  have hyes : anyCaseServer.hasMatch (person "abc".toList) "cn".toList
      (people.parts (likePattern "a_c".toList)) = true := hspelled.2
  rw [hno] at hyes
  cases hyes

end Multicorn.Ldap
