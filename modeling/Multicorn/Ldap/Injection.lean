import Multicorn.Ldap.Values

/-! What the values of the quals can do to the structure of the request. -/
namespace Multicorn.Ldap
open Multicorn.LdapFilter

/-- Quals with the same fields and operators. -/
def Similar (quals quals' : List Qual) : Prop :=
  List.Forall₂ (fun q q' => q.field_name = q'.field_name ∧ q.operator = q'.operator) quals quals'

/-- The quals that the request holds. -/
def pushedQuals (quals : List Qual) : List Qual := quals.filter Qual.pushed

theorem Similar.pushed {quals quals' : List Qual} (h : Similar quals quals') :
    Similar (pushedQuals quals) (pushedQuals quals') := by
  induction h with
  | nil => exact List.Forall₂.nil
  | @cons q q' _ _ hq _ ih =>
    have hpushed : q.pushed = q'.pushed := by rw [Qual.pushed, Qual.pushed, hq.2]
    unfold pushedQuals
    by_cases hp : q.pushed = true
    · rw [List.filter_cons_of_pos hp, List.filter_cons_of_pos (hpushed ▸ hp)]
      exact List.Forall₂.cons hq ih
    · rw [List.filter_cons_of_neg hp, List.filter_cons_of_neg (hpushed ▸ hp)]
      exact ih

theorem operator_of_pushed {quals : List Qual} {qual : Qual} (h : qual ∈ pushedQuals quals) :
    qual.operator.name = LdapFdw.eqOp ∨ qual.operator.name = LdapFdw.likeOp := by
  have hp := (List.mem_filter.mp h).2
  simpa [Qual.pushed] using hp

/-- Two filters with the same tree and attributes, whose items have the same form except under
LIKE. The values of the quals come behind the one of the object class. -/
structure SameStructure (operators : List Str) (f g : Filter) : Prop where
  shape : f.shape = g.shape
  forms : List.Forall₂ (fun (p : Str × Str) value => p.1 = LdapFdw.eqOp → form p.2 = form value)
    (operators.zip f.values.tail) g.values.tail

namespace LdapFdw

variable (t : LdapFdw)

/-- Both requests are filters, and they differ only inside values. -/
def NotInjected (quals quals' : List Qual) : Prop :=
  ∃ f g, ReadsAs (t.request quals) f ∧ ReadsAs (t.request quals') g ∧
    SameStructure ((pushedQuals quals).map fun qual => qual.operator.name) f g

/-- The object class and the fields can stand in a filter, and the elements of lists need no
escape there; only a pattern may have asterisks. -/
structure Plain (quals : List Qual) : Prop where
  object_class : validValue true t.object_class = true
  field_name : ∀ qual ∈ pushedQuals quals, attributeDescription qual.field_name = true
  value : ∀ qual ∈ pushedQuals quals,
    t.plainValue (qual.operator.name = likeOp) qual.value = true

def item (qual : Qual) : Str × Str := (qual.field_name, t.val qual.operator.name qual.value)

theorem filter_eq_nest (quals : List Qual) :
    t.filter quals = nest t.classItem ((pushedQuals quals).map t.item) := by
  induction quals using List.reverseRecOn with
  | nil => rfl
  | append_singleton quals qual ih =>
    rw [filter_concat, pushedQuals, List.filter_append]
    by_cases hp : qual.pushed = true
    · rw [if_pos hp, List.filter_cons_of_pos hp, List.filter_nil, List.map_append, List.map_cons,
        List.map_nil, nest_concat, ih]
      rfl
    · rw [if_neg hp, List.filter_cons_of_neg hp, List.filter_nil, List.append_nil, ih]
      rfl

theorem Plain.reads {quals : List Qual} (h : t.Plain quals) :
    ReadsAs (t.request quals) (t.filter quals) := by
  apply t.request_reads h.object_class
  intro qual hq hp
  have hm : qual ∈ pushedQuals quals := List.mem_filter.mpr ⟨hq, hp⟩
  exact ⟨h.field_name qual hm, ((t.plainValue_iff (operator_of_pushed hm) _).mp (h.value qual hm)).1⟩

theorem fields_of_similar {quals quals' : List Qual} (h : Similar quals quals') :
    (quals.map t.item).map Prod.fst = (quals'.map t.item).map Prod.fst := by
  induction h with
  | nil => rfl
  | cons hq _ ih => simp only [List.map_cons, item, hq.1, ih]

theorem values_filter (quals : List Qual) :
    (t.filter quals).values.tail = (pushedQuals quals).map fun qual => (t.item qual).2 := by
  rw [filter_eq_nest, classItem, nest_values]
  simp

/-- Plain values under the same operators have the same forms. -/
theorem forms_of_plain {quals quals' : List Qual} (hsim : Similar quals quals')
    (h : ∀ qual ∈ quals, qual.operator.name = eqOp → form (t.item qual).2 = .equality)
    (h' : ∀ qual ∈ quals', qual.operator.name = eqOp → form (t.item qual).2 = .equality) :
    List.Forall₂ (fun (p : Str × Str) value => p.1 = eqOp → form p.2 = form value)
      ((quals.map fun qual => qual.operator.name).zip (quals.map fun qual => (t.item qual).2))
      (quals'.map fun qual => (t.item qual).2) := by
  induction hsim with
  | nil => exact List.Forall₂.nil
  | cons hq _ ih =>
    refine List.Forall₂.cons ?_ (ih (fun q hm => h q (List.mem_cons_of_mem _ hm))
      (fun q hm => h' q (List.mem_cons_of_mem _ hm)))
    intro he
    rw [h _ (by simp) he, h' _ (by simp) (by rw [← hq.2]; exact he)]

theorem Plain.form_eq {quals : List Qual} (h : t.Plain quals) :
    ∀ qual ∈ pushedQuals quals, qual.operator.name = eqOp → form (t.item qual).2 = .equality := by
  intro qual hq he
  rw [form_eq_equality]
  exact ((t.plainValue_iff (operator_of_pushed hq) _).mp (h.value qual hq)).2 he

theorem notInjected_of_plain {quals quals' : List Qual} (hsim : Similar quals quals')
    (h : t.Plain quals) (h' : t.Plain quals') : t.NotInjected quals quals' := by
  refine ⟨t.filter quals, t.filter quals', h.reads, h'.reads, ?_, ?_⟩
  · rw [filter_eq_nest, filter_eq_nest]
    exact nest_shape _ _ _ (t.fields_of_similar hsim.pushed)
  · rw [values_filter, values_filter]
    exact t.forms_of_plain hsim.pushed h.form_eq h'.form_eq

theorem paren_of_valid {star : Bool} {s : Str} (h : validValue star s = true) :
    ∀ c ∈ s, isParen c = false := by
  intro c hc
  obtain ⟨h1, h2⟩ := validValue_chars h c hc
  simp [isParen, h1, h2]

/-- A reading of the second request with the shape of the first is the one that is meant. -/
theorem filter_of_shape {quals quals' : List Qual} (hsim : Similar quals quals')
    (h : t.Plain quals) {g : Filter} (hg : ReadsAs (t.request quals') g)
    (hshape : g.shape = (t.filter quals).shape) : g = t.filter quals' := by
  rw [filter_eq_nest] at hshape
  obtain ⟨w, items, rfl, hfields⟩ := of_nest_shape hshape
  have hsame : items.map Prod.fst = ((pushedQuals quals').map t.item).map Prod.fst := by
    rw [hfields, t.fields_of_similar hsim.pushed]
  have hlength : items.length = ((pushedQuals quals').map t.item).length := by
    simpa using congrArg List.length hsame
  obtain ⟨hw, hitems⟩ := (nest_wf _ _).mp hg.1
  have htext := hg.2
  rw [← t.text_filter, filter_eq_nest, nest_text, nest_text, hlength] at htext
  have hrest := List.append_cancel_left htext
  have hvalid : validValue true w = true := by
    simp only [Filter.wf, validItem, Bool.and_eq_true] at hw
    exact hw.2
  have hcut : w ++ ')' :: nestTail items =
      t.object_class ++ ')' :: nestTail ((pushedQuals quals').map t.item) := by
    simpa [classItem, Filter.text, FilterType.text] using hrest
  have hno : ∀ {s : Str}, validValue true s = true → ')' ∉ s :=
    fun hs hm => (validValue_chars hs _ hm).2 rfl
  obtain ⟨rfl, htail⟩ := cut_inj (hno hvalid) (hno h.object_class) hcut
  have hclean : ∀ item ∈ items, ∀ c ∈ item.2, isParen c = false := by
    intro item hi
    have hv := hitems item hi
    simp only [validItem, Bool.and_eq_true] at hv
    exact paren_of_valid hv.2
  rw [filter_eq_nest, nestTail_inj hsame hclean htail]
  rfl

theorem plain_of_notInjected {quals quals' : List Qual} (hsim : Similar quals quals')
    (h : t.Plain quals) (hn : t.NotInjected quals quals') : t.Plain quals' := by
  obtain ⟨f, g, hf, hg, hsame⟩ := hn
  obtain rfl := hf.unique h.reads
  obtain rfl := t.filter_of_shape hsim h hg hsame.shape.symm
  have hwf := (t.filter_wf quals').mp hg.1
  have hvalid : ∀ qual ∈ pushedQuals quals', t.ValidQual qual := by
    intro qual hq
    obtain ⟨hm, hp⟩ := List.mem_filter.mp hq
    exact hwf.2 qual hm hp
  have hforms := hsame.forms
  rw [values_filter, values_filter] at hforms
  have hequal : ∀ qual ∈ pushedQuals quals', qual.operator.name = eqOp →
      form (t.item qual).2 = .equality := by
    have hfirst := h.form_eq
    have hpairs := hsim.pushed
    generalize pushedQuals quals = p at hforms hfirst hpairs
    generalize pushedQuals quals' = p' at hforms hpairs
    clear hvalid hsame
    induction hpairs with
    | nil => simp
    | @cons a b _ _ hq _ ih =>
      simp only [List.map_cons, List.zip_cons_cons, List.forall₂_cons] at hforms
      have hrest := ih (fun q hmq => hfirst q (List.mem_cons_of_mem _ hmq)) hforms.2
      intro qual hm he
      obtain rfl | hm := List.mem_cons.mp hm
      · have ha : a.operator.name = eqOp := by rw [hq.2]; exact he
        rw [← hforms.1 ha]
        exact hfirst a (by simp) ha
      · exact hrest qual hm he
  constructor
  · exact hwf.1
  · exact fun qual hq => (hvalid qual hq).1
  · intro qual hq
    rw [t.plainValue_iff (operator_of_pushed hq)]
    exact ⟨(hvalid qual hq).2, fun he => form_eq_equality.mp (hequal qual hq he)⟩

theorem symm_of_similar {quals quals' : List Qual} (h : Similar quals quals') :
    Similar quals' quals :=
  h.flip.imp fun _ _ hq => ⟨hq.1.symm, hq.2.symm⟩

theorem forms_symm {operators values values' : List Str} (hlen : values.length = values'.length)
    (h : List.Forall₂ (fun (p : Str × Str) value => p.1 = eqOp → form p.2 = form value)
      (operators.zip values) values') :
    List.Forall₂ (fun (p : Str × Str) value => p.1 = eqOp → form p.2 = form value)
      (operators.zip values') values := by
  induction operators generalizing values values' with
  | nil =>
    cases h
    obtain rfl := List.eq_nil_of_length_eq_zero hlen
    exact List.Forall₂.nil
  | cons operator operators ih =>
    cases values with
    | nil =>
      cases h
      exact List.Forall₂.nil
    | cons value values =>
      cases h with
      | cons hhead htail =>
        exact List.Forall₂.cons (fun he => (hhead he).symm) (ih (by simpa using hlen) htail)

theorem notInjected_symm {quals quals' : List Qual} (hsim : Similar quals quals')
    (h : t.NotInjected quals quals') : t.NotInjected quals' quals := by
  obtain ⟨f, g, hf, hg, hsame⟩ := h
  have hoperators : (pushedQuals quals').map (fun qual => qual.operator.name) =
      (pushedQuals quals).map fun qual => qual.operator.name := by
    have hpairs := hsim.pushed
    generalize pushedQuals quals = p at hpairs
    generalize pushedQuals quals' = p' at hpairs
    induction hpairs with
    | nil => rfl
    | cons hq _ ih => simp only [List.map_cons, hq.2, ih]
  have hlen : f.values.length = g.values.length := by
    rw [← f.length_values_shape, ← g.length_values_shape, hsame.shape]
  refine ⟨g, f, hg, hf, hsame.shape.symm, ?_⟩
  rw [hoperators]
  exact forms_symm (by simp [hlen]) hsame.forms

/-- When one of the lists is plain, the requests have the same structure exactly when the other
one is plain too. -/
theorem notInjected_iff {quals quals' : List Qual} (hsim : Similar quals quals')
    (hplain : t.Plain quals ∨ t.Plain quals') :
    t.NotInjected quals quals' ↔ t.Plain quals ∧ t.Plain quals' := by
  constructor
  · intro h
    obtain hq | hq := hplain
    · exact ⟨hq, t.plain_of_notInjected hsim hq h⟩
    · have hback := t.notInjected_symm hsim h
      exact ⟨t.plain_of_notInjected (symm_of_similar hsim) hq hback, hq⟩
  · rintro ⟨h, h'⟩
    exact t.notInjected_of_plain hsim h h'

end LdapFdw

/-- A table of people with one column. -/
def people : LdapFdw where
  object_class := "person".toList
  field_list := [⟨"cn".toList, "text".toList⟩]
  isprintable := fun _ => false

def anyOf (elems : List Str) : Qual where
  field_name := "cn".toList
  operator := .array ['='] true
  value := .list (elems.map .str)

theorem similar_anyOf (elems elems' : List Str) : Similar [anyOf elems] [anyOf elems'] :=
  List.Forall₂.cons ⟨rfl, rfl⟩ List.Forall₂.nil

theorem plain_anyOf : people.Plain [anyOf ["ann".toList]] := by
  refine ⟨by decide, ?_, ?_⟩
  all_goals
    intro qual hq
    obtain rfl : qual = anyOf ["ann".toList] := by
      simpa [pushedQuals] using (List.mem_filter.mp hq).1
    decide

theorem notInjected_anyOf :
    people.NotInjected [anyOf ["ann".toList]] [anyOf ["bob".toList, "cy".toList]] ↔
      people.Plain [anyOf ["ann".toList]] ∧ people.Plain [anyOf ["bob".toList, "cy".toList]] :=
  people.notInjected_iff (similar_anyOf _ _) (Or.inl plain_anyOf)

/-- An element with a parenthesis ends its item, and the rest is read as filters. -/
theorem injected_anyOf : ¬∀ (t : LdapFdw) (quals quals' : List Qual), Similar quals quals' →
    validValue true t.object_class = true →
    (∀ qual ∈ quals ++ quals', attributeDescription qual.field_name = true) →
    t.NotInjected quals quals' := by
  intro h
  have hn := h people [anyOf ["ann".toList]] [anyOf ["a)(uid=*".toList]] (similar_anyOf _ _)
    (by decide) (by
      intro qual hq
      obtain rfl | rfl : qual = anyOf ["ann".toList] ∨ qual = anyOf ["a)(uid=*".toList] := by
        simpa using hq
      · decide
      · decide)
  have hplain := people.plain_of_notInjected (similar_anyOf _ _) plain_anyOf hn
  have hvalue := hplain.value (anyOf ["a)(uid=*".toList]) (List.mem_filter.mpr ⟨by simp, by decide⟩)
  revert hvalue
  decide

end Multicorn.Ldap
