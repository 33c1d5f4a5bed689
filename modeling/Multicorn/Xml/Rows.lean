import Mathlib.Data.List.Forall2
import Multicorn.Xml.Handler

/-! The rows of an XML scan against the elements of the document. -/
namespace Multicorn.Xml
open Multicorn.Sax

abbrev Document := Content Str Char

namespace MulticornXMLHandler

variable {h h' : MulticornXMLHandler} {events more : List XmlEvent}

theorem feed_cons (e : XmlEvent) : h.feed (e :: events) = (h.handle e).bind (·.feed events) := by
  unfold feed
  rw [List.foldlM_cons]
  rfl

theorem feed_append : h.feed (events ++ more) = (h.feed events).bind (·.feed more) := by
  unfold feed
  rw [List.foldlM_append]
  rfl

theorem bind_ok {x : Except KeyError MulticornXMLHandler}
    {f : MulticornXMLHandler → Except KeyError MulticornXMLHandler} (hx : x.bind f = .ok h) :
    ∃ h₁, x = .ok h₁ ∧ f h₁ = .ok h := by
  cases x with
  | error e => cases hx
  | ok h₁ => exact ⟨h₁, rfl, hx⟩

/-- The handler with some rows in front of its own. -/
def withRows (rows : List Row) (h : MulticornXMLHandler) : MulticornXMLHandler :=
  { h with parsed_rows := rows ++ h.parsed_rows }

theorem startElement_withRows (rows : List Row) (name : Str) :
    (h.withRows rows).startElement name = (h.startElement name).withRows rows := by
  by_cases htag : name = h.elem_tag
  · simp [startElement, withRows, htag]
  · by_cases hlevel : h.root_seen = 1
    · by_cases hcolumn : name ∈ h.columns <;> simp [startElement, withRows, htag, hlevel, hcolumn]
    · simp [startElement, withRows, htag, hlevel]

theorem endElement_withRows (rows : List Row) (name : Str) :
    (h.withRows rows).endElement name = (h.endElement name).withRows rows := by
  by_cases htag : name = h.elem_tag
  · simp [endElement, withRows, htag]
  · by_cases hcolumn : name ∈ h.columns <;> simp [endElement, withRows, htag, hcolumn]

theorem characters_withRows (rows : List Row) (content : Str) :
    (h.withRows rows).characters content = (h.characters content).map (withRows rows) := by
  cases htag : h.tag with
  | none => simp [characters, withRows, htag, Except.map]
  | some tag =>
    cases hrow : h.current_row.lookup tag with
    | none => simp [characters, withRows, htag, hrow, Except.map]
    | some text => simp [characters, withRows, htag, hrow, Except.map]

/-- The rows collected so far make no difference. -/
theorem handle_withRows (rows : List Row) (e : XmlEvent) :
    (h.withRows rows).handle e = (h.handle e).map (withRows rows) := by
  cases e with
  | startElement name => exact congrArg Except.ok (startElement_withRows rows name)
  | characters content => exact characters_withRows rows content
  | endElement name => exact congrArg Except.ok (endElement_withRows rows name)

theorem feed_withRows (rows : List Row) :
    (h.withRows rows).feed events = (h.feed events).map (withRows rows) := by
  induction events generalizing h with
  | nil => rfl
  | cons e events ih =>
    rw [feed_cons, feed_cons, handle_withRows]
    cases h.handle e with
    | error err => rfl
    | ok h₁ => exact ih

theorem characters_ok {content : Str} (hstep : h.characters content = .ok h') :
    h' = { h with current_row := h'.current_row } := by
  unfold characters at hstep
  split at hstep
  · split at hstep
    · cases hstep
      rfl
    · cases hstep
  · cases hstep
    rfl

theorem handle_options {e : XmlEvent} (hstep : h.handle e = .ok h') :
    h'.elem_tag = h.elem_tag ∧ h'.columns = h.columns := by
  cases e with
  | startElement name =>
    cases hstep
    unfold startElement
    split_ifs <;> exact ⟨rfl, rfl⟩
  | characters content =>
    rw [characters_ok hstep]
    exact ⟨rfl, rfl⟩
  | endElement name =>
    cases hstep
    unfold endElement
    split_ifs <;> exact ⟨rfl, rfl⟩

theorem feed_options (hfeed : h.feed events = .ok h') :
    h'.elem_tag = h.elem_tag ∧ h'.columns = h.columns := by
  induction events generalizing h with
  | nil =>
    cases hfeed
    exact ⟨rfl, rfl⟩
  | cons e events ih =>
    rw [feed_cons] at hfeed
    obtain ⟨h₁, hstep, hrest⟩ := bind_ok hfeed
    obtain ⟨helem, hcolumns⟩ := handle_options hstep
    obtain ⟨helem', hcolumns'⟩ := ih hrest
    exact ⟨helem'.trans helem, hcolumns'.trans hcolumns⟩

theorem handle_length {e : XmlEvent} (hstep : h.handle e = .ok h') : h'.parsed_rows.length =
    h.parsed_rows.length + [e].count (.endElement h.elem_tag) := by
  cases e with
  | startElement name =>
    cases hstep
    unfold startElement
    split_ifs <;> simp
  | characters content =>
    rw [characters_ok hstep]
    simp
  | endElement name =>
    cases hstep
    unfold endElement
    by_cases hname : name = h.elem_tag
    · simp [hname]
    · rw [if_neg hname]
      split_ifs <;> simp [hname]

/-- Each end tag of `elem_tag` adds a row. -/
theorem feed_length (hfeed : h.feed events = .ok h') : h'.parsed_rows.length =
    h.parsed_rows.length + events.count (.endElement h.elem_tag) := by
  induction events generalizing h with
  | nil =>
    cases hfeed
    rfl
  | cons e events ih =>
    rw [feed_cons] at hfeed
    obtain ⟨h₁, hstep, hrest⟩ := bind_ok hfeed
    have hone := handle_length hstep
    have hmore := ih hrest
    rw [(handle_options hstep).1] at hmore
    have hcount := @List.count_append _ _ (Event.endElement h.elem_tag) [e] events
    change List.count _ (e :: events) = _ at hcount
    omega

/-! Inside an element. -/

/-- The events belong to the inside of an element that encloses none of its own name. -/
def Inner (elem_tag : Str) (events : List XmlEvent) : Prop :=
  .startElement elem_tag ∉ events ∧ .endElement elem_tag ∉ events

/-- The handler goes on with the element that it is in. -/
structure Continues (h h' : MulticornXMLHandler) : Prop where
  elem_tag : h'.elem_tag = h.elem_tag
  columns : h'.columns = h.columns
  parsed_rows : h'.parsed_rows = h.parsed_rows
  root_seen : h'.root_seen = h.root_seen

theorem Continues.trans {a b c : MulticornXMLHandler} (h : Continues a b) (h' : Continues b c) :
    Continues a c :=
  ⟨h'.elem_tag.trans h.elem_tag, h'.columns.trans h.columns, h'.parsed_rows.trans h.parsed_rows,
    h'.root_seen.trans h.root_seen⟩

/-- The column that takes the text has been started in the row. -/
def Started (h : MulticornXMLHandler) : Prop :=
  ∀ c, h.tag = some c → (h.current_row.lookup c).isSome

/-- What the row shows for a column after some events: the text after the last start tag of that
name, or what was there, with the text that still belongs to it. -/
def shown (h : MulticornXMLHandler) (events : List XmlEvent) (c : Str) : Option Str :=
  (textAfter h.columns c events).or (if h.tag = some c then
    (h.current_row.lookup c).map (· ++ textUntil h.columns events) else h.current_row.lookup c)

/-- One event inside an element, and what the row is to show after the events that follow it. -/
theorem handle_inner {e : XmlEvent} (hstart : e ≠ .startElement h.elem_tag)
    (hend : e ≠ .endElement h.elem_tag) (hlevel : h.root_seen = 1) (hstarted : h.Started) :
    ∃ h₁, h.handle e = .ok h₁ ∧ Continues h h₁ ∧ h₁.Started ∧
      ∀ events, ∀ c ∈ h.columns, h₁.shown events c = h.shown (e :: events) c := by
  cases e with
  | startElement name =>
    have hname : name ≠ h.elem_tag := fun hn => hstart (by rw [hn])
    refine ⟨_, rfl, ?_⟩
    unfold startElement
    rw [if_neg hname, if_pos hlevel]
    by_cases hcolumn : name ∈ h.columns
    · rw [if_pos hcolumn]
      refine ⟨⟨rfl, rfl, rfl, rfl⟩, fun c hc => ?_, fun events c _ => ?_⟩
      · cases hc
        simp
      · by_cases hcn : name = c
        · subst hcn
          simp [shown, textAfter]
        · have hnc : ¬ c = name := fun hn => hcn hn.symm
          cases htag : h.tag with
          | none => simp [shown, textAfter, hcn, htag, AList.lookup_insert_ne hnc]
          | some tag =>
            by_cases htc : tag = c
            · subst htc
              simp [shown, textAfter, textUntil, hcolumn, hcn, htag, AList.lookup_insert_ne hnc]
            · simp [shown, textAfter, hcn, htag, htc, AList.lookup_insert_ne hnc]
    · rw [if_neg hcolumn]
      refine ⟨⟨rfl, rfl, rfl, rfl⟩, hstarted, fun events c hc => ?_⟩
      have hcn : name ≠ c := by
        rintro rfl
        exact hcolumn hc
      simp [shown, textAfter, textUntil, hcolumn, hcn]
  | characters content =>
    cases htag : h.tag with
    | none =>
      refine ⟨h, by simp [handle, characters, htag], ⟨rfl, rfl, rfl, rfl⟩, hstarted, ?_⟩
      intro events c _
      simp [shown, textAfter, htag]
    | some tag =>
      obtain ⟨text, htext⟩ := Option.isSome_iff_exists.mp (hstarted tag htag)
      have hrun : h.handle (.characters content) =
          .ok { h with current_row := h.current_row.insert tag (text ++ content) } := by
        simp [handle, characters, htag, htext]
      refine ⟨_, hrun, ⟨rfl, rfl, rfl, rfl⟩, ?_, ?_⟩
      · intro c hc
        have hct : tag = c := Option.some.inj (htag.symm.trans hc)
        subst hct
        simp
      · intro events c _
        by_cases hct : tag = c
        · subst hct
          simp [shown, textAfter, textUntil, htag, htext, List.append_assoc]
        · have hne : ¬ c = tag := fun hn => hct hn.symm
          simp [shown, textAfter, htag, hct, AList.lookup_insert_ne hne]
  | endElement name =>
    have hname : name ≠ h.elem_tag := fun hn => hend (by rw [hn])
    refine ⟨_, rfl, ?_⟩
    unfold endElement
    rw [if_neg hname]
    by_cases hcolumn : name ∈ h.columns
    · rw [if_pos hcolumn]
      refine ⟨⟨rfl, rfl, rfl, rfl⟩, fun c hc => ?_, fun events c _ => ?_⟩
      · cases hc
      · by_cases htag : h.tag = some c
        · simp [shown, textAfter, textUntil, hcolumn, htag]
        · simp [shown, textAfter, htag]
    · rw [if_neg hcolumn]
      refine ⟨⟨rfl, rfl, rfl, rfl⟩, hstarted, fun events c _ => ?_⟩
      simp [shown, textAfter, textUntil, hcolumn]

theorem feed_inner (hinner : Inner h.elem_tag events) (hlevel : h.root_seen = 1)
    (hstarted : h.Started) : ∃ h', h.feed events = .ok h' ∧ Continues h h' ∧
      ∀ c ∈ h.columns, h'.current_row.lookup c = h.shown events c := by
  induction events generalizing h with
  | nil =>
    refine ⟨h, rfl, ⟨rfl, rfl, rfl, rfl⟩, fun c _ => ?_⟩
    by_cases htag : h.tag = some c
    · simp [shown, textAfter, textUntil, htag]
    · simp [shown, textAfter, htag]
  | cons e events ih =>
    obtain ⟨hstart, hend⟩ := hinner
    rw [List.mem_cons, not_or] at hstart hend
    obtain ⟨h₁, hstep, hmid, hstarted₁, hshown⟩ := handle_inner (Ne.symm hstart.1) (Ne.symm hend.1)
      hlevel hstarted
    have hinner₁ : Inner h₁.elem_tag events := by
      rw [hmid.elem_tag]
      exact ⟨hstart.2, hend.2⟩
    obtain ⟨h', hrest, hlast, hrow⟩ := ih hinner₁ (hmid.root_seen.trans hlevel) hstarted₁
    refine ⟨h', ?_, hmid.trans hlast, fun c hc => ?_⟩
    · rw [feed_cons, hstep]
      exact hrest
    · rw [hrow c (by rw [hmid.columns]; exact hc), hshown events c hc]

/-- Whole elements and texts leave no column open that was not open before. -/
theorem tag_of_feed (doc : Document) (hinner : .endElement h.elem_tag ∉ doc.events)
    (hfeed : h.feed doc.events = .ok h') : h'.tag = h.tag ∨ h'.tag = none := by
  induction doc generalizing h h' with
  | done =>
    cases hfeed
    exact .inl rfl
  | text piece rest ih =>
    simp only [Content.events, List.mem_cons, not_or] at hinner
    rw [Content.events, feed_cons] at hfeed
    obtain ⟨h₁, hstep, hrest⟩ := bind_ok hfeed
    have hsame : h₁.tag = h.tag := by
      rw [characters_ok hstep]
    have hrest' := ih (by rw [(handle_options hstep).1]; exact hinner.2) hrest
    rwa [hsame] at hrest'
  | element name children rest ihc ihr =>
    simp only [Content.events, List.mem_cons, List.mem_append, not_or] at hinner
    obtain ⟨-, hchildren, hname, htail⟩ := hinner
    have hname' : name ≠ h.elem_tag := by
      rintro rfl
      exact hname rfl
    rw [Content.events, feed_cons] at hfeed
    obtain ⟨h₁, hstart, hfeed⟩ := bind_ok hfeed
    rw [feed_append] at hfeed
    obtain ⟨h₂, hinside, hfeed⟩ := bind_ok hfeed
    rw [feed_cons] at hfeed
    obtain ⟨h₃, hend, hrest⟩ := bind_ok hfeed
    have ho₁ := handle_options hstart
    have ho₂ := feed_options hinside
    have ho₃ := handle_options hend
    have htag₃ : h₃.elem_tag = h.elem_tag := ho₃.1.trans (ho₂.1.trans ho₁.1)
    have hclosed : h₃.tag = h.tag ∨ h₃.tag = none := by
      have hinside' := ihc (by rw [ho₁.1]; exact hchildren) hinside
      cases hstart
      cases hend
      have hname₂ : name ≠ h₂.elem_tag := by
        rw [ho₂.1, ho₁.1]
        exact hname'
      unfold endElement
      rw [if_neg hname₂, ho₂.2, ho₁.2]
      by_cases hcolumn : name ∈ h.columns
      · rw [if_pos hcolumn]
        exact .inr rfl
      · rw [if_neg hcolumn]
        have hsame : (h.startElement name).tag = h.tag := by
          unfold startElement
          rw [if_neg hname', if_neg hcolumn]
          split_ifs <;> rfl
        rwa [hsame] at hinside'
    rcases ihr (by rw [htag₃]; exact htail) hrest with hlast | hlast
    · rw [hlast]
      exact hclosed
    · exact .inr hlast

/-- Between two outermost elements the handler has collected nothing. -/
structure Outside (h : MulticornXMLHandler) : Prop where
  root_seen : h.root_seen = 0
  tag : h.tag = none
  current_row : h.current_row = ∅

/-- The row of an element shows, for each column, the text after the last start tag of that name. -/
def RowOf (columns : List Str) (row : Row) (children : Document) : Prop :=
  ∀ c ∈ columns, row.lookup c = textAfter columns c children.events

/-- An outermost element that encloses none of its own name becomes a row. -/
theorem feed_element (hout : h.Outside) {children : Document}
    (hflat : .endElement h.elem_tag ∉ children.events) :
    ∃ row, RowOf h.columns row children ∧
      h.feed (.startElement h.elem_tag :: (children.events ++ [.endElement h.elem_tag])) =
        .ok { h with parsed_rows := h.parsed_rows ++ [row] } := by
  let h₁ : MulticornXMLHandler := { h with root_seen := h.root_seen + 1 }
  have hstart : h.handle (.startElement h.elem_tag) = .ok h₁ := by
    simp [handle, startElement, h₁]
  have hlevel : h₁.root_seen = 1 := by
    simp only [h₁, hout.root_seen]
    rfl
  have hstarted : h₁.Started := by
    intro c hc
    have hnone : h.tag = some c := hc
    rw [hout.tag] at hnone
    cases hnone
  have hinner : Inner h₁.elem_tag children.events :=
    ⟨fun hmem => hflat ((Content.mem_startElement children).mp hmem), hflat⟩
  obtain ⟨h₂, hinside, hsame, hrow⟩ := feed_inner hinner hlevel hstarted
  have htag : h₂.tag = none := by
    have hnone : h₁.tag = none := hout.tag
    have hflat₁ : .endElement h₁.elem_tag ∉ children.events := hflat
    rcases tag_of_feed children hflat₁ hinside with htag | htag
    · rw [htag, hnone]
    · exact htag
  refine ⟨h₂.current_row, fun c hc => ?_, ?_⟩
  · have hclosed : h₁.tag = none := hout.tag
    have hempty : h₁.current_row = ∅ := hout.current_row
    have hshown : h₁.shown children.events c = textAfter h₁.columns c children.events := by
      simp [shown, hclosed, hempty]
    rw [hrow c hc, hshown]
  · have hend : h₂.handle (.endElement h.elem_tag) =
        .ok { h with parsed_rows := h.parsed_rows ++ [h₂.current_row] } := by
      have helem : h₂.elem_tag = h.elem_tag := hsame.elem_tag
      have hcolumns : h₂.columns = h.columns := hsame.columns
      have hrows : h₂.parsed_rows = h.parsed_rows := hsame.parsed_rows
      have hseen : h₂.root_seen - 1 = h.root_seen := by
        rw [hsame.root_seen]
        simp [h₁]
      simp only [handle, endElement, helem, if_true, hcolumns, hrows, hseen, htag, ← hout.tag,
        ← hout.current_row]
    rw [feed_cons, hstart]
    change h₁.feed _ = _
    rw [feed_append, hinside]
    change h₂.feed _ = _
    rw [feed_cons, hend]
    rfl

/-- A document without nested elements becomes the rows of its outermost elements. -/
theorem feed_flat {doc : Document} (hout : h.Outside) (hflat : doc.Flat h.elem_tag) :
    ∃ rows, List.Forall₂ (RowOf h.columns) rows (doc.outermost h.elem_tag) ∧
      h.feed doc.events = .ok { h with parsed_rows := h.parsed_rows ++ rows } := by
  induction doc generalizing h with
  | done =>
    refine ⟨[], .nil, ?_⟩
    rw [List.append_nil]
    rfl
  | text piece rest ih =>
    obtain ⟨rows, hrows, hrest⟩ := ih hout hflat
    refine ⟨rows, hrows, ?_⟩
    have hstep : h.handle (.characters piece) = .ok h := by
      simp [handle, characters, hout.tag]
    rw [Content.events, feed_cons, hstep]
    exact hrest
  | element name children rest ihc ihr =>
    have hwhole : (Content.element name children rest).events =
        (.startElement name :: (children.events ++ [.endElement name])) ++ rest.events := by
      simp [Content.events]
    rw [hwhole, feed_append]
    have hmore : ∀ rows₁, ∃ rows, List.Forall₂ (RowOf h.columns) rows (rest.outermost h.elem_tag) ∧
        ({ h with parsed_rows := h.parsed_rows ++ rows₁ } : MulticornXMLHandler).feed rest.events =
          .ok { h with parsed_rows := h.parsed_rows ++ (rows₁ ++ rows) } := by
      intro rows₁
      have hout₁ : Outside { h with parsed_rows := h.parsed_rows ++ rows₁ } :=
        ⟨hout.root_seen, hout.tag, hout.current_row⟩
      obtain ⟨rows, hrows, hrest⟩ := ihr hout₁ hflat.rest
      refine ⟨rows, hrows, ?_⟩
      rw [hrest, List.append_assoc]
    by_cases hname : name = h.elem_tag
    · subst hname
      have hinside : .endElement h.elem_tag ∉ children.events :=
        hflat children (by simp [Content.outermost])
      obtain ⟨row, hrow, hfeed⟩ := feed_element hout hinside
      obtain ⟨rows, hrows, hrest⟩ := hmore [row]
      refine ⟨row :: rows, ?_, ?_⟩
      · simp only [Content.outermost, if_true, List.singleton_append]
        exact .cons hrow hrows
      · rw [hfeed]
        exact hrest
    · obtain ⟨rows₁, hrows₁, hinside⟩ := ihc hout (hflat.children hname)
      obtain ⟨rows, hrows, hrest⟩ := hmore rows₁
      refine ⟨rows₁ ++ rows, ?_, ?_⟩
      · simp only [Content.outermost, if_neg hname]
        exact List.rel_append hrows₁ hrows
      · have hstart : h.handle (.startElement name) = .ok h := by
          simp [handle, startElement, hname, hout.root_seen]
        have hend : ({ h with parsed_rows := h.parsed_rows ++ rows₁ } : MulticornXMLHandler).handle
            (.endElement name) = .ok { h with parsed_rows := h.parsed_rows ++ rows₁ } := by
          by_cases hcolumn : name ∈ h.columns <;> simp [handle, endElement, hname, hcolumn, hout.tag]
        rw [feed_cons, hstart]
        change Except.bind (h.feed (children.events ++ [.endElement name])) _ = _
        rw [feed_append, hinside]
        change Except.bind (feed _ [.endElement name]) _ = _
        rw [feed_cons, hend]
        exact hrest

end MulticornXMLHandler

namespace XMLFdw

open MulticornXMLHandler

variable {t : XMLFdw} {doc : Document} {feeds : List (List XmlEvent)} {close : List XmlEvent}

/-- Handing the rows out after each call makes no difference to the handler. -/
theorem feedAll_ok {h h' : MulticornXMLHandler} (hempty : h.parsed_rows = [])
    (hfeed : h.feed feeds.flatten = .ok h') :
    feedAll h feeds = (h'.parsed_rows, .ok { h' with parsed_rows := [] }) := by
  induction feeds generalizing h h' with
  | nil =>
    cases hfeed
    unfold feedAll
    rw [hempty, ← hempty]
  | cons events feeds ih =>
    rw [List.flatten_cons, feed_append] at hfeed
    obtain ⟨h₁, hfirst, hrest⟩ := bind_ok hfeed
    let h₂ : MulticornXMLHandler := { h₁ with parsed_rows := [] }
    have hback : h₂.withRows h₁.parsed_rows = h₁ := by simp [withRows, h₂]
    rw [← hback, feed_withRows] at hrest
    cases hlast : h₂.feed feeds.flatten with
    | error e =>
      rw [hlast] at hrest
      cases hrest
    | ok h₃ =>
      rw [hlast] at hrest
      cases hrest
      unfold feedAll
      rw [hfirst]
      simp only [getRows]
      rw [ih rfl hlast]
      rfl

theorem feedAll_error {h : MulticornXMLHandler} {e : KeyError}
    (hfeed : h.feed feeds.flatten = .error e) : (feedAll h feeds).2 = .error e := by
  induction feeds generalizing h with
  | nil => cases hfeed
  | cons events feeds ih =>
    rw [List.flatten_cons, feed_append] at hfeed
    unfold feedAll
    cases hfirst : h.feed events with
    | error e' =>
      rw [hfirst] at hfeed
      cases hfeed
      rfl
    | ok h₁ =>
      rw [hfirst] at hfeed
      let h₂ : MulticornXMLHandler := { h₁ with parsed_rows := [] }
      have hback : h₂.withRows h₁.parsed_rows = h₁ := by simp [withRows, h₂]
      change h₁.feed feeds.flatten = _ at hfeed
      rw [← hback, feed_withRows] at hfeed
      cases hlast : h₂.feed feeds.flatten with
      | ok h₃ =>
        rw [hlast] at hfeed
        cases hfeed
      | error e' =>
        rw [hlast] at hfeed
        cases hfeed
        exact ih hlast

/-- A scan raises nothing if the handler takes the whole stream, and then yields what the calls
of `feed` have completed. -/
theorem execute_cases (t : XMLFdw) (feeds : List (List XmlEvent)) (close : List XmlEvent) :
    (∃ h₁ h₂, (init t.elem_tag t.columns).feed feeds.flatten = .ok h₁ ∧
        (init t.elem_tag t.columns).feed (feeds.flatten ++ close) = .ok h₂ ∧
        t.execute feeds close = ⟨h₁.parsed_rows, none⟩) ∨
      (∃ e, (init t.elem_tag t.columns).feed (feeds.flatten ++ close) = .error e) ∧
        (t.execute feeds close).raised ≠ none := by
  cases hfeeds : (init t.elem_tag t.columns).feed feeds.flatten with
  | error e =>
    right
    refine ⟨⟨e, ?_⟩, ?_⟩
    · rw [feed_append, hfeeds]
      rfl
    · have hresult := feedAll_error hfeeds
      unfold execute
      simp only [hresult]
      simp [Except.bind]
  | ok h₁ =>
    have hall := feedAll_ok rfl hfeeds
    let h₂ : MulticornXMLHandler := { h₁ with parsed_rows := [] }
    have hback : h₂.withRows h₁.parsed_rows = h₁ := by simp [withRows, h₂]
    have hwhole : (init t.elem_tag t.columns).feed (feeds.flatten ++ close) =
        (h₂.feed close).map (withRows h₁.parsed_rows) := by
      rw [feed_append, hfeeds]
      change h₁.feed close = _
      rw [← feed_withRows, hback]
    cases hclose : h₂.feed close with
    | ok h₃ =>
      left
      refine ⟨h₁, h₃.withRows h₁.parsed_rows, rfl, ?_, ?_⟩
      · rw [hwhole, hclose]
        rfl
      · unfold execute
        rw [hall]
        simp only [Except.bind]
        rw [hclose]
    | error e =>
      right
      refine ⟨⟨e, ?_⟩, ?_⟩
      · rw [hwhole, hclose]
        rfl
      · unfold execute
        rw [hall]
        simp only [Except.bind]
        rw [hclose]
        simp

/-- The scan raises nothing and yields a row for each outermost element, in order, that shows
for each column the direct text of the last child of that name. -/
def RowsMatch (t : XMLFdw) (doc : Document) (feeds : List (List XmlEvent))
    (close : List XmlEvent) : Prop :=
  (t.execute feeds close).raised = none ∧
    List.Forall₂ (fun (row : Row) children => ∀ c ∈ t.columns, row.lookup c = children.lastText c)
      (t.execute feeds close).yielded (doc.outermost t.elem_tag)

/-- In each outermost element the text after the last start tag of a column, up to the next tag
of any column, is the direct text of the last child of that name. -/
def PlainColumns (t : XMLFdw) (doc : Document) : Prop :=
  ∀ children ∈ doc.outermost t.elem_tag, ∀ c ∈ t.columns,
    textAfter t.columns c children.events = children.lastText c

theorem init_outside : (init t.elem_tag t.columns).Outside := ⟨rfl, rfl, rfl⟩

/-- The rows that `close` completes come after those that are yielded, and are not. -/
theorem rows_of_rowsMatch (hdoc : feeds.flatten ++ close = doc.events)
    (hmatch : t.RowsMatch doc feeds close) :
    (doc.outermost t.elem_tag).length + close.count (.endElement t.elem_tag) =
      doc.events.count (.endElement t.elem_tag) := by
  obtain ⟨hraised, hrows⟩ := hmatch
  rcases t.execute_cases feeds close with ⟨h₁, h₂, hfeeds, -, hexecute⟩ | ⟨-, hfails⟩
  · rw [hexecute] at hrows
    have hlength := hrows.length_eq
    have hyielded := feed_length hfeeds
    have hcount := @List.count_append _ _ (Event.endElement t.elem_tag) feeds.flatten close
    rw [hdoc] at hcount
    change h₁.parsed_rows.length = 0 + feeds.flatten.count (.endElement t.elem_tag) at hyielded
    change h₁.parsed_rows.length = _ at hlength
    omega
  · exact absurd hraised hfails

/-- Without nested elements, and if `close` ends none, the rows are those of the outermost
elements. -/
theorem execute_flat (hdoc : feeds.flatten ++ close = doc.events) (hflat : doc.Flat t.elem_tag)
    (hclose : .endElement t.elem_tag ∉ close) : (t.execute feeds close).raised = none ∧
      List.Forall₂ (RowOf t.columns) (t.execute feeds close).yielded
        (doc.outermost t.elem_tag) := by
  obtain ⟨rows, hrows, hfeed⟩ := feed_flat (t.init_outside) hflat
  rcases t.execute_cases feeds close with ⟨h₁, h₂, hfeeds, hwhole, hexecute⟩ | ⟨⟨e, herror⟩, -⟩
  · rw [hexecute]
    refine ⟨rfl, ?_⟩
    rw [feed_append, hfeeds] at hwhole
    change h₁.feed close = .ok h₂ at hwhole
    let h₃ : MulticornXMLHandler := { h₁ with parsed_rows := [] }
    have hback : h₃.withRows h₁.parsed_rows = h₁ := by simp [withRows, h₃]
    rw [← hback, feed_withRows] at hwhole
    cases hlast : h₃.feed close with
    | error e =>
      rw [hlast] at hwhole
      cases hwhole
    | ok h₄ =>
      rw [hlast] at hwhole
      have hnone := feed_length hlast
      have helem : h₃.elem_tag = t.elem_tag := (feed_options hfeeds).1
      rw [helem, List.count_eq_zero.mpr hclose] at hnone
      have hempty : h₄.parsed_rows = [] := List.length_eq_zero_iff.mp hnone
      have hsame : h₁.parsed_rows = rows := by
        rw [← hdoc, feed_append, hfeeds] at hfeed
        change h₁.feed close = _ at hfeed
        rw [← hback, feed_withRows, hlast] at hfeed
        have hfinal := congrArg parsed_rows (Except.ok.inj hfeed)
        change h₁.parsed_rows ++ h₄.parsed_rows = [] ++ rows at hfinal
        rwa [hempty, List.append_nil, List.nil_append] at hfinal
      rw [hsame]
      exact hrows
  · rw [hdoc, hfeed] at herror
    cases herror

/-- Every way of delivering a document gives its rows only if it has none. One delivery of a
document gives its rows if and only if `close` ends no element, no elements are nested, and the
texts of the columns are plain, as long as `close` does not lose as many rows as nested elements
add. -/
theorem rowsMatch_iff (t : XMLFdw) (doc : Document) :
    ((∀ feeds close, feeds.flatten ++ close = doc.events → t.RowsMatch doc feeds close) ↔
      doc.outermost t.elem_tag = []) ∧
    ∀ feeds close, feeds.flatten ++ close = doc.events →
      (doc.Flat t.elem_tag ∨
        (doc.outermost t.elem_tag).length + close.count (.endElement t.elem_tag) ≠
          doc.events.count (.endElement t.elem_tag)) →
      (t.RowsMatch doc feeds close ↔
        .endElement t.elem_tag ∉ close ∧ doc.Flat t.elem_tag ∧ t.PlainColumns doc) := by
  have hcombine : ∀ {rows : List Row} {l : List Document}, List.Forall₂ (RowOf t.columns) rows l →
      (List.Forall₂ (fun (row : Row) children => ∀ c ∈ t.columns, row.lookup c = children.lastText c)
        rows l ↔ ∀ children ∈ l, ∀ c ∈ t.columns,
          textAfter t.columns c children.events = children.lastText c) := by
    intro rows l hrows
    induction hrows with
    | nil => simp
    | cons hrow _ ih =>
      rw [List.forall₂_cons, List.forall_mem_cons, ih]
      apply and_congr_left'
      constructor
      · intro h c hc
        rw [← h c hc, hrow c hc]
      · intro h c hc
        rw [hrow c hc, h c hc]
  have hone : ∀ feeds close, feeds.flatten ++ close = doc.events →
      (doc.Flat t.elem_tag ∨
        (doc.outermost t.elem_tag).length + close.count (.endElement t.elem_tag) ≠
          doc.events.count (.endElement t.elem_tag)) →
      (t.RowsMatch doc feeds close ↔
        .endElement t.elem_tag ∉ close ∧ doc.Flat t.elem_tag ∧ t.PlainColumns doc) := by
    intro feeds close hdoc hcase
    constructor
    · intro hmatch
      have hcount := rows_of_rowsMatch hdoc hmatch
      have hflat : doc.Flat t.elem_tag := hcase.resolve_right fun hne => hne hcount
      have hclose : .endElement t.elem_tag ∉ close := by
        have hends := Content.flat_iff_count.mp hflat
        apply List.count_eq_zero.mp
        omega
      refine ⟨hclose, hflat, ?_⟩
      exact (hcombine (execute_flat hdoc hflat hclose).2).mp hmatch.2
    · rintro ⟨hclose, hflat, hplain⟩
      obtain ⟨hraised, hrows⟩ := execute_flat hdoc hflat hclose
      exact ⟨hraised, (hcombine hrows).mpr hplain⟩
  refine ⟨⟨fun hall => ?_, fun hnone => ?_⟩, hone⟩
  · have hrows := (hall [] doc.events rfl).2
    have hyielded : (t.execute [] doc.events).yielded = [] := by
      unfold execute feedAll
      simp only
      split <;> rfl
    rw [hyielded] at hrows
    exact List.forall₂_nil_left_iff.mp hrows
  · intro feeds close hdoc
    have hcount := Content.count_endElement t.elem_tag doc
    have hflat : doc.Flat t.elem_tag := by
      intro children hmem
      rw [hnone] at hmem
      cases hmem
    have hends : .endElement t.elem_tag ∉ doc.events := by
      apply List.count_eq_zero.mp
      rw [hcount, hnone]
      rfl
    have hclose : .endElement t.elem_tag ∉ close := by
      intro hmem
      apply hends
      rw [← hdoc]
      exact List.mem_append_right _ hmem
    apply (hone feeds close hdoc (.inl hflat)).mpr
    refine ⟨hclose, hflat, fun children hmem => ?_⟩
    rw [hnone] at hmem
    cases hmem

end XMLFdw

section Sample

/-- Rows of elements `e` with one column `c`. -/
def sampleFdw : XMLFdw := ⟨['e'], [['c']]⟩

/-- `<r><e><c>x</c></e></r>`. -/
def oneElement : Document :=
  .element ['r'] (.element ['e'] (.element ['c'] (.text ['x'] .done) .done) .done) .done

/-- `<r><e><c>x</c><e></e></e></r>`. -/
def nestedElement : Document :=
  .element ['r'] (.element ['e'] (.element ['c'] (.text ['x'] .done) (.element ['e'] .done .done))
    .done) .done

/-- One element whose end tag comes with a call of `feed`. -/
theorem oneElement_rows :
    sampleFdw.RowsMatch oneElement [oneElement.events.take 6] (oneElement.events.drop 6) := by
  have hflat : oneElement.Flat ['e'] := by
    intro children hmem
    obtain rfl := List.mem_singleton.mp hmem
    decide
  apply ((XMLFdw.rowsMatch_iff sampleFdw oneElement).2 _ _ (by decide) (.inl hflat)).mpr
  refine ⟨by decide, hflat, fun children hmem c hc => ?_⟩
  obtain rfl := List.mem_singleton.mp hmem
  obtain rfl := List.mem_singleton.mp hc
  decide

/-- The inner element ends a row of its own. -/
theorem nestedElement_rows : [nestedElement.events].flatten ++ [] = nestedElement.events ∧
    ¬ sampleFdw.RowsMatch nestedElement [nestedElement.events] [] := by
  refine ⟨by decide, fun h => ?_⟩
  have hlength := h.2.length_eq
  revert hlength
  decide

end Sample

end Multicorn.Xml
