import Multicorn.General.ArrayLiteral

/-! The hstore texts of PostgreSQL: a reader after the type's input function, and the texts
it reads back as given pairs. -/
namespace Multicorn.Hstore
open Multicorn.ArrayLiteral

/-- A null value has no text. -/
abbrev Pair := Bytes × Option Bytes

def equalsSign : UInt8 := 61
def arrowHead : UInt8 := 62

/-- Without a `key` the reader is at a key, else at the value of `key`; `w` is what it has
read of the word. -/
inductive State
  | wait (key : Option Bytes)
  | word (key : Option Bytes) (inQuotes escaped : Bool) (w : Bytes)
  | equals (key : Bytes)
  | arrow (key : Bytes)
  | delim

structure Reader where
  pairs : List Pair
  state : State

/-- The word NULL outside quotes is a null. -/
def valueOf (inQuotes : Bool) (w : Bytes) : Option Bytes :=
  if !inQuotes && isNull w then none else some w

/-- The word is complete. -/
def close (r : Reader) (key : Option Bytes) (inQuotes : Bool) (w : Bytes) : Reader :=
  match key with
  | none => { r with state := .equals w }
  | some k => ⟨r.pairs ++ [(k, valueOf inQuotes w)], .delim⟩

def waitStep (r : Reader) (key : Option Bytes) (b : UInt8) : Option Reader :=
  if b = quote then some { r with state := .word key true false [] }
  else if b = equalsSign ∧ key = none then none
  else if b = backslash then some { r with state := .word key false true [] }
  else if isSpace b then some r
  else some { r with state := .word key false false [b] }

def quotedStep (r : Reader) (key : Option Bytes) (w : Bytes) (b : UInt8) : Reader :=
  if b = backslash then { r with state := .word key true true w }
  else if b = quote then close r key true w
  else { r with state := .word key true false (w ++ [b]) }

/-- A key outside quotes also ends at an equals sign, a value at a comma. -/
def bareStep (r : Reader) (key : Option Bytes) (w : Bytes) (b : UInt8) : Reader :=
  if b = backslash then { r with state := .word key false true w }
  else if b = equalsSign ∧ key = none then { r with state := .arrow w }
  else if b = comma ∧ key ≠ none then { close r key false w with state := .wait none }
  else if isSpace b then close r key false w
  else { r with state := .word key false false (w ++ [b]) }

def step (r : Reader) (b : UInt8) : Option Reader :=
  match r.state with
  | .wait key => waitStep r key b
  | .word key inQuotes true w => some { r with state := .word key inQuotes false (w ++ [b]) }
  | .word key true false w => some (quotedStep r key w b)
  | .word key false false w => some (bareStep r key w b)
  | .equals key =>
    if b = equalsSign then some { r with state := .arrow key }
    else if isSpace b then some r else none
  | .arrow key => if b = arrowHead then some { r with state := .wait (some key) } else none
  | .delim =>
    if b = comma then some { r with state := .wait none }
    else if isSpace b then some r else none

def finish (r : Reader) : Option (List Pair) :=
  match r.state with
  | .wait none => some r.pairs
  | .word (some key) false false w => some (r.pairs ++ [(key, valueOf false w)])
  | .delim => some r.pairs
  | _ => none

/-- The pairs of the text in its order. -/
def hstoreIn (text : Bytes) : Option (List Pair) := (text.foldlM step ⟨[], .wait none⟩).bind finish

/-! Words in quotes. -/

theorem read_escape (pairs : List Pair) (key : Option Bytes) (w : Bytes) (b : UInt8) :
    (escape b).foldlM step ⟨pairs, .word key true false w⟩ =
      some ⟨pairs, .word key true false (w ++ [b])⟩ := by
  unfold escape
  split_ifs with h
  · simp [step, quotedStep]
  · obtain ⟨hquote, hback⟩ := not_or.mp h
    simp [step, quotedStep, hquote, hback]

theorem read_escaped (pairs : List Pair) (key : Option Bytes) (text w : Bytes) :
    (text.flatMap escape).foldlM step ⟨pairs, .word key true false w⟩ =
      some ⟨pairs, .word key true false (w ++ text)⟩ := by
  induction text generalizing w with
  | nil => simp
  | cons b text ih =>
    rw [List.flatMap_cons, List.foldlM_append, read_escape, Option.bind_eq_bind, Option.bind_some,
      ih, List.append_assoc, List.singleton_append]

theorem read_quoted (pairs : List Pair) (key : Option Bytes) (text : Bytes) :
    (quoted text).foldlM step ⟨pairs, .wait key⟩ = some (close ⟨pairs, .wait key⟩ key true text) := by
  have hopen : step ⟨pairs, .wait key⟩ quote = some ⟨pairs, .word key true false []⟩ := by
    simp [step, waitStep]
  have hclose : step ⟨pairs, .word key true false text⟩ quote =
      some (close ⟨pairs, .wait key⟩ key true text) := by
    cases key <;> simp [step, quotedStep, close, show quote ≠ backslash by decide]
  rw [quoted, List.foldlM_cons, hopen, Option.bind_eq_bind, Option.bind_some, List.foldlM_append,
    read_escaped, Option.bind_eq_bind, Option.bind_some, List.nil_append]
  simp [hclose]

/-- A key in quotes with its arrow. -/
def keyText (key : Bytes) : Bytes := quoted key ++ [equalsSign, arrowHead]

theorem read_keyText (pairs : List Pair) (key : Bytes) :
    (keyText key).foldlM step ⟨pairs, .wait none⟩ = some ⟨pairs, .wait (some key)⟩ := by
  rw [keyText, List.foldlM_append, read_quoted]
  rfl

/-! Values. -/

/-- The value is complete, or it is when the text ends here or goes on with a comma. -/
def Complete (pairs : List Pair) (r : Reader) : Prop :=
  finish r = some pairs ∧ step r comma = some ⟨pairs, .wait none⟩

def ReadsAs (text : Bytes) (value : Option Bytes) : Prop :=
  ∀ pairs key, ∃ r, text.foldlM step ⟨pairs, .wait (some key)⟩ = some r ∧
    Complete (pairs ++ [(key, value)]) r

theorem readsAs_quoted (text : Bytes) : ReadsAs (quoted text) (some text) := by
  intro pairs key
  exact ⟨_, read_quoted pairs (some key) text, rfl, rfl⟩

theorem read_bare (pairs : List Pair) (key : Bytes) {text : Bytes}
    (h : ∀ b ∈ text, plain b = true) (w : Bytes) :
    text.foldlM step ⟨pairs, .word (some key) false false w⟩ =
      some ⟨pairs, .word (some key) false false (w ++ text)⟩ := by
  induction text generalizing w with
  | nil => simp
  | cons b text ih =>
    have hb := h b List.mem_cons_self
    simp only [plain, Bool.and_eq_true, decide_eq_true_eq, ne_eq, Bool.not_eq_true'] at hb
    have hstep : step ⟨pairs, .word (some key) false false w⟩ b =
        some ⟨pairs, .word (some key) false false (w ++ [b])⟩ := by
      simp [step, bareStep, hb]
    rw [List.foldlM_cons, hstep, Option.bind_eq_bind, Option.bind_some,
      ih (fun c hc => h c (List.mem_cons_of_mem b hc)), List.append_assoc, List.singleton_append]

theorem readsAs_bare {text : Bytes} (hne : text ≠ []) (h : ∀ b ∈ text, plain b = true)
    (hnull : isNull text = false) : ReadsAs text (some text) := by
  intro pairs key
  obtain ⟨b, rest, htext⟩ := List.exists_cons_of_ne_nil hne
  subst htext
  have hb := h b List.mem_cons_self
  simp only [plain, Bool.and_eq_true, decide_eq_true_eq, ne_eq, Bool.not_eq_true'] at hb
  have hstep : step ⟨pairs, .wait (some key)⟩ b =
      some ⟨pairs, .word (some key) false false [b]⟩ := by
    simp [step, waitStep, hb]
  refine ⟨⟨pairs, .word (some key) false false (b :: rest)⟩, ?_, ?_⟩
  · rw [List.foldlM_cons, hstep, Option.bind_eq_bind, Option.bind_some,
      read_bare pairs key (fun c hc => h c (List.mem_cons_of_mem b hc))]
    rfl
  · constructor
    · simp [finish, valueOf, hnull]
    · simp [step, bareStep, close, valueOf, hnull, show comma ≠ backslash by decide,
        show comma ≠ equalsSign by decide]

/-! Whole texts. -/

/-- The pairs with commas between them; the values as they are. -/
def pairsText : List (Bytes × Bytes) → Bytes
  | [] => []
  | [item] => keyText item.1 ++ item.2
  | item :: item' :: items => keyText item.1 ++ item.2 ++ comma :: space :: pairsText (item' :: items)

theorem pairsText_cons (item : Bytes × Bytes) (items : List (Bytes × Bytes)) :
    pairsText (item :: items) = keyText item.1 ++ item.2 ++
      (if items.isEmpty then [] else [comma, space]) ++ pairsText items := by
  cases items with
  | nil => simp [pairsText]
  | cons item' items => simp [pairsText]

theorem nul_not_mem_pairsText {items : List (Bytes × Bytes)}
    (h : ∀ item ∈ items, 0 ∉ item.1 ∧ 0 ∉ item.2) : 0 ∉ pairsText items := by
  induction items with
  | nil => simp [pairsText]
  | cons item items ih =>
    obtain ⟨hkey, hvalue⟩ := h item List.mem_cons_self
    have htail := ih fun item' hi => h item' (List.mem_cons_of_mem item hi)
    have hkeyText : 0 ∉ keyText item.1 := by
      simp [keyText, nul_not_mem_quoted hkey, equalsSign, arrowHead]
    have hsep : 0 ∉ (if items.isEmpty then [] else [comma, space]) := by
      split_ifs
      · simp
      · decide
    rw [pairsText_cons]
    simp only [List.mem_append, not_or]
    exact ⟨⟨⟨hkeyText, hvalue⟩, hsep⟩, htail⟩

theorem pairsText_head (item : Bytes × Bytes) (items : List (Bytes × Bytes)) :
    ∃ text, pairsText (item :: items) = quote :: text := by
  cases items with
  | nil => exact ⟨_, rfl⟩
  | cons item' items => exact ⟨_, rfl⟩

theorem read_item (before : List Pair) {item : Bytes × Bytes} {value : Option Bytes}
    (h : ReadsAs item.2 value) :
    ∃ r, (keyText item.1 ++ item.2).foldlM step ⟨before, .wait none⟩ = some r ∧
      Complete (before ++ [(item.1, value)]) r := by
  obtain ⟨r, hread, hcomplete⟩ := h before item.1
  refine ⟨r, ?_, hcomplete⟩
  rw [List.foldlM_append, read_keyText]
  exact hread

/-- After a complete item and a comma the next key may begin. -/
theorem read_next {pairs : List Pair} {r r' : Reader} {text rest : Bytes}
    (hread : text.foldlM step r = some r') (h : Complete pairs r') :
    (text ++ comma :: space :: rest).foldlM step r = rest.foldlM step ⟨pairs, .wait none⟩ := by
  have hspace : step ⟨pairs, .wait none⟩ space = some ⟨pairs, .wait none⟩ := rfl
  rw [List.foldlM_append, hread, Option.bind_eq_bind, Option.bind_some, List.foldlM_cons, h.2,
    Option.bind_eq_bind, Option.bind_some, List.foldlM_cons, hspace, Option.bind_eq_bind,
    Option.bind_some]

theorem read_pairsText {items : List (Bytes × Bytes)} {pairs : List Pair}
    (h : List.Forall₂ (fun item pair => item.1 = pair.1 ∧ ReadsAs item.2 pair.2) items pairs)
    (before : List Pair) :
    ((pairsText items).foldlM step ⟨before, .wait none⟩).bind finish = some (before ++ pairs) := by
  induction h generalizing before with
  | nil => simp [pairsText, finish]
  | @cons item pair items pairs hitem hitems ih =>
    obtain ⟨hkey, hvalue⟩ := hitem
    obtain ⟨r, hread, hcomplete⟩ := read_item before hvalue
    have hpair : (item.1, pair.2) = pair := by rw [hkey]
    rw [hpair] at hcomplete
    cases hitems with
    | nil => simpa [pairsText, hread] using hcomplete.1
    | cons hitem' hitems' =>
      rw [pairsText, read_next hread hcomplete, ih, List.append_assoc, List.singleton_append]

/-- A value left out is no null: the comma is taken for the value, and the next key is not
read. -/
theorem read_missing {items : List (Bytes × Bytes)}
    (h : ∀ item ∈ items, item.2 = [] ∨ ∃ value, ReadsAs item.2 value)
    (hmissing : ∃ item ∈ items, item.2 = []) (before : List Pair) :
    ((pairsText items).foldlM step ⟨before, .wait none⟩).bind finish = none := by
  induction items generalizing before with
  | nil => simp at hmissing
  | cons item items ih =>
    by_cases hempty : item.2 = []
    · have hkey : (keyText item.1 ++ item.2).foldlM step ⟨before, .wait none⟩ =
          some ⟨before, .wait (some item.1)⟩ := by
        rw [hempty, List.append_nil, read_keyText]
      cases items with
      | nil =>
        rw [pairsText, hkey]
        rfl
      | cons item' items =>
        obtain ⟨text, htext⟩ := pairsText_head item' items
        rw [pairsText, List.foldlM_append, hkey, htext]
        rfl
    · have htail : ∃ item' ∈ items, item'.2 = [] := by
        obtain ⟨item', hmem, hitem'⟩ := hmissing
        rcases List.mem_cons.mp hmem with heq | hmem
        · exact absurd (heq ▸ hitem') hempty
        · exact ⟨item', hmem, hitem'⟩
      obtain ⟨value, hvalue⟩ := (h item List.mem_cons_self).resolve_left hempty
      obtain ⟨r, hread, hcomplete⟩ := read_item before hvalue
      have hrest := ih (fun item' hi => h item' (List.mem_cons_of_mem item hi)) htail
      cases items with
      | nil => simp at htail
      | cons item' items =>
        rw [pairsText, read_next hread hcomplete]
        exact hrest _

theorem hstoreIn_pairsText {items : List (Bytes × Bytes)} {pairs : List Pair}
    (h : List.Forall₂ (fun item pair => item.1 = pair.1 ∧ ReadsAs item.2 pair.2) items pairs) :
    hstoreIn (pairsText items) = some pairs := by
  rw [hstoreIn, read_pairsText h, List.nil_append]

theorem hstoreIn_missing {items : List (Bytes × Bytes)}
    (h : ∀ item ∈ items, item.2 = [] ∨ ∃ value, ReadsAs item.2 value)
    (hmissing : ∃ item ∈ items, item.2 = []) : hstoreIn (pairsText items) = none :=
  read_missing h hmissing []

end Multicorn.Hstore
