import Multicorn.General.SqlText

/-! The statement that creates a foreign table, and what it is parsed as. -/
namespace Multicorn.Sql

/-- A token that ends a type expression in a column definition. -/
def endsType (t : Token) : Bool := t == .sym ',' || t == .sym ')' || t == .word "options".toList

/-- The type expressions of a server. None goes on after a complete one with what ends it, or
starts with two quoted names. -/
structure TypeGrammar where
  valid : List Token → Bool
  nonempty : valid [] = false
  ends : ∀ ty t rest, valid ty = true → valid (ty ++ t :: rest) = true → endsType t = false
  single : ∀ x y rest, valid (.quoted x :: .quoted y :: rest) = false

structure Column where
  name : Str
  type : List Token
  options : List (Str × Str)

structure CreateForeignTable where
  schema : Str
  table : Str
  columns : List Column
  server : Str
  options : List (Str × Str)

def optionList : List (Str × Str) → List Slot
  | [] => []
  | [(k, v)] => [.label k, .exact (.str v)]
  | (k, v) :: o :: os => .label k :: .exact (.str v) :: .exact (.sym ',') :: optionList (o :: os)

/-- The clause for the options, which is left out when there are none. -/
def optionsClause (os : List (Str × Str)) : List Slot :=
  if os = [] then []
  else .exact (.word "options".toList) :: .exact (.sym '(') :: optionList os ++ [.exact (.sym ')')]

def Column.slots (c : Column) : List Slot :=
  .name c.name false :: c.type.map .exact ++ optionsClause c.options

def columnList : List Column → List Slot
  | [] => []
  | [c] => c.slots
  | c :: c' :: cs => c.slots ++ .exact (.sym ',') :: columnList (c' :: cs)

def CreateForeignTable.slots (a : CreateForeignTable) : List Slot :=
  .exact (.word "create".toList) :: .exact (.word "foreign".toList) ::
    .exact (.word "table".toList) :: .name a.schema false :: .exact (.sym '.') ::
    .name a.table true :: .exact (.sym '(') :: columnList a.columns ++
    .exact (.sym ')') :: .exact (.word "server".toList) :: .name a.server false ::
    optionsClause a.options

def Parses (reserved : Str → Bool) (g : TypeGrammar) (ts : List Token) (a : CreateForeignTable) :
    Prop :=
  List.Forall₂ (Slot.Admits reserved) a.slots ts ∧ ∀ c ∈ a.columns, g.valid c.type = true

/-- The text is one statement, and it creates this table and no other. -/
def Means (reserved : Str → Bool) (g : TypeGrammar) (s : Str) (a : CreateForeignTable) : Prop :=
  ∃ ts, lex s = some ts ∧ ∀ b, Parses reserved g ts b ↔ b = a

section Unique

variable {reserved : Str → Bool} {X Y : List Slot} {ts : List Token}

theorem admits_label {k k' : Str} {t : Token} (h : Slot.Admits reserved (.label k) t)
    (h' : Slot.Admits reserved (.label k') t) : k = k' := by
  obtain rfl | rfl := h <;> obtain h' | h' := h' <;> cases h'
  · rfl
  · rfl

theorem admits_name {n n' : Str} {dotted : Bool} {t : Token}
    (h : Slot.Admits reserved (.name n dotted) t) (h' : Slot.Admits reserved (.name n' dotted) t) :
    n = n' := by
  obtain rfl | ⟨rfl, -⟩ := h <;> obtain h' | ⟨h', -⟩ := h' <;> cases h'
  · rfl
  · rfl

theorem forall₂_exacts {ty : List Token}
    (h : List.Forall₂ (Slot.Admits reserved) (ty.map .exact ++ X) ts) :
    ∃ rest, ts = ty ++ rest ∧ List.Forall₂ (Slot.Admits reserved) X rest := by
  induction ty generalizing ts with
  | nil => exact ⟨ts, rfl, h⟩
  | cons t ty ih =>
    obtain ⟨t', ts', rfl, htail, rfl⟩ := List.forall₂_cons_left_iff.mp h
    obtain ⟨rest, rfl, hrest⟩ := ih htail
    exact ⟨rest, rfl, hrest⟩

theorem optionList_unique {os os' : List (Str × Str)} (hne : os ≠ []) (hne' : os' ≠ [])
    (h : List.Forall₂ (Slot.Admits reserved) (optionList os ++ .exact (.sym ')') :: X) ts)
    (h' : List.Forall₂ (Slot.Admits reserved) (optionList os' ++ .exact (.sym ')') :: Y) ts) :
    os = os' ∧ ∃ rest, List.Forall₂ (Slot.Admits reserved) X rest ∧
      List.Forall₂ (Slot.Admits reserved) Y rest := by
  induction os using optionList.induct generalizing os' ts with
  | case1 => exact absurd rfl hne
  | case2 k v =>
    cases os' using optionList.fun_cases with
    | case1 => exact absurd rfl hne'
    | case2 k' v' =>
      simp only [optionList, List.cons_append, List.nil_append, List.forall₂_cons_left_iff] at h h'
      obtain ⟨t₁, _, hk, ⟨_, _, rfl, ⟨_, rest, rfl, hX, rfl⟩, rfl⟩, rfl⟩ := h
      obtain ⟨_, _, hk', ⟨_, _, hv, ⟨_, rest', -, hY, rfl⟩, rfl⟩, heq⟩ := h'
      simp only [List.cons.injEq] at heq
      obtain ⟨rfl, rfl, -, rfl⟩ := heq
      obtain rfl := admits_label hk hk'
      obtain rfl : v = v' := by simpa [Slot.Admits] using hv
      exact ⟨rfl, rest, hX, hY⟩
    | case3 k' v' o os' =>
      simp only [optionList, List.cons_append, List.nil_append, List.forall₂_cons_left_iff] at h h'
      obtain ⟨t₁, _, -, ⟨_, _, -, ⟨_, rest, rfl, -, rfl⟩, rfl⟩, rfl⟩ := h
      obtain ⟨_, _, -, ⟨_, _, -, ⟨_, rest', rfl, -, rfl⟩, rfl⟩, heq⟩ := h'
      simp at heq
  | case3 k v o os ih =>
    cases os' using optionList.fun_cases with
    | case1 => exact absurd rfl hne'
    | case2 k' v' =>
      simp only [optionList, List.cons_append, List.nil_append, List.forall₂_cons_left_iff] at h h'
      obtain ⟨t₁, _, -, ⟨_, _, -, ⟨_, rest, rfl, -, rfl⟩, rfl⟩, rfl⟩ := h
      obtain ⟨_, _, -, ⟨_, _, -, ⟨_, rest', rfl, -, rfl⟩, rfl⟩, heq⟩ := h'
      simp at heq
    | case3 k' v' o' os' =>
      simp only [optionList, List.cons_append, List.forall₂_cons_left_iff] at h h'
      obtain ⟨t₁, _, hk, ⟨_, _, rfl, ⟨_, rest, rfl, hX, rfl⟩, rfl⟩, rfl⟩ := h
      obtain ⟨_, _, hk', ⟨_, _, hv, ⟨_, rest', -, hY, rfl⟩, rfl⟩, heq⟩ := h'
      simp only [List.cons.injEq] at heq
      obtain ⟨rfl, rfl, -, rfl⟩ := heq
      obtain rfl := admits_label hk hk'
      obtain rfl : v = v' := by simpa [Slot.Admits] using hv
      obtain ⟨hos, hrest⟩ := ih (by simp) (by simp) hX hY
      exact ⟨by rw [hos], hrest⟩

/-- The slots after a column or the table start with no options clause. -/
def NoOptions (X : List Slot) : Prop :=
  X = [] ∨ ∃ c X', X = .exact (.sym c) :: X'

theorem optionsClause_unique {os os' : List (Str × Str)} (hX : NoOptions X) (hY : NoOptions Y)
    (h : List.Forall₂ (Slot.Admits reserved) (optionsClause os ++ X) ts)
    (h' : List.Forall₂ (Slot.Admits reserved) (optionsClause os' ++ Y) ts) :
    os = os' ∧ ∃ rest, List.Forall₂ (Slot.Admits reserved) X rest ∧
      List.Forall₂ (Slot.Admits reserved) Y rest := by
  have hnot : ∀ {Z Z'}, NoOptions Z → List.Forall₂ (Slot.Admits reserved) Z ts →
      ¬ List.Forall₂ (Slot.Admits reserved) (.exact (.word "options".toList) :: Z') ts := by
    intro Z Z' hZ hz hz'
    obtain ⟨_, _, rfl, -, rfl⟩ := List.forall₂_cons_left_iff.mp hz'
    obtain rfl | ⟨c, Z'', rfl⟩ := hZ
    · cases hz
    · have hc := (List.forall₂_cons.mp hz).1
      cases hc
  by_cases hos : os = []
  · by_cases hos' : os' = []
    · rw [optionsClause, if_pos hos] at h
      rw [optionsClause, if_pos hos'] at h'
      exact ⟨by rw [hos, hos'], ts, h, h'⟩
    · rw [optionsClause, if_pos hos] at h
      rw [optionsClause, if_neg hos'] at h'
      exact absurd h' (hnot hX h)
  · by_cases hos' : os' = []
    · rw [optionsClause, if_neg hos] at h
      rw [optionsClause, if_pos hos'] at h'
      exact absurd h (hnot hY h')
    · rw [optionsClause, if_neg hos] at h
      rw [optionsClause, if_neg hos'] at h'
      simp only [List.cons_append, List.append_assoc, List.nil_append,
        List.forall₂_cons_left_iff] at h h'
      obtain ⟨_, _, rfl, ⟨_, rest, rfl, hopts, rfl⟩, rfl⟩ := h
      obtain ⟨_, _, -, ⟨_, rest', -, hopts', rfl⟩, heq⟩ := h'
      simp only [List.cons.injEq] at heq
      obtain ⟨-, -, rfl⟩ := heq
      exact optionList_unique hos hos' hopts hopts'

/-- Where a type expression ends. -/
theorem type_unique {g : TypeGrammar} {ty ty' : List Token} (hv : g.valid ty = true)
    (hv' : g.valid ty' = true) {t t' : Token} {rest rest' : List Token}
    (ht : endsType t = true) (ht' : endsType t' = true)
    (h : ty ++ t :: rest = ty' ++ t' :: rest') : ty = ty' ∧ t :: rest = t' :: rest' := by
  obtain ⟨a, rfl, ha⟩ | ⟨a, rfl, ha⟩ := List.append_eq_append_iff.mp h
  · cases a with
    | nil => exact ⟨by simp, by simpa using ha⟩
    | cons x a =>
      obtain ⟨rfl, -⟩ := List.cons.inj ha
      rw [g.ends ty _ a hv hv'] at ht
      cases ht
  · cases a with
    | nil => exact ⟨by simp, by simpa using ha.symm⟩
    | cons x a =>
      obtain ⟨rfl, -⟩ := List.cons.inj ha
      rw [g.ends ty' _ a hv' hv] at ht'
      cases ht'

/-- A separator of the columns or their end. -/
def Separates (c : Char) : Prop := c = ',' ∨ c = ')'

theorem optionsClause_ends {os : List (Str × Str)} {c : Char} (hc : Separates c)
    (h : List.Forall₂ (Slot.Admits reserved) (optionsClause os ++ .exact (.sym c) :: X) ts) :
    ∃ t rest, ts = t :: rest ∧ endsType t = true := by
  by_cases hos : os = []
  · rw [optionsClause, if_pos hos] at h
    obtain ⟨_, rest, rfl, -, rfl⟩ := List.forall₂_cons_left_iff.mp h
    obtain rfl | rfl := hc
    · exact ⟨_, rest, rfl, by decide⟩
    · exact ⟨_, rest, rfl, by decide⟩
  · rw [optionsClause, if_neg hos] at h
    obtain ⟨_, rest, rfl, -, rfl⟩ := List.forall₂_cons_left_iff.mp h
    exact ⟨_, rest, rfl, by decide⟩

theorem column_unique {g : TypeGrammar} {a a' : Column} (hv : g.valid a.type = true)
    (hv' : g.valid a'.type = true) {c c' : Char} (hc : Separates c) (hc' : Separates c')
    (h : List.Forall₂ (Slot.Admits reserved) (a.slots ++ .exact (.sym c) :: X) ts)
    (h' : List.Forall₂ (Slot.Admits reserved) (a'.slots ++ .exact (.sym c') :: Y) ts) :
    a = a' ∧ c = c' ∧ ∃ rest, List.Forall₂ (Slot.Admits reserved) X rest ∧
      List.Forall₂ (Slot.Admits reserved) Y rest := by
  rw [Column.slots, List.cons_append, List.cons_append, List.append_assoc,
    List.forall₂_cons_left_iff] at h h'
  obtain ⟨t, tail, hn, htail, rfl⟩ := h
  obtain ⟨_, _, hn', htail', heq⟩ := h'
  obtain ⟨rfl, rfl⟩ := List.cons.inj heq
  obtain ⟨rest, rfl, hrest⟩ := forall₂_exacts htail
  obtain ⟨rest', heq, hrest'⟩ := forall₂_exacts htail'
  obtain ⟨u, us, rfl, hu⟩ := optionsClause_ends hc hrest
  obtain ⟨u', us', rfl, hu'⟩ := optionsClause_ends hc' hrest'
  obtain ⟨htype, hus⟩ := type_unique hv hv' hu hu' heq
  rw [← hus] at hrest'
  have hX : NoOptions (.exact (.sym c) :: X) := .inr ⟨c, X, rfl⟩
  have hY : NoOptions (.exact (.sym c') :: Y) := .inr ⟨c', Y, rfl⟩
  obtain ⟨hopts, final, hfinal, hfinal'⟩ := optionsClause_unique hX hY hrest hrest'
  obtain ⟨_, final, rfl, hXs, rfl⟩ := List.forall₂_cons_left_iff.mp hfinal
  obtain ⟨_, final', hcc, hYs, heq⟩ := List.forall₂_cons_left_iff.mp hfinal'
  obtain ⟨rfl, rfl⟩ := List.cons.inj heq
  obtain ⟨n, ty, os⟩ := a
  obtain ⟨n', ty', os'⟩ := a'
  obtain rfl := admits_name hn hn'
  obtain rfl : ty = ty' := htype
  obtain rfl : os = os' := hopts
  have hsame : c = c' := by simpa [Slot.Admits] using hcc
  exact ⟨rfl, hsame, final, hXs, hYs⟩

theorem columnList_unique {g : TypeGrammar} {cs cs' : List Column}
    (hv : ∀ c ∈ cs, g.valid c.type = true) (hv' : ∀ c ∈ cs', g.valid c.type = true)
    (h : List.Forall₂ (Slot.Admits reserved) (columnList cs ++ .exact (.sym ')') :: X) ts)
    (h' : List.Forall₂ (Slot.Admits reserved) (columnList cs' ++ .exact (.sym ')') :: Y) ts) :
    cs = cs' ∧ ∃ rest, List.Forall₂ (Slot.Admits reserved) X rest ∧
      List.Forall₂ (Slot.Admits reserved) Y rest := by
  have hclose : ∀ {Z W : List Slot} {c : Column} {us : List Token},
      List.Forall₂ (Slot.Admits reserved) (.exact (.sym ')') :: Z) us →
      ¬ List.Forall₂ (Slot.Admits reserved) (c.slots ++ W) us := by
    intro Z W c us hz hw
    obtain ⟨_, _, rfl, -, rfl⟩ := List.forall₂_cons_left_iff.mp hz
    obtain hn | ⟨hn, -⟩ := (List.forall₂_cons.mp hw).1 <;> cases hn
  induction cs using columnList.induct generalizing cs' ts with
  | case1 =>
    cases cs' using columnList.fun_cases with
    | case1 =>
      obtain ⟨_, rest, rfl, hX, rfl⟩ := List.forall₂_cons_left_iff.mp h
      exact ⟨rfl, rest, hX, (List.forall₂_cons.mp h').2⟩
    | case2 c' => exact absurd h' (hclose h)
    | case3 c' d' cs' =>
      rw [columnList, List.append_assoc] at h'
      exact absurd h' (hclose h)
  | case2 c =>
    cases cs' using columnList.fun_cases with
    | case1 => exact absurd h (hclose h')
    | case2 c' =>
      obtain ⟨rfl, -, hrest⟩ := column_unique (hv c (by simp)) (hv' c' (by simp)) (.inr rfl)
        (.inr rfl) h h'
      exact ⟨rfl, hrest⟩
    | case3 c' d' cs' =>
      rw [columnList, List.append_assoc] at h'
      obtain ⟨-, hne, -⟩ := column_unique (hv c (by simp)) (hv' c' (by simp)) (.inr rfl)
        (.inl rfl) h h'
      exact absurd hne (by decide)
  | case3 c d cs ih =>
    rw [columnList, List.append_assoc] at h
    cases cs' using columnList.fun_cases with
    | case1 => exact absurd h (hclose h')
    | case2 c' =>
      obtain ⟨-, hne, -⟩ := column_unique (hv c (by simp)) (hv' c' (by simp)) (.inl rfl)
        (.inr rfl) h h'
      exact absurd hne (by decide)
    | case3 c' d' cs' =>
      rw [columnList, List.append_assoc] at h'
      obtain ⟨rfl, -, rest, hrest, hrest'⟩ := column_unique (hv c (by simp)) (hv' c' (by simp))
        (.inl rfl) (.inl rfl) h h'
      obtain ⟨hcs, hfinal⟩ := ih (fun e he => hv e (List.mem_cons_of_mem _ he))
        (fun e he => hv' e (List.mem_cons_of_mem _ he)) hrest hrest'
      exact ⟨by rw [hcs], hfinal⟩

/-- Tokens are parsed in one way at most. -/
theorem Parses.unique {g : TypeGrammar} {a a' : CreateForeignTable}
    (h : Parses reserved g ts a) (h' : Parses reserved g ts a') : a = a' := by
  obtain ⟨h, hv⟩ := h
  obtain ⟨h', hv'⟩ := h'
  obtain ⟨schema, table, columns, server, options⟩ := a
  obtain ⟨schema', table', columns', server', options'⟩ := a'
  simp only [CreateForeignTable.slots, List.cons_append, List.forall₂_cons_left_iff] at h h'
  obtain ⟨_, _, -, ⟨_, _, -, ⟨_, _, -, ⟨_, _, hs, ⟨_, _, -, ⟨_, _, ht, ⟨_, rest, -, hcols, rfl⟩,
    rfl⟩, rfl⟩, rfl⟩, rfl⟩, rfl⟩, rfl⟩ := h
  obtain ⟨_, _, -, ⟨_, _, -, ⟨_, _, -, ⟨_, _, hs', ⟨_, _, -, ⟨_, _, ht', ⟨_, rest', -, hcols', rfl⟩,
    rfl⟩, rfl⟩, rfl⟩, rfl⟩, rfl⟩, heq⟩ := h'
  simp only [List.cons.injEq] at heq
  obtain ⟨-, -, -, rfl, -, rfl, -, rfl⟩ := heq
  obtain ⟨rfl, rest, hrest, hrest'⟩ := columnList_unique hv hv' hcols hcols'
  simp only [List.forall₂_cons_left_iff] at hrest hrest'
  obtain ⟨_, _, -, ⟨_, rest, hserver, hopts, rfl⟩, rfl⟩ := hrest
  obtain ⟨_, _, -, ⟨_, rest', hserver', hopts', rfl⟩, heq⟩ := hrest'
  simp only [List.cons.injEq] at heq
  obtain ⟨-, rfl, rfl⟩ := heq
  obtain rfl := admits_name hs hs'
  obtain rfl := admits_name ht ht'
  obtain rfl := admits_name hserver hserver'
  have hend : NoOptions [] := .inl rfl
  rw [← List.append_nil (optionsClause _)] at hopts hopts'
  obtain ⟨rfl, -⟩ := optionsClause_unique hend hend hopts hopts'
  rfl

/-- A text that the slots of a statement can be read from means that statement. -/
theorem means_iff {g : TypeGrammar} {s : Str} {a : CreateForeignTable}
    (hv : ∀ c ∈ a.columns, g.valid c.type = true) :
    Means reserved g s a ↔ ReadAs reserved a.slots s := by
  constructor
  · rintro ⟨ts, hlex, hparse⟩
    exact ⟨ts, lex_eq_some_iff.mp hlex, ((hparse a).mpr rfl).1⟩
  · rintro ⟨ts, hlex, hall⟩
    refine ⟨ts, lex_eq_some_iff.mpr hlex, ?_⟩
    intro b
    constructor
    · intro hb
      exact hb.unique ⟨hall, hv⟩
    · rintro rfl
      exact ⟨hall, hv⟩

end Unique

section Calm

variable {X : List Slot}

@[simp] theorem calm_exacts (ty : List Token) : Calm (ty.map .exact ++ X) ↔ Calm X := by
  induction ty with
  | nil => rfl
  | cons t ty ih => exact ih

@[simp] theorem calm_optionList (os : List (Str × Str)) : Calm (optionList os ++ X) ↔ Calm X := by
  induction os using optionList.induct with
  | case1 => rfl
  | case2 k v => rfl
  | case3 k v o os ih => exact ih

@[simp] theorem calm_optionsClause (os : List (Str × Str)) :
    Calm (optionsClause os ++ X) ↔ Calm X := by
  unfold optionsClause
  split_ifs
  · rfl
  · rw [List.cons_append, List.cons_append, List.append_assoc]
    exact calm_optionList os

theorem settled_type {g : TypeGrammar} {ty : List Token} (hv : g.valid ty = true)
    (os : List (Str × Str)) (c : Char) :
    Settled (ty.map .exact ++ optionsClause os ++ .exact (.sym c) :: X) := by
  cases ty with
  | nil =>
    rw [g.nonempty] at hv
    cases hv
  | cons t ty =>
    cases t with
    | quoted x =>
      cases ty with
      | nil =>
        by_cases hos : os = []
        · simp [hos, optionsClause, Settled]
        · simp [hos, optionsClause, Settled]
      | cons t ty =>
        intro y hy
        rw [hy, g.single] at hv
        cases hv
    | word w => trivial
    | str v => trivial
    | number ds => trivial
    | sym c => trivial

theorem calm_column {g : TypeGrammar} {a : Column} (hv : g.valid a.type = true) {c : Char}
    (hX : Calm X) : Calm (a.slots ++ .exact (.sym c) :: X) := by
  constructor
  · exact settled_type hv a.options c
  · change Calm (a.type.map .exact ++ optionsClause a.options ++ .exact (.sym c) :: X)
    rw [List.append_assoc, calm_exacts, calm_optionsClause]
    exact hX

theorem calm_columnList {g : TypeGrammar} {cs : List Column}
    (hv : ∀ c ∈ cs, g.valid c.type = true) (hX : Calm X) :
    Calm (columnList cs ++ .exact (.sym ')') :: X) := by
  induction cs using columnList.induct with
  | case1 => exact hX
  | case2 c => exact calm_column (hv c (by simp)) hX
  | case3 c d cs ih =>
    rw [columnList, List.append_assoc]
    exact calm_column (hv c (by simp)) (ih fun e he => hv e (List.mem_cons_of_mem c he))

theorem calm_slots {g : TypeGrammar} {a : CreateForeignTable}
    (hv : ∀ c ∈ a.columns, g.valid c.type = true) : Calm a.slots := by
  have hserver : Calm (.name a.server false :: optionsClause a.options) := by
    constructor
    · unfold optionsClause
      split_ifs <;> trivial
    · have hnil : Calm (optionsClause a.options ++ []) := by
        rw [calm_optionsClause]
        trivial
      rwa [List.append_nil] at hnil
  have hcols : Calm (columnList a.columns ++ .exact (.sym ')') :: .exact (.word "server".toList) ::
      .name a.server false :: optionsClause a.options) := calm_columnList hv hserver
  exact ⟨trivial, trivial, hcols⟩

end Calm

section Labels

/-- The names of the options of a statement. -/
def CreateForeignTable.labels (a : CreateForeignTable) : List Str :=
  (a.columns.flatMap fun c => c.options.map (·.1)) ++ a.options.map (·.1)

theorem label_mem_optionsClause {k : Str} {os : List (Str × Str)} :
    Slot.label k ∈ optionsClause os ↔ k ∈ os.map (·.1) := by
  have hlist : Slot.label k ∈ optionList os ↔ k ∈ os.map (·.1) := by
    induction os using optionList.induct with
    | case1 => simp [optionList]
    | case2 k' v => simp [optionList]
    | case3 k' v o os ih => simpa [optionList] using or_congr_right ih
  unfold optionsClause
  split_ifs with hos
  · simp [hos]
  · simpa using hlist

theorem label_mem_columnList {k : Str} {cs : List Column} :
    Slot.label k ∈ columnList cs ↔ ∃ c ∈ cs, k ∈ c.options.map (·.1) := by
  have hcolumn : ∀ c : Column, Slot.label k ∈ c.slots ↔ k ∈ c.options.map (·.1) := by
    intro c
    rw [← label_mem_optionsClause]
    simp [Column.slots]
  induction cs using columnList.induct with
  | case1 => simp [columnList]
  | case2 c => simp [columnList, hcolumn]
  | case3 c d cs ih =>
    have hnext : Slot.label k ∈ columnList (c :: d :: cs) ↔
        k ∈ c.options.map (·.1) ∨ Slot.label k ∈ columnList (d :: cs) := by
      simp [columnList, hcolumn]
    rw [hnext, List.exists_mem_cons_iff]
    exact or_congr_right ih

theorem label_mem_slots {k : Str} {a : CreateForeignTable} :
    Slot.label k ∈ a.slots ↔ k ∈ a.labels := by
  simp [CreateForeignTable.slots, CreateForeignTable.labels, label_mem_columnList,
    label_mem_optionsClause]

end Labels

end Multicorn.Sql
