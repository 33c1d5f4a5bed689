import Multicorn.Xact.Runs

/-! What the cache hands out: instances constructed from the catalogs of the moment, and the
same ones as long as the catalogs stay as they are. -/
namespace Multicorn.Xact
open Multicorn.Catalog

variable {s s' : Session}

/-- The instance that `getInstance` returns after an access. -/
def Session.served (s : Session) (oid : Oid) : Option ℕ :=
  match lookupEntry oid s.entries with
  | some entry =>
    match entry.value with
    | .obj inst => some inst
    | _ => none
  | none => none

/-- The constructor received the options and the columns that are in force now. -/
def Session.Fresh (s : Session) (oid : Oid) (inst : ℕ) : Prop :=
  ∃ options columns, getOptions s.catalogs oid = some options ∧
    s.instances[inst]? = some ((optionsListToPyDict options).erase "wrapper", columns) ∧
    columns.map columnKey = (tableColumns s.catalogs oid).map columnKey

/-- Nothing that a wrapper of the table is constructed from differs. -/
def SameTable (oid : Oid) (s s' : Session) : Prop :=
  getOptions s'.catalogs oid = getOptions s.catalogs oid ∧
    (tableColumns s'.catalogs oid).map columnKey = (tableColumns s.catalogs oid).map columnKey

/-- The entries note what their instances were constructed with. -/
def Recorded (s : Session) : Prop :=
  ∀ p ∈ s.entries, ∀ inst, p.2.value = .obj inst →
    s.instances[inst]? = some ((optionsListToPyDict p.2.options).erase "wrapper", p.2.columns)

/-! The cache knows what it has constructed. -/

section Record

variable {oid : Oid} {slot : ℕ}

theorem recorded_built (hs : Core s) (hr : Recorded s) {options : List DefElem}
    {released : List ℕ} {entries : List (Oid × CacheEntry)}
    (hold : ∀ p ∈ entries, p.1 ≠ oid → p ∈ s.entries) :
    Recorded (s.built oid options released entries) := by
  intro p hp inst hv
  obtain ⟨hp, ho⟩ | ⟨e, -, rfl⟩ := mem_built.mp hp
  · have hmem := hold p hp ho
    obtain ⟨i, hi, hvi⟩ := hs.built p hmem
    rw [hv] at hvi
    cases hvi
    have hrec := hr p hmem inst hv
    simp only [Session.built]
    rw [List.getElem?_append_left hi]
    exact hrec
  · cases hv
    simp [Session.built]

theorem Access.recorded (hs : Core s) (hr : Recorded s) (h : Access oid slot s s') :
    Recorded s' := by
  cases h with
  | reused hentry hinst hfresh =>
    intro p hp inst hv
    obtain ⟨hp, -⟩ | ⟨e, he, rfl⟩ := mem_updateEntry.mp hp
    · exact hr p hp inst hv
    · exact hr (oid, e) he inst hv
  | inserted hentry =>
    apply recorded_built hs hr
    intro p hp ho
    obtain rfl | hp := mem_insertEntry.mp hp
    · exact absurd rfl ho
    · exact hp
  | rebuilt hentry hinst hstale => exact recorded_built hs hr fun p hp _ => hp

theorem recorded_visit {f : CacheEntry → CacheEntry}
    (hf : ∀ e, (f e).value = e.value ∧ (f e).options = e.options ∧ (f e).columns = e.columns)
    (hr : Recorded s) (hinstances : s'.instances = s.instances)
    (hentries : s'.entries = s.entries.map fun p => (p.1, f p.2)) : Recorded s' := by
  intro p' hp' inst hv
  rw [hentries] at hp'
  obtain ⟨p, hp, rfl⟩ := List.mem_map.mp hp'
  obtain ⟨hvalue, hoptions, hcolumns⟩ := hf p.2
  rw [hinstances]
  simp only [hoptions, hcolumns]
  exact hr p hp inst (by rw [← hvalue]; exact hv)

theorem subEnded_keeps (level : ℕ) (e : CacheEntry) :
    (subEnded level e).value = e.value ∧ (subEnded level e).options = e.options ∧
      (subEnded level e).columns = e.columns := by
  unfold subEnded
  split_ifs <;> exact ⟨rfl, rfl, rfl⟩

theorem xactEnded_keeps (event : XactEvent) (e : CacheEntry) :
    (xactEnded event e).value = e.value ∧ (xactEnded event e).options = e.options ∧
      (xactEnded event e).columns = e.columns := by
  unfold xactEnded
  split_ifs <;> exact ⟨rfl, rfl, rfl⟩

theorem Recorded.step {e : Event} (hs : Core s) (hr : Recorded s) (h : Step s e s') :
    Recorded s' := by
  cases h with
  | beginXact => exact hr
  | access hphase haccess => exact haccess.recorded hs hr
  | ddl => exact hr
  | subStart => exact hr
  | subCommit => exact recorded_visit (subEnded_keeps _) hr rfl rfl
  | subAbort => exact recorded_visit (subEnded_keeps _) hr rfl rfl
  | preCommit => exact recorded_visit (xactEnded_keeps _) hr rfl rfl
  | commit => exact recorded_visit (xactEnded_keeps _) hr rfl rfl
  | abort => exact recorded_visit (xactEnded_keeps _) hr rfl rfl

theorem Reachable.recorded (h : Reachable s) : Recorded s := by
  obtain ⟨catalogs, events, hrun, hexec⟩ := h
  have hboth : Core s ∧ Recorded s := by
    refine execAll_preserves (I := fun s => Core s ∧ Recorded s) ?_ ?_ hrun hexec
    · rintro s e s' ⟨hs, hr⟩ he hstep
      have h := step_of_exec hs he hstep
      exact ⟨hs.step h, hr.step hs h⟩
    · exact ⟨core_start catalogs, fun p hp => by cases hp⟩
  exact hboth.2

end Record

/-! An entry is kept while its table stays as it is. -/

section Keep

variable {oid : Oid}

theorem Holding.served {inst : ℕ} {options : List DefElem}
    {keys : List (String × Oid × ℤ × List DefElem)} (h : Holding oid inst options keys s) :
    s.served oid = some inst := by
  obtain ⟨entry, hl, hv, -⟩ := h
  simp [Session.served, hl, hv]

variable {inst : ℕ} {options : List DefElem} {keys : List (String × Oid × ℤ × List DefElem)}

theorem Holding.visit (h : Holding oid inst options keys s) {f : CacheEntry → CacheEntry}
    (hf : ∀ e, (f e).value = e.value ∧ (f e).options = e.options ∧ (f e).columns = e.columns)
    (hentries : s'.entries = s.entries.map fun p => (p.1, f p.2)) :
    Holding oid inst options keys s' := by
  obtain ⟨entry, hl, hv, ho, hc⟩ := h
  obtain ⟨hvalue, hoptions, hcolumns⟩ := hf entry
  refine ⟨f entry, ?_, by rw [hvalue, hv], by rw [hoptions, ho], by rw [hcolumns, hc]⟩
  rw [hentries, lookupEntry_map, hl]
  rfl

/-- An access to the table finds the entry fresh; one to another table does not touch it. -/
theorem Holding.access (h : Holding oid inst options keys s)
    (hoptions : getOptions s.catalogs oid = some options)
    (hkeys : (tableColumns s.catalogs oid).map columnKey = keys) {oid' : Oid} {slot : ℕ}
    (haccess : Access oid' slot s s') : Holding oid inst options keys s' := by
  obtain ⟨entry, hl, hv, ho, hc⟩ := h
  by_cases hoid : oid = oid'
  · subst hoid
    have hfresh : ¬ Stale s oid entry := by
      rintro (hstale | hstale)
      · exact hstale (by rw [hoptions, ho])
      · exact hstale (by rw [hkeys, hc])
    cases haccess with
    | reused =>
      refine ⟨withDepth s.nestLevel entry, ?_, hv, ho, hc⟩
      rw [lookupEntry_updateEntry_self, hl]
      rfl
    | inserted hentry =>
      rw [hl] at hentry
      cases hentry
    | rebuilt hentry hinst hstale =>
      rw [hl] at hentry
      cases hentry
      exact absurd hstale hfresh
  · refine ⟨entry, ?_, hv, ho, hc⟩
    cases haccess with
    | reused => rw [lookupEntry_updateEntry_ne hoid, hl]
    | inserted =>
      rw [Session.built, lookupEntry_updateEntry_ne hoid, lookupEntry_insertEntry_ne hoid, hl]
    | rebuilt => rw [Session.built, lookupEntry_updateEntry_ne hoid, hl]

theorem Holding.step (h : Holding oid inst options keys s)
    (hoptions : getOptions s.catalogs oid = some options)
    (hkeys : (tableColumns s.catalogs oid).map columnKey = keys) {e : Event}
    (hstep : Step s e s') : Holding oid inst options keys s' := by
  cases hstep with
  | beginXact => exact h
  | access hphase haccess => exact h.access hoptions hkeys haccess
  | ddl => exact h
  | subStart => exact h
  | subCommit => exact h.visit (subEnded_keeps _) rfl
  | subAbort => exact h.visit (subEnded_keeps _) rfl
  | preCommit => exact h.visit (xactEnded_keeps _) rfl
  | commit => exact h.visit (xactEnded_keeps _) rfl
  | abort => exact h.visit (xactEnded_keeps _) rfl

/-- Between accesses that find the table unchanged the entry stays, and every step goes
through. -/
theorem Holding.run (hs : Core s) (h : Holding oid inst options keys s)
    {events : List Event}
    (hrun : AllSteps (fun s e => e.Enabled s ∧ ¬ ComparesNil s e ∧
      getOptions s.catalogs oid = some options ∧
      (tableColumns s.catalogs oid).map columnKey = keys) s events) :
    ∃ s', execAll events s = .ok () s' ∧ Holding oid inst options keys s' := by
  have hok : ∃ s', execAll events s = .ok () s' := by
    refine execAll_ok (fun s e hs he => ?_) hs hrun
    obtain ⟨hnil, -⟩ | ⟨s', hexec, hstep⟩ := exec_cases hs he.1
    · exact absurd hnil he.2.1
    · exact ⟨s', hexec, hs.step hstep⟩
  obtain ⟨s', h'⟩ := hok
  have hboth : Core s' ∧ Holding oid inst options keys s' := by
    refine execAll_preserves (I := fun s => Core s ∧ Holding oid inst options keys s) ?_ ⟨hs, h⟩
      hrun h'
    rintro s e s' ⟨hs, hh⟩ he hexec
    have hstep := step_of_exec hs he.1 hexec
    exact ⟨hs.step hstep, hh.step he.2.2.1 he.2.2.2 hstep⟩
  exact ⟨s', h', hboth.2⟩

end Keep

/-- In every state of a backend an access that compares no empty list of columns gives an
instance constructed from the options and columns in force, and later accesses give the same one
while these are as they were. -/
theorem served_fresh (hs : Reachable s) {oid : Oid} {slot : ℕ}
    (he : (Event.access oid slot).Enabled s) (hnil : ¬ ComparesNil s (.access oid slot)) :
    ∃ s₁ inst, exec (.access oid slot) s = .ok () s₁ ∧ s₁.served oid = some inst ∧
      s₁.Fresh oid inst ∧
      ∀ (events : List Event) (slot' : ℕ),
        AllSteps (fun s e => e.Enabled s ∧ ¬ ComparesNil s e ∧ SameTable oid s₁ s) s₁
          (events ++ [.access oid slot']) →
        ∃ s₂, execAll (events ++ [.access oid slot']) s₁ = .ok () s₂ ∧
          s₂.served oid = some inst := by
  obtain ⟨hphase, hsome⟩ := he
  obtain ⟨options, hoptions⟩ := Option.isSome_iff_exists.mp hsome
  have hcore := hs.core
  have hlevel : 1 ≤ s.nestLevel := by
    have hlevels := hcore.levels
    simpa [Session.LevelsFit, hphase] using hlevels
  obtain ⟨entry, hentry, ho, hempty, -⟩ | ⟨s₁, hok, haccess, inst, hholding⟩ :=
    getCacheEntry_cases hcore.faults hcore.initialized hcore.keyed.keys hlevel hcore.bounded slot
      hoptions
  · exact absurd ⟨entry, hentry, by rw [ho, hoptions], hempty⟩ hnil
  · have hcore₁ : Core s₁ := hcore.step (.access hphase haccess)
    have hrecorded := haccess.recorded hcore hs.recorded
    have hcatalogs : s₁.catalogs = s.catalogs := by
      cases haccess <;> rfl
    have hoptions₁ : getOptions s₁.catalogs oid = some options := by rw [hcatalogs, hoptions]
    refine ⟨s₁, inst, hok, hholding.served, ?_, ?_⟩
    · obtain ⟨entry, hl, hv, ho, hc⟩ := hholding
      refine ⟨options, entry.columns, hoptions₁, ?_, by rw [hc, hcatalogs]⟩
      have hrec := hrecorded _ (mem_of_lookupEntry hl) inst hv
      rw [← ho]
      exact hrec
    · intro events slot' hrun
      have hrun' := hrun.imp (Q := fun s e => e.Enabled s ∧ ¬ ComparesNil s e ∧
          getOptions s.catalogs oid = some options ∧
          (tableColumns s.catalogs oid).map columnKey =
            (tableColumns s₁.catalogs oid).map columnKey) fun s e h =>
        ⟨h.1, h.2.1, h.2.2.1.trans hoptions₁, h.2.2.2⟩
      rw [← hcatalogs] at hholding
      obtain ⟨s₂, hexec, hheld⟩ := hholding.run hcore₁ hrun'
      exact ⟨s₂, hexec, hheld.served⟩

/-- The first access to a table of one column. -/
theorem served_fresh_first : ∃ s₁ inst,
    exec (.access 7 0) { Session.start (oneTable []) with
      phase := .inProgress, stack := [1], nextSubid := 2 } = .ok () s₁ ∧
    s₁.served 7 = some inst ∧ s₁.Fresh 7 inst := by
  have hreach : Reachable { Session.start (oneTable []) with
      phase := .inProgress, stack := [1], nextSubid := 2 } :=
    ⟨oneTable [], [.beginXact], .cons_of_ok rfl rfl trivial, rfl⟩
  have hnil : ¬ ComparesNil { Session.start (oneTable []) with
      phase := .inProgress, stack := [1], nextSubid := 2 } (.access 7 0) := by
    rintro ⟨entry, hentry, -⟩
    cases hentry
  obtain ⟨s₁, inst, hexec, hserved, hfresh, -⟩ := served_fresh hreach ⟨rfl, rfl⟩ hnil
  exact ⟨s₁, inst, hexec, hserved, hfresh⟩

/-- Table 7 with a single column, which was dropped. -/
def bareTable : Catalogs where
  foreignTable oid := if oid = 7 then some ⟨3, [], [⟨"a", 23, -1, true, []⟩]⟩ else none
  foreignServer oid := if oid = 3 then some [⟨"wrapper", "w"⟩] else none
  userMapping _ _ := none
  userId := 10

/-- The second access to a table without a live column reads the length of an empty list. -/
theorem bare_table_crashes : ¬∀ (catalogs : Catalogs) (events : List Event),
    AllSteps Enabled (.start catalogs) events →
      ∃ s', execAll events (.start catalogs) = .ok () s' := by
  intro h
  have hrun : AllSteps Enabled (.start bareTable) [.beginXact, .access 7 0, .access 7 0] := by
    refine .cons_of_ok rfl rfl <| .cons_of_ok ⟨rfl, rfl⟩ rfl ?_
    refine ⟨⟨rfl, rfl⟩, ?_⟩
    intro s' _
    trivial
  obtain ⟨s', hok⟩ := h bareTable _ hrun
  have hcrash : ∃ s, execAll [.beginXact, .access 7 0, .access 7 0] (.start bareTable) =
      .error .crashed s := ⟨_, rfl⟩
  obtain ⟨s, hcrash⟩ := hcrash
  rw [hcrash] at hok
  cases hok

end Multicorn.Xact
