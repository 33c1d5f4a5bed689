import Multicorn.Fs.Reference

/-! Contents of any kind: what a scan in the course of a transaction shows of them. -/
namespace Multicorn.Fs
open Multicorn.StateMonad Multicorn.ChangeLog

variable {s s' : State} {t : FilesystemFdw} {d : Directory} {r : Path} {f : Str}
  {name content : Str} {T : Table Str PyVal} {c : FileChange}

/-- What a row with the content shows: NULL is shown as what is in the file, which is empty. -/
def PyVal.orEmpty : PyVal → PyVal
  | .none => .bytes []
  | content => content

/-- What the call has written is not hidden by what was there: NULL is recorded only where there
is no file yet or an empty one. The files that it opens have no other link. -/
structure FilesystemFdw.Evident (t : FilesystemFdw) (s : State) (a : Action) : Prop
    extends t.Regular s a where
  null : ∀ c f, t.change a = some c → c.target = some f → c.row = some .none →
    (s.os.fileContent (t.structured_directory.key f)).getD [] = []
  unlinked : ∀ c, t.change a = some c → ∀ f ∈ c.keys, t.Unlinked s f

/-- A scan shows the table `T`. -/
structure Mirrors (d : Directory) (r : Path) (T : Table Str PyVal) (s : State) : Prop where
  scannable : Scannable d r s
  lists : ∀ f v, T f = some v → d.Lists f
  hidden : ∀ f, d.Lists f → T f = none →
    s.os.data (r ++ f.splitOn '/') = none ∨ d.key f ∈ s.invisible_files
  there : ∀ f v, T f = some v →
    (s.os.data (r ++ f.splitOn '/')).isSome = true ∧ d.key f ∉ s.invisible_files
  shown : ∀ f v, T f = some v → s.shows (d.key f) = some v.orEmpty

/-- What is shown of a name is the recorded content, or else what is in the file. -/
theorem Scannable.shows_key (h : Scannable d r s) (hf : d.Lists f) :
    s.shows (d.key f) =
      if (s.updated_content.lookup (d.key f)).getD .none = .none then
        (s.os.data (r ++ f.splitOn '/')).map .bytes
      else some ((s.updated_content.lookup (d.key f)).getD .none) := by
  unfold State.shows Os.shownAs
  rw [h.fileContent_key hf]
  cases (s.updated_content.lookup (d.key f)).getD .none <;> rfl

namespace Mirrors

theorem shows_iff (h : Mirrors t.structured_directory r T s) (hplain : t.Plain name content)
    {shown : Option PyVal} :
    t.Shows s f shown ↔ ∃ v, T f = some v ∧ shown = some v.orEmpty := by
  rw [FilesystemFdw.shows_iff hplain h.scannable]
  constructor
  · rintro ⟨hf, ⟨i, hi⟩, hvisible, hshows⟩
    cases hT : T f with
    | none =>
      rcases h.hidden f hf hT with hdata | hhidden
      · unfold Os.data at hdata
        rw [hi] at hdata
        cases hdata
      · exact absurd hhidden hvisible
    | some v => exact ⟨v, rfl, hshows.symm.trans (h.shown f v hT)⟩
  · rintro ⟨v, hT, rfl⟩
    obtain ⟨hdata, hvisible⟩ := h.there f v hT
    refine ⟨h.lists f v hT, ?_, hvisible, h.shown f v hT⟩
    obtain ⟨b, hb⟩ := Option.isSome_iff_exists.mp hdata
    obtain ⟨i, hi, -⟩ := Option.map_eq_some_iff.mp hb
    exact ⟨i, hi⟩

/-- The table on the disk before the transaction has done anything. -/
theorem start (hs : Fresh s) (h : Scannable t.structured_directory r s) :
    Mirrors t.structured_directory r (t.onDisk s) s := by
  have hon : ∀ f v, t.onDisk s f = some v → t.structured_directory.Lists f ∧
      (s.os.data (r ++ f.splitOn '/')).map PyVal.bytes = some v := by
    intro f v hv
    unfold FilesystemFdw.onDisk at hv
    split_ifs at hv with hf
    rw [h.fileContent_key hf] at hv
    exact ⟨hf, hv⟩
  refine ⟨h, fun f v hv => (hon f v hv).1, fun f hf hnone => .inl ?_, fun f v hv => ⟨?_, ?_⟩,
    fun f v hv => ?_⟩
  · unfold FilesystemFdw.onDisk at hnone
    rw [if_pos hf, h.fileContent_key hf] at hnone
    simpa using hnone
  · obtain ⟨b, hb, -⟩ := Option.map_eq_some_iff.mp (hon f v hv).2
    rw [hb]
    rfl
  · simp [hs.invisible]
  · obtain ⟨hf, hdata⟩ := hon f v hv
    obtain ⟨b, hb, rfl⟩ := Option.map_eq_some_iff.mp hdata
    rw [h.shows_key hf, hs.updated, hb]
    rfl

theorem view (h : Mirrors d r T s) (hview : SameView s s') (ht : s'.os.Tree) :
    Mirrors d r T s' := by
  have hdata : ∀ p, s'.os.data p = s.os.data p := by
    intro p
    unfold Os.data
    rw [Os.file_of_node hview.node, hview.content]
  refine ⟨⟨(h.scannable.enlarged_of_view hview).rooted, ht, ?_⟩, h.lists, fun f hf hT => ?_,
    fun f v hT => ?_, fun f v hT => ?_⟩
  · rw [hview.process]
    exact h.scannable.literals
  · rw [hdata, hview.invisible]
    exact h.hidden f hf hT
  · rw [hdata, hview.invisible]
    exact h.there f v hT
  · rw [(hview.alike).shows]
    exact h.shown f v hT

/-- One more change. -/
theorem step (h : Mirrors d r T s) (hc : Changed d r s s' c)
    (hlists : ∀ f, c.target = some f → d.Lists f)
    (hnull : ∀ f, c.target = some f → c.row = some .none → (s.os.fileContent (d.key f)).getD [] = [])
    (ht : s'.os.Tree) : Mirrors d r (c.apply T) s' := by
  have hscan : Scannable d r s' := ⟨hc.enlarged.rooted, ht, by
    rw [hc.enlarged.process]
    exact h.scannable.literals⟩
  have hput : ∀ f v, f ∈ c.keys → c.apply T f = some v →
      c.apply (fun _ => none) f = some v := fun f v hf hv =>
    (Change.apply_of_mem hf _ _).symm.trans hv
  refine ⟨hscan, fun f v hv => ?_, fun f hf hnone => ?_, fun f v hv => ?_, fun f v hv => ?_⟩
  · by_cases hmem : f ∈ c.keys
    · exact hlists f (Change.target_of_apply (hput f v hmem hv))
    · rw [Change.apply_of_not_mem hmem] at hv
      exact h.lists f v hv
  · by_cases hmem : f ∈ c.keys
    · rw [Change.apply_of_mem hmem _ fun _ => none] at hnone
      exact .inr ((hc.hidden f hmem).mpr hnone)
    · rw [Change.apply_of_not_mem hmem] at hnone
      rw [hc.enlarged.data f hf hmem, (hc.others f hf hmem).1]
      exact h.hidden f hf hnone
  · by_cases hmem : f ∈ c.keys
    · have happly := hput f v hmem hv
      refine ⟨?_, ?_⟩
      · rw [hc.enlarged.kept f hmem (hlists f (Change.target_of_apply happly))]
        rfl
      · rw [hc.hidden f hmem, happly]
        simp
    · rw [Change.apply_of_not_mem hmem] at hv
      have hf := h.lists f v hv
      rw [hc.enlarged.data f hf hmem, (hc.others f hf hmem).1]
      exact h.there f v hv
  · by_cases hmem : f ∈ c.keys
    · have happly := hput f v hmem hv
      have htarget := Change.target_of_apply happly
      have hf := hlists f htarget
      rw [hscan.shows_key hf, hc.recorded f hmem v happly, Option.getD_some,
        hc.enlarged.kept f hmem hf, ← h.scannable.fileContent_key hf]
      cases v with
      | none => exact congrArg (fun b => some (PyVal.bytes b)) (hnull f htarget (Change.row_of_apply happly))
      | str v => rfl
      | bytes v => rfl
      | other text truth => rfl
    · rw [Change.apply_of_not_mem hmem] at hv
      have hf := h.lists f v hv
      rw [hscan.shows_key hf, (hc.others f hf hmem).2, hc.enlarged.data f hf hmem,
        ← h.scannable.shows_key hf]
      exact h.shown f v hv

end Mirrors

namespace FilesystemFdw

variable (hplain : t.Plain name content)

include hplain

theorem mirrors_after (h : Mirrors t.structured_directory r T s) {a : Action}
    (ho : t.Evident s a) :
    Mirrors t.structured_directory r (applyAll T (t.change a).toList) (t.after s a) := by
  have ht : (t.after s a).os.Tree := preserved_after sustained_tree.preserved h.scannable.tree a
  rcases changed_after hplain h.scannable ho.toRegular with ⟨hnone, hview⟩ | ⟨c, hchange, hc⟩
  · rw [hnone]
    exact h.view hview ht
  · rw [hchange]
    exact h.step hc (fun f => ho.lists c f hchange) (fun f => ho.null c f hchange) ht

theorem mirrors_run (h : Mirrors t.structured_directory r T s) {actions : List Action}
    (ho : t.Along t.Evident s actions) :
    Mirrors t.structured_directory r (applyAll T (t.changes actions)) (t.run s actions) := by
  induction actions generalizing s T with
  | nil => exact h
  | cons a actions ih =>
    have hall := ih (mirrors_after hplain h ho.1) ho.2
    rw [changes_cons, applyAll_append]
    exact hall

/-- A full scan shows the files of the start with the changes that the calls stand for, whatever
the contents are, also of rows that are renamed or deleted when they are gone. -/
theorem shows_written (hs : Fresh s) (hscan : Scannable t.structured_directory r s)
    {actions : List Action} (ho : t.Along t.Evident s actions) {shown : Option PyVal} :
    t.Shows (t.run s actions) f shown ↔
      ∃ v, applyAll (t.onDisk s) (t.changes actions) f = some v ∧ shown = some v.orEmpty :=
  (mirrors_run hplain (.start hs hscan) ho).shows_iff hplain

end FilesystemFdw

section Sample

theorem FilesystemFdw.Evident.of_change {a : Action} (hchange : t.change a = some c)
    (inside : a.Inside) (succeeds : t.Succeeds s a)
    (content : ∀ oldfilename newvalues, a = .update oldfilename newvalues →
      (column t.content_column newvalues).isSome = true)
    (lists : ∀ f, c.target = some f → t.structured_directory.Lists f)
    (moved : ∀ f v, c ≠ .move f f v)
    (null : c.row = some .none → ∀ f, c.target = some f →
      (s.os.fileContent (t.structured_directory.key f)).getD [] = [])
    (unlinked : ∀ f, t.Unlinked s f) : t.Evident s a := by
  refine ⟨⟨inside, .inr succeeds, content, fun c' f hc => ?_, fun f v hc => ?_⟩,
    fun c' f hc hf hrow => ?_, fun _ _ f _ => unlinked f⟩
  · obtain rfl := Option.some.inj (hchange.symm.trans hc)
    exact lists f
  · exact absurd (Option.some.inj (hchange.symm.trans hc)) (moved f v)
  · obtain rfl := Option.some.inj (hchange.symm.trans hc)
    exact null hrow f hf

/-- The file `x` is renamed to `y` with NULL as content, deleted when it is gone, and made anew. -/
def blanked : List Action :=
  [.update ['x'] (flatRow ['y'] .none), .delete ['x'], .insert (flatRow ['x'] (.str ['2']))]

theorem blanked_evident : flatTable.Along flatTable.Evident oneFile blanked := by
  have hmove : flatTable.change (.update ['x'] (flatRow ['y'] .none)) =
      some (.move ['x'] ['y'] .none) := by decide +kernel
  have hdrop : flatTable.change (.delete ['x']) = some (.drop ['x']) := by decide +kernel
  have hput : flatTable.change (.insert (flatRow ['x'] (.str ['2']))) =
      some (.put ['x'] (.str ['2'])) := by decide +kernel
  have hunlinked : ∀ actions f, flatTable.Unlinked (flatTable.run oneFile actions) f :=
    Idle.unlinked oneFile_idle
  refine ⟨.of_change hmove trivial (by decide +kernel) ?_ ?_ ?_ ?_ (hunlinked []),
    .of_change hdrop trivial (by decide +kernel) ?_ ?_ ?_ ?_ (hunlinked (blanked.take 1)),
    .of_change hput trivial (by decide +kernel) ?_ ?_ ?_ ?_ (hunlinked (blanked.take 2)), trivial⟩
  · rintro oldfilename newvalues ⟨rfl, rfl⟩
    rfl
  · rintro f ⟨rfl⟩
    decide
  · rintro f v ⟨rfl⟩
  · rintro - f ⟨rfl⟩
    decide +kernel
  · rintro oldfilename newvalues ⟨⟩
  · rintro f ⟨⟩
  · rintro f v ⟨⟩
  · rintro ⟨⟩
  · rintro oldfilename newvalues ⟨⟩
  · rintro f ⟨rfl⟩
    decide
  · rintro f v ⟨⟩
  · rintro ⟨⟩

/-- The row without content is shown as empty. -/
theorem blanked_shown : flatTable.Shows (flatTable.run oneFile blanked) ['y'] (some (.bytes [])) :=
  (FilesystemFdw.shows_written flat_plain oneFile_fresh oneFile_scannable blanked_evident).mpr
    ⟨.none, by decide +kernel, rfl⟩

/-- NULL in place of a content leaves the earlier one to be seen. -/
theorem nullContent_unseen :
    let actions := [Action.update ['x'] (flatRow ['x'] .none)]
    flatTable.Along (fun s a => flatTable.Succeeds s a) oneFile actions ∧
      applyAll (flatTable.onDisk oneFile) (flatTable.changes actions) ['x'] = some .none ∧
      flatTable.Shows (flatTable.run oneFile actions) ['x'] (some (.bytes [65])) := by
  intro actions
  have hrows : (value? (flatTable.execute [] [['f'], ['c']] (flatTable.run oneFile actions))).map
      (List.map AList.entries) = some ([flatShown ['x'] (.bytes [65])].map AList.entries) := by
    decide +kernel
  exact ⟨⟨by decide +kernel, trivial⟩, by decide +kernel,
    (flat_shows_iff hrows).mpr ⟨_, List.mem_cons_self, rfl, rfl⟩⟩

end Sample

end Multicorn.Fs
