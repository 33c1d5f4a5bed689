import Multicorn.Fs.GetItems

/-! The rows of a scan, read off the tree and off what the transaction keeps for it. -/
namespace Multicorn.Fs
open Multicorn.StateMonad

variable {s s' : State} {t : FilesystemFdw} {d : Directory} {item : Item}

theorem Looked.quiet (h : Looked s s') : Quiet s s' := by
  have hresolve := h.resolve
  obtain ⟨paths, rfl⟩ := h
  refine ⟨rfl, rfl, rfl, ⟨rfl, fun _ _ h => h, fun _ _ => rfl, Nat.le_refl _, rfl⟩,
    fun _ => rfl, rfl, fun hs => ⟨⟨hs.fds, hs.distinct⟩, fun k e f he hfd => ?_⟩,
    fun k i hk => hk⟩
  obtain ⟨p, hp, hnode⟩ := hs.located k e f he hfd
  exact ⟨p, (hresolve k).trans hp, hnode⟩

/-- The content of the regular file that a path names. -/
def Os.fileContent (os : Os) (path : Str) : Option Bytes :=
  match os.stat path with
  | some (.file inode) => some (os.content inode)
  | _ => none

theorem Os.fileContent_eq_some {os : Os} {path : Str} {data : Bytes} :
    os.fileContent path = some data ↔
      ∃ i, os.stat path = some (.file i) ∧ data = os.content i := by
  unfold fileContent
  cases os.stat path with
  | none => simp
  | some node =>
    cases node with
    | dir => simp
    | file i => simp [eq_comm]

theorem Quiet.stat (h : Quiet s s') (path : Str) : s'.os.stat path = s.os.stat path :=
  Os.stat_congr h.node h.grows.process path

theorem Quiet.fileContent (h : Quiet s s') (path : Str) :
    s'.os.fileContent path = s.os.fileContent path := by
  simp only [Os.fileContent, h.stat, h.content]

theorem fileContent_of_read (hs : Coherent s) (hf : s.os.faults = []) {data : Bytes}
    (h : item.read d s = .ok data s') :
    Quiet s s' ∧ ∃ k, d.fullFilename item = .ok k ∧ s.os.fileContent k = some data := by
  obtain ⟨hquiet, k, p, i, hk, hp, hnode, rfl⟩ := read_ok hs hf h
  refine ⟨hquiet, k, hk, Os.fileContent_eq_some.mpr ⟨i, ?_, rfl⟩⟩
  exact Os.stat_eq_some.mpr ⟨p, hp, hnode⟩

/-- A regular file can be read. -/
theorem read_of_fileContent (hs : Coherent s) (hf : s.os.faults = []) {k : Str} {data : Bytes}
    (hk : d.fullFilename item = .ok k) (hdata : s.os.fileContent k = some data) :
    ∃ s', item.read d s = .ok data s' := by
  obtain ⟨i, hstat, rfl⟩ := Os.fileContent_eq_some.mp hdata
  obtain ⟨p, hp, hnode⟩ := Os.stat_eq_some.mp hstat
  have hopen : ∃ fd rdwr s₁, openShared k s = .ok fd s₁ ∧ s₁.os.faults = [] ∧
      s₁.os.fd fd = some ⟨.file i, rdwr⟩ ∧ s₁.os.content = s.os.content := by
    unfold openShared
    simp only [bind_eq_ok, get_eq_ok]
    cases hentry : s.cache.lookup k with
    | some e =>
      obtain ⟨node, hfd, -⟩ := hs.fds k e hentry
      obtain ⟨q, hq, hnode'⟩ := hs.located k e _ hentry hfd
      rw [hp] at hq
      cases hq
      rw [hnode] at hnode'
      cases hnode'
      refine ⟨e.1, !e.2, s, ⟨s, s, ⟨rfl, rfl⟩, ?_⟩, hf, hfd, rfl⟩
      rw [hentry]
      rfl
    | none =>
      have hat : ((s.os.touch k).withFd s.os.freeFd (some ⟨.file i, false⟩)).fd s.os.freeFd =
          some ⟨.file i, false⟩ :=
        (@Os.fd_withFd (s.os.touch k) _ Os.freeFd_le _ _).trans (if_pos rfl)
      refine ⟨s.os.freeFd, false,
        { s with os := (s.os.touch k).withFd s.os.freeFd (some ⟨.file i, false⟩),
                 cache := s.cache.insert k (s.os.freeFd, true) },
        ⟨s, s, ⟨rfl, rfl⟩, ?_⟩, hf, hat, rfl⟩
      rw [hentry]
      simp only [bind_eq_ok, call_eq_ok, setCache_eq_ok, pure_eq_ok]
      refine ⟨s.os.freeFd, _, ⟨_, (osOpen_eq_ok hf).mpr ⟨rfl, p, hp, .inl ⟨_, hnode, ?_, ?_, rfl⟩⟩,
        rfl⟩, (), _, ⟨_, (flock_eq_ok (by exact hf)).mpr ⟨⟨_, hat⟩, rfl⟩, rfl⟩, (), _, rfl, rfl, rfl⟩
      · simp
      · simp
  obtain ⟨fd, rdwr, s₁, hopen, hf₁, hfd, hcontent⟩ := hopen
  refine ⟨s₁, ?_⟩
  unfold Item.read Item.openFd
  simp only [bind_eq_ok, liftExcept_eq_ok, if_true, call_eq_ok]
  refine ⟨fd, s₁, ⟨k, s, ⟨hk, rfl⟩, hopen⟩, s₁.os, ?_, rfl⟩
  exact (readStart_eq_ok hf₁).mpr ⟨i, rdwr, hfd, by rw [hcontent], rfl⟩

/-! The values of an item as a row. -/

theorem lookup_row_foldl (l : List (Str × Str)) (row : Row) (hnodup : (l.map Prod.fst).Nodup)
    (k : Str) : (l.foldl (fun row p => row.insert p.1 (.str p.2)) row).lookup k =
      ((l.lookup k).map PyVal.str).or (row.lookup k) := by
  induction l generalizing row with
  | nil => simp
  | cons p l ih =>
    obtain ⟨k', v⟩ := p
    rw [List.map_cons, List.nodup_cons] at hnodup
    rw [List.foldl_cons, ih _ hnodup.2]
    by_cases hk : k = k'
    · subst hk
      have hnone : l.lookup k = none := by
        rw [← Option.not_isSome_iff_eq_none, lookup_isSome hnodup.2]
        exact hnodup.1
      simp [hnone]
    · have hbeq : (k == k') = false := by simpa using hk
      rw [List.lookup_cons, hbeq, AList.lookup_insert_ne hk]

theorem Item.lookup_row (hkeys : (item.properties.map Prod.fst).Nodup) (k : Str) :
    item.row.lookup k = (item.properties.lookup k).map .str := by
  unfold Item.row
  rw [lookup_row_foldl _ _ hkeys]
  simp

theorem lookup_withColumn (name : Option Str) (value : PyVal) (row : Row) (k : Str) :
    (withColumn name value row).lookup k = if name = some k then some value else row.lookup k := by
  cases name with
  | none => rfl
  | some n =>
    by_cases hk : n = k
    · subst hk
      simp [withColumn]
    · have hne : k ≠ n := fun h => hk h.symm
      simp [withColumn, AList.lookup_insert_ne hne, hk]

namespace FilesystemFdw

/-- The content a row shows: the one the transaction keeps, or else that of the file. -/
def contentOf (s : State) (path : Str) : PyVal :=
  match (s.updated_content.lookup path).getD .none with
  | .none => .bytes ((s.os.fileContent path).getD [])
  | content => content

/-- The row of an item, unless the transaction has hidden it. -/
def rowOf (t : FilesystemFdw) (s : State) (columns : List Str) (item : Item) : Option Row :=
  match t.structured_directory.filename item with
  | .error _ => none
  | .ok filename =>
    let full := t.structured_directory.join (filename.splitOn '/')
    if full ∈ s.invisible_files then none
    else
      let row := if t.content_column.any (· ∈ columns) then
        withColumn t.content_column (contentOf s full) item.row else item.row
      some (if t.filename_column.any (· ∈ columns) then
        withColumn t.filename_column (.str filename) row else row)

/-- The row needs no file, or there is one to read. -/
def Readable (t : FilesystemFdw) (s : State) (columns : List Str) (item : Item) : Prop :=
  ∃ full, t.structured_directory.fullFilename item = .ok full ∧
    (full ∈ s.invisible_files ∨ t.content_column.any (· ∈ columns) = false ∨
      (s.updated_content.lookup full).getD .none ≠ .none ∨ (s.os.fileContent full).isSome)

theorem contentOf_quiet (h : Quiet s s') (path : Str) : contentOf s' path = contentOf s path := by
  simp only [contentOf, h.updated, h.fileContent]

theorem rowOf_quiet (h : Quiet s s') (columns : List Str) (item : Item) :
    t.rowOf s' columns item = t.rowOf s columns item := by
  unfold rowOf
  cases t.structured_directory.filename item with
  | error e => rfl
  | ok filename => simp only [h.invisible, contentOf_quiet h]

theorem readable_quiet (h : Quiet s s') (columns : List Str) (item : Item) :
    t.Readable s' columns item ↔ t.Readable s columns item := by
  simp only [Readable, h.invisible, h.updated, h.fileContent]

/-- What is put into the content column for a recorded content. -/
private theorem contentOf_recorded {path : Str} {content : PyVal}
    (h : (s.updated_content.lookup path).getD .none = content) (hne : content ≠ .none) :
    contentOf s path = content := by
  unfold contentOf
  rw [h]
  cases content <;> first | rfl | exact absurd rfl hne

private theorem contentOf_file {path : Str} {data : Bytes}
    (h : (s.updated_content.lookup path).getD .none = .none)
    (hdata : s.os.fileContent path = some data) : contentOf s path = .bytes data := by
  unfold contentOf
  rw [h, hdata]
  rfl

/-- The end of `itemToDict`, where the file name is added. -/
def named (t : FilesystemFdw) (columns : List Str) (item : Item) (row : Row) :
    M (Option Row) := do
  if t.filename_column.any (· ∈ columns) then
    return some (withColumn t.filename_column
      (.str (← liftExcept (t.structured_directory.filename item))) row)
  else return some row

/-- The end of `itemToDict` with a content that is recorded, or with the one in the file. -/
def contentRow (t : FilesystemFdw) (columns : List Str) (item : Item) : PyVal → M (Option Row)
  | .none => do
    let data ← item.read t.structured_directory
    named t columns item (withColumn t.content_column (.bytes data) item.row)
  | content => named t columns item (withColumn t.content_column content item.row)

theorem itemToDict_eq (columns : List Str) (item : Item) :
    t.itemToDict columns item = (do
      let full ← liftExcept (t.structured_directory.fullFilename item)
      if full ∈ (← get).invisible_files then return none
      else if t.content_column.any (· ∈ columns) then
        contentRow t columns item (((← get).updated_content.lookup full).getD .none)
      else named t columns item item.row) := rfl

theorem named_eq_ok {columns : List Str} {filename : Str} {row : Row} {r : Option Row}
    (hfilename : t.structured_directory.filename item = .ok filename) :
    named t columns item row s = .ok r s' ↔
      r = some (if t.filename_column.any (· ∈ columns) then
        withColumn t.filename_column (.str filename) row else row) ∧ s = s' := by
  unfold named
  by_cases hname : t.filename_column.any (· ∈ columns) = true
  · simp only [if_pos hname, bind_eq_ok, liftExcept_eq_ok, pure_eq_ok, hfilename]
    constructor
    · rintro ⟨_, _, ⟨hsame, rfl⟩, rfl, rfl⟩
      cases hsame
      exact ⟨rfl, rfl⟩
    · rintro ⟨rfl, rfl⟩
      exact ⟨filename, s, ⟨rfl, rfl⟩, rfl, rfl⟩
  · rw [if_neg hname, if_neg hname, pure_eq_ok, eq_comm]

theorem fullFilename_eq_ok {full : Str} : d.fullFilename item = .ok full ↔
    ∃ filename, d.filename item = .ok filename ∧ full = d.join (filename.splitOn '/') := by
  unfold Directory.fullFilename
  cases d.filename item with
  | error e => simp [Except.map]
  | ok filename => simp [Except.map, eq_comm]

/-- The content part of a row: what is shown, and that nothing else has happened. -/
private theorem contentRow_ok (hs : Coherent s) (hf : s.os.faults = []) {columns : List Str}
    {filename full : Str} (hfilename : t.structured_directory.filename item = .ok filename)
    (hfull : t.structured_directory.fullFilename item = .ok full)
    {r : Option Row}
    (h : (do
      contentRow t columns item (((← get).updated_content.lookup full).getD .none) :
        M (Option Row)) s = .ok r s') :
    Quiet s s' ∧ r = some (if t.filename_column.any (· ∈ columns) then
        withColumn t.filename_column (.str filename)
          (withColumn t.content_column (contentOf s full) item.row)
      else withColumn t.content_column (contentOf s full) item.row) ∧
      ((s.updated_content.lookup full).getD .none ≠ .none ∨ (s.os.fileContent full).isSome) := by
  simp only [bind_eq_ok, get_eq_ok] at h
  obtain ⟨_, _, ⟨rfl, rfl⟩, h⟩ := h
  have hkept : ∀ content : PyVal, content ≠ .none →
      (s.updated_content.lookup full).getD .none = content →
      named t columns item (withColumn t.content_column content item.row) s = .ok r s' →
      Quiet s s' ∧ r = some (if t.filename_column.any (· ∈ columns) then
        withColumn t.filename_column (.str filename)
          (withColumn t.content_column (contentOf s full) item.row)
      else withColumn t.content_column (contentOf s full) item.row) ∧
      ((s.updated_content.lookup full).getD .none ≠ .none ∨
        (s.os.fileContent full).isSome) := by
    intro content hne hrecorded hnamed
    obtain ⟨rfl, rfl⟩ := (named_eq_ok hfilename).mp hnamed
    rw [contentOf_recorded hrecorded hne]
    exact ⟨.refl _, rfl, .inl (hrecorded ▸ hne)⟩
  cases hrecorded : (s.updated_content.lookup full).getD .none with
  | none =>
    rw [hrecorded, contentRow] at h
    simp only [bind_eq_ok] at h
    obtain ⟨data, s₁, hread, hnamed⟩ := h
    obtain ⟨hquiet, k, hk, hdata⟩ := fileContent_of_read hs hf hread
    rw [hfull] at hk
    cases hk
    obtain ⟨rfl, rfl⟩ := (named_eq_ok hfilename).mp hnamed
    rw [contentOf_file hrecorded hdata, hdata]
    exact ⟨hquiet, rfl, .inr rfl⟩
  | str v =>
    rw [hrecorded] at h
    simpa only [hrecorded] using hkept _ (by simp) hrecorded h
  | bytes v =>
    rw [hrecorded] at h
    simpa only [hrecorded] using hkept _ (by simp) hrecorded h
  | other text truth =>
    rw [hrecorded] at h
    simpa only [hrecorded] using hkept _ (by simp) hrecorded h

/-- The row the code builds. -/
theorem itemToDict_ok (hs : Coherent s) (hf : s.os.faults = []) {columns : List Str}
    {r : Option Row} (h : t.itemToDict columns item s = .ok r s') :
    Quiet s s' ∧ r = t.rowOf s columns item ∧ t.Readable s columns item := by
  rw [itemToDict_eq] at h
  simp only [bind_eq_ok, liftExcept_eq_ok, get_eq_ok] at h
  obtain ⟨full, _, ⟨hfull, rfl⟩, _, _, ⟨rfl, rfl⟩, h⟩ := h
  obtain ⟨filename, hfilename, hjoin⟩ := fullFilename_eq_ok.mp hfull
  unfold rowOf Readable
  simp only [hfilename, hfull, Except.ok.injEq, exists_eq_left', ← hjoin]
  by_cases hhidden : full ∈ s.invisible_files
  · simp only [if_pos hhidden] at h ⊢
    obtain ⟨rfl, rfl⟩ := pure_eq_ok.mp h
    exact ⟨.refl _, rfl, .inl hhidden⟩
  · rw [if_neg hhidden] at h
    rw [if_neg hhidden]
    by_cases hrequested : t.content_column.any (· ∈ columns) = true
    · rw [if_pos hrequested] at h ⊢
      obtain ⟨hquiet, hr, hreadable⟩ := contentRow_ok hs hf hfilename hfull h
      exact ⟨hquiet, hr, .inr (.inr hreadable)⟩
    · rw [if_neg hrequested] at h ⊢
      obtain ⟨rfl, rfl⟩ := (named_eq_ok hfilename).mp h
      exact ⟨.refl _, rfl, .inr (.inl (Bool.eq_false_iff.mpr hrequested))⟩

/-- A row can be built when the file that it needs is there. -/
theorem itemToDict_of_readable (hs : Coherent s) (hf : s.os.faults = []) {columns : List Str}
    (h : t.Readable s columns item) : ∃ r s', t.itemToDict columns item s = .ok r s' := by
  obtain ⟨full, hfull, hreadable⟩ := h
  obtain ⟨filename, hfilename, -⟩ := fullFilename_eq_ok.mp hfull
  have hnamed : ∀ row s₁, ∃ r, named t columns item row s₁ = .ok r s₁ := fun row s₁ =>
    ⟨_, (named_eq_ok hfilename).mpr ⟨rfl, rfl⟩⟩
  rw [itemToDict_eq]
  simp only [bind_eq_ok, liftExcept_eq_ok, get_eq_ok]
  by_cases hhidden : full ∈ s.invisible_files
  · refine ⟨none, s, full, s, ⟨hfull, rfl⟩, s, s, ⟨rfl, rfl⟩, ?_⟩
    rw [if_pos hhidden]
    rfl
  · by_cases hrequested : t.content_column.any (· ∈ columns) = true
    · cases hrecorded : (s.updated_content.lookup full).getD .none with
      | none =>
        have hfile : (s.os.fileContent full).isSome := by
          rcases hreadable with h | h | h | h
          · exact absurd h hhidden
          · rw [h] at hrequested
            cases hrequested
          · exact absurd hrecorded h
          · exact h
        obtain ⟨data, hdata⟩ := Option.isSome_iff_exists.mp hfile
        obtain ⟨s₁, hread⟩ := read_of_fileContent hs hf hfull hdata
        obtain ⟨r, hr⟩ := hnamed (withColumn t.content_column (.bytes data) item.row) s₁
        refine ⟨r, s₁, full, s, ⟨hfull, rfl⟩, s, s, ⟨rfl, rfl⟩, ?_⟩
        rw [if_neg hhidden, if_pos hrequested]
        simp only [bind_eq_ok, get_eq_ok]
        refine ⟨s, s, ⟨rfl, rfl⟩, ?_⟩
        rw [hrecorded, contentRow]
        simp only [bind_eq_ok]
        exact ⟨data, s₁, hread, hr⟩
      | str v =>
        obtain ⟨r, hr⟩ := hnamed (withColumn t.content_column (.str v) item.row) s
        refine ⟨r, s, full, s, ⟨hfull, rfl⟩, s, s, ⟨rfl, rfl⟩, ?_⟩
        rw [if_neg hhidden, if_pos hrequested]
        simp only [bind_eq_ok, get_eq_ok]
        exact ⟨s, s, ⟨rfl, rfl⟩, by rw [hrecorded]; exact hr⟩
      | bytes v =>
        obtain ⟨r, hr⟩ := hnamed (withColumn t.content_column (.bytes v) item.row) s
        refine ⟨r, s, full, s, ⟨hfull, rfl⟩, s, s, ⟨rfl, rfl⟩, ?_⟩
        rw [if_neg hhidden, if_pos hrequested]
        simp only [bind_eq_ok, get_eq_ok]
        exact ⟨s, s, ⟨rfl, rfl⟩, by rw [hrecorded]; exact hr⟩
      | other text truth =>
        obtain ⟨r, hr⟩ := hnamed (withColumn t.content_column (.other text truth) item.row) s
        refine ⟨r, s, full, s, ⟨hfull, rfl⟩, s, s, ⟨rfl, rfl⟩, ?_⟩
        rw [if_neg hhidden, if_pos hrequested]
        simp only [bind_eq_ok, get_eq_ok]
        exact ⟨s, s, ⟨rfl, rfl⟩, by rw [hrecorded]; exact hr⟩
    · obtain ⟨r, hr⟩ := hnamed item.row s
      refine ⟨r, s, full, s, ⟨hfull, rfl⟩, s, s, ⟨rfl, rfl⟩, ?_⟩
      rw [if_neg hhidden, if_neg hrequested]
      exact hr

end FilesystemFdw

/-! Looking for items changes nothing. -/

/-- Nothing has happened but looking at paths, if no call is made to fail. -/
def OnlyLooks (s s' : State) : Prop := s.os.faults = [] → Looked s s'

theorem OnlyLooks.refl (s : State) : OnlyLooks s s := fun _ => .refl s

theorem OnlyLooks.trans (a b c : State) (h : OnlyLooks a b) (h' : OnlyLooks b c) :
    OnlyLooks a c := by
  intro hf
  have hab := h hf
  exact hab.trans (h' (hab.faults.trans hf))

theorem moves_liftExcept {α : Type} {R : State → State → Prop} (hrefl : ∀ s, R s s)
    (x : Except Failure α) : Moves R (liftExcept x) := by
  cases x with
  | ok a => exact Moves.pure hrefl a
  | error e => exact Moves.throw hrefl e

theorem listdir_looks (path : Str) : Moves OnlyLooks (call (listdir path)) := by
  intro s hf
  rcases listdir_cases hf path with ⟨hcall, -⟩ | ⟨e, hcall, -⟩
  · rw [hcall]
    exact .touch s path
  · rw [hcall]
    exact .touch s path

theorem walk_looks (previous : List Str) (values : List (Str × Str))
    (parts : List (Part × Fixed)) : Moves OnlyLooks (walk d previous values parts) := by
  induction parts generalizing previous values with
  | nil => exact Moves.pure OnlyLooks.refl []
  | cons e rest ih =>
    obtain ⟨part, fixed⟩ := e
    have hnames : Moves OnlyLooks (findMatchingNames d previous part fixed) := by
      unfold findMatchingNames
      cases fixed.1 with
      | some name => exact Moves.pure OnlyLooks.refl _
      | none =>
        refine Moves.bind OnlyLooks.trans ?_ fun names => Moves.pure OnlyLooks.refl _
        refine Moves.tryCatch OnlyLooks.trans (listdir_looks _) fun e => ?_
        split_ifs
        · exact Moves.pure OnlyLooks.refl _
        · exact Moves.throw OnlyLooks.refl e
    unfold walk
    refine Moves.bind OnlyLooks.trans hnames fun names => ?_
    refine Moves.bind OnlyLooks.trans ?_ fun items => Moves.pure OnlyLooks.refl _
    refine Moves.mapM OnlyLooks.refl OnlyLooks.trans fun p _ => ?_
    obtain ⟨name, part_values⟩ := p
    simp only
    split_ifs
    · refine Moves.bind OnlyLooks.trans ?_ fun there => ?_
      · intro s _
        rw [call_pathIsfile]
        exact .touch s _
      · cases there with
        | true =>
          exact Moves.bind OnlyLooks.trans (moves_liftExcept OnlyLooks.refl _) fun item =>
            Moves.pure OnlyLooks.refl _
        | false => exact Moves.pure OnlyLooks.refl _
    · exact ih _ _

theorem getItems_looks (values : List (Str × Str)) : Moves OnlyLooks (getItems d values) := by
  unfold getItems
  split_ifs
  · exact Moves.throw OnlyLooks.refl _
  · exact Moves.bind OnlyLooks.trans (moves_liftExcept OnlyLooks.refl _) fun fixed =>
      walk_looks _ _ _
  · exact Moves.throw OnlyLooks.refl _

namespace FilesystemFdw

theorem getItems_looks (quals : List Qual) : Moves OnlyLooks (t.getItems quals) := by
  unfold getItems
  simp only
  cases quals.find? fun q => t.filename_column = some q.field_name ∧ q.operator = ['='] with
  | none => exact Fs.getItems_looks _
  | some q =>
    refine Moves.bind OnlyLooks.trans (moves_liftExcept OnlyLooks.refl _) fun item => ?_
    cases item with
    | none => exact Moves.pure OnlyLooks.refl _
    | some item =>
      refine Moves.bind OnlyLooks.trans (moves_liftExcept OnlyLooks.refl _) fun full => ?_
      refine Moves.bind OnlyLooks.trans ?_ fun there => ?_
      · intro s _
        rw [call_pathExists]
        exact .touch s _
      · cases there with
        | true => exact Moves.pure OnlyLooks.refl _
        | false => exact Moves.pure OnlyLooks.refl _

theorem getItems_looked (hf : s.os.faults = []) {quals : List Qual} {items : List Item}
    (h : t.getItems quals s = .ok items s') : Looked s s' :=
  (t.getItems_looks quals).of_ok h hf

/-- The rows of a scan are those of its items. -/
theorem execute_ok (hs : Coherent s) (hf : s.os.faults = []) {quals : List Qual}
    {columns : List Str} {rows : List Row} (h : t.execute quals columns s = .ok rows s') :
    Quiet s s' ∧ ∃ items s₁, t.getItems quals s = .ok items s₁ ∧
      rows = items.filterMap (t.rowOf s columns) ∧ ∀ item ∈ items, t.Readable s columns item := by
  unfold execute at h
  simp only [bind_eq_ok, pure_eq_ok] at h
  obtain ⟨items, s₁, hitems, shown, _, hshown, rfl, rfl⟩ := h
  have hquiet := (getItems_looked hf hitems).quiet
  obtain ⟨hmoved, hall⟩ := of_mapM_ok (R := Quiet)
    (Q := fun item r => r = t.rowOf s columns item ∧ t.Readable s columns item)
    Quiet.refl (fun _ _ _ => Quiet.trans) hshown fun item _ s₂ r s₃ h₂ hrun => by
      have hs₂ := hquiet.trans h₂
      obtain ⟨h₃, hr, hreadable⟩ := itemToDict_ok (hs₂.coherent hs) (hs₂.grows.faults.trans hf) hrun
      exact ⟨h₃, hr.trans (rowOf_quiet hs₂ columns item), (readable_quiet hs₂ columns item).mp hreadable⟩
  refine ⟨hquiet.trans hmoved, items, s₁, hitems, ?_, ?_⟩
  · clear hshown hitems
    induction hall with
    | nil => rfl
    | cons hr _ ih =>
      rw [List.filterMap_cons, List.filterMap_cons, hr.1, ih]
      rfl
  · intro item hitem
    obtain ⟨n, hn, rfl⟩ := List.mem_iff_getElem.mp hitem
    have hn' : n < shown.length := hall.length_eq ▸ hn
    exact (List.forall₂_iff_get.mp hall).2 n hn hn' |>.2

/-- A scan of items that can all be read gives their rows. -/
theorem execute_of_items (hs : Coherent s) (hf : s.os.faults = []) {quals : List Qual}
    {columns : List Str} {items : List Item} {s₁ : State}
    (hitems : t.getItems quals s = .ok items s₁)
    (hreadable : ∀ item ∈ items, t.Readable s columns item) :
    ∃ s', t.execute quals columns s = .ok (items.filterMap (t.rowOf s columns)) s' := by
  have hquiet := (getItems_looked hf hitems).quiet
  obtain ⟨shown, s', hshown, -, -⟩ := mapM_ok (s := s₁) (f := t.itemToDict columns) (l := items)
    (R := Quiet) (Q := fun _ _ => True) Quiet.refl (fun _ _ _ => Quiet.trans)
    fun item hitem s₂ h₂ => by
      have hs₂ := hquiet.trans h₂
      have hcoherent := hs₂.coherent hs
      have hfaults := hs₂.grows.faults.trans hf
      obtain ⟨r, s₃, hrun⟩ := itemToDict_of_readable hcoherent hfaults
        ((readable_quiet hs₂ columns item).mpr (hreadable item hitem))
      exact ⟨r, s₃, hrun, (itemToDict_ok hcoherent hfaults hrun).1, trivial⟩
  have hrun : t.execute quals columns s = .ok (shown.filterMap id) s' := by
    unfold execute
    simp only [bind_eq_ok, pure_eq_ok]
    exact ⟨items, s₁, hitems, shown, s', hshown, rfl, rfl⟩
  obtain ⟨-, items', s₂, hitems', hrows, -⟩ := execute_ok hs hf hrun
  rw [hitems] at hitems'
  cases hitems'
  exact ⟨s', by rw [hrun, hrows]⟩

end FilesystemFdw

section Names

variable (hpieces : d.FormatsParts)

include hpieces

/-- An item without slashes in its values has a file name, part by part the text of its values. -/
theorem filename_of_keys (hkeys : item.properties.map Prod.fst = d.properties)
    (hslash : ∀ p ∈ item.properties, '/' ∉ p.2) :
    ∃ filename, d.filename item = .ok filename ∧ filename.splitOn '/' =
      d.parts.map (Part.text fun k => item.properties.lookup k) := by
  have hnodup : (item.properties.map Prod.fst).Nodup := hkeys ▸ properties_nodup d
  have hget : ∀ name ∈ d.parts.flatMap Part.properties,
      (item.properties.lookup name).isSome := by
    intro name hname
    rw [lookup_isSome hnodup, hkeys]
    exact hname
  have hvalues : ∀ name value, item.properties.lookup name = some value → '/' ∉ value :=
    fun name value hvalue => hslash (name, value) ((lookup_iff_mem hnodup).mp hvalue)
  obtain ⟨text, hformat, hsplit⟩ := vformat_of_pieces _ (Nat.le_refl _)
    hpieces (fun part => slash_not_mem_part d) hget hvalues
  refine ⟨text, ?_, hsplit⟩
  unfold Directory.filename
  rw [hformat]
  rfl

end Names

end Multicorn.Fs
