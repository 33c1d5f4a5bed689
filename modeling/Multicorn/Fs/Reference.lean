import Multicorn.Fs.Invariants
import Multicorn.Fs.Table

/-! Scans in the course of a transaction show the table that its calls ask for. -/
namespace Multicorn.Fs
open Multicorn.StateMonad Multicorn.ChangeLog

variable {s s' s₁ s₂ : State} {t : FilesystemFdw} {d : Directory} {r : Path} {f g : Str}
  {k : Str} {name content : Str} {fs : List Str}

abbrev FileChange := Change Str PyVal

namespace FilesystemFdw

/-- The change of the table that a call stands for, read off its arguments. -/
def change (t : FilesystemFdw) : Action → Option FileChange
  | .insert values => do
    let item ← (t.itemFromDml values).toOption
    return .put (← (t.structured_directory.filename item).toOption) item.content
  | .update oldfilename newvalues => do
    let olditem ← (t.rowItem oldfilename).toOption
    let newitem ← (t.newItem olditem oldfilename newvalues).toOption
    return .move (← (t.structured_directory.filename olditem).toOption)
      (← (t.structured_directory.filename newitem).toOption) newitem.content
  | .delete rowid => do
    let item ← (t.rowItem rowid).toOption
    return .drop (← (t.structured_directory.filename item).toOption)
  | _ => none

def changes (t : FilesystemFdw) (actions : List Action) : List FileChange :=
  actions.filterMap t.change

/-- The table on the disk. -/
def onDisk (t : FilesystemFdw) (s : State) : Table Str PyVal := fun f =>
  if t.structured_directory.Lists f then
    (s.os.fileContent (t.structured_directory.key f)).map .bytes
  else none

end FilesystemFdw

/-- A content that is there: bytes, or a string that the file system encoding has bytes for. -/
def PyVal.Given (process : Process) : PyVal → Prop
  | .str s => (process.encode s).isSome = true
  | .bytes _ => True
  | .none | .other _ _ => False

theorem PyVal.Given.written {process : Process} {v : PyVal} (h : v.Given process) :
    v.written process = .ok (some (v.toBytes process)) := by
  cases v with
  | none => exact absurd h id
  | other text truth => exact absurd h id
  | bytes b => rfl
  | str s =>
    obtain ⟨data, hdata⟩ := Option.isSome_iff_exists.mp h
    simp only [PyVal.toBytes, PyVal.written, hdata, Option.getD_some]

/-- A call that a scan can show: if it writes it succeeds, an update comes with a content, the name
that is written can be listed, and what is updated in place is shown. -/
structure FilesystemFdw.Regular (t : FilesystemFdw) (s : State) (a : Action) : Prop where
  inside : a.Inside
  succeeds : a.Reads ∨ t.Succeeds s a
  content : ∀ oldfilename newvalues, a = .update oldfilename newvalues →
    (column t.content_column newvalues).isSome = true
  lists : ∀ c f, t.change a = some c → c.target = some f → t.structured_directory.Lists f
  shown : ∀ f v, t.change a = some (.move f f v) → ∃ w, t.Shows s f w

/-- The file of the name has no other link. -/
def FilesystemFdw.Unlinked (t : FilesystemFdw) (s : State) (f : Str) : Prop :=
  ∀ p q i, s.os.resolve (t.structured_directory.key f) = .ok p → s.os.file p = some i →
    s.os.file q = some i → p = q

/-- A call whose file names can be listed and whose contents are bytes or strings that have bytes;
what it updates or deletes is shown, and if it writes it succeeds. -/
structure FilesystemFdw.Orderly (t : FilesystemFdw) (s : State) (a : Action) : Prop where
  inside : a.Inside
  succeeds : a.Reads ∨ t.Succeeds s a
  lists : ∀ c, t.change a = some c → ∀ f ∈ c.keys, t.structured_directory.Lists f
  given : ∀ c v, t.change a = some c → c.row = some v → v.Given s.os.process
  content : ∀ oldfilename newvalues, a = .update oldfilename newvalues →
    (column t.content_column newvalues).isSome = true
  shown : ∀ c f, t.change a = some c → c.taken = some f → ∃ v, t.Shows s f v

theorem FilesystemFdw.Orderly.regular {a : Action} (h : t.Orderly s a) : t.Regular s a where
  inside := h.inside
  succeeds := h.succeeds
  content := h.content
  lists c f hc hf := h.lists c hc f (Change.target_mem hf)
  shown f _ hc := h.shown _ f hc rfl

/-! What opening files does to the tree. -/

/-- No file has changed, but those of the names `fs` may be new, and can be written to. -/
structure Enlarged (d : Directory) (r : Path) (s s' : State) (fs : List Str) : Prop where
  process : s'.os.process = s.os.process
  rooted : Rooted d r s'
  held : ∀ k i, Held s k i → Held s' k i
  opened : ∀ f ∈ fs, ∃ i, Held s' (d.key f) i
  kept : ∀ f ∈ fs, d.Lists f →
    s'.os.data (r ++ f.splitOn '/') = some ((s.os.data (r ++ f.splitOn '/')).getD [])
  data : ∀ g, d.Lists g → g ∉ fs → s'.os.data (r ++ g.splitOn '/') = s.os.data (r ++ g.splitOn '/')

theorem Enlarged.trans {fs' : List Str} (h : Enlarged d r s s₁ fs) (h' : Enlarged d r s₁ s₂ fs') :
    Enlarged d r s s₂ (fs ++ fs') where
  process := h'.process.trans h.process
  rooted := h'.rooted
  held k i hi := h'.held k i (h.held k i hi)
  opened f hf := by
    rcases List.mem_append.mp hf with hf | hf
    · obtain ⟨i, hi⟩ := h.opened f hf
      exact ⟨i, h'.held _ i hi⟩
    · exact h'.opened f hf
  kept f hf hlists := by
    by_cases hsecond : f ∈ fs'
    · rw [h'.kept f hsecond hlists]
      by_cases hfirst : f ∈ fs
      · rw [h.kept f hfirst hlists, Option.getD_some]
      · rw [h.data f hlists hfirst]
    · rw [h'.data f hlists hsecond]
      exact h.kept f ((List.mem_append.mp hf).resolve_right hsecond) hlists
  data g hg hnot := by
    rw [List.mem_append, not_or] at hnot
    exact (h'.data g hg hnot.2).trans (h.data g hg hnot.1)

theorem Enlarged.of_mem {fs' : List Str} (h : Enlarged d r s s' fs) (hfs : ∀ f, f ∈ fs' ↔ f ∈ fs) :
    Enlarged d r s s' fs' where
  process := h.process
  rooted := h.rooted
  held := h.held
  opened f hf := h.opened f ((hfs f).mp hf)
  kept f hf := h.kept f ((hfs f).mp hf)
  data g hg hnot := h.data g hg fun hmem => hnot ((hfs g).mpr hmem)

theorem Rooted.congr (h : Rooted d r s) (hos : s'.os = s.os) (hcache : s'.cache = s.cache) :
    Rooted d r s' where
  sound := h.sound.congr hos hcache
  root := by rw [hos]; exact h.root
  isDir := by rw [hos]; exact h.isDir
  inodes := by rw [hos]; exact h.inodes
  newline := by rw [hos]; exact h.newline

theorem Enlarged.congr (h : Enlarged d r s s' fs) (hos : s₁.os = s'.os)
    (hcache : s₁.cache = s'.cache) : Enlarged d r s s₁ fs where
  process := (congrArg Os.process hos).trans h.process
  rooted := h.rooted.congr hos hcache
  held k i hi := (h.held k i hi).congr hos hcache
  opened f hf := by
    obtain ⟨i, hi⟩ := h.opened f hf
    exact ⟨i, hi.congr hos hcache⟩
  kept f hf hlists := by
    rw [hos]
    exact h.kept f hf hlists
  data g hg hnot := by
    rw [hos]
    exact h.data g hg hnot

theorem Rooted.enlarged_of_view (h : Rooted d r s) (hview : SameView s s') :
    Enlarged d r s s' [] where
  process := hview.process
  rooted := by
    have hfile : ∀ p, s'.os.file p = s.os.file p := Os.file_of_node hview.node
    refine ⟨hview.right, (hview.resolve _).trans h.root, (hview.node r).trans h.isDir, ?_, ?_⟩
    · intro p i hp
      rw [hview.nextInode]
      exact h.inodes p i ((hfile p).symm.trans hp)
    · intro names i hp
      exact h.newline names i ((hfile _).symm.trans hp)
  held k i hi := (hview.held k i).mpr hi
  opened f hf := by cases hf
  kept f hf := by cases hf
  data g _ _ := by
    unfold Os.data
    rw [Os.file_of_node hview.node, hview.content]

/-- Opening the file of a name for writing. If it may make the file, a scan can list the name. -/
theorem Rooted.opens (h : Rooted d r s) {fail_if : Option FailIf} {fd i : ℕ} {p : Path}
    (hf : fail_if ≠ some .missing → d.Lists f) (hopens : Opens s s' (d.key f) fail_if fd p i) :
    Enlarged d r s s' [f] := by
  have hroot := hopens.grows.dirsKept.resolve h.root
  have hcontent : ∀ q j, s.os.file q = some j → s'.os.content j = s.os.content j :=
    fun q j hq => hopens.grows.content j (h.inodes q j hq)
  have hself : s'.os.file p = some i := Os.file_eq_some.mpr hopens.node
  have hpath : d.Lists f → p = r ++ f.splitOn '/' := fun hlists =>
    resolve_key hroot hlists hopens.path
  have hfiles : ∀ q, s'.os.file q = s.os.file q ∨ d.Lists f ∧ q = r ++ f.splitOn '/' := by
    intro q
    rcases hopens.files with ⟨-, hsame, -⟩ | ⟨-, -, -, -, hmakes, hnew⟩
    · exact .inl (hsame q)
    · rw [hnew]
      by_cases hq : q = p
      · exact .inr ⟨hf hmakes, hq.trans (hpath (hf hmakes))⟩
      · exact .inl (if_neg hq)
  refine ⟨hopens.grows.process,
    ⟨hopens.sound h.sound, hroot, hopens.grows.kept _ _ h.isDir, ?_, ?_⟩, ?_, ?_, ?_, ?_⟩
  · intro q j hq
    rcases hopens.files with ⟨-, hsame, -⟩ | ⟨-, hi, -, hnext, -, hnew⟩
    · rw [hsame] at hq
      exact Nat.lt_of_lt_of_le (h.inodes q j hq) hopens.grows.nextInode
    · rw [hnew] at hq
      split_ifs at hq
      · cases hq
        omega
      · exact Nat.lt_of_lt_of_le (h.inodes q j hq) hopens.grows.nextInode
  · intro names j hq
    rcases hfiles (r ++ names) with hsame | ⟨hlists, heq⟩
    · exact h.newline names j (hsame.symm.trans hq)
    · rw [List.append_cancel_left heq]
      exact hlists.newline
  · exact fun k j hj => hopens.held hj
  · intro g hg
    obtain rfl := List.mem_singleton.mp hg
    exact ⟨i, hopens.held_self⟩
  · intro g hg hlists
    obtain rfl := List.mem_singleton.mp hg
    obtain rfl := hpath hlists
    unfold Os.data
    rw [hself]
    rcases hopens.files with ⟨hnode, -, -⟩ | ⟨hnone, -, hempty, -⟩
    · rw [Os.file_eq_some.mpr hnode]
      exact congrArg some (hcontent _ i (Os.file_eq_some.mpr hnode))
    · have hfree : s.os.file (r ++ g.splitOn '/') = none := by
        unfold Os.file
        rw [hnone]
      rw [hfree]
      exact congrArg some hempty
  · intro g hg hnot
    have hsame : s'.os.file (r ++ g.splitOn '/') = s.os.file (r ++ g.splitOn '/') := by
      refine (hfiles _).resolve_right fun ⟨_, heq⟩ => ?_
      exact hnot (List.mem_singleton.mpr (splitOn_injective (List.append_cancel_left heq)))
    unfold Os.data
    rw [hsame]
    cases hfile : s.os.file (r ++ g.splitOn '/') with
    | none => rfl
    | some j => exact congrArg some (hcontent _ j hfile)

/-! What a call does to the table. -/

/-- The operation of the log does the change when it is committed. -/
inductive Logs (d : Directory) : Operation → FileChange → Prop
  | insert {item : Item} {f : Str} (hf : d.filename item = .ok f) :
    Logs d (.insert item) (.put f item.content)
  | update {olditem newitem : Item} {f₀ f : Str} (hf₀ : d.filename olditem = .ok f₀)
      (hf : d.filename newitem = .ok f) :
    Logs d (.update olditem newitem) (.move f₀ f newitem.content)
  | delete {item : Item} {f : Str} (hf : d.filename item = .ok f) :
    Logs d (.delete item) (.drop f)

/-- The call has logged the change, and for the names of the change it hides the files that are
taken away and records the contents that are put. -/
structure Changed (d : Directory) (r : Path) (s s' : State) (c : FileChange) : Prop where
  enlarged : Enlarged d r s s' c.keys
  logged : ∃ op, s'.current_transaction_state = s.current_transaction_state ++ [op] ∧ Logs d op c
  hidden : ∀ f ∈ c.keys, d.key f ∈ s'.invisible_files ↔ c.apply (fun _ => none) f = none
  recorded : ∀ f ∈ c.keys, ∀ v, c.apply (fun _ => none) f = some v →
    s'.updated_content.lookup (d.key f) = some v
  others : ∀ g, d.Lists g → g ∉ c.keys →
    (d.key g ∈ s'.invisible_files ↔ d.key g ∈ s.invisible_files) ∧
      s'.updated_content.lookup (d.key g) = s.updated_content.lookup (d.key g)

theorem Rooted.key_ne (h : Rooted d r s) (hlength : (f.splitOn '/').length = d.parts.length)
    (hg : d.Lists g) (hne : g ≠ f) : d.key g ≠ d.key f := fun heq =>
  hne (eq_of_key_eq (root_ne_nil h.root) hg hlength heq.symm).symm

namespace FilesystemFdw

/-- The name of a row id has a component for each part of the pattern. -/
theorem length_of_rowItem (hpieces : t.structured_directory.FormatsParts) {rowid : Str}
    {item : Item} (hitem : t.rowItem rowid = .ok item)
    (hf : t.structured_directory.filename item = .ok f) :
    (f.splitOn '/').length = t.structured_directory.parts.length := by
  obtain ⟨values, hmatch, rfl⟩ := rowItem_ok hitem
  have hslash : ∀ p ∈ values, '/' ∉ p.2 := by
    intro p hp hmem
    obtain ⟨c, hc, hin⟩ := mem_of_matchParts hmatch p hp '/' hmem
    exact slash_not_mem_splitOn rowid c hc hin
  let item : Item := ⟨values, .bytes []⟩
  have hkeys : item.properties.map Prod.fst = t.structured_directory.properties :=
    keys_of_matchParts hmatch
  obtain ⟨text, htext, hsplit⟩ := filename_of_keys hpieces hkeys hslash
  rw [hf] at htext
  cases htext
  rw [hsplit, List.length_map]

theorem changed_insert (h : Rooted t.structured_directory r s) {values row : Row}
    (ho : t.Regular s (.insert values)) (hrun : t.insert values s = .ok row s') :
    ∃ c, t.change (.insert values) = some c ∧ Changed t.structured_directory r s s' c := by
  obtain ⟨item, k, fd, p, i, s₁, hitem, hk, hopens, rfl⟩ :=
    insert_ok h.sound.coherent h.sound.faults hrun
  obtain ⟨f, hf, rfl⟩ := filename_of_fullFilename hk
  have hchange : t.change (.insert values) = some (.put f item.content) := by
    simp [change, hitem, hf, Except.toOption]
  have hlists : t.structured_directory.Lists f := ho.lists _ f hchange rfl
  refine ⟨_, hchange, (h.opens (fun _ => hlists) hopens).congr rfl rfl,
    ⟨.insert item, ?_, .insert hf⟩, ?_, ?_, fun g hg hnot => ?_⟩
  · exact congrArg (· ++ [.insert item]) hopens.log
  · intro g hg
    obtain rfl := List.mem_singleton.mp hg
    simp [inserted, Change.apply]
  · intro g hg v hv
    obtain rfl := List.mem_singleton.mp hg
    have hcontent : item.content = v := by simpa [Change.apply] using hv
    simp [inserted, hcontent]
  · have hne := h.key_ne hlists.length hg (List.ne_of_not_mem_cons hnot)
    simp [inserted, hne, hopens.invisible, hopens.updated, AList.lookup_insert_ne hne]

theorem changed_delete (hpieces : t.structured_directory.FormatsParts)
    (h : Rooted t.structured_directory r s) {rowid : Str} {u : Unit}
    (hrun : t.delete rowid s = .ok u s') :
    ∃ c, t.change (.delete rowid) = some c ∧ Changed t.structured_directory r s s' c := by
  obtain ⟨item, k, fd, p, i, s₁, hitem, hk, hopens, rfl⟩ :=
    delete_ok h.sound.coherent h.sound.faults hrun
  obtain ⟨f, hf, rfl⟩ := filename_of_fullFilename hk
  have hchange : t.change (.delete rowid) = some (.drop f) := by
    simp [change, hitem, hf, Except.toOption]
  have hlength := length_of_rowItem hpieces hitem hf
  refine ⟨_, hchange, (h.opens (fun hmakes => absurd rfl hmakes) hopens).congr rfl rfl,
    ⟨.delete item, ?_, .delete hf⟩, ?_, ?_, fun g hg hnot => ?_⟩
  · exact congrArg (· ++ [.delete item]) hopens.log
  · intro g hg
    obtain rfl := List.mem_singleton.mp hg
    simp [deleted, Change.apply]
  · intro g hg v hv
    obtain rfl := List.mem_singleton.mp hg
    simp [Change.apply] at hv
  · have hne := h.key_ne hlength hg (List.ne_of_not_mem_cons hnot)
    simp [deleted, hne, hopens.invisible, hopens.updated]

/-- With a content among the new values, the new item depends on the properties of the old one
only. -/
theorem newItem_of_given {a b : Item} {oldfilename : Str} {newvalues : Row}
    (h : a.properties = b.properties) (hcontent : (column t.content_column newvalues).isSome = true) :
    t.newItem a oldfilename newvalues = t.newItem b oldfilename newvalues := by
  obtain ⟨v, hv⟩ := Option.isSome_iff_exists.mp hcontent
  have hvalues : t.updateValues a oldfilename newvalues =
      t.updateValues b oldfilename newvalues := by
    unfold updateValues Item.row
    rw [h]
  unfold newItem
  rw [hvalues, hv]
  rfl

theorem changed_update (hplain : t.Plain name content) (h : Scannable t.structured_directory r s)
    {oldfilename : Str} {newvalues row : Row} (ho : t.Regular s (.update oldfilename newvalues))
    (hrun : t.update oldfilename newvalues s = .ok row s') :
    ∃ c, t.change (.update oldfilename newvalues) = some c ∧
      Changed t.structured_directory r s s' c := by
  obtain ⟨olditem, newitem, k₀, k, s₁, hold, hnew, hk₀, hk, hswitch⟩ :=
    update_ok h.sound.coherent h.sound.faults hrun
  obtain ⟨f₀, hf₀, rfl⟩ := filename_of_fullFilename hk₀
  obtain ⟨f, hf, rfl⟩ := filename_of_fullFilename hk
  obtain ⟨-, item, k', hitem, -, hproperties, -⟩ :=
    oldItem_ok h.sound.coherent h.sound.faults hold
  have hname : t.structured_directory.filename item = .ok f₀ := by
    rw [← hf₀]
    unfold Directory.filename
    rw [hproperties]
  have hchange : t.change (.update oldfilename newvalues) = some (.move f₀ f newitem.content) := by
    rw [newItem_of_given hproperties (ho.content _ _ rfl)] at hnew
    simp [change, hitem, hnew, hname, hf, Except.toOption]
  have hlength₀ := length_of_rowItem hplain.pieces hitem hname
  have hlists : t.structured_directory.Lists f := ho.lists _ f hchange rfl
  have hview := oldItem_sameView h.sound hold
  have hstart : Enlarged t.structured_directory r s
      (recorded s₁ (t.structured_directory.key f) newitem.content) [] :=
    (h.enlarged_of_view hview).congr rfl rfl
  have hthere : ∀ {f₀ : Str}, some FailIf.missing ≠ some .missing →
      t.structured_directory.Lists f₀ := fun hmakes => absurd rfl hmakes
  cases hswitch with
  | @stay s₂ fd i p hsame hopens =>
    obtain rfl := eq_of_key_eq (root_ne_nil h.root) hlists hlength₀ hsame
    obtain ⟨v, hv⟩ := ho.shown f₀ _ hchange
    have hvisible := ((shows_iff hplain h).mp hv).2.2.1
    have hlarge := hstart.trans (hstart.rooted.opens hthere hopens)
    refine ⟨_, hchange, (hlarge.of_mem (by simp [Change.keys])).congr rfl rfl,
      ⟨_, congrArg (· ++ [_]) (hopens.log.trans hview.log), .update hf₀ hf⟩, ?_, ?_, ?_⟩
    · intro g hg
      obtain rfl : g = f₀ := by simpa [Change.keys] using hg
      simp [logged, hopens.invisible, recorded, hview.invisible, hvisible, Change.apply]
    · intro g hg w hw
      obtain rfl : g = f₀ := by simpa [Change.keys] using hg
      obtain rfl : newitem.content = w := by simpa [Change.apply] using hw
      simp [logged, hopens.updated, recorded]
    · intro g hg hnot
      have hne := h.key_ne hlength₀ hg (by simpa [Change.keys] using hnot)
      simp [logged, hopens.invisible, hopens.updated, recorded, hview.invisible, hview.updated,
        AList.lookup_insert_ne hne]
  | @move s₂ s₃ fd fd' i i' p p' hdiffer hopens hopens' =>
    have hne₀ : f₀ ≠ f := fun heq => hdiffer (heq ▸ rfl)
    have hopened := hstart.trans (hstart.rooted.opens hthere hopens)
    have hlarge := hopened.trans (hopened.rooted.opens (fun _ => hlists) hopens')
    refine ⟨_, hchange, (hlarge.of_mem (by simp [Change.keys])).congr rfl rfl,
      ⟨_, congrArg (· ++ [_]) (hopens'.log.trans (hopens.log.trans hview.log)), .update hf₀ hf⟩,
      ?_, ?_, ?_⟩
    · intro g hg
      rcases (by simpa [Change.keys] using hg : g = f₀ ∨ g = f) with rfl | rfl
      · simp [renamed, hopens'.invisible, hdiffer, Change.apply, Function.update_of_ne hne₀]
      · simp [renamed, Change.apply]
    · intro g hg w hw
      rcases (by simpa [Change.keys] using hg : g = f₀ ∨ g = f) with rfl | rfl
      · simp [Change.apply, Function.update_of_ne hne₀] at hw
      · obtain rfl : newitem.content = w := by simpa [Change.apply] using hw
        simp [renamed, hopens'.updated, hopens.updated, recorded]
    · intro g hg hnot
      obtain ⟨hnot₀, hnot⟩ : g ≠ f₀ ∧ g ≠ f := by simpa [Change.keys] using hnot
      have hne := h.key_ne hlists.length hg hnot
      simp [renamed, hopens'.invisible, hopens.invisible, hopens'.updated, hopens.updated, recorded,
        hview.invisible, hview.updated, AList.lookup_insert_ne hne, hne,
        h.key_ne hlength₀ hg hnot₀]

/-- A call only looks at the table, or it does its change. -/
theorem changed_after (hplain : t.Plain name content) (h : Scannable t.structured_directory r s)
    {a : Action} (ho : t.Regular s a) : t.change a = none ∧ SameView s (t.after s a) ∨
      ∃ c, t.change a = some c ∧ Changed t.structured_directory r s (t.after s a) c := by
  by_cases hreads : a.Reads
  · refine .inl ⟨?_, sameView_reads hreads h.sound⟩
    cases a <;> first | rfl | exact absurd hreads id
  refine .inr ?_
  obtain ⟨u, hu⟩ := Option.isSome_iff_exists.mp (ho.succeeds.resolve_left hreads)
  obtain ⟨s', hrun⟩ := of_value? hu
  have hafter : t.after s a = s' := by
    unfold after
    rw [hrun]
    rfl
  rw [hafter]
  cases a with
  | insert values =>
    obtain ⟨row, hrun⟩ := discard_eq_ok.mp hrun
    exact changed_insert h.toRooted ho hrun
  | update oldfilename newvalues =>
    obtain ⟨row, hrun⟩ := discard_eq_ok.mp hrun
    exact changed_update hplain h ho hrun
  | delete rowid => exact changed_delete hplain.pieces h.toRooted hrun
  | scan quals columns => exact absurd trivial hreads
  | endScan => exact absurd trivial hreads
  | preCommit => exact absurd ho.inside id
  | rollback => exact absurd ho.inside id

theorem changes_cons (a : Action) (actions : List Action) :
    t.changes (a :: actions) = (t.change a).toList ++ t.changes actions := by
  unfold changes
  cases hc : t.change a <;> simp [hc]

end FilesystemFdw

/-! What has been called so far. -/

/-- Between two transactions: nothing is logged, hidden, recorded or cached, scans work, and no
two paths share an inode, so no lock of the wrapper waits for another one of its own. -/
structure Idle (d : Directory) (r : Path) (s : State) : Prop where
  fresh : Fresh s
  scannable : Scannable d r s
  alone : ∀ p q i, s.os.file p = some i → s.os.file q = some i → p = q

theorem Idle.unlinked (hs : Idle t.structured_directory r s) (actions : List Action) (f : Str) :
    t.Unlinked (t.run s actions) f := fun p q i _ hp hq =>
  (FilesystemFdw.preserved_run (sustained_numbered fun _ => True).preserved
    ⟨hs.fresh.inodes, fun p q i _ => hs.alone p q i⟩ actions).alone p q i trivial hp hq

/-- The operation does the change, whose content can be written. -/
structure Logged (process : Process) (d : Directory) (op : Operation) (c : FileChange) : Prop where
  logs : Logs d op c
  given : ∀ v, c.row = some v → v.Given process

/-- The transaction has begun with the table `T`, and its calls stand for the changes of the log:
their files can be written to, they are hidden if the row is gone, and the content of the row is
recorded. -/
structure Tracked (d : Directory) (r : Path) (T : Table Str PyVal) (log : List FileChange)
    (s : State) : Prop where
  scannable : Scannable d r s
  logged : List.Forall₂ (Logged s.os.process d) s.current_transaction_state log
  fits : FitsAll T log
  lists : ∀ f ∈ touched log, d.Lists f
  opened : ∀ f ∈ touched log, ∃ i, Held s (d.key f) i
  hidden : ∀ f ∈ touched log, d.key f ∈ s.invisible_files ↔ applyAll T log f = none
  recorded : ∀ f ∈ touched log, ∀ v, applyAll T log f = some v →
    s.updated_content.lookup (d.key f) = some v ∧ v.Given s.os.process
  untouched : ∀ f, d.Lists f → f ∉ touched log → d.key f ∉ s.invisible_files ∧
    s.updated_content.lookup (d.key f) = none ∧ T f = (s.os.data (r ++ f.splitOn '/')).map .bytes
  unlisted : ∀ f, ¬ d.Lists f → T f = none

section Runs

variable {T : Table Str PyVal} {log : List FileChange} {c : FileChange}

theorem Fresh.tracked (hs : Fresh s) (h : Scannable t.structured_directory r s) :
    Tracked t.structured_directory r (t.onDisk s) [] s where
  scannable := h
  logged := by rw [hs.log]; exact .nil
  fits := trivial
  lists f hf := by cases hf
  opened f hf := by cases hf
  hidden f hf := by cases hf
  recorded f hf := by cases hf
  untouched f hf _ := by
    refine ⟨by simp [hs.invisible], by simp [hs.updated], ?_⟩
    unfold FilesystemFdw.onDisk
    rw [if_pos hf, h.fileContent_key hf]
  unlisted f hf := if_neg hf

theorem Tracked.view (h : Tracked d r T log s) (hview : SameView s s') (ht : s'.os.Tree) :
    Tracked d r T log s' where
  scannable := ⟨(h.scannable.enlarged_of_view hview).rooted, ht, by
    rw [hview.process]
    exact h.scannable.literals⟩
  logged := by rw [hview.log, hview.process]; exact h.logged
  fits := h.fits
  lists := h.lists
  opened f hf := by
    obtain ⟨i, hi⟩ := h.opened f hf
    exact ⟨i, (hview.held _ _).mpr hi⟩
  hidden f hf := by rw [hview.invisible]; exact h.hidden f hf
  recorded f hf := by rw [hview.updated, hview.process]; exact h.recorded f hf
  untouched f hf hnot := by
    rw [hview.invisible, hview.updated,
      (h.scannable.enlarged_of_view hview).data f hf List.not_mem_nil]
    exact h.untouched f hf hnot
  unlisted := h.unlisted

/-- One more call. -/
theorem Tracked.step (h : Tracked d r T log s) (hc : Changed d r s s' c)
    (hfits : c.Fits (applyAll T log)) (hlists : ∀ f ∈ c.keys, d.Lists f)
    (hgiven : ∀ v, c.row = some v → v.Given s.os.process) (ht : s'.os.Tree) :
    Tracked d r T (log ++ [c]) s' where
  scannable := ⟨hc.enlarged.rooted, ht, by
    rw [hc.enlarged.process]
    exact h.scannable.literals⟩
  logged := by
    obtain ⟨op, hop, hlog⟩ := hc.logged
    rw [hop, hc.enlarged.process]
    exact List.rel_append h.logged (.cons ⟨hlog, hgiven⟩ .nil)
  fits := h.fits.concat hfits
  lists f hf := by
    rcases List.mem_append.mp ((touched_append log [c]) ▸ hf) with hf | hf
    · exact h.lists f hf
    · exact hlists f (by simpa using hf)
  opened f hf := by
    by_cases hmem : f ∈ c.keys
    · exact hc.enlarged.opened f hmem
    · obtain ⟨i, hi⟩ := h.opened f (by simpa [hmem] using hf)
      exact ⟨i, hc.enlarged.held _ i hi⟩
  hidden f hf := by
    rw [applyAll_concat]
    by_cases hmem : f ∈ c.keys
    · rw [Change.apply_of_mem hmem _ fun _ => none]
      exact hc.hidden f hmem
    · have hold : f ∈ touched log := by simpa [hmem] using hf
      rw [Change.apply_of_not_mem hmem, (hc.others f (h.lists f hold) hmem).1]
      exact h.hidden f hold
  recorded f hf v hv := by
    rw [hc.enlarged.process]
    rw [applyAll_concat] at hv
    by_cases hmem : f ∈ c.keys
    · rw [Change.apply_of_mem hmem _ fun _ => none] at hv
      exact ⟨hc.recorded f hmem v hv, hgiven v (Change.row_of_apply hv)⟩
    · have hold : f ∈ touched log := by simpa [hmem] using hf
      rw [Change.apply_of_not_mem hmem] at hv
      rw [(hc.others f (h.lists f hold) hmem).2]
      exact h.recorded f hold v hv
  untouched f hf hnot := by
    obtain ⟨hold, hmem⟩ : f ∉ touched log ∧ f ∉ c.keys := by simpa using hnot
    rw [(hc.others f hf hmem).1, (hc.others f hf hmem).2, hc.enlarged.data f hf hmem]
    exact h.untouched f hf hold
  unlisted := h.unlisted

/-- A scan shows what the changes have made of the table. -/
theorem Tracked.shows_iff (h : Tracked t.structured_directory r T log s)
    (hplain : t.Plain name content) {shown : Option PyVal} :
    t.Shows s f shown ↔ ∃ v, applyAll T log f = some v ∧ shown = some v := by
  rw [FilesystemFdw.shows_iff hplain h.scannable]
  by_cases hf : t.structured_directory.Lists f
  swap
  · have hnone : applyAll T log f = none := by
      rw [applyAll_of_not_mem fun hmem => hf (h.lists f hmem)]
      exact h.unlisted f hf
    simp [hf, hnone]
  simp only [hf, true_and]
  by_cases htouched : f ∈ touched log
  · obtain ⟨i, hi⟩ := h.opened f htouched
    obtain ⟨p, hp, hnode⟩ := hi.node h.scannable.sound
    obtain rfl := resolve_key h.scannable.root hf hp
    have hfile : ∃ i, s.os.file (r ++ f.splitOn '/') = some i := ⟨i, Os.file_eq_some.mpr hnode⟩
    have hhidden := h.hidden f htouched
    cases happly : applyAll T log f with
    | none => simp [hhidden, happly]
    | some v =>
      obtain ⟨hlookup, hgiven⟩ := h.recorded f htouched v happly
      have hshows : s.shows (t.structured_directory.key f) = some v := by
        unfold State.shows Os.shownAs
        rw [hlookup, Option.getD_some]
        cases v with
        | none => exact absurd hgiven id
        | _ => rfl
      have hvisible : t.structured_directory.key f ∉ s.invisible_files := by simp [hhidden, happly]
      simp only [hfile, hvisible, hshows, not_false_iff, true_and, Option.some.injEq,
        exists_eq_left']
      exact eq_comm
  · obtain ⟨hvisible, hlookup, hdata⟩ := h.untouched f hf htouched
    have hshows : s.shows (t.structured_directory.key f) =
        (s.os.data (r ++ f.splitOn '/')).map .bytes := by
      unfold State.shows Os.shownAs
      rw [hlookup, Option.getD_none, h.scannable.fileContent_key hf]
    rw [applyAll_of_not_mem htouched, hdata, hshows]
    cases hfile : s.os.file (r ++ f.splitOn '/') with
    | none => simp [Os.data, hfile]
    | some i => simp [Os.data, hfile, hvisible, eq_comm]

namespace FilesystemFdw

variable (hplain : t.Plain name content)

include hplain

theorem tracked_after (h : Tracked t.structured_directory r T log s) {a : Action}
    (ho : t.Orderly s a) :
    Tracked t.structured_directory r T (log ++ (t.change a).toList) (t.after s a) := by
  have ht : (t.after s a).os.Tree := preserved_after sustained_tree.preserved h.scannable.tree a
  rcases changed_after hplain h.scannable ho.regular with ⟨hnone, hview⟩ | ⟨c, hchange, hc⟩
  · rw [hnone, Option.toList_none, List.append_nil]
    exact h.view hview ht
  · rw [hchange]
    refine h.step hc (fun f hf => ?_) (ho.lists c hchange) (fun v => ho.given c v hchange) ht
    obtain ⟨v, hv⟩ := ho.shown c f hchange hf
    obtain ⟨w, hw, -⟩ := (h.shows_iff hplain).mp hv
    simp [hw]

theorem tracked_run (h : Tracked t.structured_directory r T log s) {actions : List Action}
    (ho : t.Along t.Orderly s actions) :
    Tracked t.structured_directory r T (log ++ t.changes actions) (t.run s actions) := by
  induction actions generalizing s log with
  | nil => simpa [changes, run] using h
  | cons a actions ih =>
    have hall := ih (tracked_after hplain h ho.1) ho.2
    rw [changes_cons, ← List.append_assoc]
    exact hall

/-- In the course of a transaction a full scan shows the files of the start with the changes that
its calls stand for, one after the other: the last content written under a name, and nothing
under a name that is gone. -/
theorem shows_reference (hs : Idle t.structured_directory r s) {actions : List Action}
    (ho : t.Along t.Orderly s actions) {shown : Option PyVal} :
    t.Shows (t.run s actions) f shown ↔
      ∃ v, applyAll (t.onDisk s) (t.changes actions) f = some v ∧ shown = some v :=
  (tracked_run hplain (hs.fresh.tracked hs.scannable) ho).shows_iff hplain

end FilesystemFdw

end Runs

section Sample

theorem flat_plain : flatTable.Plain ['f'] ['c'] where
  pieces := formatsParts_of_plain (fun _ => plainName_of_letters)
    (by simp [flatTable, flat, NoDoubledBraces])
  spelled part hpart text htext := by
    obtain rfl := List.mem_singleton.mp hpart
    cases htext
  own := ⟨by simp [flatTable, flat, Directory.properties, Part.properties],
    by simp [flatTable, flat, Directory.properties, Part.properties]⟩
  filename_column := rfl
  content_column := rfl
  apart := by decide

theorem oneFile_scannable : Scannable flat [['r']] oneFile where
  sound := oneFile_fresh.sound
  root := rfl
  isDir := rfl
  inodes := oneFile_fresh.inodes
  newline names i hfile := by
    have hkeys : [['r']] ++ names ∈ ([[['r'], ['x']], [['r']]] : List Path) :=
      Os.mem_keys_of_file hfile
    have hnames : names = [['x']] ∨ names = [] := by simpa using hkeys
    rcases hnames with rfl | rfl
    · decide
    · decide
  tree := by
    apply Os.Tree.of_keys
    intro q hq c hc
    have hkeys : q = [['r'], ['x']] ∨ q = [['r']] := by
      have hmem : q ∈ [[['r'], ['x']], [['r']]] := hq
      simpa using hmem
    rcases hkeys with rfl | rfl
    · obtain rfl := Option.some.inj hc
      exact ⟨rfl, by decide, by decide⟩
    · obtain rfl := Option.some.inj hc
      exact ⟨rfl, by decide, by decide⟩
  literals part hpart text htext := by
    obtain rfl := List.mem_singleton.mp hpart
    cases htext

theorem oneFile_idle : Idle flat [['r']] oneFile where
  fresh := oneFile_fresh
  scannable := oneFile_scannable
  alone p q i hp hq := by
    have hx : ∀ {p : Path} {i : ℕ}, oneFile.os.file p = some i → p = [['r'], ['x']] := by
      intro p i hp
      have hkeys : p ∈ ([[['r'], ['x']], [['r']]] : List Path) := Os.mem_keys_of_file hp
      rcases List.mem_cons.mp hkeys with rfl | hkeys
      · rfl
      · obtain rfl := List.mem_singleton.mp hkeys
        cases hp
    rw [hx hp, hx hq]

/-- The file `x` is renamed to `y`, and a new `x` is inserted. -/
def swapped : List Action :=
  [.update ['x'] (flatRow ['y'] (.str ['1'])), .insert (flatRow ['x'] (.str ['2']))]

theorem swapped_orderly : flatTable.Along flatTable.Orderly oneFile swapped := by
  have hmove : flatTable.change (.update ['x'] (flatRow ['y'] (.str ['1']))) =
      some (.move ['x'] ['y'] (.str ['1'])) := by decide +kernel
  have hput : flatTable.change (.insert (flatRow ['x'] (.str ['2']))) =
      some (.put ['x'] (.str ['2'])) := by decide +kernel
  have hrows : (value? (flatTable.execute [] [['f'], ['c']] oneFile)).map
      (List.map AList.entries) = some ([flatShown ['x'] (.bytes [65])].map AList.entries) := by
    decide +kernel
  have hshows : flatTable.Shows oneFile ['x'] (some (.bytes [65])) :=
    (flat_shows_iff hrows).mpr ⟨_, List.mem_cons_self, rfl, rfl⟩
  refine ⟨⟨trivial, .inr (by decide +kernel), ?_, ?_, ?_, ?_⟩,
    ⟨trivial, .inr (by decide +kernel), ?_, ?_, ?_, ?_⟩, trivial⟩
  · intro c hc
    rw [hmove] at hc
    cases hc
    decide
  · intro c v hc hv
    rw [hmove] at hc
    cases hc
    cases hv
    trivial
  · intro oldfilename newvalues ha
    cases ha
    rfl
  · intro c f hc hf
    rw [hmove] at hc
    cases hc
    cases hf
    exact ⟨_, hshows⟩
  · intro c hc
    rw [hput] at hc
    cases hc
    decide
  · intro c v hc hv
    rw [hput] at hc
    cases hc
    cases hv
    trivial
  · intro oldfilename newvalues ha
    cases ha
  · intro c f hc hf
    rw [hput] at hc
    cases hc
    cases hf

theorem swapped_shown : flatTable.Shows (flatTable.run oneFile swapped) ['y'] (some (.str ['1'])) :=
  (FilesystemFdw.shows_reference flat_plain oneFile_idle swapped_orderly).mpr
    ⟨.str ['1'], by decide +kernel, rfl⟩

end Sample

end Multicorn.Fs
