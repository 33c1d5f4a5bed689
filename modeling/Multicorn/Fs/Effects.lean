import Multicorn.Fs.Views
import Multicorn.Fs.Clear
import Multicorn.Fs.Session

/-! What a successful call of the wrapper does, and that it keeps the descriptor cache right. -/
namespace Multicorn.Fs
open Multicorn.StateMonad

variable {s s' : State} {t : FilesystemFdw} {d : Directory}

theorem Coherent.congr (hs : Coherent s) (hos : s'.os = s.os) (hcache : s'.cache = s.cache) :
    Coherent s' := by
  refine ⟨⟨?_, ?_⟩, ?_⟩
  · intro k e he
    rw [hos]
    exact hs.fds k e (hcache ▸ he)
  · intro k k' e e' he he'
    exact hs.distinct k k' e e' (hcache ▸ he) (hcache ▸ he')
  · intro k e f he hf
    rw [hos] at hf ⊢
    exact hs.located k e f (hcache ▸ he) hf

theorem coherent_of_empty (h : s.cache = ∅) : Coherent s := by
  have hnone : ∀ k e, s.cache.lookup k ≠ some e := by
    intro k e he
    rw [h] at he
    cases he
  exact ⟨⟨fun k e he => absurd he (hnone k e), fun k _ e _ he => absurd he (hnone k e)⟩,
    fun k e _ he => absurd he (hnone k e)⟩

theorem Held.congr {k : Str} {i : ℕ} (h : Held s k i) (hos : s'.os = s.os)
    (hcache : s'.cache = s.cache) : Held s' k i := by
  obtain ⟨fd, hentry, hfd⟩ := h
  refine ⟨fd, ?_, ?_⟩
  · rw [hcache, hentry]
  · rw [hos, hfd]

theorem openFd_exclusive {item : Item} {fail_if : Option FailIf} {fd : ℕ} :
    item.openFd d false fail_if s = .ok fd s' ↔
      ∃ k, d.fullFilename item = .ok k ∧ openExclusive k fail_if s = .ok fd s' := by
  unfold Item.openFd
  simp only [bind_eq_ok, liftExcept_eq_ok]
  constructor
  · rintro ⟨k, _, ⟨hk, rfl⟩, h⟩
    exact ⟨k, hk, h⟩
  · rintro ⟨k, hk, h⟩
    exact ⟨k, s, ⟨hk, rfl⟩, h⟩

theorem Sound.congr (hs : Sound s) (hos : s'.os = s.os) (hcache : s'.cache = s.cache) :
    Sound s' := by
  refine ⟨hs.coherent.congr hos hcache, ?_⟩
  rw [hos]
  exact hs.faults

theorem Quiet.sound (h : Quiet s s') (hs : Sound s) : Sound s' :=
  ⟨h.coherent hs.coherent, h.grows.faults.trans hs.faults⟩

theorem Opens.sound {k : Str} {fail_if : Option FailIf} {fd i : ℕ} {p : Path}
    (h : Opens s s' k fail_if fd p i) (hs : Sound s) : Sound s' :=
  ⟨h.coherent hs.coherent, h.grows.faults.trans hs.faults⟩

namespace FilesystemFdw

theorem logOperation_eq_ok {op : Operation} {u : Unit} : logOperation op s = .ok u s' ↔
    s' = { s with current_transaction_state := s.current_transaction_state ++ [op] } := by
  rw [logOperation, modify_eq_ok, eq_comm]

theorem openNew_eq_ok {item : Item} {u : Unit} : t.openNew item s = .ok u s' ↔
    ∃ fd, item.openFd t.structured_directory false (some .exists) s = .ok fd s' := by
  unfold openNew
  rw [tryCatch_eq_ok, discard_eq_ok]
  constructor
  · rintro (h | ⟨e, s₁, -, h⟩)
    · exact h
    · split_ifs at h
      · exact absurd h throw_ne_ok
      · exact absurd h throw_ne_ok
  · exact .inl

theorem returnValue_ok {item : Item} {row : Row} (h : t.returnValue item s = .ok row s') :
    s = s' := by
  unfold returnValue at h
  simp only [bind_eq_ok, liftExcept_eq_ok, pure_eq_ok] at h
  obtain ⟨filename, _, ⟨-, rfl⟩, -, rfl⟩ := h
  rfl

/-- What an insert leaves behind, once its file `k` has been opened. -/
def inserted (s : State) (k : Str) (item : Item) : State :=
  { s with
    current_transaction_state := s.current_transaction_state ++ [.insert item]
    invisible_files := s.invisible_files.filter (· ≠ k)
    updated_content := s.updated_content.insert k item.content }

theorem insert_ok (hs : Coherent s) (hf : s.os.faults = []) {values row : Row}
    (h : t.insert values s = .ok row s') :
    ∃ item k fd p i s₁, t.itemFromDml values = .ok item ∧
      t.structured_directory.fullFilename item = .ok k ∧
      Opens s s₁ k (some .exists) fd p i ∧ s' = inserted s₁ k item := by
  unfold FilesystemFdw.insert at h
  simp only [bind_eq_ok, liftExcept_eq_ok, openNew_eq_ok, openFd_exclusive, modify_eq_ok,
    logOperation_eq_ok] at h
  obtain ⟨item, _, ⟨hitem, rfl⟩, _, s₁, ⟨fd, k, hk, hopen⟩, k', _, ⟨hk', rfl⟩, _, _, rfl, _, _,
    rfl, hreturn⟩ := h
  rw [hk] at hk'
  cases hk'
  obtain ⟨p, i, hopens⟩ := openExclusive_ok hs hf hopen
  refine ⟨item, k, fd, p, i, s₁, hitem, hk, hopens, ?_⟩
  rw [← returnValue_ok hreturn]
  rfl

/-- What a delete leaves behind, once its file `k` has been opened. -/
def deleted (s : State) (k : Str) (item : Item) : State :=
  { s with
    current_transaction_state := s.current_transaction_state ++ [.delete item]
    invisible_files := s.invisible_files.insert k }

theorem delete_ok (hs : Coherent s) (hf : s.os.faults = []) {rowid : Str} {u : Unit}
    (h : t.delete rowid s = .ok u s') :
    ∃ item k fd p i s₁, t.rowItem rowid = .ok item ∧
      t.structured_directory.fullFilename item = .ok k ∧
      Opens s s₁ k (some .missing) fd p i ∧ s' = deleted s₁ k item := by
  unfold FilesystemFdw.delete at h
  simp only [bind_eq_ok, liftExcept_eq_ok, discard_eq_ok, openFd_exclusive, modify_eq_ok,
    logOperation_eq_ok] at h
  obtain ⟨item, _, ⟨hitem, rfl⟩, _, s₁, ⟨fd, k, hk, hopen⟩, k', _, ⟨hk', rfl⟩, _, _, rfl, rfl⟩ := h
  rw [hk] at hk'
  cases hk'
  obtain ⟨p, i, hopens⟩ := openExclusive_ok hs hf hopen
  exact ⟨item, k, fd, p, i, s₁, hitem, hk, hopens, rfl⟩

/-- The old item of an update carries the recorded content, or else what is in the file. -/
theorem oldItem_ok (hs : Coherent s) (hf : s.os.faults = []) {oldfilename : Str} {olditem : Item}
    (h : t.oldItem oldfilename s = .ok olditem s') :
    Quiet s s' ∧ ∃ item k, t.rowItem oldfilename = .ok item ∧
      t.structured_directory.fullFilename item = .ok k ∧ olditem.properties = item.properties ∧
      let content := (s.updated_content.lookup k).getD item.content
      if content.truthy then olditem.content = content
      else ∃ data, s.os.fileContent k = some data ∧ olditem.content = .bytes data := by
  unfold oldItem at h
  simp only [bind_eq_ok, liftExcept_eq_ok, get_eq_ok] at h
  obtain ⟨item, _, ⟨hitem, rfl⟩, k, _, ⟨hk, rfl⟩, _, _, ⟨rfl, rfl⟩, h⟩ := h
  by_cases htruthy : ((s.updated_content.lookup k).getD item.content).truthy = true
  · rw [if_pos htruthy] at h
    obtain ⟨rfl, rfl⟩ := pure_eq_ok.mp h
    refine ⟨.refl _, item, k, hitem, hk, rfl, ?_⟩
    simp only [htruthy, if_true]
  · rw [if_neg htruthy] at h
    simp only [bind_eq_ok, pure_eq_ok] at h
    obtain ⟨data, s₁, hread, rfl, rfl⟩ := h
    obtain ⟨hquiet, k', hk', hdata⟩ := fileContent_of_read hs hf hread
    rw [hk] at hk'
    cases hk'
    refine ⟨hquiet, item, k, hitem, hk, rfl, ?_⟩
    simp only [if_neg htruthy]
    exact ⟨data, hdata, rfl⟩

theorem oldItem_sameView (hs : Sound s) {oldfilename : Str} {olditem : Item}
    (h : t.oldItem oldfilename s = .ok olditem s') : SameView s s' := by
  unfold oldItem at h
  simp only [bind_eq_ok, liftExcept_eq_ok, get_eq_ok] at h
  obtain ⟨item, _, ⟨-, rfl⟩, k, _, ⟨-, rfl⟩, _, _, ⟨rfl, rfl⟩, h⟩ := h
  split_ifs at h
  · obtain ⟨-, rfl⟩ := pure_eq_ok.mp h
    exact .refl hs
  · simp only [bind_eq_ok, pure_eq_ok] at h
    obtain ⟨data, s₁, hread, -, rfl⟩ := h
    have hview := (observes_read viewing_sameView (d := t.structured_directory) item s s (.refl hs)).2
    rw [hread] at hview
    exact hview

/-- The state in which an update opens its files: the new content is recorded first. -/
def recorded (s : State) (k : Str) (content : PyVal) : State :=
  { s with updated_content := s.updated_content.insert k content }

def logged (s : State) (op : Operation) : State :=
  { s with current_transaction_state := s.current_transaction_state ++ [op] }

/-- What a renaming update leaves behind, once both files have been opened. -/
def renamed (s : State) (old_full new_full : Str) (olditem newitem : Item) : State :=
  { s with
    current_transaction_state := s.current_transaction_state ++ [.update olditem newitem]
    invisible_files := (s.invisible_files.insert old_full).filter (· ≠ new_full) }

/-- The new item of an update. -/
def newItem (t : FilesystemFdw) (olditem : Item) (oldfilename : Str) (newvalues : Row) :
    Except Failure Item := do
  let newitem ← t.itemFromDml (← t.updateValues olditem oldfilename newvalues)
  return { newitem with content := (column t.content_column newvalues).getD olditem.content }

/-- The second half of an update, where the files are opened. -/
inductive Switches (s : State) (k₀ k : Str) (olditem newitem : Item) : State → Prop
  | stay {s₁ : State} {fd i : ℕ} {p : Path} (hk : k₀ = k)
      (hold : Opens s s₁ k₀ (some .missing) fd p i) :
      Switches s k₀ k olditem newitem (logged s₁ (.update olditem newitem))
  | move {s₁ s₂ : State} {fd fd' i i' : ℕ} {p p' : Path} (hk : k₀ ≠ k)
      (hold : Opens s s₁ k₀ (some .missing) fd p i)
      (hnew : Opens s₁ s₂ k (some .exists) fd' p' i') :
      Switches s k₀ k olditem newitem (renamed s₂ k₀ k olditem newitem)

theorem update_ok (hs : Coherent s) (hf : s.os.faults = []) {oldfilename : Str}
    {newvalues row : Row} (h : t.update oldfilename newvalues s = .ok row s') :
    ∃ olditem newitem k₀ k s₁, t.oldItem oldfilename s = .ok olditem s₁ ∧
      t.newItem olditem oldfilename newvalues = .ok newitem ∧
      t.structured_directory.fullFilename olditem = .ok k₀ ∧
      t.structured_directory.fullFilename newitem = .ok k ∧
      Switches (recorded s₁ k newitem.content) k₀ k olditem newitem s' := by
  unfold FilesystemFdw.update at h
  simp only [bind_eq_ok, liftExcept_eq_ok, modify_eq_ok, discard_eq_ok, openFd_exclusive] at h
  obtain ⟨olditem, s₁, hold, values, _, ⟨hvalues, rfl⟩, item, _, ⟨hitem, rfl⟩, k, _, ⟨hk, rfl⟩, _,
    _, rfl, _, s₂, ⟨fd, k₀, hk₀, hopen⟩, k₀', _, ⟨hk₀', rfl⟩, h⟩ := h
  rw [hk₀] at hk₀'
  cases hk₀'
  obtain ⟨hquiet, -⟩ := oldItem_ok hs hf hold
  have hnew : t.newItem olditem oldfilename newvalues =
      .ok { item with content := (column t.content_column newvalues).getD olditem.content } := by
    unfold newItem
    rw [hvalues]
    change (t.itemFromDml values >>= fun newitem => _) = _
    rw [hitem]
    rfl
  have hs₁ : Coherent (recorded s₁ k ((column t.content_column newvalues).getD olditem.content)) :=
    (hquiet.coherent hs).congr rfl rfl
  have hf₁ : s₁.os.faults = [] := hquiet.grows.faults.trans hf
  obtain ⟨p, i, hopens⟩ := openExclusive_ok hs₁ hf₁ hopen
  refine ⟨olditem, _, k₀, k, s₁, hold, hnew, hk₀, hk, ?_⟩
  by_cases hne : k₀ = k
  · rw [if_neg (fun hn => hn hne)] at h
    simp only [bind_eq_ok, logOperation_eq_ok] at h
    obtain ⟨_, _, rfl, hreturn⟩ := h
    rw [← returnValue_ok hreturn]
    exact .stay hne hopens
  · rw [if_pos hne] at h
    simp only [bind_eq_ok, logOperation_eq_ok, openNew_eq_ok, openFd_exclusive, modify_eq_ok] at h
    obtain ⟨_, s₃, ⟨fd', k', hk', hopen'⟩, _, _, rfl, _, _, rfl, hreturn⟩ := h
    rw [hk] at hk'
    cases hk'
    obtain ⟨p', i', hopens'⟩ := openExclusive_ok (hopens.coherent hs₁) (hopens.grows.faults.trans hf₁)
      hopen'
    rw [← returnValue_ok hreturn]
    exact .move hne hopens hopens'

theorem Switches.sound {k₀ k : Str} {olditem newitem : Item}
    (h : Switches s k₀ k olditem newitem s') (hs : Sound s) : Sound s' := by
  cases h with
  | stay _ hold => exact (hold.sound hs).congr rfl rfl
  | move _ hold hnew => exact (hnew.sound (hold.sound hs)).congr rfl rfl

end FilesystemFdw

/-- A call in the course of a transaction. -/
def Action.Inside : Action → Prop
  | .preCommit | .rollback => False
  | _ => True

namespace FilesystemFdw

/-- A successful call keeps the descriptor cache right. -/
theorem sound_after (hs : Sound s) {a : Action} (ha : a.Inside) (h : t.Succeeds s a) :
    Sound (t.after s a) := by
  obtain ⟨u, hu⟩ := Option.isSome_iff_exists.mp h
  obtain ⟨s', hrun⟩ := of_value? hu
  unfold after
  rw [hrun]
  change Sound s'
  cases a with
  | insert values =>
    obtain ⟨row, hrun⟩ := discard_eq_ok.mp hrun
    obtain ⟨item, k, fd, p, i, s₁, -, -, hopens, rfl⟩ := insert_ok hs.coherent hs.faults hrun
    exact (hopens.sound hs).congr rfl rfl
  | update oldfilename newvalues =>
    obtain ⟨row, hrun⟩ := discard_eq_ok.mp hrun
    obtain ⟨olditem, newitem, k₀, k, s₁, hold, -, -, -, hswitch⟩ :=
      update_ok hs.coherent hs.faults hrun
    have hquiet := (oldItem_ok hs.coherent hs.faults hold).1
    exact hswitch.sound ((hquiet.sound hs).congr rfl rfl)
  | delete rowid =>
    obtain ⟨item, k, fd, p, i, s₁, -, -, hopens, rfl⟩ := delete_ok hs.coherent hs.faults hrun
    exact (hopens.sound hs).congr rfl rfl
  | scan quals columns =>
    obtain ⟨rows, hrun⟩ := discard_eq_ok.mp hrun
    exact (execute_ok hs.coherent hs.faults hrun).1.sound hs
  | endScan =>
    obtain ⟨s₁, hclear, hquiet⟩ := clearCache_shared hs.coherent.toOpened hs.faults
    have hsame : s₁ = s' := by
      have heq := hclear.symm.trans hrun
      cases heq
      rfl
    exact hsame ▸ hquiet.sound hs
  | preCommit => exact absurd ha id
  | rollback => exact absurd ha id

end FilesystemFdw

section Sample

/-- The pattern of a directory of files. -/
def flat : Directory where
  isidentifier := letters
  root_dir := "/r".toList
  pattern := "\x7ba\x7d".toList
  parts := [[.any ['a']]]
  parsed := by decide

def flatTable : FilesystemFdw where
  structured_directory := flat
  content_column := some ['c']
  filename_column := some ['f']

def flatRow (a : Str) (content : PyVal) : Row :=
  ((∅ : Row).insert ['a'] (.str a)).insert ['c'] content

end Sample

end Multicorn.Fs
