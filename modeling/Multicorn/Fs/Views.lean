import Multicorn.Fs.Rows

/-! What a scan shows depends on the tree and on what the transaction keeps, and on nothing
else: the descriptor cache makes no difference. -/
namespace Multicorn.Fs
open Multicorn.StateMonad

variable {s s' : State} {t : FilesystemFdw} {d : Directory} {item : Item}

/-- A state in which no call is made to fail and the cache is right. -/
structure Sound (s : State) : Prop where
  coherent : Coherent s
  faults : s.os.faults = []

/-- Two states in which scans have to show the same. -/
structure SameView (s s' : State) : Prop where
  left : Sound s
  right : Sound s'
  nodes : s'.os.nodes = s.os.nodes
  process : s'.os.process = s.os.process
  content : s'.os.content = s.os.content
  nextInode : s'.os.nextInode = s.os.nextInode
  log : s'.current_transaction_state = s.current_transaction_state
  invisible : s'.invisible_files = s.invisible_files
  updated : s'.updated_content = s.updated_content
  held : ∀ k i, Held s' k i ↔ Held s k i

theorem SameView.refl (h : Sound s) : SameView s s :=
  ⟨h, h, rfl, rfl, rfl, rfl, rfl, rfl, rfl, fun _ _ => Iff.rfl⟩

theorem SameView.symm (s s' : State) (h : SameView s s') : SameView s' s :=
  ⟨h.right, h.left, h.nodes.symm, h.process.symm, h.content.symm, h.nextInode.symm, h.log.symm,
    h.invisible.symm, h.updated.symm, fun k i => (h.held k i).symm⟩

theorem SameView.trans (a b c : State) (h : SameView a b) (h' : SameView b c) : SameView a c :=
  ⟨h.left, h'.right, h'.nodes.trans h.nodes, h'.process.trans h.process, h'.content.trans h.content,
    h'.nextInode.trans h.nextInode, h'.log.trans h.log, h'.invisible.trans h.invisible,
    h'.updated.trans h.updated, fun k i => (h'.held k i).trans (h.held k i)⟩

/-- What a row shows for a content that is recorded, if it can be read. -/
def Os.shownAs (os : Os) (path : Str) : PyVal → Option PyVal
  | .none => (os.fileContent path).map .bytes
  | content => some content

def State.shows (s : State) (path : Str) : Option PyVal :=
  s.os.shownAs path ((s.updated_content.lookup path).getD .none)

/-- Two states in which scans have to show the same, whatever their descriptors are. -/
structure Alike (s s' : State) : Prop where
  left : Sound s
  right : Sound s'
  nodes : s'.os.nodes = s.os.nodes
  process : s'.os.process = s.os.process
  content : s'.os.content = s.os.content
  invisible : s'.invisible_files = s.invisible_files
  shows : ∀ k, s'.shows k = s.shows k

theorem Alike.node (h : Alike s s') (p : Path) : s'.os.node p = s.os.node p := by
  unfold Os.node
  rw [h.nodes]

theorem Alike.resolve (h : Alike s s') (path : Str) : s'.os.resolve path = s.os.resolve path :=
  Os.resolve_congr h.node h.process path

theorem Alike.stat (h : Alike s s') (path : Str) : s'.os.stat path = s.os.stat path :=
  Os.stat_congr h.node h.process path

theorem Alike.children (h : Alike s s') (p : Path) : s'.os.children p = s.os.children p := by
  unfold Os.children
  rw [h.nodes]

theorem SameView.node (h : SameView s s') (p : Path) : s'.os.node p = s.os.node p := by
  unfold Os.node
  rw [h.nodes]

theorem SameView.resolve (h : SameView s s') (path : Str) :
    s'.os.resolve path = s.os.resolve path :=
  Os.resolve_congr h.node h.process path

theorem SameView.stat (h : SameView s s') (path : Str) : s'.os.stat path = s.os.stat path :=
  Os.stat_congr h.node h.process path

theorem SameView.alike (s s' : State) (h : SameView s s') : Alike s s' := by
  refine ⟨h.left, h.right, h.nodes, h.process, h.content, h.invisible, fun k => ?_⟩
  have hfile : s'.os.fileContent k = s.os.fileContent k := by
    unfold Os.fileContent
    rw [h.stat, h.content]
  unfold State.shows Os.shownAs
  rw [h.updated, hfile]

/-- Related states show the same, and stay related when something is looked at. -/
structure Viewing (R : State → State → Prop) : Prop where
  symm : ∀ s s', R s s' → R s' s
  trans : ∀ a b c, R a b → R b c → R a c
  alike : ∀ s s', R s s' → Alike s s'
  still : ∀ s s', SameView s s' → R s s'

theorem viewing_sameView : Viewing SameView :=
  ⟨SameView.symm, SameView.trans, SameView.alike, fun _ _ h => h⟩

theorem viewing_alike : Viewing Alike := by
  refine ⟨fun s s' h => ?_, fun a b c h h' => ?_, fun _ _ h => h, SameView.alike⟩
  · exact ⟨h.right, h.left, h.nodes.symm, h.process.symm, h.content.symm, h.invisible.symm,
      fun k => (h.shows k).symm⟩
  · exact ⟨h.left, h'.right, h'.nodes.trans h.nodes, h'.process.trans h.process,
      h'.content.trans h.content, h'.invisible.trans h.invisible,
      fun k => (h'.shows k).trans (h.shows k)⟩

theorem Looked.sameView (h : Looked s s') (hs : Sound s) : SameView s s' := by
  have hcoherent := h.quiet.coherent hs.coherent
  obtain ⟨paths, rfl⟩ := h
  exact ⟨hs, ⟨hcoherent, hs.faults⟩, rfl, rfl, rfl, rfl, rfl, rfl, rfl, fun _ _ => Iff.rfl⟩

/-! The calls of a scan. -/

section Viewed

variable {R : State → State → Prop} (hR : Viewing R)

include hR

theorem Viewing.self (s s' : State) (h : R s s') : R s s :=
  hR.still _ _ (.refl (hR.alike _ _ h).left)

theorem Viewing.looked (h : R s s') {s₁ : State} (hlooked : Looked s s₁) : R s s₁ :=
  hR.still _ _ (hlooked.sameView (hR.alike _ _ h).left)

theorem observes_pure {α : Type} (a : α) : Observes R (pure a : M α) := Observes.pure hR.self a

theorem observes_throw {α : Type} (e : Failure) : Observes R (throw e : M α) :=
  Observes.throw hR.self e

theorem observes_bind {α β : Type} {x : M α} {f : α → M β} (hx : Observes R x)
    (hf : ∀ a, Observes R (f a)) : Observes R (x >>= f) :=
  Observes.bind hR.symm hR.trans hx hf

theorem observes_liftExcept {α : Type} (x : Except Failure α) : Observes R (liftExcept x) := by
  cases x with
  | ok a => exact observes_pure hR a
  | error e => exact observes_throw hR e

theorem observes_pathIsfile (path : Str) : Observes R (call (pathIsfile path)) := by
  intro s s' h
  rw [call_pathIsfile, call_pathIsfile]
  refine ⟨?_, hR.looked h (Looked.touch s path)⟩
  simp only [outcome, Os.isfile, (hR.alike _ _ h).stat]

theorem observes_pathExists (path : Str) : Observes R (call (pathExists path)) := by
  intro s s' h
  rw [call_pathExists, call_pathExists]
  refine ⟨?_, hR.looked h (Looked.touch s path)⟩
  simp only [outcome, Os.exists?, (hR.alike _ _ h).stat]

end Viewed

/-- What listing a directory gives. -/
def Os.listed (os : Os) (path : Str) : Except Failure (List Str) :=
  match os.resolve path with
  | .error e => .error (.os e)
  | .ok p =>
    match os.node p with
    | some .dir => .ok (os.children p)
    | some (.file _) => .error (.os .ENOTDIR)
    | none => .error (.os .ENOENT)

theorem outcome_listdir (hf : s.os.faults = []) (path : Str) :
    outcome (call (listdir path) s) = s.os.listed path := by
  have hresolve : (s.os.touch path).resolve path = s.os.resolve path := Os.resolve_touch path path
  have hnode : ∀ p, (s.os.touch path).node p = s.os.node p := fun _ => rfl
  have hchildren : ∀ p, (s.os.touch path).children p = s.os.children p := fun _ => rfl
  unfold Os.listed
  cases hp : s.os.resolve path with
  | error e =>
    simp [call, listdir, enter, hf, resolveCall, bind, EStateM.bind, modify, modifyGet,
      MonadStateOf.modifyGet, run_modifyGet, get, getThe, MonadStateOf.get, run_get,
      hresolve, hp, throw, throwThe, MonadExceptOf.throw, run_throw, outcome]
  | ok p =>
    simp only [call, listdir, enter, hf, resolveCall, bind, EStateM.bind, modify, modifyGet,
      MonadStateOf.modifyGet, run_modifyGet, get, getThe, MonadStateOf.get, run_get,
      hresolve, hp, pure, EStateM.pure, hnode]
    cases s.os.node p with
    | none => rfl
    | some node => cases node <;> rfl

theorem observes_listdir {R : State → State → Prop} (hR : Viewing R) (path : Str) :
    Observes R (call (listdir path)) := by
  intro s s' h
  have halike := hR.alike _ _ h
  refine ⟨?_, hR.looked h (listdir_looks path s halike.left.faults)⟩
  rw [outcome_listdir halike.left.faults, outcome_listdir halike.right.faults]
  unfold Os.listed
  simp only [halike.resolve, halike.node, halike.children]

/-- What opening a path for reading gives, as far as the node goes. -/
def Os.opened (os : Os) (path : Str) : Except Failure Node :=
  match os.resolve path with
  | .error e => .error (.os e)
  | .ok p =>
    match os.node p with
    | some node => .ok node
    | none => .error (.os .ENOENT)

/-- Opening a path for reading that has no cached descriptor. -/
private theorem osOpen_reading (hf : s.os.faults = []) (path : Str) :
    osOpen path ⟨false, false, false⟩ s.os =
      match s.os.opened path with
      | .ok node => .ok s.os.freeFd ((s.os.touch path).withFd s.os.freeFd (some ⟨node, false⟩))
      | .error (.os e) => .error e (s.os.touch path)
      | .error _ => .error .EINVAL (s.os.touch path) := by
  have hresolve : (s.os.touch path).resolve path = s.os.resolve path := Os.resolve_touch path path
  have hnode : ∀ p, (s.os.touch path).node p = s.os.node p := fun _ => rfl
  unfold Os.opened
  cases hp : s.os.resolve path with
  | error e =>
    simp [osOpen, enter, hf, resolveCall, bind, EStateM.bind, modify, modifyGet,
      MonadStateOf.modifyGet, run_modifyGet, get, getThe, MonadStateOf.get, run_get,
      hresolve, hp, throw, throwThe, MonadExceptOf.throw, run_throw]
  | ok p =>
    simp only [osOpen, enter, hf, resolveCall, bind, EStateM.bind, modify, modifyGet,
      MonadStateOf.modifyGet, run_modifyGet, get, getThe, MonadStateOf.get, run_get,
      hresolve, hp, pure, EStateM.pure, hnode]
    cases s.os.node p with
    | none => rfl
    | some node => cases node <;> rfl

/-- A new entry for reading does not change which keys can be written to. -/
private theorem held_insert_shared {k : Str} {n : ℕ} {os : Os} (hentry : s.cache.lookup k = none)
    (hothers : ∀ k' e, s.cache.lookup k' = some e → e.1 ≠ n ∧ os.fd e.1 = s.os.fd e.1) {k' : Str}
    {i : ℕ} : Held { s with os, cache := s.cache.insert k (n, true) } k' i ↔ Held s k' i := by
  by_cases hk : k' = k
  · subst hk
    constructor
    · rintro ⟨fd, hheld, -⟩
      change (s.cache.insert k' (n, true)).lookup k' = _ at hheld
      rw [AList.lookup_insert] at hheld
      cases hheld
    · rintro ⟨fd, hheld, -⟩
      rw [hentry] at hheld
      cases hheld
  · have hlookup : (s.cache.insert k (n, true)).lookup k' = s.cache.lookup k' :=
      AList.lookup_insert_ne hk
    constructor
    · rintro ⟨fd, hheld, hfd⟩
      have hold := hlookup.symm.trans hheld
      exact ⟨fd, hold, (hothers k' _ hold).2.symm.trans hfd⟩
    · rintro ⟨fd, hheld, hfd⟩
      exact ⟨fd, hlookup.trans hheld, (hothers k' _ hheld).2.trans hfd⟩

/-- A descriptor for reading is one of the node at its path, cached or not. -/
theorem openShared_cases (hs : Sound s) (k : Str) :
    (∃ e s₁, s.os.opened k = .error e ∧ openShared k s = .error e s₁ ∧ SameView s s₁) ∨
      ∃ node fd rdwr s₁, s.os.opened k = .ok node ∧ openShared k s = .ok fd s₁ ∧
        s₁.os.fd fd = some ⟨node, rdwr⟩ ∧ SameView s s₁ := by
  cases hentry : s.cache.lookup k with
  | some entry =>
    right
    obtain ⟨node, hfd, -⟩ := hs.coherent.fds k entry hentry
    obtain ⟨p, hp, hnode⟩ := hs.coherent.located k entry _ hentry hfd
    refine ⟨node, entry.1, !entry.2, s, ?_, ?_, hfd, .refl hs⟩
    · unfold Os.opened
      simp only [hp, hnode]
    · exact openShared_cached hentry
  | none =>
    have hrun := openShared_uncached hentry
    have hos := osOpen_reading hs.faults k
    have hview : SameView s { s with os := s.os.touch k } :=
      (Looked.touch s k).sameView hs
    cases hopened : s.os.opened k with
    | error e =>
      left
      rw [hopened] at hos
      obtain ⟨code, rfl⟩ : ∃ code, e = .os code := by
        unfold Os.opened at hopened
        split at hopened
        · cases hopened
          exact ⟨_, rfl⟩
        · split at hopened
          · cases hopened
          · cases hopened
            exact ⟨_, rfl⟩
      refine ⟨.os code, _, rfl, ?_, hview⟩
      rw [hrun]
      simp only [call, bind, EStateM.bind, hos]
    | ok node =>
      right
      rw [hopened] at hos
      obtain ⟨p, hp, hnode⟩ : ∃ p, s.os.resolve k = .ok p ∧ s.os.node p = some node := by
        unfold Os.opened at hopened
        cases hp : s.os.resolve k with
        | error e => simp [hp] at hopened
        | ok p =>
          simp only [hp] at hopened
          cases hnode : s.os.node p with
          | none => simp [hnode] at hopened
          | some node' =>
            simp only [hnode] at hopened
            cases hopened
            exact ⟨p, rfl, hnode⟩
      have hat : ∀ m, ((s.os.touch k).withFd s.os.freeFd (some ⟨node, false⟩)).fd m =
          if m = s.os.freeFd then some ⟨node, false⟩ else s.os.fd m :=
        @Os.fd_withFd (s.os.touch k) _ Os.freeFd_le _
      have hnew : ((s.os.touch k).withFd s.os.freeFd (some ⟨node, false⟩)).fd s.os.freeFd =
          some ⟨node, false⟩ := (hat _).trans (if_pos rfl)
      refine ⟨node, s.os.freeFd, false,
        { s with os := (s.os.touch k).withFd s.os.freeFd (some ⟨node, false⟩),
                 cache := s.cache.insert k (s.os.freeFd, true) }, rfl, ?_, hnew, ?_⟩
      · rw [hrun]
        simp only [bind_eq_ok, call_eq_ok, setCache_eq_ok, pure_eq_ok]
        refine ⟨s.os.freeFd, _, ⟨_, hos, rfl⟩, (), _, ⟨_, (flock_eq_ok (by exact hs.faults)).mpr
          ⟨⟨_, hnew⟩, rfl⟩, rfl⟩, (), _, rfl, rfl, rfl⟩
      · have hgrows := (Os.onlyDirs_touch s.os k).grows.trans
          (Os.withFd_grows (s.os.touch k) s.os.freeFd (some ⟨node, false⟩))
        have hothers : ∀ k' e, s.cache.lookup k' = some e → e.1 ≠ s.os.freeFd ∧
            ((s.os.touch k).withFd s.os.freeFd (some ⟨node, false⟩)).fd e.1 = s.os.fd e.1 := by
          intro k' e he
          obtain ⟨node', hopen, -⟩ := hs.coherent.fds k' e he
          have hne : e.1 ≠ s.os.freeFd := by
            intro heq
            rw [heq, Os.fd_freeFd] at hopen
            cases hopen
          exact ⟨hne, (hat _).trans (if_neg hne)⟩
        have hflag : ((s.os.touch k).withFd s.os.freeFd (some ⟨node, false⟩)).fd s.os.freeFd =
            some ⟨node, !true⟩ := hnew
        refine ⟨hs, ⟨?_, hs.faults⟩, rfl, rfl, rfl, rfl, rfl, rfl, rfl, fun k' i => ?_⟩
        · exact hs.coherent.insert (k := k) rfl hflag (fun h => by cases h)
            (fun k' e _ he => hothers k' e he) (hgrows.dirsKept.resolve hp) hnode hgrows
        · exact held_insert_shared hentry hothers

theorem readStart_file (hf : s.os.faults = []) {fd i : ℕ} {b : Bool}
    (hfd : s.os.fd fd = some ⟨.file i, b⟩) :
    call (readStart fd) s = .ok (s.os.content i) s := by
  simp [call, readStart, enter, hf, getInode, getFd, hfd, bind, EStateM.bind, get, getThe,
    MonadStateOf.get, run_get, pure, EStateM.pure]

theorem readStart_dir (hf : s.os.faults = []) {fd : ℕ} {b : Bool}
    (hfd : s.os.fd fd = some ⟨.dir, b⟩) :
    call (readStart fd) s = .error (.os .EISDIR) s := by
  simp [call, readStart, enter, hf, getInode, getFd, hfd, bind, EStateM.bind, get, getThe,
    MonadStateOf.get, run_get, pure, EStateM.pure, throw, throwThe, MonadExceptOf.throw, run_throw]

section Viewed

variable {R : State → State → Prop} (hR : Viewing R)

include hR

/-- Reading gives the content of the file at the path of the item. -/
theorem observes_read (item : Item) : Observes R (item.read d) := by
  have hopened : ∀ k, Observes R (do
      let fd ← openShared k
      call (readStart fd) : M Bytes) := by
    intro k s s' h
    have halike := hR.alike _ _ h
    have hsame : s'.os.opened k = s.os.opened k := by
      unfold Os.opened
      simp only [halike.resolve, halike.node]
    rcases openShared_cases halike.left k with ⟨e, s₁, he, hrun, hview⟩ |
      ⟨node, fd, rdwr, s₁, hnode, hrun, hfd, hview⟩
    · rcases openShared_cases halike.right k with ⟨e', s₁', he', hrun', -⟩ |
        ⟨node', fd', rdwr', s₁', hnode', -⟩
      · rw [hsame, he] at he'
        cases he'
        simp only [bind, EStateM.bind, hrun, hrun']
        exact ⟨rfl, hR.still _ _ hview⟩
      · rw [hsame, he] at hnode'
        cases hnode'
    · rcases openShared_cases halike.right k with ⟨e', s₁', he', -⟩ |
        ⟨node', fd', rdwr', s₁', hnode', hrun', hfd', hview'⟩
      · rw [hsame, hnode] at he'
        cases he'
      · rw [hsame, hnode] at hnode'
        cases hnode'
        have hcontent : s₁'.os.content = s₁.os.content :=
          hview'.content.trans (halike.content.trans hview.content.symm)
        simp only [bind, EStateM.bind, hrun, hrun']
        cases node with
        | dir =>
          rw [readStart_dir hview.right.faults hfd, readStart_dir hview'.right.faults hfd']
          exact ⟨rfl, hR.still _ _ hview⟩
        | file i =>
          rw [readStart_file hview.right.faults hfd, readStart_file hview'.right.faults hfd']
          exact ⟨by simp only [outcome, hcontent], hR.still _ _ hview⟩
  have hread : item.read d = (do
      let full ← liftExcept (d.fullFilename item)
      let fd ← openShared full
      call (readStart fd) : M Bytes) := by
    unfold Item.read Item.openFd
    simp only [if_true, bind_assoc]
  rw [hread]
  exact Observes.bind hR.symm hR.trans (observes_liftExcept hR _) hopened

/-! A whole scan. -/

theorem observes_walk (previous : List Str) (values : List (Str × Str))
    (parts : List (Part × Fixed)) : Observes R (walk d previous values parts) := by
  induction parts generalizing previous values with
  | nil => exact observes_pure hR []
  | cons e rest ih =>
    obtain ⟨part, fixed⟩ := e
    have hnames : Observes R (findMatchingNames d previous part fixed) := by
      unfold findMatchingNames
      cases fixed.1 with
      | some name => exact observes_pure hR _
      | none =>
        apply observes_bind hR _ fun names => observes_pure hR _
        apply Observes.tryCatch hR.symm hR.trans (observes_listdir hR _)
        intro e
        split_ifs
        · exact observes_pure hR _
        · exact observes_throw hR e
    unfold walk
    apply observes_bind hR hnames
    intro names
    apply observes_bind hR _ fun items => observes_pure hR _
    apply Observes.mapM hR.symm hR.trans
    intro p _
    obtain ⟨name, part_values⟩ := p
    simp only
    split_ifs
    · apply observes_bind hR (observes_pathIsfile hR _)
      intro there
      cases there with
      | true => exact observes_bind hR (observes_liftExcept hR _) fun item => observes_pure hR _
      | false => exact observes_pure hR _
    · exact ih _ _

theorem observes_getItems (values : List (Str × Str)) : Observes R (getItems d values) := by
  unfold getItems
  split_ifs
  · exact observes_throw hR _
  · exact observes_bind hR (observes_liftExcept hR _) fun fixed => observes_walk hR _ _ _
  · exact observes_throw hR _

end Viewed

namespace FilesystemFdw

/-- Reading gives what a row shows for a content that is not recorded. -/
theorem read_shows (hs : Sound s) {full : Str} {data : Bytes}
    (hfull : d.fullFilename item = .ok full) (hdata : s.os.fileContent full = some data) :
    ∃ s₁, item.read d s = .ok data s₁ ∧ SameView s s₁ := by
  obtain ⟨s₁, hread⟩ := read_of_fileContent hs.coherent hs.faults hfull hdata
  have hview := (observes_read viewing_sameView (d := d) item s s (.refl hs)).2
  rw [hread] at hview
  exact ⟨s₁, hread, hview⟩

/-- A content that is shown comes into the row, from the record or from the file. -/
theorem contentRow_shows (hs : Sound s) {full : Str} {content : PyVal} (columns : List Str)
    (hfull : t.structured_directory.fullFilename item = .ok full)
    (hshows : s.shows full = some content) :
    ∃ s₁, SameView s s₁ ∧
      contentRow t columns item ((s.updated_content.lookup full).getD .none) s =
        named t columns item (withColumn t.content_column content item.row) s₁ := by
  unfold State.shows at hshows
  cases hrecorded : (s.updated_content.lookup full).getD .none with
  | none =>
    rw [hrecorded] at hshows
    obtain ⟨data, hdata, rfl⟩ := Option.map_eq_some_iff.mp hshows
    obtain ⟨s₁, hread, hview⟩ := read_shows hs hfull hdata
    refine ⟨s₁, hview, ?_⟩
    unfold contentRow
    simp only [bind, EStateM.bind, hread]
  | str v =>
    rw [hrecorded] at hshows
    cases hshows
    exact ⟨s, .refl hs, rfl⟩
  | bytes v =>
    rw [hrecorded] at hshows
    cases hshows
    exact ⟨s, .refl hs, rfl⟩
  | other text truth =>
    rw [hrecorded] at hshows
    cases hshows
    exact ⟨s, .refl hs, rfl⟩

/-- What shows nothing is not recorded. -/
theorem recorded_of_shows_none {full : Str} (h : s.shows full = none) :
    (s.updated_content.lookup full).getD .none = .none := by
  unfold State.shows at h
  cases hrecorded : (s.updated_content.lookup full).getD .none with
  | none => rfl
  | str v =>
    rw [hrecorded] at h
    cases h
  | bytes v =>
    rw [hrecorded] at h
    cases h
  | other text truth =>
    rw [hrecorded] at h
    cases h

section Viewed

variable {R : State → State → Prop} (hR : Viewing R)

include hR

theorem observes_getItems (quals : List Qual) : Observes R (t.getItems quals) := by
  unfold getItems
  simp only
  cases quals.find? fun q => t.filename_column = some q.field_name ∧ q.operator = ['='] with
  | none => exact Fs.observes_getItems hR _
  | some q =>
    apply observes_bind hR (observes_liftExcept hR _)
    intro item
    cases item with
    | none => exact observes_pure hR _
    | some item =>
      apply observes_bind hR (observes_liftExcept hR _)
      intro full
      apply observes_bind hR (observes_pathExists hR _)
      intro there
      cases there with
      | true => exact observes_pure hR _
      | false => exact observes_pure hR _

theorem observes_named (columns : List Str) (item : Item) (row : Row) :
    Observes R (named t columns item row) := by
  unfold named
  split_ifs
  · exact observes_bind hR (observes_liftExcept hR _) fun filename => observes_pure hR _
  · exact observes_pure hR _

theorem observes_contentRow (columns : List Str) {full : Str}
    (hfull : t.structured_directory.fullFilename item = .ok full) :
    Observes R (do
      let s ← get
      contentRow t columns item ((s.updated_content.lookup full).getD .none) :
      M (Option Row)) := by
  intro s s' h
  have halike := hR.alike _ _ h
  rw [get_bind, get_bind]
  cases hshows : s.shows full with
  | none =>
    have hshows' : s'.shows full = none := (halike.shows full).trans hshows
    rw [recorded_of_shows_none hshows, recorded_of_shows_none hshows']
    exact observes_bind hR (observes_read hR item) (fun data => observes_named hR _ _ _) s s' h
  | some content =>
    obtain ⟨s₁, hview, hrun⟩ := contentRow_shows halike.left columns hfull hshows
    obtain ⟨s₁', hview', hrun'⟩ := contentRow_shows halike.right columns hfull
      ((halike.shows full).trans hshows)
    have hleft := hR.still _ _ hview
    have hboth := hR.trans _ _ _ (hR.symm _ _ hleft) (hR.trans _ _ _ h (hR.still _ _ hview'))
    obtain ⟨hout, hfinal⟩ := observes_named hR columns item
      (withColumn t.content_column content item.row) s₁ s₁' hboth
    rw [hrun, hrun']
    exact ⟨hout, hR.trans _ _ _ hleft hfinal⟩

theorem observes_itemToDict (columns : List Str) (item : Item) :
    Observes R (t.itemToDict columns item) := by
  rw [itemToDict_eq]
  cases hfull : t.structured_directory.fullFilename item with
  | error e => exact fun s s' h => ⟨rfl, hR.self s s' h⟩
  | ok full =>
    apply Observes.look (fun s : State => s.invisible_files)
      (fun hidden => if full ∈ hidden then pure none
        else if t.content_column.any (· ∈ columns) then do
          let s ← get
          contentRow t columns item ((s.updated_content.lookup full).getD .none)
        else named t columns item item.row)
    · intro s s' h
      exact (hR.alike _ _ h).invisible.symm
    · intro hidden
      split_ifs
      · exact observes_pure hR _
      · exact observes_contentRow hR columns hfull
      · exact observes_named hR _ _ _

/-- States with the same tree and the same transaction show the same rows. -/
theorem observes_execute (quals : List Qual) (columns : List Str) :
    Observes R (t.execute quals columns) := by
  unfold execute
  apply observes_bind hR (observes_getItems hR quals)
  intro items
  apply observes_bind hR
  · exact Observes.mapM hR.symm hR.trans fun item _ => observes_itemToDict hR columns item
  · intro rows
    exact observes_pure hR _

end Viewed

end FilesystemFdw

end Multicorn.Fs
