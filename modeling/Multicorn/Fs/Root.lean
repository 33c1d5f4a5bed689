import Multicorn.Fs.Confined
import Multicorn.Fs.Filters
import Multicorn.Fs.Session

/-! The paths that the wrapper touches lie under the root directory of its table. -/
namespace Multicorn.Fs
open Multicorn.StateMonad Multicorn.Descent

variable {d : Directory} {item : Item}

/-- The file name of the item never leads above the root. -/
def ItemStays (d : Directory) (item : Item) : Prop :=
  ∀ filename, d.filename item = .ok filename → Stays (filename.splitOn '/')

def Operation.items : Operation → List Item
  | .insert item => [item]
  | .update olditem newitem => [olditem, newitem]
  | .delete item => [item]

/-- All touched paths lie under the root, and so do those of the operations to come. -/
structure Safe (d : Directory) (s : State) : Prop where
  confined : s.os.Confined d.root_dir
  log : ∀ op ∈ s.current_transaction_state, ∀ item ∈ op.items, ItemStays d item

theorem Safe.congr {s s' : State} (h : Safe d s) (hos : s'.os = s.os)
    (hlog : s'.current_transaction_state = s.current_transaction_state) : Safe d s' :=
  ⟨by rw [hos]; exact h.confined, by rw [hlog]; exact h.log⟩

theorem call_keeps {α : Type} {x : Call α} {Q : α → Prop}
    (h : Keeps (Os.Confined d.root_dir) x Q) : Keeps (Safe d) (call x) Q := by
  intro s hs
  obtain ⟨hos, hQ⟩ := h s.os hs.confined
  unfold call
  cases hrun : x s.os with
  | ok a os =>
    rw [hrun] at hos hQ
    exact ends_ok ⟨hos, hs.log⟩ (hQ a rfl)
  | error e os =>
    rw [hrun] at hos
    exact ends_error ⟨hos, hs.log⟩

theorem liftExcept_keeps {α : Type} {I : State → Prop} (x : Except Failure α) :
    Keeps I (liftExcept x) fun a => x = .ok a := by
  cases x with
  | ok a => exact Keeps.pure rfl
  | error e => exact Keeps.throw e

/-! Opening, reading and writing. -/

theorem makeParent_keeps {dir : Str} (hdir : Under d.root_dir dir) (hne : dir ≠ []) :
    Keeps (Safe d) (makeParent dir) fun _ => True := by
  refine Keeps.bind (call_keeps (pathExists_keeps hdir hne)) fun there hthere => ?_
  cases there with
  | true => exact Keeps.pure trivial
  | false =>
    refine Keeps.bind (call_keeps (umask_keeps 0)) fun mask _ => ?_
    refine Keeps.bind (call_keeps (makedirs_keeps hdir (hthere rfl))) fun _ _ => ?_
    exact (call_keeps (umask_keeps mask)).discard

section Items

variable (hroot : d.root_dir ≠ [])

include hroot

theorem full_under (h : ItemStays d item) {full : Str} (hfull : d.fullFilename item = .ok full) :
    Under d.root_dir full ∧ Under d.root_dir (dirname full) ∧ dirname full ≠ [] := by
  obtain ⟨filename, hname, rfl⟩ := FilesystemFdw.fullFilename_eq_ok.mp hfull
  have hslash := slash_not_mem_splitOn filename
  have hhead : ∀ part ∈ filename.splitOn '/', part.head? ≠ some '/' :=
    fun part hpart hc => hslash part hpart (List.mem_of_mem_head? hc)
  have hflat : ∀ parts : List Str, (∀ part ∈ parts, '/' ∉ part) →
      parts.flatMap (·.splitOn '/') = parts := by
    intro parts hparts
    induction parts with
    | nil => rfl
    | cons part parts ih =>
      rw [List.forall_mem_cons] at hparts
      rw [List.flatMap_cons, List.splitOn_eq_singleton hparts.1, ih hparts.2]
      rfl
  have hstays := h filename hname
  have hunder : Under d.root_dir (d.join (filename.splitOn '/')) := by
    apply under_pathJoin hroot hhead
    rw [hflat _ hslash]
    exact hstays
  refine ⟨hunder, ?_⟩
  obtain ⟨front, last, hparts⟩ : ∃ front last, filename.splitOn '/' = front ++ [last] := by
    rcases List.eq_nil_or_concat (filename.splitOn '/') with hnil | ⟨front, last, hconcat⟩
    · exact absurd hnil (List.splitOn_ne_nil _ _)
    · exact ⟨front, last, by rw [hconcat, List.concat_eq_append]⟩
  rw [hparts] at hslash hhead hstays ⊢
  have hfront : ∀ part ∈ front, '/' ∉ part :=
    fun part hpart => hslash part (List.mem_append_left _ hpart)
  have hlast : '/' ∉ last := hslash last (by simp)
  have hjoin : d.join (front ++ [last]) = joinOne (pathJoin d.root_dir front) last := by
    unfold Directory.join pathJoin
    rw [List.foldl_append]
    rfl
  have hfrontHead : ∀ part ∈ front, part.head? ≠ some '/' :=
    fun part hpart => hhead part (List.mem_append_left _ hpart)
  obtain ⟨-, -, hne⟩ := names_pathJoin hroot hfrontHead
  obtain ⟨hnames, hdir, hstart⟩ := dirname_joinOne hne hlast
  have hbelow : Under d.root_dir (pathJoin d.root_dir front) := by
    apply under_pathJoin hroot hfrontHead
    rw [hflat _ hfront]
    exact hstays.of_append
  rw [hjoin]
  exact ⟨hbelow.congr hnames hstart, hdir⟩

theorem reopen_keeps {full : Str} (h : ItemStays d item) (hfull : d.fullFilename item = .ok full)
    (fd : Option ℕ) (fail_if : Option FailIf) :
    Keeps (Safe d) (reopen full fd fail_if) fun _ => True := by
  obtain ⟨hunder, hdir, hne⟩ := full_under hroot h hfull
  have hclose : Keeps (Safe d) (closeOld fd) fun _ => True := by
    cases fd with
    | none => exact Keeps.pure trivial
    | some fd => exact call_keeps (osClose_keeps fd)
  refine Keeps.bind (makeParent_keeps hdir hne) fun _ _ => ?_
  refine Keeps.bind hclose fun _ _ => ?_
  refine Keeps.bind (call_keeps (umask_keeps 0)) fun mask _ => ?_
  refine Keeps.bind (call_keeps (osOpen_keeps hunder _)) fun _ _ => ?_
  refine Keeps.bind (call_keeps (umask_keeps mask)).discard fun _ _ => ?_
  exact Keeps.pure trivial

theorem openFd_keeps (h : ItemStays d item) (shared_lock : Bool) (fail_if : Option FailIf) :
    Keeps (Safe d) (item.openFd d shared_lock fail_if) fun _ => True := by
  refine Keeps.bind (liftExcept_keeps _) fun full hfull => ?_
  obtain ⟨hunder, -⟩ := full_under hroot h hfull
  have hset : ∀ entry, Keeps (Safe d) (setCache full entry) fun _ => True := fun entry =>
    Keeps.modify fun _ hs => hs.congr rfl rfl
  cases shared_lock with
  | true =>
    refine Keeps.bind Keeps.get fun s _ => ?_
    cases s.cache.lookup full with
    | some entry => exact Keeps.pure trivial
    | none =>
      refine Keeps.bind (call_keeps (osOpen_keeps hunder _)) fun fd _ => ?_
      refine Keeps.bind (call_keeps (flock_keeps fd)) fun _ _ => ?_
      exact Keeps.bind (hset _) fun _ _ => Keeps.pure trivial
  | false =>
    have hwritable : Keeps (Safe d) (writableFd full fail_if) fun _ => True := by
      refine Keeps.bind Keeps.get fun s _ => ?_
      cases s.cache.lookup full with
      | none => exact reopen_keeps hroot h hfull none fail_if
      | some entry =>
        refine Keeps.bind (call_keeps (isRdwr_keeps entry.1)) fun rdwr _ => ?_
        cases rdwr with
        | true => exact Keeps.pure trivial
        | false => exact reopen_keeps hroot h hfull (some entry.1) fail_if
    refine Keeps.bind hwritable fun fd _ => ?_
    refine Keeps.bind (call_keeps (flock_keeps fd)) fun _ _ => ?_
    exact Keeps.bind (hset _) fun _ _ => Keeps.pure trivial

theorem read_keeps (h : ItemStays d item) : Keeps (Safe d) (item.read d) fun _ => True :=
  Keeps.bind (openFd_keeps hroot h true _) fun fd _ => call_keeps (readStart_keeps fd)

theorem write_keeps (h : ItemStays d item) (fd : Option ℕ) :
    Keeps (Safe d) (item.write d fd) fun _ => True := by
  unfold Item.write
  cases fd
  case' some fd => refine Keeps.bind (Keeps.pure (Q := fun _ => True) trivial) fun fd _ => ?_
  case' none => refine Keeps.bind (openFd_keeps hroot h false none) fun fd _ => ?_
  all_goals
    refine Keeps.bind (call_keeps (ftruncate_keeps fd)) fun _ _ => ?_
    refine Keeps.bind Keeps.get fun s _ => ?_
    refine Keeps.bind (liftExcept_keeps _) fun data _ => ?_
    cases data with
    | none => exact Keeps.pure trivial
    | some data => exact call_keeps (writeStart_keeps fd data)

theorem unlinkFull_keeps (h : ItemStays d item) {full : Str}
    (hfull : d.fullFilename item = .ok full) : Keeps (Safe d) (call (unlink full)) fun _ => True :=
  call_keeps (unlink_keeps (full_under hroot h hfull).1)

theorem remove_keeps (h : ItemStays d item) : Keeps (Safe d) (item.remove d) fun _ => True :=
  Keeps.bind (liftExcept_keeps _) fun _ hfull => unlinkFull_keeps hroot h hfull

end Items

theorem clearCacheEntry_keeps (key : Str) : Keeps (Safe d) (clearCacheEntry key) fun _ => True := by
  refine Keeps.bind Keeps.get fun s _ => ?_
  cases s.cache.lookup key with
  | none => exact Keeps.throw _
  | some entry =>
    refine Keeps.bind (Keeps.modify fun _ hs => hs.congr rfl rfl) fun _ _ => ?_
    exact call_keeps (osClose_keeps entry.1)

theorem clearCache_keeps (only_shared : Bool) :
    Keeps (Safe d) (clearCache only_shared) fun _ => True := by
  refine Keeps.bind Keeps.get fun s _ => Keeps.forM fun entry _ => ?_
  split_ifs
  · exact clearCacheEntry_keeps _
  · exact Keeps.pure trivial

/-! The walk. -/

/-- The components that the names of a plan add, with `*` for a name that is looked up. -/
def planComps (parts : List (Part × Fixed)) : List Str :=
  parts.flatMap fun e => (e.2.1.map (·.splitOn '/')).getD [['*']]

/-- The whole names of the plan stay below the root, and so do the items made of the regular
files that the plan reads among the entries of the directories. -/
structure WalkStays (d : Directory) (os : Os) (parts : List (Part × Fixed)) : Prop where
  heads : ∀ e ∈ parts, ∀ name, e.2.1 = some name → name.head? ≠ some '/'
  below : Stays (planComps parts)
  files : ∀ names values item, Reads parts names values → Listed os d [] parts names →
    os.isfile (d.join names) = true → d.item values (.bytes []) = .ok item → ItemStays d item

/-- Safe, with the tree of a given system. -/
def SafeAt (d : Directory) (os : Os) (s : State) : Prop := Safe d s ∧ SameTree os s.os

theorem component_properName {c : Str} (h : ProperName c) : component c = .down := by
  unfold component
  rw [if_neg (by simp [h.1, h.2.1]), if_neg h.2.2.1]

theorem Stays.replace {a b : List Str} {x y : Str} (h : Stays (a ++ x :: b))
    (hxy : component x = component y) : Stays (a ++ y :: b) := by
  unfold Stays at h ⊢
  rw [depth_append] at h ⊢
  cases hdepth : depth component 0 a with
  | none =>
    rw [hdepth] at h
    cases h
  | some n =>
    rw [hdepth] at h
    simp only [Option.bind_some] at h ⊢
    rw [depth] at h ⊢
    rw [hxy] at h
    exact h

/-- A call that leaves the tree as it is. -/
theorem call_keepsAt {α : Type} {x : Call α} {Q : α → Prop} {os : Os}
    (h : Keeps (Os.Confined d.root_dir) x Q) (hsame : Moves SameTree x) :
    Keeps (SafeAt d os) (call x) Q := by
  have hmoves : Moves (fun a b : State => SameTree a.os b.os) (call x) := by
    intro s
    have hs := hsame s.os
    unfold call
    cases hrun : x s.os with
    | ok a os' =>
      rw [hrun] at hs
      exact hs
    | error e os' =>
      rw [hrun] at hs
      exact hs
  intro s hs
  exact Keeps.along (R := fun a b : State => SameTree a.os b.os) (fun _ _ _ => SameTree.trans _ _ _)
    (call_keeps h) hmoves { s with os } s hs

theorem pathIsfile_keepsAt {os : Os} {path : Str} (hpath : Under d.root_dir path) :
    Keeps (SafeAt d os) (call (pathIsfile path)) fun there => there = os.isfile path := by
  intro s hs
  rw [call_pathIsfile]
  refine ends_ok ⟨⟨hs.1.confined.touch hpath, hs.1.log⟩, hs.2⟩ ?_
  unfold Os.isfile
  rw [Os.stat_congr hs.2.node hs.2.2]

theorem listdir_keepsAt {os : Os} {path : Str} (hpath : Under d.root_dir path) :
    Keeps (SafeAt d os) (call (listdir path)) fun names => names = os.listing path := by
  intro s hs
  obtain ⟨hsafe, -⟩ := call_keepsAt (listdir_keeps hpath) (listdir_sameTree path) s hs
  refine ⟨hsafe, fun names hnames => ?_⟩
  obtain ⟨s', hrun⟩ := of_value? hnames
  obtain ⟨os', hlist, -⟩ := call_eq_ok.mp hrun
  rw [listdir_value hlist]
  exact hs.2.listing path

section Walk

variable (hroot : d.root_dir ≠ []) {os : Os}

include hroot

theorem findMatchingNames_keeps {previous : List Str} {part : Part} {fixed : Fixed}
    (hprevious : ∀ name ∈ previous, name.head? ≠ some '/')
    (hstays : Stays (previous.flatMap (·.splitOn '/'))) :
    Keeps (SafeAt d os) (findMatchingNames d previous part fixed) fun names =>
      ∀ p ∈ names, Named part fixed p.1 p.2 ∧
        (fixed.1 = none → p.1 ∈ os.listing (d.join previous)) := by
  unfold findMatchingNames
  cases htext : fixed.1 with
  | some text =>
    refine Keeps.pure fun p hp => ?_
    rw [List.mem_singleton.mp hp]
    refine ⟨?_, fun h => by cases h⟩
    unfold Named
    rw [htext]
    exact ⟨rfl, rfl⟩
  | none =>
    have hlist : Keeps (SafeAt d os) (call (listdir (d.join previous))) fun names =>
        ∀ name ∈ names, name ∈ os.listing (d.join previous) :=
      (listdir_keepsAt (under_pathJoin hroot hprevious hstays)).mono fun _ h _ hname => h ▸ hname
    refine Keeps.bind (Keeps.tryCatch hlist fun e => ?_) fun names hnames => Keeps.pure ?_
    · split_ifs
      · refine Keeps.pure fun name hname => ?_
        cases hname
      · exact Keeps.throw e
    · intro p hp
      obtain ⟨name, hname, hsome⟩ := List.mem_filterMap.mp hp
      cases hmatch : matchPart part name with
      | none => simp [hmatch] at hsome
      | some values =>
        simp only [hmatch] at hsome
        split_ifs at hsome with hall
        cases hsome
        refine ⟨?_, fun _ => hnames name hname⟩
        unfold Named
        rw [htext]
        exact ⟨hmatch, by simpa using hall⟩

/-- The walk touches paths under the root, and makes its items of regular files it reads. -/
theorem walk_keeps (ht : os.Tree) {parts : List (Part × Fixed)} {previous : List Str}
    {values : List (Str × Str)} (hprevious : ∀ name ∈ previous, name.head? ≠ some '/')
    (hheads : ∀ e ∈ parts, ∀ name, e.2.1 = some name → name.head? ≠ some '/')
    (hstays : Stays (previous.flatMap (·.splitOn '/') ++ planComps parts)) :
    Keeps (SafeAt d os) (walk d previous values parts) fun items => ∀ item ∈ items,
      ∃ names vals, Reads parts names vals ∧ Listed os d previous parts names ∧
        os.isfile (d.join (previous ++ names)) = true ∧
        d.item (values ++ vals) (.bytes []) = .ok item := by
  induction parts generalizing previous values with
  | nil =>
    refine Keeps.pure fun item hitem => ?_
    cases hitem
  | cons e rest ih =>
    obtain ⟨part, fixed⟩ := e
    rw [List.forall_mem_cons] at hheads
    unfold walk
    refine Keeps.bind (findMatchingNames_keeps hroot hprevious hstays.of_append) fun names hnames => ?_
    have hone : ∀ p ∈ names, Keeps (SafeAt d os) (do
        let path_parts := previous ++ [p.1]
        let values := values ++ p.2
        if rest = [] then
          if ← call (pathIsfile (d.join path_parts)) then
            return [← liftExcept (d.item values (.bytes []))]
          else return []
        else walk d path_parts values rest) fun items => ∀ item ∈ items,
          ∃ names vals, Reads ((part, fixed) :: rest) names vals ∧
            Listed os d previous ((part, fixed) :: rest) names ∧
            os.isfile (d.join (previous ++ names)) = true ∧
            d.item (values ++ vals) (.bytes []) = .ok item := by
      intro p hp
      obtain ⟨hnamed, hlisted⟩ := hnames p hp
      have hproper : fixed.1 = none → ProperName p.1 := fun h => proper_of_listing ht (hlisted h)
      have hhead : ∀ name ∈ previous ++ [p.1], name.head? ≠ some '/' := by
        intro name hname
        rcases List.mem_append.mp hname with hname | hname
        · exact hprevious name hname
        · rw [List.mem_singleton.mp hname]
          cases htext : fixed.1 with
          | none => exact (hproper htext).head_ne
          | some text =>
            unfold Named at hnamed
            rw [htext] at hnamed
            rw [hnamed.1]
            exact hheads.1 text htext
      have hnext : Stays ((previous ++ [p.1]).flatMap (·.splitOn '/') ++ planComps rest) := by
        unfold planComps at hstays ⊢
        rw [List.flatMap_cons] at hstays
        rw [List.flatMap_append, List.flatMap_cons, List.flatMap_nil, List.append_nil,
          List.append_assoc]
        cases htext : fixed.1 with
        | none =>
          rw [htext] at hstays
          rw [(hproper htext).splitOn]
          apply hstays.replace
          rw [component_properName (hproper htext)]
          rfl
        | some text =>
          unfold Named at hnamed
          rw [htext] at hnamed hstays
          rw [hnamed.1]
          exact hstays
      by_cases hrest : rest = []
      · subst hrest
        simp only [if_true]
        refine Keeps.bind (pathIsfile_keepsAt (under_pathJoin hroot hhead hnext.of_append))
          fun there hthere => ?_
        cases there with
        | false =>
          refine Keeps.pure fun item hitem => ?_
          cases hitem
        | true =>
          refine Keeps.bind (liftExcept_keeps _) fun item hitem => Keeps.pure fun item' hitem' => ?_
          rw [List.mem_singleton.mp hitem']
          have hreads := Reads.cons hnamed .nil
          rw [List.append_nil] at hreads
          exact ⟨[p.1], p.2, hreads, ⟨hlisted, trivial⟩, hthere.symm, hitem⟩
      · simp only [if_neg hrest]
        refine (ih hhead hheads.2 hnext).mono fun items hitems item hitem => ?_
        obtain ⟨names, vals, hreads, hbelow, hfile, hmake⟩ := hitems item hitem
        refine ⟨p.1 :: names, p.2 ++ vals, .cons hnamed hreads, ⟨hlisted, hbelow⟩, ?_, ?_⟩
        · simpa using hfile
        · simpa using hmake
    refine Keeps.bind (Keeps.mapM hone) fun itemss hall => Keeps.pure fun item hitem => ?_
    obtain ⟨items, hitems, hitem⟩ := List.mem_flatten.mp hitem
    obtain ⟨n, hn, rfl⟩ := List.mem_iff_getElem.mp hitems
    have hn' : n < names.length := hall.length_eq ▸ hn
    exact (List.forall₂_iff_get.mp hall).2 n hn' hn item hitem

theorem getItems_keeps (ht : os.Tree) {values : List (Str × Str)}
    (hstays : ∀ fixed, (((d.pattern.splitOn '/').zip d.parts).mapM fun (text, part) =>
      fixedPart values text part) = .ok fixed → WalkStays d os (d.parts.zip fixed)) :
    Keeps (SafeAt d os) (getItems d values) fun items => ∀ item ∈ items, ItemStays d item := by
  unfold getItems
  split_ifs
  · exact Keeps.throw _
  · refine Keeps.bind (liftExcept_keeps _) fun fixed hfixed => ?_
    have hplan := hstays fixed hfixed
    have hwalk := @walk_keeps d hroot os ht (d.parts.zip fixed) [] [] (by simp) hplan.heads
      hplan.below
    refine hwalk.mono fun items hitems item hitem => ?_
    obtain ⟨names, vals, hreads, hlisted, hfile, hmake⟩ := hitems item hitem
    exact hplan.files names vals item hreads hlisted hfile hmake
  · exact Keeps.throw _

end Walk

namespace FilesystemFdw

variable {t : FilesystemFdw}

/-- A scan looks at paths below the root only. -/
def ScanStays (t : FilesystemFdw) (os : Os) (quals : List Qual) : Prop :=
  let d := t.structured_directory
  match quals.find? fun q => t.filename_column = some q.field_name ∧ q.operator = ['='] with
  | some q => ∀ item, d.fromFilename q.value.pyStr = .ok (some item) → ItemStays d item
  | none =>
    let values := quals.filterMap fun q =>
      if q.operator = ['='] ∧ q.field_name ∈ d.properties then some (q.field_name, q.value.pyStr)
      else none
    ∀ fixed, (((d.pattern.splitOn '/').zip d.parts).mapM fun (text, part) =>
      fixedPart values.reverse text part) = .ok fixed → WalkStays d os (d.parts.zip fixed)

/-- The file names that the values of a call make stay below the root. -/
def StaysBelow (t : FilesystemFdw) (s : State) : Action → Prop
  | .insert values => ∀ item, t.itemFromDml values = .ok item →
      ItemStays t.structured_directory item
  | .update oldfilename newvalues => ∀ olditem, t.rowItem oldfilename = .ok olditem →
      ItemStays t.structured_directory olditem ∧
        ∀ values newitem, t.updateValues olditem oldfilename newvalues = .ok values →
          t.itemFromDml values = .ok newitem → ItemStays t.structured_directory newitem
  | .delete rowid => ∀ item, t.rowItem rowid = .ok item → ItemStays t.structured_directory item
  | .scan quals _ => t.ScanStays s.os quals
  | .endScan => True
  | .preCommit => True
  | .rollback => True

section

variable (hroot : t.structured_directory.root_dir ≠ [])

theorem logOperation_keeps {op : Operation}
    (h : ∀ item ∈ op.items, ItemStays t.structured_directory item) :
    Keeps (Safe t.structured_directory) (logOperation op) fun _ => True := by
  refine Keeps.modify fun s hs => ⟨hs.confined, fun op' hop => ?_⟩
  rcases List.mem_append.mp hop with hop | hop
  · exact hs.log op' hop
  · rw [List.mem_singleton.mp hop]
    exact h

theorem returnValue_keeps : Keeps (Safe t.structured_directory) (t.returnValue item)
    fun _ => True :=
  Keeps.bind (liftExcept_keeps _) fun _ _ => Keeps.pure trivial

theorem postXactCleanup_keeps : Keeps (Safe t.structured_directory) postXactCleanup
    fun _ => True := by
  refine Keeps.bind (Keeps.modify fun s hs => ⟨hs.confined, by simp⟩) fun _ _ => ?_
  refine Keeps.bind (clearCache_keeps false) fun _ _ => ?_
  exact Keeps.modify fun s hs => hs.congr rfl rfl

include hroot

theorem openNew_keeps (h : ItemStays t.structured_directory item) :
    Keeps (Safe t.structured_directory) (t.openNew item) fun _ => True := by
  refine Keeps.tryCatch (openFd_keeps hroot h false _).discard fun e => ?_
  split_ifs
  · exact Keeps.throw _
  · exact Keeps.throw _

theorem insert_keeps {values : Row} (h : ∀ item, t.itemFromDml values = .ok item →
    ItemStays t.structured_directory item) :
    Keeps (Safe t.structured_directory) (t.insert values) fun _ => True := by
  refine Keeps.bind (liftExcept_keeps _) fun item hitem => ?_
  have hstays := h item hitem
  refine Keeps.bind (openNew_keeps hroot hstays) fun _ _ => ?_
  refine Keeps.bind (liftExcept_keeps _) fun full _ => ?_
  refine Keeps.bind (Keeps.modify fun s hs => hs.congr rfl rfl) fun _ _ => ?_
  refine Keeps.bind (logOperation_keeps ?_) fun _ _ => returnValue_keeps
  simpa [Operation.items] using hstays

theorem oldItem_keeps {oldfilename : Str} (h : ∀ olditem, t.rowItem oldfilename = .ok olditem →
    ItemStays t.structured_directory olditem) :
    Keeps (Safe t.structured_directory) (t.oldItem oldfilename) fun olditem =>
      ∃ item content, t.rowItem oldfilename = .ok item ∧ olditem = { item with content } := by
  refine Keeps.bind (liftExcept_keeps _) fun olditem hitem => ?_
  refine Keeps.bind (liftExcept_keeps _) fun full _ => ?_
  refine Keeps.bind Keeps.get fun s _ => ?_
  simp only
  split_ifs
  · exact Keeps.pure ⟨olditem, _, hitem, rfl⟩
  · exact Keeps.bind (read_keeps hroot (h olditem hitem)) fun data _ =>
      Keeps.pure ⟨olditem, _, hitem, rfl⟩

theorem update_keeps {oldfilename : Str} {newvalues : Row} (h : ∀ olditem,
    t.rowItem oldfilename = .ok olditem → ItemStays t.structured_directory olditem ∧
      ∀ values newitem, t.updateValues olditem oldfilename newvalues = .ok values →
        t.itemFromDml values = .ok newitem → ItemStays t.structured_directory newitem) :
    Keeps (Safe t.structured_directory) (t.update oldfilename newvalues) fun _ => True := by
  refine Keeps.bind (oldItem_keeps hroot fun olditem hold => (h olditem hold).1) fun olditem hold => ?_
  obtain ⟨item, content, hitem, rfl⟩ := hold
  obtain ⟨hstays, hnew⟩ := h item hitem
  refine Keeps.bind (liftExcept_keeps _) fun values hvalues => ?_
  refine Keeps.bind (liftExcept_keeps _) fun newitem hnewitem => ?_
  have hnewStays := hnew values newitem hvalues hnewitem
  refine Keeps.bind (liftExcept_keeps _) fun new_full _ => ?_
  refine Keeps.bind (Keeps.modify fun s hs => hs.congr rfl rfl) fun _ _ => ?_
  refine Keeps.bind (openFd_keeps hroot hstays false _).discard fun _ _ => ?_
  refine Keeps.bind (liftExcept_keeps _) fun old_full _ => ?_
  have hlog : ∀ content', Keeps (Safe t.structured_directory) (do
      logOperation (.update { item with content } { newitem with content := content' })
      t.returnValue { newitem with content := content' }) fun _ => True := by
    intro content'
    refine Keeps.bind (logOperation_keeps ?_) fun _ _ => returnValue_keeps
    intro item' hitem'
    rcases List.mem_cons.mp hitem' with rfl | hitem'
    · exact hstays
    · rw [List.mem_singleton.mp hitem']
      exact hnewStays
  split_ifs
  · refine Keeps.bind (openNew_keeps hroot hnewStays) fun _ _ => ?_
    refine Keeps.bind (Keeps.modify fun s hs => hs.congr rfl rfl) fun _ _ => ?_
    exact hlog _
  · exact hlog _

theorem delete_keeps {rowid : Str} (h : ∀ item, t.rowItem rowid = .ok item →
    ItemStays t.structured_directory item) :
    Keeps (Safe t.structured_directory) (t.delete rowid) fun _ => True := by
  refine Keeps.bind (liftExcept_keeps _) fun item hitem => ?_
  have hstays := h item hitem
  refine Keeps.bind (openFd_keeps hroot hstays false _).discard fun _ _ => ?_
  refine Keeps.bind (liftExcept_keeps _) fun full _ => ?_
  refine Keeps.bind (Keeps.modify fun s hs => hs.congr rfl rfl) fun _ _ => ?_
  apply logOperation_keeps
  simpa [Operation.items] using hstays

theorem commitOperation_keeps {op : Operation}
    (h : ∀ item ∈ op.items, ItemStays t.structured_directory item) :
    Keeps (Safe t.structured_directory) (t.commitOperation op) fun _ => True := by
  cases op with
  | insert item => exact write_keeps hroot (h item (by simp [Operation.items])) none
  | update olditem newitem =>
    have hold := h olditem (by simp [Operation.items])
    have hnew := h newitem (by simp [Operation.items])
    refine Keeps.bind (liftExcept_keeps _) fun old_full hfull => ?_
    refine Keeps.bind (liftExcept_keeps _) fun new_full _ => ?_
    split_ifs
    · exact Keeps.bind (openFd_keeps hroot hold false none) fun fd _ =>
        write_keeps hroot hnew (some fd)
    · refine Keeps.bind (openFd_keeps hroot hnew false none) fun fd _ => ?_
      refine Keeps.bind (unlinkFull_keeps hroot hold hfull) fun _ _ => ?_
      refine Keeps.bind (clearCacheEntry_keeps old_full) fun _ _ => ?_
      exact write_keeps hroot hnew (some fd)
  | delete item =>
    refine Keeps.bind (remove_keeps hroot (h item (by simp [Operation.items]))) fun _ _ => ?_
    exact Keeps.bind (liftExcept_keeps _) fun full _ => clearCacheEntry_keeps full

theorem undoOperation_keeps {op : Operation}
    (h : ∀ item ∈ op.items, ItemStays t.structured_directory item) :
    Keeps (Safe t.structured_directory) (t.undoOperation op) fun _ => True := by
  cases op with
  | insert item => exact remove_keeps hroot (h item (by simp [Operation.items]))
  | update olditem newitem =>
    have hold := h olditem (by simp [Operation.items])
    have hnew := h newitem (by simp [Operation.items])
    refine Keeps.bind (liftExcept_keeps _) fun old_full _ => ?_
    refine Keeps.bind (liftExcept_keeps _) fun new_full hfull => ?_
    split_ifs
    · exact Keeps.bind (unlinkFull_keeps hroot hnew hfull) fun _ _ => write_keeps hroot hold none
    · exact write_keeps hroot hold none
  | delete item => exact Keeps.pure trivial

theorem preCommit_keeps :
    Keeps (Safe t.structured_directory) t.preCommit fun _ => True := by
  refine Keeps.bind Keeps.get fun s hs => ?_
  refine Keeps.bind (Keeps.forM fun op hop => ?_) fun _ _ => postXactCleanup_keeps
  exact commitOperation_keeps hroot (hs.log op hop)

theorem rollback_keeps :
    Keeps (Safe t.structured_directory) t.rollback fun _ => True := by
  refine Keeps.bind Keeps.get fun s hs => ?_
  refine Keeps.bind (Keeps.forM fun op hop => ?_) fun _ _ => postXactCleanup_keeps
  exact undoOperation_keeps hroot (hs.log op (List.mem_reverse.mp hop))

theorem itemToDict_keeps (h : ItemStays t.structured_directory item) (columns : List Str) :
    Keeps (Safe t.structured_directory) (t.itemToDict columns item) fun _ => True := by
  have hnamed : ∀ row, Keeps (Safe t.structured_directory) (t.named columns item row)
      fun _ => True := by
    intro row
    unfold named
    split_ifs
    · exact Keeps.bind (liftExcept_keeps _) fun _ _ => Keeps.pure trivial
    · exact Keeps.pure trivial
  rw [itemToDict_eq]
  refine Keeps.bind (liftExcept_keeps _) fun full _ => ?_
  refine Keeps.bind Keeps.get fun s _ => ?_
  split_ifs
  · exact Keeps.pure trivial
  · refine Keeps.bind Keeps.get fun s' _ => ?_
    cases (s'.updated_content.lookup full).getD .none with
    | none => exact Keeps.bind (read_keeps hroot h) fun data _ => hnamed _
    | str v => exact hnamed _
    | bytes v => exact hnamed _
    | other text truth => exact hnamed _
  · exact hnamed _

theorem getItems_keeps {os : Os} (ht : os.Tree) {quals : List Qual} (h : t.ScanStays os quals) :
    Keeps (SafeAt t.structured_directory os) (t.getItems quals) fun items =>
      ∀ item ∈ items, ItemStays t.structured_directory item := by
  unfold ScanStays at h
  unfold getItems
  simp only at h ⊢
  cases hfind : quals.find? fun q => t.filename_column = some q.field_name ∧ q.operator = ['='] with
  | none =>
    rw [hfind] at h
    exact Fs.getItems_keeps hroot ht h
  | some q =>
    rw [hfind] at h
    refine Keeps.bind (liftExcept_keeps _) fun found hfound => ?_
    cases found with
    | none =>
      refine Keeps.pure fun item hitem => ?_
      cases hitem
    | some item =>
      have hstays := h item hfound
      refine Keeps.bind (liftExcept_keeps _) fun full hfull => ?_
      have hunder := (full_under hroot hstays hfull).1
      have hlook : Keeps (SafeAt t.structured_directory os) (call (pathExists full))
          fun _ => True := by
        intro s hs
        rw [call_pathExists]
        exact ends_ok ⟨⟨hs.1.confined.touch hunder, hs.1.log⟩, hs.2⟩ trivial
      refine Keeps.bind hlook fun there _ => ?_
      cases there with
      | true =>
        refine Keeps.pure fun item' hitem' => ?_
        rw [List.mem_singleton.mp hitem']
        exact hstays
      | false =>
        refine Keeps.pure fun item' hitem' => ?_
        cases hitem'

theorem execute_ends {s : State} (hs : Safe t.structured_directory s) {quals : List Qual}
    (h : t.ScanStays s.os quals) (columns : List Str) :
    Ends (Safe t.structured_directory) (fun _ => True) (t.execute quals columns s) := by
  have hitems := getItems_keeps hroot hs.confined.tree h s ⟨hs, .refl _⟩
  refine Ends.bind hitems (fun _ hs' => hs'.1) fun items hitems => ?_
  refine Keeps.bind (Keeps.mapM (Q := fun _ _ => True) fun item hitem => ?_) fun _ _ =>
    Keeps.pure trivial
  exact itemToDict_keeps hroot (hitems item hitem) columns

/-- One call that meets the condition touches nothing outside the root. -/
theorem after_safe {s : State} {a : Action} (hs : Safe t.structured_directory s)
    (h : t.StaysBelow s a) : Safe t.structured_directory (t.after s a) := by
  unfold after perform
  cases a with
  | insert values => exact ((insert_keeps hroot h).discard s hs).1
  | update oldfilename newvalues => exact ((update_keeps hroot h).discard s hs).1
  | delete rowid => exact (delete_keeps hroot h s hs).1
  | scan quals columns => exact (execute_ends hroot hs h columns).discard.1
  | endScan => exact (clearCache_keeps true s hs).1
  | preCommit => exact (preCommit_keeps hroot s hs).1
  | rollback => exact (rollback_keeps hroot s hs).1

end

/-- Calls whose values make no file name that leads above the root directory touch nothing
outside it. -/
theorem touched_inside {s : State} (htree : s.os.Tree)
    (hroot : s.os.stat t.structured_directory.root_dir = some .dir)
    (hlog : s.current_transaction_state = []) (hfresh : s.os.touched = [])
    {actions : List Action} (h : t.Along t.StaysBelow s actions) :
    ∀ path ∈ (t.run s actions).os.touched,
      Inside s.os.process.cwd t.structured_directory.root_dir path := by
  have hne : t.structured_directory.root_dir ≠ [] := by
    intro hnil
    rw [hnil] at hroot
    cases hroot
  have hstart : Safe t.structured_directory s :=
    ⟨⟨htree, hroot, by simp [hfresh]⟩, by simp [hlog]⟩
  have hsafe := run_invariant (fun _ _ hs hstep => after_safe hne hs hstep) hstart h
  exact fun path hpath => (hsafe.confined.touched path hpath).inside s.os.process.cwd

end FilesystemFdw

section Sample

/-- The files of `nested` with their contents in `c` and their names in `f`. -/
def nestedTable : FilesystemFdw where
  structured_directory := nested
  content_column := some ['c']
  filename_column := some ['f']

def nestedRow (a b : Str) : Row := ((∅ : Row).insert ['a'] (.str a)).insert ['b'] (.str b)

/-- A row with the directory `..` is written beside the root directory, and a scan for a directory
that begins with a slash lists it wherever it is. -/
theorem parentDirectory_touched :
    (∃ path ∈ (nestedTable.run (sampleState [] fun _ => [])
      [.insert (nestedRow ['.', '.'] ['x'])]).os.touched, ¬ Inside [] nested.root_dir path) ∧
    ∃ path ∈ (nestedTable.run (sampleState [] fun _ => [])
      [.scan [⟨['a'], ['='], .str ['/', 'x']⟩] []]).os.touched, ¬ Inside [] nested.root_dir path := by
  decide +kernel

theorem plainDirectory_inside : ((nestedTable.run (sampleState [] fun _ => [])
    [.insert (nestedRow ['x'] ['y']), .scan [⟨['a'], ['='], .str ['x']⟩, ⟨['b'], ['='], .str ['y']⟩]
      [['c']], .preCommit]).os.touched.all fun path => Inside [] nested.root_dir path) = true := by
  have ht : (sampleState [] fun _ => []).os.Tree := by
    apply Os.Tree.of_keys
    intro q hq c hc
    have hmem : q ∈ [[['r']]] := hq
    obtain rfl := List.mem_singleton.mp hmem
    obtain rfl := Option.some.inj hc
    exact ⟨rfl, by decide⟩
  have hname : ∀ content, nested.filename ⟨[(['a'], ['x']), (['b'], ['y'])], content⟩ =
      .ok ['x', '/', 'y'] := by
    intro content
    have hformat : nested.filename ⟨[(['a'], ['x']), (['b'], ['y'])], .none⟩ =
        .ok ['x', '/', 'y'] := by decide +kernel
    exact hformat
  rw [List.all_eq_true]
  intro path hpath
  rw [decide_eq_true_eq]
  refine FilesystemFdw.touched_inside ht rfl rfl rfl ?_ path hpath
  refine ⟨?_, ?_, trivial, trivial⟩
  · intro item hitem filename hfilename
    have hmade : nestedTable.itemFromDml (nestedRow ['x'] ['y']) =
        .ok ⟨[(['a'], ['x']), (['b'], ['y'])], .none⟩ := by decide +kernel
    rw [hmade] at hitem
    obtain rfl := Except.ok.inj hitem
    obtain rfl := Except.ok.inj ((hname _).symm.trans hfilename)
    decide
  · rintro fixed hfixed
    obtain rfl : [(some ['x'], [(['a'], ['x'])]), (some ['y'], [(['b'], ['y'])])] = fixed :=
      Except.ok.inj hfixed
    refine ⟨by decide, by decide, ?_⟩
    intro names values item hreads _ _ hitem filename hfilename
    cases hreads with
    | cons hfirst hrest =>
      cases hrest with
      | cons hsecond hnil =>
        cases hnil
        obtain ⟨rfl, rfl⟩ := hfirst
        obtain ⟨rfl, rfl⟩ := hsecond
        cases hitem
        obtain rfl := Except.ok.inj ((hname _).symm.trans hfilename)
        decide

end Sample

end Multicorn.Fs
