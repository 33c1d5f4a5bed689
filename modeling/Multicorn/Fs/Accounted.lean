import Multicorn.Fs.Paths
import Multicorn.Fs.Replay

/-! In the course of a transaction the log accounts for every file that is new and for every
content that a commit is to write. -/
namespace Multicorn.Fs
open Multicorn.StateMonad Multicorn.HandleLog

variable {s s' start : State} {t : FilesystemFdw} {d : Directory}
  {plans : List (List HandleUndo)} {k : Str} {p : Path}

theorem Locked.dirname_ne (h : Locked s k p) : dirname k ≠ [] := by
  intro hnil
  have hparent := h.parent
  rw [hnil] at hparent
  cases hparent

theorem locked_of_held (hs : Sound s) {i : ℕ} (hi : Held s k i) (hp : s.os.resolve k = .ok p)
    (hne : dirname k ≠ []) : Locked s k p ∧ s.os.file p = some i := by
  obtain ⟨q, hq, hnode⟩ := hi.node hs
  have hqp : q = p := Except.ok.inj (hq.symm.trans hp)
  rw [hqp] at hnode
  have hfile := Os.file_eq_some.mpr hnode
  exact ⟨⟨hp, ⟨i, hi, hfile⟩, stat_dirname hp hne⟩, hfile⟩

/-- Locked keys stay locked. -/
structure Retains (s s' : State) : Prop where
  carries : Carries s s'
  file : ∀ p i, s.os.file p = some i → s'.os.file p = some i

theorem Retains.trans {a b c : State} (h : Retains a b) (h' : Retains b c) : Retains a c :=
  ⟨h.carries.trans h'.carries, fun p i hp => h'.file p i (h.file p i hp)⟩

theorem Retains.congr (hos : s'.os = s.os) (hcache : s'.cache = s.cache) : Retains s s' := by
  refine ⟨.congr hos hcache, fun p i hp => ?_⟩
  rw [hos]
  exact hp

theorem SameView.retains (h : SameView s s') : Retains s s' :=
  ⟨h.carries, fun p _ hp => (Os.file_of_node h.node p).trans hp⟩

theorem Opens.retains {fail_if : Option FailIf} {fd i : ℕ} (h : Opens s s' k fail_if fd p i) :
    Retains s s' := by
  refine ⟨h.carries, fun q j hq => ?_⟩
  rw [Os.file_eq_some] at hq ⊢
  exact h.grows.kept q _ hq

theorem Locked.retains (h : Locked s k p) (hk : Retains s s') : Locked s' k p := by
  obtain ⟨i, hi, hfile⟩ := h.held
  have hp := hk.carries.resolve k p h.path
  exact ⟨hp, ⟨i, hk.carries.held k i hi, hk.file p i hfile⟩, stat_dirname hp h.dirname_ne⟩

theorem Reverts.retains {op : Operation} {plan : List HandleUndo} (h : Reverts d s op plan)
    (hk : Retains s s') : Reverts d s' op plan := by
  cases h with
  | insert hkey hp => exact .insert hkey (hp.retains hk)
  | content hk₀ hkey hp hcontent =>
    rw [← hk.carries.process] at hcontent ⊢
    exact .content hk₀ hkey (hp.retains hk) hcontent
  | rename hk₀ hkey hne hp₀ hp hcontent =>
    rw [← hk.carries.process] at hcontent ⊢
    exact .rename hk₀ hkey hne (hp₀.retains hk) (hp.retains hk) hcontent
  | delete hkey hp => exact .delete hkey (hp.retains hk)

/-- The files of the start are there with their contents, and every other file is new, with a
name of its own that the list takes out again. -/
structure Files (start s : State) (undos : List HandleUndo) : Prop where
  sound : Sound s
  inodes : ∀ p i, s.os.file p = some i → i < s.os.nextInode
  kept : ∀ p i, start.os.file p = some i → s.os.file p = some i ∧
    s.os.content i = start.os.content i
  made : ∀ p, start.os.file p = none → s.os.file p = none ∨ .remove p ∈ undos
  there : ∀ p, .remove p ∈ undos → s.os.file p ≠ none
  shared : ∀ p q i, s.os.file p = some i → s.os.file q = some i → p ≠ q →
    start.os.file p = some i ∧ start.os.file q = some i
  placed : Placed start.volume.data undos
  parents : ∀ k i, Held s k i → dirname k ≠ []

section Steps

variable {undos : List HandleUndo}

/-- No file is new. -/
theorem Files.still (h : Files start s undos) (hs : Sound s')
    (hfile : ∀ p, s'.os.file p = s.os.file p) (hnext : s.os.nextInode ≤ s'.os.nextInode)
    (hcontent : ∀ i < s.os.nextInode, s'.os.content i = s.os.content i)
    (hheld : ∀ k i, Held s' k i → (∃ j, Held s k j) ∨ dirname k ≠ []) :
    Files start s' undos where
  sound := hs
  inodes p i hp := by
    rw [hfile] at hp
    exact Nat.lt_of_lt_of_le (h.inodes p i hp) hnext
  kept p i hp := by
    obtain ⟨hold, hdata⟩ := h.kept p i hp
    exact ⟨(hfile p).trans hold, (hcontent i (h.inodes p i hold)).trans hdata⟩
  made p hp := by
    rw [hfile]
    exact h.made p hp
  there p hp := by
    rw [hfile]
    exact h.there p hp
  shared p q i hp hq hne := by
    rw [hfile] at hp hq
    exact h.shared p q i hp hq hne
  placed := h.placed
  parents k i hi := by
    rcases hheld k i hi with ⟨j, hj⟩ | hne
    · exact h.parents k j hj
    · exact hne

theorem Files.congr (h : Files start s undos) (hos : s'.os = s.os) (hcache : s'.cache = s.cache) :
    Files start s' undos := by
  apply h.still (h.sound.congr hos hcache)
  · intro p
    rw [hos]
  · rw [hos]
  · intro i _
    rw [hos]
  · intro k i hi
    exact .inl ⟨i, hi.congr hos.symm hcache.symm⟩

theorem Files.view (h : Files start s undos) (hview : SameView s s') : Files start s' undos := by
  apply h.still hview.right (Os.file_of_node hview.node) (Nat.le_of_eq hview.nextInode.symm)
  · intro i _
    rw [hview.content]
  · intro k i hi
    exact .inl ⟨i, (hview.held k i).mp hi⟩

theorem Opens.parents {fail_if : Option FailIf} {fd i : ℕ} (hopens : Opens s s' k fail_if fd p i)
    {k' : Str} {j : ℕ} (hj : Held s' k' j) : (∃ j, Held s k' j) ∨ dirname k' ≠ [] := by
  by_cases hk' : k' = k
  · subst hk'
    by_cases hnil : dirname k' = []
    · exact .inl (hopens.parent hnil)
    · exact .inr hnil
  · obtain ⟨n, hentry, hn⟩ := hj
    rw [hopens.lookup, if_neg hk'] at hentry
    obtain ⟨-, hsame⟩ := hopens.others k' _ hk' hentry
    exact .inl ⟨j, n, hentry, hsame.symm.trans hn⟩

theorem Files.opens_there (h : Files start s undos) {fd i : ℕ}
    (hopens : Opens s s' k (some .missing) fd p i) : Files start s' undos :=
  h.still (hopens.sound h.sound) hopens.there.2 hopens.grows.nextInode hopens.grows.content
    fun _ _ hj => hopens.parents hj

theorem Files.locked (h : Files start s undos) {fail_if : Option FailIf} {fd i : ℕ}
    (hopens : Opens s s' k fail_if fd p i) : Locked s' k p := by
  apply (locked_of_held (hopens.sound h.sound) hopens.held_self hopens.path _).1
  rcases hopens.parents hopens.held_self with ⟨j, hj⟩ | hne
  · exact h.parents k j hj
  · exact hne

theorem Files.start_free (h : Files start s undos) (hp : s.os.file p = none) :
    start.os.file p = none := by
  cases hstart : start.os.file p with
  | none => rfl
  | some i =>
    rw [(h.kept p i hstart).1] at hp
    cases hp

/-- The list does not touch a path where there is nothing. -/
theorem Files.untouched (h : Files start s undos) (hp : s.os.file p = none) :
    ∀ u ∈ undos, u.path ≠ p := by
  intro u hu heq
  cases u with
  | remove q =>
    have hqp : q = p := heq
    rw [hqp] at hu
    exact h.there p hu hp
  | restore k q d =>
    have hqp : q = p := heq
    rw [hqp] at hu
    exact h.there p (h.placed.made ⟨d, hu⟩ (Volume.data_eq_none.mpr (h.start_free hp))) hp

/-- A new file, which the list is to take out again. -/
theorem Files.new (h : Files start s undos) {fd i : ℕ}
    (hopens : Opens s s' k (some .exists) fd p i) (hk : ∀ j, ¬ Held s k j) :
    Files start s' (.remove p :: undos) ∧ start.os.file p = none := by
  obtain ⟨hnone, hi, -, hnext, hfiles⟩ := hopens.new hk
  have hfree : s.os.file p = none := by
    unfold Os.file
    rw [hnone]
  have hstart := h.start_free hfree
  have hself : s'.os.file p = some i := (hfiles p).trans (if_pos rfl)
  have hother : ∀ q, q ≠ p → s'.os.file q = s.os.file q := fun q hq => (hfiles q).trans (if_neg hq)
  have hthere : ∀ q j, s.os.file q = some j → s'.os.file q = some j := by
    intro q j hq
    by_cases hqp : q = p
    · rw [hqp, hfree] at hq
      cases hq
    · exact (hother q hqp).trans hq
  have hold : ∀ q j, s'.os.file q = some j → q = p ∧ j = i ∨ q ≠ p ∧ s.os.file q = some j := by
    intro q j hq
    by_cases hqp : q = p
    · rw [hqp, hself] at hq
      cases hq
      exact .inl ⟨hqp, rfl⟩
    · exact .inr ⟨hqp, (hother q hqp).symm.trans hq⟩
  refine ⟨⟨hopens.sound h.sound, fun q j hq => ?_, fun q j hq => ?_, fun q hq => ?_, fun q hq => ?_,
    fun q q' j hq hq' hne => ?_, ?_, fun k' j hj => ?_⟩, hstart⟩
  · obtain ⟨-, rfl⟩ | ⟨-, hq⟩ := hold q j hq
    · omega
    · have hlt := h.inodes q j hq
      omega
  · obtain ⟨hq', hdata⟩ := h.kept q j hq
    exact ⟨hthere q j hq', (hopens.grows.content j (h.inodes q j hq')).trans hdata⟩
  · by_cases hqp : q = p
    · right
      rw [hqp]
      exact List.mem_cons_self ..
    · rw [hother q hqp]
      exact (h.made q hq).imp_right (List.mem_cons_of_mem _)
  · rcases List.mem_cons.mp hq with heq | hq
    · cases heq
      rw [hself]
      simp
    · intro hnone'
      obtain ⟨j, hj⟩ := Option.ne_none_iff_exists'.mp (h.there q hq)
      rw [hthere q j hj] at hnone'
      cases hnone'
  · obtain ⟨rfl, rfl⟩ | ⟨hqp, hq⟩ := hold q j hq
    · obtain ⟨rfl, -⟩ | ⟨-, hq'⟩ := hold q' j hq'
      · exact absurd rfl hne
      · have hlt := h.inodes q' j hq'
        omega
    · obtain ⟨-, rfl⟩ | ⟨-, hq'⟩ := hold q' j hq'
      · have hlt := h.inodes q j hq
        omega
      · exact h.shared q q' j hq hq' hne
  · exact .remove (Volume.data_eq_none.mpr hstart) (h.untouched hfree) h.placed
  · rcases hopens.parents hj with ⟨j', hj'⟩ | hne
    · exact h.parents k' j' hj'
    · exact hne

/-- What is written back is the content at the start, or something written back later is. -/
theorem Files.restore (h : Files start s undos) (hk : Locked s k p) {data : Bytes}
    (hdata : ∀ i, start.os.file p = some i → data = start.os.content i ∨ Restores undos k p) :
    Files start s (.restore k p data :: undos) where
  sound := h.sound
  inodes := h.inodes
  kept := h.kept
  made q hq := (h.made q hq).imp_right (List.mem_cons_of_mem _)
  there q hq := by
    rcases List.mem_cons.mp hq with heq | hq
    · cases heq
    · exact h.there q hq
  shared := h.shared
  placed := by
    apply Placed.restore _ _ h.placed
    · intro c hc
      obtain ⟨i, hi, rfl⟩ := Option.map_eq_some_iff.mp hc
      exact hdata i hi
    · intro hnone
      rcases h.made p (Volume.data_eq_none.mp hnone) with hgone | hremove
      · obtain ⟨i, -, hfile⟩ := hk.held
        rw [hgone] at hfile
        cases hfile
      · exact hremove
  parents := h.parents

end Steps

/-- The log undoes what is new, and a content that is recorded for a path is that of a new file
or of one that the log writes back. -/
structure Accounted (d : Directory) (start s : State) (plans : List (List HandleUndo)) :
    Prop where
  files : Files start s plans.flatten
  log : List.Forall₂ (Reverts d s) s.current_transaction_state.reverse plans
  recorded : ∀ k c, s.updated_content.lookup k = some c → ∃ p, Locked s k p ∧
    (start.os.file p = none ∨ Restores plans.flatten k p)

theorem Fresh.accounted (h : Fresh s) : Accounted d s s [] where
  files := by
    refine ⟨h.sound, h.inodes, fun p i hp => ⟨hp, rfl⟩, fun p hp => .inl hp, fun p hp => ?_,
      fun p q i hp hq _ => ⟨hp, hq⟩, .nil, fun k i hi => ?_⟩
    · cases hp
    · obtain ⟨fd, hentry, -⟩ := hi
      rw [h.cache] at hentry
      cases hentry
  log := by
    rw [h.log]
    exact .nil
  recorded k c hk := by
    rw [h.updated] at hk
    cases hk

section Calls

theorem Accounted.view (h : Accounted d start s plans) (hview : SameView s s') :
    Accounted d start s' plans where
  files := h.files.view hview
  log := by
    rw [hview.log]
    exact h.log.imp fun _ _ hop => hop.retains hview.retains
  recorded k c hk := by
    rw [hview.updated] at hk
    obtain ⟨p, hp, hcase⟩ := h.recorded k c hk
    exact ⟨p, hp.retains hview.retains, hcase⟩

/-- An operation is logged together with what undoes it. -/
theorem Accounted.push (h : Accounted d start s plans) {o : Operation} {plan : List HandleUndo}
    (hfiles : Files start s' (plan ++ plans.flatten)) (hretains : Retains s s')
    (hop : Reverts d s' o plan)
    (hlog : s'.current_transaction_state = s.current_transaction_state ++ [o])
    (hrecorded : ∀ k c, s'.updated_content.lookup k = some c →
      (∃ p, Locked s' k p ∧ (start.os.file p = none ∨ Restores (plan ++ plans.flatten) k p)) ∨
        s.updated_content.lookup k = some c) : Accounted d start s' (plan :: plans) where
  files := hfiles
  log := by
    rw [hlog, List.reverse_append, List.reverse_singleton, List.singleton_append]
    exact .cons hop (h.log.imp fun _ _ hop => hop.retains hretains)
  recorded k c hk := by
    rw [List.flatten_cons]
    rcases hrecorded k c hk with hnew | hold
    · exact hnew
    · obtain ⟨p, hp, hcase⟩ := h.recorded k c hold
      refine ⟨p, hp.retains hretains, hcase.imp_right fun hr => ?_⟩
      obtain ⟨data, hdata⟩ := hr
      exact ⟨data, List.mem_append_right _ hdata⟩

theorem Accounted.insert (h : Accounted t.structured_directory start s plans) {values row : Row}
    (htarget : ∀ k, t.target (.insert values) = .ok (some k) → s.os.exists? k = false)
    (hrun : t.insert values s = .ok row s') :
    ∃ plans', Accounted t.structured_directory start s' plans' := by
  obtain ⟨item, k, fd, p, i, s₁, hitem, hk, hopens, rfl⟩ :=
    FilesystemFdw.insert_ok h.files.sound.coherent h.files.sound.faults hrun
  have hfree : s.os.exists? k = false := by
    apply htarget
    unfold FilesystemFdw.target
    simp only [hitem, hk, bind, Except.bind, pure, Except.pure]
  obtain ⟨hfiles, hstart⟩ := h.files.new hopens (not_held_of_free h.files.sound hfree)
  let s₂ := FilesystemFdw.inserted s₁ k item
  have hretains : Retains s₁ s₂ := .congr rfl rfl
  have hlocked : Locked s₂ k p := (h.files.locked hopens).retains hretains
  refine ⟨[.remove p] :: plans, h.push (o := .insert item) (hfiles.congr rfl rfl)
    (hopens.retains.trans hretains) (.insert hk hlocked) ?_ fun k' c hc => ?_⟩
  · change s₁.current_transaction_state ++ [.insert item] = _
    rw [hopens.log]
  · change (s₁.updated_content.insert k item.content).lookup k' = some c at hc
    by_cases hk' : k' = k
    · subst hk'
      exact .inl ⟨p, hlocked, .inl hstart⟩
    · rw [AList.lookup_insert_ne hk', hopens.updated] at hc
      exact .inr hc

theorem Accounted.delete (h : Accounted t.structured_directory start s plans) {rowid : Str}
    {u : Unit} (hrun : t.delete rowid s = .ok u s') :
    ∃ plans', Accounted t.structured_directory start s' plans' := by
  obtain ⟨item, k, fd, p, i, s₁, -, hk, hopens, rfl⟩ :=
    FilesystemFdw.delete_ok h.files.sound.coherent h.files.sound.faults hrun
  let s₂ := FilesystemFdw.deleted s₁ k item
  have hretains : Retains s₁ s₂ := .congr rfl rfl
  have hlocked : Locked s₂ k p := (h.files.locked hopens).retains hretains
  refine ⟨[] :: plans, h.push (o := .delete item) ((h.files.opens_there hopens).congr rfl rfl)
    (hopens.retains.trans hretains) (.delete hk hlocked) ?_ fun k' c hc => ?_⟩
  · change s₁.current_transaction_state ++ [.delete item] = _
    rw [hopens.log]
  · right
    rw [← hopens.updated]
    exact hc

/-- What an update would write back is the content of the start, or the log writes to the file
once more. -/
theorem Accounted.oldContent (h : Accounted t.structured_directory start s plans)
    {oldfilename : Str} {newvalues : Row} {olditem : Item} {r s₁ s₂ : State} {fd i : ℕ}
    (hsource : ∀ k v, t.source (.update oldfilename newvalues) = .ok (some k) →
      s.updated_content.lookup k = some v → v.truthy = true → v.Writable s.os.process)
    (hold : t.oldItem oldfilename s = .ok olditem s₁)
    (hk : t.structured_directory.fullFilename olditem = .ok k) (hr : r.os = s₁.os)
    (hretains : Retains s s₂) (hopens : Opens r s₂ k (some .missing) fd p i)
    (hfiles : Files start r plans.flatten) : olditem.content.Writable s.os.process ∧
      ∀ i, start.os.file p = some i →
        olditem.content.toBytes s.os.process = start.os.content i ∨
          Restores plans.flatten k p := by
  have hview := FilesystemFdw.oldItem_sameView h.files.sound hold
  obtain ⟨hwritable, hcontent⟩ := Fs.oldContent h.files.sound hsource hold hk
  refine ⟨hwritable, fun j hj => ?_⟩
  rcases hcontent with ⟨c, hc⟩ | hdata
  · obtain ⟨q, hq, hcase⟩ := h.recorded k c hc
    have hqp : q = p := Except.ok.inj ((hretains.carries.resolve k q hq.path).symm.trans hopens.path)
    rw [hqp] at hcase
    rcases hcase with hnone | hrestores
    · rw [hj] at hnone
      cases hnone
    · exact .inr hrestores
  · left
    have hdata' : r.os.fileContent k = some (olditem.content.toBytes s.os.process) := by
      unfold Os.fileContent at hdata ⊢
      rw [hr, hview.stat, hview.content]
      exact hdata
    obtain ⟨hfile, hsame⟩ := hfiles.kept p j hj
    have hij : i = j := by
      have hthere := Os.file_eq_some.mpr hopens.there.1
      rw [hfile] at hthere
      cases hthere
      rfl
    rw [fileContent_of_opens hopens hdata', hij]
    exact hsame

theorem Accounted.update (h : Accounted t.structured_directory start s plans) {oldfilename : Str}
    {newvalues row : Row} (hundoable : t.Undoable s (.update oldfilename newvalues))
    (hrun : t.update oldfilename newvalues s = .ok row s') :
    ∃ plans', Accounted t.structured_directory start s' plans' := by
  obtain ⟨olditem, newitem, k₀, k, s₁, hold, hnew, hk₀, hk, hswitch⟩ :=
    FilesystemFdw.update_ok h.files.sound.coherent h.files.sound.faults hrun
  have hview := FilesystemFdw.oldItem_sameView h.files.sound hold
  have h₁ := h.view hview
  let r := FilesystemFdw.recorded s₁ k newitem.content
  have hr : Files start r plans.flatten := h₁.files.congr rfl rfl
  have hretains : Retains s₁ r := .congr rfl rfl
  cases hswitch with
  | @stay s₂ fd i p heq hopens =>
    subst heq
    have hretains₂ : Retains s₁ s₂ := hretains.trans hopens.retains
    obtain ⟨hwritable, hdata⟩ := h.oldContent (r := r) hundoable.source hold hk₀ rfl
      (hview.retains.trans hretains₂) hopens hr
    let s' := FilesystemFdw.logged s₂ (.update olditem newitem)
    have hlast : Retains s₂ s' := .congr rfl rfl
    have hlocked : Locked s' k₀ p := (hr.locked hopens).retains hlast
    have hrestored := (hr.opens_there hopens).restore (hr.locked hopens) hdata
    have hfiles : Files start s' _ := hrestored.congr rfl rfl
    have hprocess : s'.os.process = s.os.process :=
      (hview.retains.trans (hretains₂.trans hlast)).carries.process
    rw [← hprocess] at hwritable hfiles
    refine ⟨[.restore k₀ p (olditem.content.toBytes s'.os.process)] :: plans,
      h₁.push (o := .update olditem newitem) hfiles (hretains₂.trans hlast)
        (.content hk₀ hk hlocked hwritable) ?_ fun k' c hc => ?_⟩
    · change s₂.current_transaction_state ++ [.update olditem newitem] = _
      rw [hopens.log]
      rfl
    · change s₂.updated_content.lookup k' = some c at hc
      rw [hopens.updated] at hc
      change (s₁.updated_content.insert k₀ newitem.content).lookup k' = some c at hc
      by_cases hk' : k' = k₀
      · subst hk'
        exact .inl ⟨p, hlocked, .inr ⟨_, List.mem_cons_self ..⟩⟩
      · rw [AList.lookup_insert_ne hk'] at hc
        exact .inr hc
  | @move s₂ s₃ fd fd' i i' p p' hne hopens hmade =>
    have hretains₂ : Retains s₁ s₂ := hretains.trans hopens.retains
    obtain ⟨hwritable, hdata⟩ := h.oldContent (r := r) hundoable.source hold hk₀ rfl
      (hview.retains.trans hretains₂) hopens hr
    have hfree : s.os.exists? k = false :=
      hundoable.target k (target_of_update h.files.sound hold hnew hk₀ hk hne)
    have hfresh : ∀ j, ¬ Held s₂ k j := by
      intro j hj
      have hj₁ : Held s₁ k j := (hopens.held_of_ne (fun h => hne h.symm) hj).congr rfl rfl
      exact not_held_of_free h.files.sound hfree j ((hview.held k j).mp hj₁)
    have hrestored := (hr.opens_there hopens).restore (hr.locked hopens) hdata
    obtain ⟨hnewFiles, hstart⟩ := hrestored.new hmade hfresh
    let s' := FilesystemFdw.renamed s₃ k₀ k olditem newitem
    have hlast : Retains s₃ s' := .congr rfl rfl
    have hfiles : Files start s' _ := hnewFiles.congr rfl rfl
    have hlocked₀ : Locked s' k₀ p := ((hr.locked hopens).retains hmade.retains).retains hlast
    have hlocked : Locked s' k p' := (hrestored.locked hmade).retains hlast
    have hprocess : s'.os.process = s.os.process :=
      (hview.retains.trans ((hretains₂.trans hmade.retains).trans hlast)).carries.process
    rw [← hprocess] at hwritable hfiles
    refine ⟨[.remove p', .restore k₀ p (olditem.content.toBytes s'.os.process)] :: plans,
      h₁.push (o := .update olditem newitem) hfiles
        ((hretains₂.trans hmade.retains).trans hlast)
        (.rename hk₀ hk hne hlocked₀ hlocked hwritable) ?_ fun k' c hc => ?_⟩
    · change s₃.current_transaction_state ++ [.update olditem newitem] = _
      rw [hmade.log, hopens.log]
      rfl
    · change s₃.updated_content.lookup k' = some c at hc
      rw [hmade.updated, hopens.updated] at hc
      change (s₁.updated_content.insert k newitem.content).lookup k' = some c at hc
      by_cases hk' : k' = k
      · subst hk'
        exact .inl ⟨p', hlocked, .inl hstart⟩
      · rw [AList.lookup_insert_ne hk'] at hc
        exact .inr hc

end Calls

namespace FilesystemFdw

theorem accounted_after (h : ∃ plans, Accounted t.structured_directory start s plans) {a : Action}
    (ha : t.Careful s a) : ∃ plans, Accounted t.structured_directory start (t.after s a) plans := by
  obtain ⟨plans, h⟩ := h
  by_cases hreads : a.Reads
  · exact ⟨plans, h.view (sameView_reads hreads h.files.sound)⟩
  · have hsucceeds := ha.succeeds.resolve_left hreads
    obtain ⟨u, hu⟩ := Option.isSome_iff_exists.mp hsucceeds
    obtain ⟨s', hrun⟩ := of_value? hu
    unfold after
    rw [hrun]
    change ∃ plans, Accounted _ start s' plans
    cases a with
    | insert values =>
      obtain ⟨row, hrun⟩ := discard_eq_ok.mp hrun
      exact h.insert ha.undoable.target hrun
    | update oldfilename newvalues =>
      obtain ⟨row, hrun⟩ := discard_eq_ok.mp hrun
      exact h.update ha.undoable hrun
    | delete rowid => exact h.delete hrun
    | scan quals columns => exact absurd trivial hreads
    | endScan => exact absurd trivial hreads
    | preCommit => exact absurd ha.inside id
    | rollback => exact absurd ha.inside id

theorem accounted_run (hs : Fresh s) {actions : List Action} (h : t.Along t.Careful s actions) :
    ∃ plans, Accounted t.structured_directory s (t.run s actions) plans :=
  run_invariant (I := fun s' => ∃ plans, Accounted t.structured_directory s s' plans)
    (fun _ _ hs' ha => accounted_after hs' ha) ⟨[], hs.accounted⟩ h

end FilesystemFdw

/-! Before the commit. -/

section Beginning

variable {ops : List Operation}

theorem reverts_of_mem (h : List.Forall₂ (Reverts d s) ops plans) {op : Operation} (hop : op ∈ ops) :
    ∃ plan, Reverts d s op plan ∧ ∀ u ∈ plan, u ∈ plans.flatten := by
  induction h with
  | nil => cases hop
  | @cons op' plan ops plans hop' _ ih =>
    rw [List.flatten_cons]
    rcases List.mem_cons.mp hop with rfl | hop
    · exact ⟨plan, hop', fun u hu => List.mem_append_left _ hu⟩
    · obtain ⟨plan', hplan, hmem⟩ := ih hop
      exact ⟨plan', hplan, fun u hu => List.mem_append_right _ (hmem u hu)⟩

theorem locked_of_restores (h : List.Forall₂ (Reverts d s) ops plans)
    (hr : Restores plans.flatten k p) : Locked s k p := by
  obtain ⟨data, hdata⟩ := hr
  induction h with
  | nil => cases hdata
  | @cons op plan ops plans hop _ ih =>
    rw [List.flatten_cons] at hdata
    rcases List.mem_append.mp hdata with hdata | hdata
    · cases hop with
      | insert => simp at hdata
      | content _ _ hp _ =>
        simp only [List.mem_singleton, HandleLog.Undo.restore.injEq] at hdata
        obtain ⟨rfl, rfl, -⟩ := hdata
        exact hp
      | rename _ _ _ hp₀ _ _ =>
        simp only [List.mem_cons, reduceCtorEq, HandleLog.Undo.restore.injEq, List.not_mem_nil,
          or_false, false_or] at hdata
        obtain ⟨rfl, rfl, -⟩ := hdata
        exact hp₀
      | delete => cases hdata
    · exact ih hdata

/-- Before the commit replays anything the log undoes all there is. -/
theorem Accounted.midway (h : Accounted d start s plans) :
    Midway s (· ∈ ([] : List Str)) start.volume plans.flatten s := by
  have hfile : ∀ k i, Held s k i → ∃ q, s.os.file q = some i := by
    intro k i hi
    obtain ⟨q, -, hnode⟩ := hi.node h.files.sound
    exact ⟨q, Os.file_eq_some.mpr hnode⟩
  refine ⟨h.files.sound.coherent.toOpened, rfl, fun q => Iff.rfl, rfl, h.files.inodes,
    fun k i hi => ?_, fun k q hk => ?_, h.files.placed, fun k q hk => locked_of_restores h.log hk,
    fun k i j hi hj => hi.unique hj, h.files.shared, fun k q q' i hk hi hq' hne => ?_,
    fun q c hc => ?_, fun q hq => ?_, fun q hremove hq => absurd hq (h.files.there q hremove)⟩
  · obtain ⟨q, hq⟩ := hfile k i hi
    exact h.files.inodes q i hq
  · obtain ⟨i, hi, -⟩ := hk.held
    exact .inr ⟨i, hi⟩
  · obtain ⟨-, hq⟩ := locked_of_held h.files.sound hi hk.path hk.dirname_ne
    exact h.files.shared q q' i hq hq' hne
  · obtain ⟨i, hi, rfl⟩ := Option.map_eq_some_iff.mp hc
    obtain ⟨hq, hdata⟩ := h.files.kept q i hi
    exact .inl ⟨i, hq, .inl hdata⟩
  · exact h.files.made q (Volume.data_eq_none.mp hq)

end Beginning

end Multicorn.Fs
