import Multicorn.Fs.Rollback
import Multicorn.General.HandleLog

/-! Calls that may be the one that fails, on a tree that the log of a transaction still undoes. -/
namespace Multicorn.Fs
open Multicorn.StateMonad Multicorn.HandleLog

variable {s s' s₀ : State}

def State.withFaults (s : State) (faults : List (Option Errno)) : State :=
  { s with os := { s.os with faults } }

def State.withContent (s : State) (inode : ℕ) (data : Bytes) : State :=
  { s with os := s.os.withContent inode data }

/-- The first `m` calls are none of those that fail. -/
def Spends (m : ℕ) (faults faults' : List (Option Errno)) : Prop :=
  (∀ f ∈ faults.take m, f = none) ∧ faults' = faults.drop m

theorem Spends.none (faults : List (Option Errno)) : Spends 0 faults faults :=
  ⟨fun f hf => (by cases hf), rfl⟩

theorem Spends.trans {m n : ℕ} {a b c : List (Option Errno)} (h : Spends m a b)
    (h' : Spends n b c) : Spends (m + n) a c := by
  obtain ⟨htake, rfl⟩ := h
  obtain ⟨htake', rfl⟩ := h'
  constructor
  · intro f hf
    rw [List.take_add] at hf
    rcases List.mem_append.mp hf with hf | hf
    · exact htake f hf
    · exact htake' f hf
  · rw [List.drop_drop]

theorem Spends.mem {m : ℕ} {a b : List (Option Errno)} (h : Spends m a b) {f : Option Errno}
    (hf : f ∈ b) : f ∈ a := by
  rw [h.2] at hf
  exact List.mem_of_mem_drop hf

/-- Where the call after the next `n` fails, no more than `n` can be made. -/
theorem Spends.failing {m n : ℕ} {e : Errno} {b : List (Option Errno)}
    (h : Spends m (List.replicate n Option.none ++ [some e]) b) :
    m ≤ n ∧ b = List.replicate (n - m) Option.none ++ [some e] := by
  obtain ⟨htake, rfl⟩ := h
  have hle : m ≤ n := by
    by_contra hlt
    have hmem : some e ∈ (List.replicate n Option.none ++ [some e]).take m := by
      rw [List.take_of_length_le (by simp; omega)]
      simp
    cases htake _ hmem
  refine ⟨hle, ?_⟩
  rw [List.drop_append_of_le_length (by simpa using hle), List.drop_replicate]

section Entering

variable {E : Failure → Prop} {I : State → Prop} {α : Type} {Q : α → State → Prop}

/-- A call either is the one that fails or goes on. -/
theorem leaves_enter {body : Call α} (hE : ∀ e, some e ∈ s.os.faults → E (.os e))
    (hI : ∀ fs, I (s.withFaults fs))
    (hbody : ∀ fs, Spends 1 s.os.faults fs → Leaves E I Q (call body (s.withFaults fs))) :
    Leaves E I Q (call (enter >>= fun _ => body) s) := by
  cases hf : s.os.faults with
  | nil =>
    have hsame : s.withFaults [] = s := by
      unfold State.withFaults
      rw [← hf]
    have hrun : call (enter >>= fun _ => body) s = call body s := by
      simp only [call, bind, EStateM.bind, enter, hf]
    have hleaves := hbody [] (by rw [hf]; exact ⟨fun f hmem => (by cases hmem), rfl⟩)
    rw [hsame] at hleaves
    rw [hrun]
    exact hleaves
  | cons f fs =>
    cases f with
    | none =>
      have hrun : call (enter >>= fun _ => body) s = call body (s.withFaults fs) := by
        simp only [call, bind, EStateM.bind, enter, hf, State.withFaults]
      rw [hrun]
      apply hbody
      rw [hf]
      exact ⟨fun f hmem => (by simpa using hmem), rfl⟩
    | some e =>
      have hrun : call (enter >>= fun _ => body) s = .error (.os e) (s.withFaults fs) := by
        simp only [call, bind, EStateM.bind, enter, hf, State.withFaults]
      rw [hrun]
      exact ⟨hE e (by rw [hf]; exact List.mem_cons_self ..), hI fs⟩

/-- A call that only looks at an open descriptor. -/
theorem leaves_looks {body : Call α} {a : α} (hE : ∀ e, some e ∈ s.os.faults → E (.os e))
    (hI : ∀ fs, I (s.withFaults fs)) (hbody : ∀ fs, call body (s.withFaults fs) = .ok a (s.withFaults fs)) :
    Leaves E I (fun b s' => b = a ∧ ∃ fs, Spends 1 s.os.faults fs ∧ s' = s.withFaults fs)
      (call (enter >>= fun _ => body) s) := by
  apply leaves_enter hE hI
  intro fs hfs
  rw [hbody]
  exact ⟨rfl, fs, hfs, rfl⟩

theorem leaves_isRdwr {fd i : ℕ} (hfd : s.os.fd fd = some ⟨.file i, true⟩)
    (hE : ∀ e, some e ∈ s.os.faults → E (.os e)) (hI : ∀ fs, I (s.withFaults fs)) :
    Leaves E I (fun b s' => b = true ∧ ∃ fs, Spends 1 s.os.faults fs ∧ s' = s.withFaults fs)
      (call (isRdwr fd) s) := by
  apply leaves_looks hE hI
  intro fs
  exact call_eq_ok.mpr ⟨_, bind_eq_ok.mpr ⟨_, _, getFd_eq_ok.mpr ⟨hfd, rfl⟩, rfl⟩, rfl⟩

theorem leaves_flock {fd : ℕ} {file : OpenFile} (hfd : s.os.fd fd = some file)
    (hE : ∀ e, some e ∈ s.os.faults → E (.os e)) (hI : ∀ fs, I (s.withFaults fs)) :
    Leaves E I (fun _ s' => ∃ fs, Spends 1 s.os.faults fs ∧ s' = s.withFaults fs)
      (call (flock fd) s) := by
  apply (leaves_looks (a := .unit) hE hI _).mono fun _ _ h => h.2
  intro fs
  exact call_eq_ok.mpr ⟨_, discard_eq_ok.mpr ⟨_, getFd_eq_ok.mpr ⟨hfd, rfl⟩⟩, rfl⟩

theorem leaves_ftruncate {fd i : ℕ} (hfd : s.os.fd fd = some ⟨.file i, true⟩)
    (hE : ∀ e, some e ∈ s.os.faults → E (.os e)) (hI : ∀ fs, I (s.withFaults fs)) :
    Leaves E I (fun _ s' => ∃ fs, Spends 1 s.os.faults fs ∧
        s' = (s.withFaults fs).withContent i [])
      (call (ftruncate fd) s) := by
  apply leaves_enter hE hI
  intro fs hfs
  have hrun : call (do
      let inode ← getInode fd
      if (← getFd fd).rdwr then modify fun os => os.withContent inode []
      else throw .EINVAL) (s.withFaults fs) =
      .ok () ((s.withFaults fs).withContent i []) := by
    apply call_eq_ok.mpr
    refine ⟨_, ?_, rfl⟩
    simp only [bind_eq_ok, getInode_eq_ok, getFd_eq_ok]
    exact ⟨i, _, ⟨⟨true, hfd⟩, rfl⟩, _, _, ⟨hfd, rfl⟩, rfl⟩
  rw [hrun]
  exact ⟨fs, hfs, rfl⟩

theorem leaves_writeStart {fd i : ℕ} (hfd : s.os.fd fd = some ⟨.file i, true⟩) (data : Bytes)
    (hE : ∀ e, some e ∈ s.os.faults → E (.os e)) (hI : ∀ fs, I (s.withFaults fs)) :
    Leaves E I (fun _ s' => ∃ fs, Spends 1 s.os.faults fs ∧
        s' = (s.withFaults fs).withContent i (data ++ (s.os.content i).drop data.length))
      (call (writeStart fd data) s) := by
  apply leaves_enter hE hI
  intro fs hfs
  have hrun : call (do
      let inode ← getInode fd
      if (← getFd fd).rdwr then
        modify fun os => os.withContent inode (data ++ (os.content inode).drop data.length)
      else throw .EBADF) (s.withFaults fs) =
      .ok () ((s.withFaults fs).withContent i (data ++ (s.os.content i).drop data.length)) := by
    apply call_eq_ok.mpr
    refine ⟨_, ?_, rfl⟩
    simp only [bind_eq_ok, getInode_eq_ok, getFd_eq_ok]
    exact ⟨i, _, ⟨⟨true, hfd⟩, rfl⟩, _, _, ⟨hfd, rfl⟩, rfl⟩
  rw [hrun]
  exact ⟨fs, hfs, rfl⟩

end Entering

end Multicorn.Fs
