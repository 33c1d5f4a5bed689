import Multicorn.Convert.Decimal
import Multicorn.General.Ranges

/-! The message numbers of a search, compacted for the fetch. -/
namespace Multicorn.Imap
open Multicorn.Convert (decimal readDecimal readDecimal_decimal mem_decimal)
open Multicorn.Ranges

/-- `'%s' %` of a number, or of None. -/
def percentS : Option ℤ → List Char
  | some n => decimal n
  | none => "None".toList

/-- The loop of `compact_fetch` over the numbers paired with their successors, the last one
with None. -/
def compactLoop (first_i : Option ℤ) : List ℤ → List (List Char)
  | [] => []
  | i :: rest =>
    let inext := rest.head?
    if inext = some (i + 1) then compactLoop first_i rest
    else if first_i ≠ some i then
      (percentS first_i ++ ':' :: decimal i) :: compactLoop inext rest
    else decimal i :: compactLoop inext rest

/-- All that `compact_fetch` yields; `messages[0]` fails on an empty list. -/
def compactFetch (messages : List ℤ) : Option (List (List Char)) :=
  match messages with
  | [] => none
  | first_i :: _ => some (compactLoop (some first_i) messages)

/-- The numbers a range stands for. -/
def readRange (range : List Char) : Option (ℤ × ℤ) :=
  match range.splitOn ':' with
  | [n] => (readDecimal n).map fun n => (n, n)
  | [a, b] => do return (← readDecimal a, ← readDecimal b)
  | _ => none

def rangeText (r : ℤ × ℤ) : List Char :=
  if r.1 = r.2 then decimal r.1 else decimal r.1 ++ ':' :: decimal r.2

theorem colon_not_mem_decimal (n : ℤ) : ':' ∉ decimal n := by
  intro h
  rcases mem_decimal h with heq | hdigit
  · exact absurd heq (by decide)
  · exact absurd hdigit (by decide)

theorem readRange_rangeText (r : ℤ × ℤ) : readRange (rangeText r) = some r := by
  obtain ⟨a, b⟩ := r
  have hplain : ∀ n : ℤ, (decimal n).splitOn ':' = [decimal n] := by
    intro n
    exact List.splitOn_eq_singleton (colon_not_mem_decimal n)
  simp only [rangeText]
  split_ifs with hab
  · subst hab
    simp [readRange, hplain, readDecimal_decimal]
  · have hsplit : (decimal a ++ ':' :: decimal b).splitOn ':' = [decimal a, decimal b] := by
      rw [List.splitOn_append_cons_self, hplain, hplain]
      rfl
    simp [readRange, hsplit, readDecimal_decimal]

theorem compactLoop_eq {first i : ℤ} {rest : List ℤ} (h : first ≤ i) :
    compactLoop (some first) (i :: rest) = (runs first i rest).map rangeText := by
  induction rest generalizing first i with
  | nil =>
    by_cases heq : first = i
    · subst heq
      simp [compactLoop, runs, rangeText]
    · simp [compactLoop, runs, rangeText, heq, percentS]
  | cons j rest ih =>
    by_cases hj : j = i + 1
    · subst hj
      have hstep : compactLoop (some first) (i :: (i + 1) :: rest) =
          compactLoop (some first) ((i + 1) :: rest) := by
        simp [compactLoop]
      rw [hstep, ih (by omega), runs, if_pos rfl]
    · have htail := ih (le_refl j)
      rw [runs, if_neg hj, List.map_cons, ← htail, compactLoop]
      by_cases heq : first = i
      · subst heq
        simp [hj, rangeText]
      · simp [hj, heq, rangeText, percentS]

/-- The ranges stand for exactly the numbers given; those of an increasing list are
separated, one for each number whose successor is missing. -/
theorem compactFetch_exact {messages : List ℤ} (h : messages ≠ []) :
    ∃ texts ranges, compactFetch messages = some texts ∧ texts.map readRange = ranges.map some ∧
      expand ranges = messages ∧
      (messages.Pairwise (· < ·) → ranges.IsChain Separated ∧
        texts.length = messages.countP fun m => m + 1 ∉ messages) := by
  obtain ⟨first, rest, hmessages⟩ := List.exists_cons_of_ne_nil h
  subst hmessages
  have hloop : compactLoop (some first) (first :: rest) = (runs first first rest).map rangeText :=
    compactLoop_eq (le_refl first)
  have hexpand : expand (runs first first rest) = first :: rest := by
    rw [expand_runs (le_refl first), interval_self, List.singleton_append]
  refine ⟨_, runs first first rest, congrArg some hloop, ?_, hexpand, ?_⟩
  · rw [List.map_map]
    apply List.map_congr_left
    intro r _
    exact readRange_rangeText r
  · intro hinc
    have hsep : (runs first first rest).IsChain Separated := runs_separated hinc
    have hlen := length_of_separated (runs_ordered (le_refl first)) hsep
    rw [hexpand] at hlen
    exact ⟨hsep, by rw [List.length_map, hlen]⟩

/-- The numbers of the function's docstring. -/
def docNumbers : List ℤ := [1, 2, 3, 4, 10, 11, 12, 14, 17, 18, 19, 21, 92]

theorem compactFetch_docNumbers :
    compactFetch docNumbers =
        some (["1:4", "10:12", "14", "17:19", "21", "92"].map String.toList) ∧
      ∃ texts ranges, compactFetch docNumbers = some texts ∧
        texts.map readRange = ranges.map some ∧ expand ranges = docNumbers ∧
        (docNumbers.Pairwise (· < ·) → ranges.IsChain Separated ∧
          texts.length = docNumbers.countP fun m => m + 1 ∉ docNumbers) :=
  ⟨by decide, compactFetch_exact (List.cons_ne_nil _ _)⟩

end Multicorn.Imap
