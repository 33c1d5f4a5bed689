import Mathlib.Data.Nat.Digits.Defs
import Mathlib.Tactic.IntervalCases

/-! Dates and times of day in ISO 8601: their text, and a reader for it. -/
namespace Multicorn.Iso8601

abbrev Str := List Char

def daysInMonth (year month : ℤ) : ℤ :=
  if month = 2 then
    if year % 4 = 0 ∧ (year % 100 ≠ 0 ∨ year % 400 = 0) then 29 else 28
  else if month = 4 ∨ month = 6 ∨ month = 9 ∨ month = 11 then 30 else 31

structure ValidDate (year month day : ℤ) : Prop where
  month_pos : 1 ≤ month
  month_le : month ≤ 12
  day_pos : 1 ≤ day
  day_le : day ≤ daysInMonth year month

structure ValidTime (hour min sec usec : ℤ) : Prop where
  hour_nonneg : 0 ≤ hour
  hour_lt : hour < 24
  min_nonneg : 0 ≤ min
  min_lt : min < 60
  sec_nonneg : 0 ≤ sec
  sec_lt : sec < 60
  usec_nonneg : 0 ≤ usec
  usec_lt : usec < 1000000

/-- The last `width` decimal digits. -/
def padded : ℕ → ℕ → Str
  | 0, _ => []
  | width + 1, n => padded width (n / 10) ++ [Nat.digitChar (n % 10)]

def field (width : ℕ) (n : ℤ) : Str := padded width n.toNat

def dateText (year month day : ℤ) : Str :=
  field 4 year ++ '-' :: (field 2 month ++ '-' :: field 2 day)

/-- The microseconds are left out when there are none. -/
def timestampText (year month day hour min sec usec : ℤ) : Str :=
  dateText year month day ++ 'T' :: (field 2 hour ++ ':' :: (field 2 min ++ ':' :: (field 2 sec ++
    if usec = 0 then [] else '.' :: field 6 usec)))

def readDigit (c : Char) : Option ℕ := if c.isDigit then some (c.toNat - 48) else none

/-- Reads `width` digits from the front. -/
def readPadded : ℕ → ℕ → Str → Option (ℕ × Str)
  | 0, acc, s => some (acc, s)
  | _ + 1, _, [] => none
  | width + 1, acc, c :: s => (readDigit c).bind fun k => readPadded width (10 * acc + k) s

def readChar (c : Char) : Str → Option Str
  | [] => none
  | e :: s => if e = c then some s else none

def readField (width : ℕ) (s : Str) : Option (ℤ × Str) :=
  (readPadded width 0 s).map fun p => ((p.1 : ℤ), p.2)

/-- A date at the front of the text. -/
def readDate (s : Str) : Option ((ℤ × ℤ × ℤ) × Str) := do
  let (year, s) ← readField 4 s
  let s ← readChar '-' s
  let (month, s) ← readField 2 s
  let s ← readChar '-' s
  let (day, s) ← readField 2 s
  return ((year, month, day), s)

/-- The time of day behind a date, to the end of the text. -/
def readTime (s : Str) : Option (ℤ × ℤ × ℤ × ℤ) := do
  let s ← readChar 'T' s
  let (hour, s) ← readField 2 s
  let s ← readChar ':' s
  let (min, s) ← readField 2 s
  let s ← readChar ':' s
  let (sec, s) ← readField 2 s
  if s = [] then return (hour, min, sec, 0)
  let s ← readChar '.' s
  let (usec, s) ← readField 6 s
  if s = [] then return (hour, min, sec, usec) else none

theorem readDigit_digitChar {k : ℕ} (h : k < 10) : readDigit (Nat.digitChar k) = some k := by
  interval_cases k <;> rfl

theorem length_padded (width n : ℕ) : (padded width n).length = width := by
  induction width generalizing n with
  | zero => rfl
  | succ width ih => rw [padded, List.length_append, ih, List.length_singleton]

theorem readPadded_append (width width' acc : ℕ) (a s : Str) (ha : a.length = width) :
    readPadded (width + width') acc (a ++ s) =
      (readPadded width acc a).bind fun p => readPadded width' p.1 s := by
  induction a generalizing width acc with
  | nil =>
    subst ha
    simp [readPadded]
  | cons c a ih =>
    obtain ⟨w, rfl⟩ : ∃ w, width = w + 1 := ⟨a.length, by simpa using ha.symm⟩
    have hlen : a.length = w := by simpa using ha
    rw [Nat.add_right_comm, List.cons_append, readPadded, readPadded]
    cases readDigit c with
    | none => rfl
    | some k => exact ih w (10 * acc + k) hlen

theorem readPadded_padded (width n acc : ℕ) (h : n < 10 ^ width) :
    readPadded width acc (padded width n) = some (acc * 10 ^ width + n, []) := by
  induction width generalizing n acc with
  | zero =>
    have hn : n = 0 := by simpa using h
    simp [padded, readPadded, hn]
  | succ width ih =>
    have hdiv : n / 10 < 10 ^ width := by
      rw [Nat.div_lt_iff_lt_mul (by omega)]
      rwa [pow_succ] at h
    rw [padded, readPadded_append width 1 acc _ _ (length_padded width _), ih (n / 10) acc hdiv,
      Option.bind_some, readPadded, readDigit_digitChar (Nat.mod_lt n (by omega)), Option.bind_some,
      readPadded]
    have hn : 10 * (acc * 10 ^ width + n / 10) + n % 10 = acc * 10 ^ (width + 1) + n := by
      rw [pow_succ]
      have := Nat.div_add_mod n 10
      have hmul : 10 * (acc * 10 ^ width) = acc * (10 ^ width * 10) := by ring
      omega
    rw [hn]

theorem readField_field {width : ℕ} {n : ℤ} (h₀ : 0 ≤ n) (h : n < 10 ^ width) (s : Str) :
    readField width (field width n ++ s) = some (n, s) := by
  have hnat : n.toNat < 10 ^ width := by
    have : (n.toNat : ℤ) < (10 ^ width : ℕ) := by
      rw [Int.toNat_of_nonneg h₀]
      exact_mod_cast h
    exact_mod_cast this
  have happend := readPadded_append width 0 0 (padded width n.toNat) s (length_padded width _)
  rw [Nat.add_zero, readPadded_padded width _ 0 hnat] at happend
  unfold readField field
  rw [happend]
  simp [readPadded, Int.toNat_of_nonneg h₀]

theorem ValidDate.day_lt {year month day : ℤ} (h : ValidDate year month day) : day < 100 := by
  have hle := h.day_le
  unfold daysInMonth at hle
  split_ifs at hle <;> omega

theorem readDate_dateText {year month day : ℤ} (h : ValidDate year month day) (h₀ : 0 ≤ year)
    (hyear : year < 10000) (s : Str) :
    readDate (dateText year month day ++ s) = some ((year, month, day), s) := by
  have hmonth := h.month_pos
  have hmonth' := h.month_le
  have hday := h.day_pos
  have hday' := h.day_lt
  simp only [dateText, List.append_assoc, List.cons_append]
  simp only [readDate, readField_field h₀ (show year < 10 ^ 4 by omega), Option.bind_eq_bind,
    Option.bind_some, readChar, if_true, readField_field (show 0 ≤ month by omega)
      (show month < 10 ^ 2 by omega), readField_field (show 0 ≤ day by omega)
      (show day < 10 ^ 2 by omega)]
  rfl

theorem readTime_timestampText {hour min sec usec : ℤ} (h : ValidTime hour min sec usec) :
    readTime ('T' :: (field 2 hour ++ ':' :: (field 2 min ++ ':' :: (field 2 sec ++
      if usec = 0 then [] else '.' :: field 6 usec)))) = some (hour, min, sec, usec) := by
  have hhour := h.hour_lt
  have hmin := h.min_lt
  have hsec := h.sec_lt
  have husec := h.usec_lt
  simp only [readTime, readChar, if_true, Option.bind_eq_bind, Option.bind_some,
    readField_field h.hour_nonneg (show hour < 10 ^ 2 by omega),
    readField_field h.min_nonneg (show min < 10 ^ 2 by omega),
    readField_field h.sec_nonneg (show sec < 10 ^ 2 by omega)]
  by_cases hzero : usec = 0
  · subst hzero
    simp
  · have hfield : readField 6 (field 6 usec ++ []) = some (usec, []) :=
      readField_field h.usec_nonneg (show usec < 10 ^ 6 by omega) []
    rw [List.append_nil] at hfield
    simp [hzero, hfield]

/-- Reads a date and the time behind it. -/
def readTimestamp (s : Str) : Option ((ℤ × ℤ × ℤ) × ℤ × ℤ × ℤ × ℤ) := do
  let (date, s) ← readDate s
  return (date, ← readTime s)

theorem readTimestamp_timestampText {year month day hour min sec usec : ℤ}
    (hdate : ValidDate year month day) (h₀ : 0 ≤ year) (hyear : year < 10000)
    (htime : ValidTime hour min sec usec) :
    readTimestamp (timestampText year month day hour min sec usec) =
      some ((year, month, day), hour, min, sec, usec) := by
  rw [readTimestamp, timestampText, readDate_dateText hdate h₀ hyear]
  simp only [Option.bind_eq_bind, Option.bind_some, readTime_timestampText htime]
  rfl

/-! The texts are ASCII without NUL. -/

def Ascii (s : Str) : Prop := ∀ c ∈ s, 0 < c.toNat ∧ c.toNat < 128

theorem Ascii.append {s t : Str} (hs : Ascii s) (ht : Ascii t) : Ascii (s ++ t) := by
  intro c hc
  rcases List.mem_append.mp hc with hc | hc
  · exact hs c hc
  · exact ht c hc

theorem Ascii.cons {c : Char} {s : Str} (hc : 0 < c.toNat ∧ c.toNat < 128) (hs : Ascii s) :
    Ascii (c :: s) := by
  intro e he
  rcases List.mem_cons.mp he with heq | he
  · exact heq ▸ hc
  · exact hs e he

theorem ascii_padded (width n : ℕ) : Ascii (padded width n) := by
  induction width generalizing n with
  | zero =>
    intro c hc
    cases hc
  | succ width ih =>
    apply (ih (n / 10)).append
    intro c hc
    rw [List.mem_singleton.mp hc]
    have hlt := Nat.mod_lt n (show 0 < 10 by omega)
    generalize n % 10 = k at hlt
    interval_cases k <;> decide

theorem ascii_field (width : ℕ) (n : ℤ) : Ascii (field width n) := ascii_padded width n.toNat

theorem ascii_dateText (year month day : ℤ) : Ascii (dateText year month day) := by
  apply (ascii_field 4 year).append
  apply Ascii.cons (by decide)
  apply (ascii_field 2 month).append
  exact Ascii.cons (by decide) (ascii_field 2 day)

theorem ascii_timestampText (year month day hour min sec usec : ℤ) :
    Ascii (timestampText year month day hour min sec usec) := by
  apply (ascii_dateText year month day).append
  apply Ascii.cons (by decide)
  apply (ascii_field 2 hour).append
  apply Ascii.cons (by decide)
  apply (ascii_field 2 min).append
  apply Ascii.cons (by decide)
  apply (ascii_field 2 sec).append
  split_ifs
  · intro c hc
    cases hc
  · exact Ascii.cons (by decide) (ascii_field 6 usec)

end Multicorn.Iso8601
