import Mathlib.Data.Nat.Digits.Defs
import Mathlib.Tactic.SplitIfs

/-! Integers as Python prints them. -/
namespace Multicorn.Convert

/-- `str` of an integer. -/
def decimal : ℤ → List Char
  | .ofNat n => Nat.toDigits 10 n
  | .negSucc n => '-' :: Nat.toDigits 10 (n + 1)

theorem mem_decimal {n : ℤ} {c : Char} (h : c ∈ decimal n) : c = '-' ∨ c.isDigit = true := by
  cases n with
  | ofNat n => exact .inr (Nat.isDigit_of_mem_toDigits (by decide) (by decide) h)
  | negSucc n =>
    rcases List.mem_cons.mp h with rfl | h
    · exact .inl rfl
    · exact .inr (Nat.isDigit_of_mem_toDigits (by decide) (by decide) h)

theorem decimal_ne_nil (n : ℤ) : decimal n ≠ [] := by
  cases n with
  | ofNat n => exact Nat.toDigits_ne_nil
  | negSucc n => exact List.cons_ne_nil _ _

/-- Reads back what `decimal` writes. -/
def readDecimal : List Char → Option ℤ
  | '-' :: digits => if digits.all Char.isDigit then some (-Nat.ofDigitChars 10 digits 0) else none
  | digits => if digits.all Char.isDigit then some (Nat.ofDigitChars 10 digits 0) else none

theorem readDecimal_decimal (n : ℤ) : readDecimal (decimal n) = some n := by
  have hdigits : ∀ k, (Nat.toDigits 10 k).all Char.isDigit = true := by
    intro k
    simpa using fun c hc => Nat.isDigit_of_mem_toDigits (by decide) (by decide) hc
  have hback : ∀ k, Nat.ofDigitChars 10 (Nat.toDigits 10 k) 0 = k := fun k =>
    Nat.ofDigitChars_toDigits (by decide) (by decide)
  cases n with
  | ofNat k =>
    simp only [decimal, readDecimal]
    split
    · next digits h =>
      have hminus := hdigits k
      rw [h] at hminus
      exact absurd hminus (by simp)
    · simp [hdigits, hback]
  | negSucc k =>
    simp only [decimal, readDecimal, hdigits, if_true, hback]
    rfl

end Multicorn.Convert
