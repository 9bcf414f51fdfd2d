/-
  LoxLexer.Proofs.Numeral — the number that a decimal text stands for.

  Digits stand for a whole number, and digits behind a point for a fraction of the power
  of ten that has as many zeros (`numeralValue`). Leading zeros, and zeros at the end of a
  fraction, are digits like others.

  Proved:
  - `numeralValue_number`: the value of a numeral is that of all its digits, divided by the
    power of ten.
-/

import LoxLexer.Proofs.Cutting
import Mathlib.Algebra.Order.Field.Power
import Mathlib.Algebra.Order.Field.Rat
import Mathlib.Data.List.TakeWhile
import Mathlib.Tactic.FieldSimp
import Mathlib.Tactic.NormNum
import Mathlib.Tactic.Ring

namespace LoxLexer

/-- The whole number that digits stand for. -/
def digitsValue (digits : List Char) : ℕ := Nat.ofDigitChars 10 digits 0

/-- The number that digits, or digits, a point and digits, stand for. -/
def numeralValue (text : List Char) : ℚ :=
  let fraction := (text.dropWhile Char.isDigit).drop 1
  digitsValue (text.takeWhile Char.isDigit) + digitsValue fraction / 10 ^ fraction.length

@[simp] theorem digitsValue_nil : digitsValue [] = 0 := rfl

theorem digitsValue_append (ds es : List Char) :
    digitsValue (ds ++ es) = 10 ^ es.length * digitsValue ds + digitsValue es := by
  rw [digitsValue, Nat.ofDigitChars_append, Nat.ofDigitChars_eq_ofDigitChars_zero]
  rfl

@[simp] theorem digitsValue_zeros (n : ℕ) : digitsValue (List.replicate n '0') = 0 := by
  rw [digitsValue, Nat.ofDigitChars_replicate_zero, Nat.mul_zero]

@[simp] theorem digitsValue_toDigits (n : ℕ) : digitsValue (Nat.toDigits 10 n) = n :=
  Nat.ofDigitChars_ten_toDigits

/-- The digits of a whole number are digits. -/
theorem isDigit_of_mem_toDigits {n : ℕ} : ∀ c ∈ Nat.toDigits 10 n, c.isDigit = true := fun _ hc =>
  Nat.isDigit_of_mem_toDigits (by decide) (by decide) hc

variable {whole fraction : List Char}

theorem clear_point_cons (rest : List Char) : Clear Char.isDigit ('.' :: rest) := clear_cons_iff.mpr rfl

theorem numeralValue_digits (hw : ∀ d ∈ whole, d.isDigit = true) : numeralValue whole = digitsValue whole := by
  have htake := List.takeWhile_eq_self_iff.mpr hw
  have hdrop := List.dropWhile_eq_nil_iff.mpr hw
  simp [numeralValue, htake, hdrop]

theorem numeralValue_point (hw : ∀ d ∈ whole, d.isDigit = true) :
    numeralValue (whole ++ '.' :: fraction) = digitsValue whole + digitsValue fraction / 10 ^ fraction.length := by
  have htake := takeWhile_append_clear hw (clear_point_cons fraction)
  have hdrop := dropWhile_append_clear hw (clear_point_cons fraction)
  simp [numeralValue, htake, hdrop]

/-- Digits on both sides of a point, as one whole number divided by a power of ten. -/
theorem numeralValue_append (hw : ∀ d ∈ whole, d.isDigit = true) :
    numeralValue (whole ++ '.' :: fraction) = digitsValue (whole ++ fraction) / 10 ^ fraction.length := by
  rw [numeralValue_point hw, digitsValue_append]
  push_cast
  field_simp

/-! ## The numerals of the language -/

open Piece

/-- The value of a numeral, by all its digits. -/
theorem numeralValue_number (hf : (number whole fraction).Formed) :
    numeralValue (number whole fraction).text = digitsValue (whole ++ fraction) / 10 ^ fraction.length := by
  obtain ⟨_, hw, _⟩ := hf
  cases fraction with
  | nil => simp [text, point, numeralValue_digits hw]
  | cons d f => exact numeralValue_append hw

end LoxLexer
