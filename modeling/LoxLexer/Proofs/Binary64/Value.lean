/-
  LoxLexer.Proofs.Binary64.Value — the numbers that words stand for.

  The word of a magnitude counts the magnitudes below it, so all that is said about
  neighbours is said by adding one to a word. `wordValue` reads a word as a number, the
  words from infinity on too, as if exponents went on for ever: infinity then stands for
  `2 ^ 1024`, and the words have no gap where rounding would need a case of its own.

  Proved:
  - `wordValue_eq`: the value of a word that is put together from steps and a count of
    units, also where the count has just reached the next step.
  - `wordValue_strictMono`: greater words stand for greater numbers.
  - `RoundsTo.unique`: a number rounds to one word at most.
  - `RoundsTo.le_iff`, `RoundsTo.succ_le_iff`: which numbers round to a word up to an even
    one, and from an even one on.
-/

import LoxLexer.Binary64.Basic
import Mathlib.Algebra.Order.Field.Power
import Mathlib.Algebra.Order.Field.Rat
import Mathlib.Tactic.FieldSimp
import Mathlib.Tactic.Linarith
import Mathlib.Tactic.NormNum
import Mathlib.Tactic.Positivity
import Mathlib.Tactic.Ring

namespace LoxLexer

namespace Binary64

/-! ## The value of a word -/

def wordSignificand (w : ℕ) : ℕ := if w < stepWord then w else stepWord + w % stepWord

def wordExponent (w : ℕ) : ℤ := (max (w / stepWord) 1 : ℕ) - 1075

/-- The number that the word of a magnitude stands for, with exponents without end. -/
def wordValue (w : ℕ) : ℚ := wordSignificand w * 2 ^ wordExponent w

/-- The number that a finite word stands for. -/
def toRat (x : Binary64) : ℚ := (if x.isNegative then -1 else 1) * (x.significand * 2 ^ x.exponent)

theorem toRat_eq (x : Binary64) : x.toRat = (if x.isNegative then -1 else 1) * wordValue x.magnitude := rfl

theorem two_zpow_pos (e : ℤ) : (0 : ℚ) < 2 ^ e := by positivity

theorem two_zpow_succ (e : ℤ) : (2 : ℚ) ^ (e + 1) = 2 * 2 ^ e := by
  rw [zpow_add_one₀ (by norm_num), mul_comm]

/-- A word as steps and a count of units of the exponent these give. The count may reach
    two steps, which is where the next exponent begins. -/
theorem wordValue_eq {e m : ℕ} (hlow : e = 0 ∨ stepWord ≤ m) (hhigh : m ≤ 2 * stepWord) :
    wordValue (e * stepWord + m) = m * 2 ^ ((e : ℤ) - 1074) := by
  have hstep : stepWord = 4503599627370496 := rfl
  unfold wordValue wordSignificand wordExponent
  by_cases h1 : m < stepWord
  · obtain rfl : e = 0 := by omega
    have hlt : 0 * stepWord + m < stepWord := by rw [hstep]; omega
    rw [if_pos hlt, Nat.div_eq_of_lt hlt]
    norm_num
  by_cases h2 : m < 2 * stepWord
  · have hdiv : (e * stepWord + m) / stepWord = e + 1 := by rw [hstep]; omega
    have hmod : (e * stepWord + m) % stepWord = m - stepWord := by rw [hstep]; omega
    have hge : ¬ e * stepWord + m < stepWord := by rw [hstep]; omega
    have hexp : ((max (e + 1) 1 : ℕ) : ℤ) - 1075 = e - 1074 := by omega
    rw [if_neg hge, hdiv, hmod, hexp, Nat.add_sub_cancel' (by omega)]
  · obtain rfl : m = 2 * stepWord := by omega
    have hdiv : (e * stepWord + 2 * stepWord) / stepWord = e + 2 := by rw [hstep]; omega
    have hmod : (e * stepWord + 2 * stepWord) % stepWord = 0 := by rw [hstep]; omega
    have hge : ¬ e * stepWord + 2 * stepWord < stepWord := by rw [hstep]; omega
    have hexp : ((max (e + 2) 1 : ℕ) : ℤ) - 1075 = ((e : ℤ) - 1074) + 1 := by omega
    rw [if_neg hge, hdiv, hmod, hexp, two_zpow_succ]
    push_cast
    ring

/-- Every word is put together so, in one way with less than two steps of units. -/
theorem exists_units (w : ℕ) : ∃ e m, w = e * stepWord + m ∧ (e = 0 ∨ stepWord ≤ m) ∧ m < 2 * stepWord := by
  have hstep : stepWord = 4503599627370496 := rfl
  rw [hstep]
  by_cases h : w < 4503599627370496
  · exact ⟨0, w, by omega, Or.inl rfl, by omega⟩
  · exact ⟨w / 4503599627370496 - 1, 4503599627370496 + w % 4503599627370496, by omega, Or.inr (by omega), by omega⟩

/-- The next word stands for one unit more. -/
theorem wordValue_succ {e m : ℕ} (hlow : e = 0 ∨ stepWord ≤ m) (hhigh : m < 2 * stepWord) :
    wordValue (e * stepWord + m + 1) = (m + 1) * 2 ^ ((e : ℤ) - 1074) := by
  rw [Nat.add_assoc, wordValue_eq (by omega) (by omega)]
  push_cast
  rfl

theorem wordValue_strictMono : StrictMono wordValue := by
  refine strictMono_nat_of_lt_succ fun w => ?_
  obtain ⟨e, m, rfl, hlow, hhigh⟩ := exists_units w
  rw [wordValue_succ hlow hhigh, wordValue_eq hlow (by omega)]
  have := two_zpow_pos ((e : ℤ) - 1074)
  nlinarith

@[simp] theorem wordValue_zero : wordValue 0 = 0 := by
  have := wordValue_eq (e := 0) (m := 0) (Or.inl rfl) (Nat.zero_le _)
  simpa using this

theorem wordValue_nonneg (w : ℕ) : 0 ≤ wordValue w := by
  rw [← wordValue_zero]
  exact wordValue_strictMono.monotone (Nat.zero_le w)

/-! ## Rounding -/

/-- The number half way from a word to the next. -/
def midpoint (w : ℕ) : ℚ := (wordValue w + wordValue (w + 1)) / 2

/-- No word is nearer to the number than this one, and if the next is as near, or the one
    before, this one is even. -/
structure RoundsTo (r : ℚ) (w : ℕ) : Prop where
  le_midpoint : r ≤ midpoint w
  even_of_eq : r = midpoint w → w % 2 = 0
  midpoint_le : ∀ v, v + 1 = w → midpoint v ≤ r
  even_of_eq_below : ∀ v, v + 1 = w → midpoint v = r → w % 2 = 0

theorem midpoint_strictMono : StrictMono midpoint := by
  intro v w h
  have h1 := wordValue_strictMono h
  have h2 := wordValue_strictMono (Nat.succ_lt_succ h)
  simp only [midpoint, Nat.succ_eq_add_one] at h2 ⊢
  linarith

theorem wordValue_lt_midpoint (w : ℕ) : wordValue w < midpoint w := by
  have := wordValue_strictMono (Nat.lt_succ_self w)
  simp only [midpoint, Nat.succ_eq_add_one] at this ⊢
  linarith

theorem midpoint_lt_wordValue (w : ℕ) : midpoint w < wordValue (w + 1) := by
  have := wordValue_strictMono (Nat.lt_succ_self w)
  simp only [midpoint, Nat.succ_eq_add_one] at this ⊢
  linarith

/-- The value of a word rounds to the word. -/
theorem roundsTo_wordValue (w : ℕ) : RoundsTo (wordValue w) w where
  le_midpoint := (wordValue_lt_midpoint w).le
  even_of_eq h := absurd h (wordValue_lt_midpoint w).ne
  midpoint_le := by
    rintro v rfl
    exact (midpoint_lt_wordValue v).le
  even_of_eq_below := by
    rintro v rfl h
    exact absurd h (midpoint_lt_wordValue v).ne

namespace RoundsTo

variable {r : ℚ} {v w n : ℕ}

/-- If a number rounds to two words, they are neighbours and it lies half way between
    them, so both are even. -/
theorem le_of_roundsTo (hv : RoundsTo r v) (hw : RoundsTo r w) : w ≤ v := by
  by_contra hlt
  obtain ⟨u, rfl⟩ : ∃ u, w = u + 1 := ⟨w - 1, by omega⟩
  have h1 := hv.le_midpoint
  have h2 := hw.midpoint_le u rfl
  have h3 : midpoint v ≤ midpoint u := midpoint_strictMono.monotone (by omega)
  have hvu : v = u := midpoint_strictMono.injective (by linarith)
  subst hvu
  have h4 := hv.even_of_eq (by linarith)
  have h5 := hw.even_of_eq_below v rfl (by linarith)
  omega

theorem unique (hv : RoundsTo r v) (hw : RoundsTo r w) : v = w :=
  Nat.le_antisymm (le_of_roundsTo hw hv) (le_of_roundsTo hv hw)

/-- What rounds to an even word or to less lies up to half way to the next. -/
theorem le_iff (h : RoundsTo r w) (hn : n % 2 = 0) : w ≤ n ↔ r ≤ midpoint n := by
  constructor
  · intro hle
    exact h.le_midpoint.trans (midpoint_strictMono.monotone hle)
  · intro hr
    by_contra hlt
    obtain ⟨u, rfl⟩ : ∃ u, w = u + 1 := ⟨w - 1, by omega⟩
    have h1 := h.midpoint_le u rfl
    have h2 : midpoint n ≤ midpoint u := midpoint_strictMono.monotone (by omega)
    have hnu : n = u := midpoint_strictMono.injective (by linarith)
    subst hnu
    have := h.even_of_eq_below n rfl (by linarith)
    omega

/-- What rounds to an even word or to more lies from half way behind the one before. -/
theorem succ_le_iff (h : RoundsTo r w) (hn : (n + 1) % 2 = 0) : n + 1 ≤ w ↔ midpoint n ≤ r := by
  constructor
  · intro hle
    obtain ⟨u, rfl⟩ : ∃ u, w = u + 1 := ⟨w - 1, by omega⟩
    exact (midpoint_strictMono.monotone (by omega)).trans (h.midpoint_le u rfl)
  · intro hr
    by_contra hlt
    have h1 := h.le_midpoint
    have h2 : midpoint w ≤ midpoint n := midpoint_strictMono.monotone (by omega)
    have hnw : w = n := midpoint_strictMono.injective (by linarith)
    subst hnw
    have := h.even_of_eq (by linarith)
    omega

/-- A word in front of the one a number rounds to is no nearer, and if it is as near,
    that one is even. -/
theorem closest_below (h : RoundsTo r w) (hlt : v < w) :
    |wordValue w - r| ≤ |wordValue v - r| ∧ (|wordValue v - r| = |wordValue w - r| → w % 2 = 0) := by
  obtain ⟨u, rfl⟩ : ∃ u, w = u + 1 := ⟨w - 1, by omega⟩
  have h1 := h.midpoint_le u rfl
  have h2 : wordValue v ≤ wordValue u := wordValue_strictMono.monotone (by omega)
  have h3 := wordValue_strictMono hlt
  have h4 := wordValue_lt_midpoint u
  have hmid : 2 * midpoint u = wordValue u + wordValue (u + 1) := by unfold midpoint; ring
  have hv : |wordValue v - r| = r - wordValue v := by
    rw [abs_of_nonpos (by linarith)]
    ring
  rw [hv]
  refine ⟨abs_le.mpr ⟨by linarith, by linarith⟩, fun heq => h.even_of_eq_below u rfl ?_⟩
  rcases abs_cases (wordValue (u + 1) - r) with ⟨habs, _⟩ | ⟨habs, _⟩ <;> rw [habs] at heq <;> linarith

/-- A word behind the one a number rounds to is no nearer, and if it is as near, that one
    is even. -/
theorem closest_above (h : RoundsTo r w) (hlt : w < v) :
    |wordValue w - r| ≤ |wordValue v - r| ∧ (|wordValue v - r| = |wordValue w - r| → w % 2 = 0) := by
  have h1 := h.le_midpoint
  have h2 : wordValue (w + 1) ≤ wordValue v := wordValue_strictMono.monotone hlt
  have h3 := wordValue_strictMono hlt
  have h4 := midpoint_lt_wordValue w
  have hmid : 2 * midpoint w = wordValue w + wordValue (w + 1) := by unfold midpoint; ring
  have hv : |wordValue v - r| = wordValue v - r := abs_of_nonneg (by linarith)
  rw [hv]
  refine ⟨abs_le.mpr ⟨by linarith, by linarith⟩, fun heq => h.even_of_eq ?_⟩
  rcases abs_cases (wordValue w - r) with ⟨habs, _⟩ | ⟨habs, _⟩ <;> rw [habs] at heq <;> linarith

theorem closest (h : RoundsTo r w) (v : ℕ) : |wordValue w - r| ≤ |wordValue v - r| := by
  rcases lt_trichotomy v w with hlt | rfl | hlt
  · exact (h.closest_below hlt).1
  · exact le_refl _
  · exact (h.closest_above hlt).1

theorem even_of_tie (h : RoundsTo r w) (hne : v ≠ w) (heq : |wordValue v - r| = |wordValue w - r|) : w % 2 = 0 := by
  rcases Nat.lt_or_gt_of_ne hne with hlt | hlt
  · exact (h.closest_below hlt).2 heq
  · exact (h.closest_above hlt).2 heq

/-- Only what is not zero rounds to a word other than zero. -/
theorem pos_of_pos (h : RoundsTo r w) (hw : 0 < w) : 0 < r := by
  obtain ⟨u, rfl⟩ : ∃ u, w = u + 1 := ⟨w - 1, by omega⟩
  have h1 := h.midpoint_le u rfl
  have h2 := wordValue_lt_midpoint u
  have h3 := wordValue_nonneg u
  linarith

end RoundsTo

end Binary64

end LoxLexer
