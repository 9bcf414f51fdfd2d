/-
  LoxLexer.Proofs.Binary64.Whole — the shortest decimals of whole numbers.

  A decimal that is a multiple of a number's unit rounds to the number only if it is the
  number (`eq_wordValue_of_multiple`). So the shortest decimal of a number with a fraction
  is no whole number. A whole number below 10^16 has a unit of 2 or less; its shortest
  decimal has no exponent below zero, so it is the number itself or an even number, and in
  either case the number.

  Powers of ten that are written with one digit part the numbers by the place of their
  first digit (`le_leading_iff`); 10^16 is one.

  Proved:
  - `isWhole_iff`: which words stand for whole numbers.
  - `exponent_shortest_neg`: a number with a fraction has a shortest decimal with one.
  - `toRat_shortest_of_whole`: a whole number below 10^16 is its shortest decimal.
  - `leading_shortest_lt_iff`: the numbers that are written without an exponent, or with
    one below zero, are those below 10^16.
  - `digitChars_shortest_of_whole`: the digits of a whole number are those of its shortest
    decimal and zeros.
-/

import LoxLexer.Proofs.Binary64.Coarsest
import LoxLexer.Proofs.Binary64.Written

namespace LoxLexer

namespace Binary64

variable {x : Binary64}

/-! ## Multiples of the unit -/

/-- A count of units rounds to a word only if it is the word's count. -/
theorem RoundsTo.eq_of_units {e m j : ℕ} (hlow : e = 0 ∨ stepWord ≤ m) (hhigh : m < 2 * stepWord)
    (h : RoundsTo (j * 2 ^ ((e : ℤ) - 1074)) (e * stepWord + m)) : j = m := by
  have hu := two_zpow_pos ((e : ℤ) - 1074)
  have habove := h.le_midpoint
  rw [midpoint_units hlow hhigh, mul_le_mul_iff_left₀ hu] at habove
  have hle : j ≤ m := by
    have hlt : (j : ℚ) < ((m + 1 : ℕ) : ℚ) := by
      push_cast
      linarith
    exact Nat.lt_succ_iff.mp (by exact_mod_cast hlt)
  rcases Nat.eq_zero_or_pos (e * stepWord + m) with hzero | hpos
  · omega
  obtain ⟨v, hv⟩ : ∃ v, v + 1 = e * stepWord + m := ⟨e * stepWord + m - 1, by omega⟩
  have hbelow := h.midpoint_le v hv
  have hge : m ≤ j := by
    have hlt : (m : ℚ) < ((j + 1 : ℕ) : ℚ) := by
      push_cast
      rcases midpoint_below hlow hhigh.le hv with ⟨_, hmid⟩ | ⟨_, hmid⟩ <;>
        rw [hmid, mul_le_mul_iff_left₀ hu] at hbelow <;> linarith
    exact Nat.lt_succ_iff.mp (by exact_mod_cast hlt)
  omega

/-- A multiple of a power of two that the unit divides rounds only to itself. -/
theorem eq_wordValue_of_multiple {k : ℕ} {a : ℤ} (ha : x.exponent ≤ a) (h : RoundsTo (k * 2 ^ a) x.magnitude) :
    (k * 2 ^ a : ℚ) = wordValue x.magnitude := by
  obtain ⟨e, hexponent, hmagnitude, hlow, hhigh⟩ := x.magnitude_units
  rw [hexponent] at ha
  have hunits : (k * 2 ^ a : ℚ) = (k * 2 ^ (a - ((e : ℤ) - 1074)).toNat : ℕ) * 2 ^ ((e : ℤ) - 1074) := by
    push_cast
    rw [mul_assoc, ← zpow_natCast, ← zpow_add₀ (by norm_num)]
    congr 2
    omega
  rw [hunits, hmagnitude] at h
  rw [hunits, hmagnitude, h.eq_of_units hlow hhigh, wordValue_eq hlow hhigh.le]

/-! ## Whole numbers -/

theorem isWhole_iff : x.isWhole = true ↔ ∃ n : ℕ, wordValue x.magnitude = n := by
  refine ⟨fun h => ⟨_, (whole_eq h).symm⟩, ?_⟩
  rintro ⟨n, hn⟩
  have hpow := pow_toNat_eq (by norm_num : (2 : ℚ) ≠ 0) x.exponent
  have heq : (x.significand * 2 ^ x.exponent.toNat : ℚ) = 2 ^ (-x.exponent).toNat * n := by
    rw [hpow, mul_left_comm, ← hn]
    rfl
  have hnat : x.significand * 2 ^ x.exponent.toNat = 2 ^ (-x.exponent).toNat * n := by exact_mod_cast heq
  rw [isWhole, Nat.pow_eq, Nat.pow_eq, hnat, Nat.mul_mod_right]
  rfl

theorem exponent_neg_of_not_whole (h : x.isWhole = false) : x.exponent < 0 := by
  by_contra hge
  have hzero : (-x.exponent).toNat = 0 := by omega
  have hmod : x.significand * Nat.pow 2 x.exponent.toNat % Nat.pow 2 0 = 0 := Nat.mod_one _
  rw [isWhole, hzero, hmod] at h
  cases h

theorem wordValue_lt (x : Binary64) : wordValue x.magnitude < 2 ^ (53 + x.exponent) := by
  obtain ⟨e, hexponent, hmagnitude, hlow, hhigh⟩ := x.magnitude_units
  have hstep : ((2 * stepWord : ℕ) : ℚ) = 2 ^ (53 : ℤ) := by norm_num [stepWord]
  have hcount : (x.significand : ℚ) < 2 ^ (53 : ℤ) := by
    rw [← hstep]
    exact_mod_cast hhigh
  rw [zpow_add₀ (by norm_num)]
  exact mul_lt_mul_of_pos_right hcount (two_zpow_pos _)

theorem exponent_le_one (h : wordValue x.magnitude < 10 ^ 16) : x.exponent ≤ 1 := by
  by_contra hlt
  obtain ⟨e, hexponent, hmagnitude, hlow, hhigh⟩ := x.magnitude_units
  have hcount : (stepWord : ℚ) ≤ x.significand := by exact_mod_cast hlow.resolve_left (by omega)
  have hpow : (2 : ℚ) ^ (2 : ℤ) ≤ 2 ^ x.exponent := zpow_le_zpow_right₀ (by norm_num) (by omega)
  have hvalue : wordValue x.magnitude = x.significand * 2 ^ x.exponent := rfl
  have hge : (stepWord : ℚ) * 2 ^ (2 : ℤ) ≤ x.significand * 2 ^ x.exponent := by gcongr
  rw [hvalue] at h
  norm_num [stepWord] at hge h
  linarith

/-- A number with a fraction has a shortest decimal with digits behind the point. -/
theorem exponent_shortest_neg (hx : 0 < x.magnitude) (h : x.isWhole = false) : x.shortest.exponent < 0 := by
  by_contra hge
  have hround := roundsTo_shortest hx
  have hcast : x.shortest.toRat = (x.shortest.digits * 10 ^ x.shortest.exponent.toNat : ℕ) * 2 ^ (0 : ℤ) := by
    rw [Decimal.toRat, zpow_zero, mul_one]
    push_cast
    rw [← zpow_natCast, Int.toNat_of_nonneg (by omega)]
  rw [hcast] at hround
  have hvalue := eq_wordValue_of_multiple (exponent_neg_of_not_whole h).le hround
  have hwhole : x.isWhole = true := isWhole_iff.mpr ⟨_, by rw [← hvalue, zpow_zero, mul_one]⟩
  rw [hwhole] at h
  cases h

/-- A whole number below 10^16 is its shortest decimal. -/
theorem toRat_shortest_of_whole (hx : 0 < x.magnitude) {n : ℕ} (hn : wordValue x.magnitude = n) (hlt : n < 10 ^ 16) :
    0 ≤ x.shortest.exponent ∧ x.shortest.toRat = n := by
  have hgrid : RoundsTo (n * 10 ^ (0 : ℤ)) x.magnitude := by
    rw [zpow_zero, mul_one, ← hn]
    exact roundsTo_wordValue _
  have hexponent := exponent_le_shortest hx hgrid
  refine ⟨hexponent, ?_⟩
  have hround := roundsTo_shortest hx
  rcases hexponent.eq_or_lt with hzero | hpos
  · have hexact := toRat_shortest_of_grid hx (c := n) (by rw [← hzero, zpow_zero, mul_one, hn])
    rw [Decimal.toRat, hexact, ← hzero, zpow_zero, mul_one]
  · obtain ⟨g, hg⟩ : ∃ g : ℕ, x.shortest.exponent = (g + 1 : ℕ) := ⟨x.shortest.exponent.toNat - 1, by omega⟩
    have heven : x.shortest.toRat = (x.shortest.digits * 5 * 10 ^ g : ℕ) * 2 ^ (1 : ℤ) := by
      rw [Decimal.toRat, hg, zpow_natCast, pow_succ, zpow_one]
      push_cast
      ring
    have hone : x.exponent ≤ 1 := exponent_le_one (by rw [hn]; exact_mod_cast hlt)
    rw [heven] at hround
    rw [heven, eq_wordValue_of_multiple hone hround, hn]

/-! ## Powers of ten that are written with one digit -/

/-- If the shortest decimal of a number is a power of ten, the numbers from it on are those
    whose first digit counts at least as much. -/
theorem le_leading_iff {y : Binary64} {k : ℤ} (hy : 0 < y.magnitude) (hshort : y.shortest = ⟨1, k⟩)
    (hx : 0 < x.magnitude) : y.magnitude ≤ x.magnitude ↔ k ≤ x.shortest.leading := by
  have hround := roundsTo_shortest hx
  have hten := roundsTo_shortest hy
  have hvalue : y.shortest.toRat = 10 ^ k := by rw [hshort, Decimal.toRat, Nat.cast_one, one_mul]
  rw [hvalue] at hten
  obtain ⟨hlow, hhigh⟩ := Decimal.leading_bounds (digits_shortest_pos hx)
  constructor
  · intro hle
    by_contra hlt
    have hless : x.shortest.toRat < 10 ^ k :=
      hhigh.trans_le (zpow_le_zpow_right₀ (by norm_num) (by omega))
    -- then the two are one number, which is written as the power of ten
    have heq := Nat.le_antisymm (hround.mono hten hless.le) hle
    have hsame : x.shortest = y.shortest := by
      unfold shortest significand exponent
      rw [heq]
    rw [hsame, hvalue] at hless
    exact lt_irrefl _ hless
  · intro hle
    exact hten.mono hround ((zpow_le_zpow_right₀ (by norm_num) hle).trans hlow)

/-- The number 10^16. -/
def tenToSixteen : Binary64 := ⟨0x4341C37937E08000⟩

theorem wordValue_tenToSixteen : wordValue tenToSixteen.magnitude = 10 ^ 16 := by
  have hword : tenToSixteen.magnitude = 1075 * stepWord + 5000000000000000 := by decide
  rw [hword, wordValue_eq (Or.inr (by decide)) (by decide)]
  norm_num

/-- A number is less than 10^16 if its first digit counts less. -/
theorem leading_shortest_lt_iff (hx : 0 < x.magnitude) :
    x.shortest.leading < 16 ↔ wordValue x.magnitude < 10 ^ 16 := by
  have hiff := le_leading_iff (y := tenToSixteen) (k := 16) (by decide) (by decide +kernel) hx
  rw [← wordValue_tenToSixteen, wordValue_strictMono.lt_iff_lt, ← not_le, ← not_le, hiff]

/-! ## The digits of a whole number -/

theorem toDigits_mul_ten_pow {c : ℕ} (hc : 0 < c) (g : ℕ) :
    Nat.toDigits 10 (c * 10 ^ g) = Nat.toDigits 10 c ++ List.replicate g '0' := by
  induction g with
  | zero => rw [Nat.pow_zero, Nat.mul_one, List.replicate_zero, List.append_nil]
  | succ g ih =>
    have hlast := Nat.toDigits_append_toDigits (b := 10) (n := c * 10 ^ g) (d := 0) (by decide) (by positivity)
      (by decide)
    have hten : c * 10 ^ (g + 1) = 10 * (c * 10 ^ g) + 0 := by ring
    rw [hten, ← hlast, ih, Nat.toDigits_zero, List.replicate_succ', List.append_assoc]

/-- The digits of the shortest decimal, filled up with zeros, are those of the number. -/
theorem digitChars_shortest_of_whole (hx : 0 < x.magnitude) {n : ℕ} (hn : wordValue x.magnitude = n)
    (hlt : n < 10 ^ 16) :
    x.shortest.digitChars ++ Decimal.zeros x.shortest.exponent = Nat.toDigits 10 n := by
  obtain ⟨hexponent, hvalue⟩ := toRat_shortest_of_whole hx hn hlt
  have hnat : x.shortest.digits * 10 ^ x.shortest.exponent.toNat = n := by
    rw [Decimal.toRat, ← Int.toNat_of_nonneg hexponent, zpow_natCast] at hvalue
    exact_mod_cast hvalue
  rw [← hnat, toDigits_mul_ten_pow (digits_shortest_pos hx)]
  rfl

end Binary64

end LoxLexer
