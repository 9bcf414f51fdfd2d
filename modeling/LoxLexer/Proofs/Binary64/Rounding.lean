/-
  LoxLexer.Proofs.Binary64.Rounding — `nearest` gives the number nearest to a fraction.

  What nearest means is said over all finite words (`Nearest`): none of them stands for a
  number closer to the fraction, and if another number is as close, the significand is
  even. Infinity is taken from half way between the greatest finite number and the number
  that infinity's word would stand for, and zero up to half of the least positive number.
  No two words are nearest to one number (`Nearest.unique`).

  The computation rounds a count of units, so its word is the one the fraction rounds to
  (`RoundsTo`), as if exponents went on for ever, capped at infinity.

  Proved:
  - `floorLog2_spec`: the power of two under a fraction.
  - `roundEven_spec`: the whole number that a fraction rounds to.
  - `nearest_eq`: the word of `nearest num den` is the word that `num / den` rounds to.
  - `nearest_iff`: `nearest num den` is the one number nearest to `num / den`.
-/

import LoxLexer.Proofs.Binary64.Value

namespace LoxLexer

namespace Binary64

/-! ## The power of two under a fraction -/

section Scaling

variable {num den : ℕ}

theorem log2_bounds {n : ℕ} (hn : 0 < n) : (2 : ℚ) ^ (n.log2 : ℤ) ≤ n ∧ (n : ℚ) < 2 ^ ((n.log2 : ℤ) + 1) := by
  have h1 : 2 ^ n.log2 ≤ n := Nat.log2_self_le (by omega)
  have h2 : n < 2 ^ (n.log2 + 1) := Nat.lt_log2_self
  constructor
  · rw [zpow_natCast]
    exact_mod_cast h1
  · rw [← Int.natCast_succ, zpow_natCast]
    exact_mod_cast h2

/-- Multiplying by `2 ^ q`, on the side of the fraction where it stays whole. -/
theorem scaled_eq (num den : ℕ) (q : ℤ) :
    ((num * Nat.pow 2 (-q).toNat : ℕ) : ℚ) / ((den * Nat.pow 2 q.toNat : ℕ) : ℚ) = (num : ℚ) / den / 2 ^ q := by
  simp only [Nat.pow_eq]
  rcases Int.le_total 0 q with h | h
  · have h1 : (-q).toNat = 0 := by omega
    have h2 : (2 : ℚ) ^ q = 2 ^ q.toNat := by rw [← zpow_natCast, Int.toNat_of_nonneg h]
    rw [h1, h2]
    push_cast
    rw [mul_one, div_div]
  · have h1 : q.toNat = 0 := by omega
    have h2 : (2 : ℚ) ^ q = (2 ^ (-q).toNat)⁻¹ := by
      rw [← zpow_natCast, Int.toNat_of_nonneg (by omega), ← zpow_neg, neg_neg]
    rw [h1, h2]
    push_cast
    rw [mul_one, div_inv_eq_mul, div_mul_eq_mul_div]

theorem floorLog2_spec (hn : 0 < num) (hd : 0 < den) :
    (2 : ℚ) ^ floorLog2 num den ≤ num / den ∧ (num / den : ℚ) < 2 ^ (floorLog2 num den + 1) := by
  obtain ⟨hn1, hn2⟩ := log2_bounds hn
  obtain ⟨hd1, hd2⟩ := log2_bounds hd
  have hdq : (0 : ℚ) < den := by exact_mod_cast hd
  unfold floorLog2
  generalize (num.log2 : ℤ) = a at hn1 hn2
  generalize (den.log2 : ℤ) = b at hd1 hd2
  -- the logarithms alone leave a factor of two open on either side
  have hlow : (2 : ℚ) ^ (a - b - 1) ≤ num / den := by
    rw [le_div_iff₀ hdq]
    calc (2 : ℚ) ^ (a - b - 1) * den ≤ 2 ^ (a - b - 1) * 2 ^ (b + 1) := by gcongr
      _ = 2 ^ a := by rw [← zpow_add₀ (by norm_num)]; congr 1; omega
      _ ≤ num := hn1
  have hhigh : (num / den : ℚ) < 2 ^ (a - b + 1) := by
    rw [div_lt_iff₀ hdq]
    calc (num : ℚ) < 2 ^ (a + 1) := hn2
      _ = 2 ^ (a - b + 1) * 2 ^ b := by rw [← zpow_add₀ (by norm_num)]; congr 1; omega
      _ ≤ 2 ^ (a - b + 1) * den := by gcongr
  -- the comparison in the definition decides which of the two it is
  have hcmp : den * Nat.pow 2 (a - b).toNat ≤ num * Nat.pow 2 (-(a - b)).toNat ↔ (2 : ℚ) ^ (a - b) ≤ num / den := by
    have hs := scaled_eq num den (a - b)
    have hpos : (0 : ℚ) < ((den * Nat.pow 2 (a - b).toNat : ℕ) : ℚ) := by
      simp only [Nat.pow_eq]
      positivity
    rw [← one_le_div (two_zpow_pos _), ← hs, one_le_div hpos, Nat.cast_le]
  dsimp only
  split
  · exact ⟨hcmp.mp ‹_›, hhigh⟩
  · rename_i h
    rw [hcmp, not_le] at h
    exact ⟨hlow, by rwa [sub_add_cancel]⟩

end Scaling

/-! ## Rounding to a whole number -/

/-- The whole number is at most a half away, and even if it is a half away. -/
theorem roundEven_spec (a : ℕ) {b : ℕ} (hb : 0 < b) :
    (a / b : ℚ) ≤ roundEven a b + 1 / 2 ∧ ((a / b : ℚ) = roundEven a b + 1 / 2 → roundEven a b % 2 = 0) ∧
      roundEven a b - 1 / 2 ≤ (a / b : ℚ) ∧ (roundEven a b - 1 / 2 = (a / b : ℚ) → roundEven a b % 2 = 0) := by
  have hbq : (0 : ℚ) < b := by exact_mod_cast hb
  have hsplit : (a / b : ℚ) = (a / b : ℕ) + (a % b : ℕ) / b := by
    rw [div_eq_iff hbq.ne', add_mul, div_mul_cancel₀ _ hbq.ne']
    exact_mod_cast (Nat.div_add_mod' a b).symm
  have hpos : (0 : ℚ) ≤ (a % b : ℕ) / b := by positivity
  rw [hsplit]
  unfold roundEven
  by_cases h1 : 2 * (a % b) < b
  · rw [if_pos h1]
    have hlt : ((a % b : ℕ) / b : ℚ) < 1 / 2 := by
      rw [div_lt_iff₀ hbq]
      have : (2 * (a % b : ℕ) : ℚ) < b := by exact_mod_cast h1
      linarith
    exact ⟨by linarith, fun h => by linarith, by linarith, fun h => by linarith⟩
  rw [if_neg h1]
  by_cases h2 : b < 2 * (a % b)
  · rw [if_pos h2]
    have hgt : 1 / 2 < ((a % b : ℕ) / b : ℚ) := by
      rw [lt_div_iff₀ hbq]
      have : (b : ℚ) < 2 * (a % b : ℕ) := by exact_mod_cast h2
      linarith
    have hone : ((a % b : ℕ) / b : ℚ) < 1 := by
      rw [div_lt_one hbq]
      exact_mod_cast Nat.mod_lt a hb
    push_cast
    exact ⟨by linarith, fun h => by linarith, by linarith, fun h => by linarith⟩
  · rw [if_neg h2]
    have hhalf : ((a % b : ℕ) / b : ℚ) = 1 / 2 := by
      rw [div_eq_iff hbq.ne']
      have : (2 * (a % b : ℕ) : ℚ) = b := by exact_mod_cast (by omega : 2 * (a % b) = b)
      linarith
    have heven : (a / b + a / b % 2) % 2 = 0 := by omega
    rw [hhalf]
    rcases Nat.mod_two_eq_zero_or_one (a / b) with h | h
    · rw [h]
      push_cast
      exact ⟨by linarith, fun _ => h, by linarith, fun _ => h⟩
    · rw [h] at heven ⊢
      push_cast
      exact ⟨by linarith, fun _ => heven, by linarith, fun _ => heven⟩

theorem le_roundEven {a b n : ℕ} (hb : 0 < b) (h : (n : ℚ) ≤ a / b) : n ≤ roundEven a b := by
  have h1 := (roundEven_spec a hb).1
  have h2 : (n : ℚ) < roundEven a b + 1 := by linarith
  exact Nat.lt_succ_iff.mp (by exact_mod_cast h2)

theorem roundEven_le {a b n : ℕ} (hb : 0 < b) (h : (a / b : ℚ) < n) : roundEven a b ≤ n := by
  have h1 := (roundEven_spec a hb).2.2.1
  have h2 : (roundEven a b : ℚ) < n + 1 := by linarith
  exact Nat.lt_succ_iff.mp (by exact_mod_cast h2)

/-! ## The word of a count of units -/

theorem midpoint_units {e m : ℕ} (hlow : e = 0 ∨ stepWord ≤ m) (hhigh : m < 2 * stepWord) :
    midpoint (e * stepWord + m) = (m + 1 / 2) * 2 ^ ((e : ℤ) - 1074) := by
  rw [midpoint, wordValue_succ hlow hhigh, wordValue_eq hlow hhigh.le]
  ring

theorem units_mod_two (e m : ℕ) : (e * stepWord + m) % 2 = m % 2 := by
  have hstep : stepWord = 2 * 2251799813685248 := rfl
  rw [hstep]
  omega

/-- The midpoint in front of a word is half a unit away, but only a quarter where the word
    is the first with its exponent: the units in front of it are half as wide. -/
theorem midpoint_below {e m v : ℕ} (hlow : e = 0 ∨ stepWord ≤ m) (hhigh : m ≤ 2 * stepWord)
    (hv : v + 1 = e * stepWord + m) :
    (m = stepWord ∧ 0 < e) ∧ midpoint v = (m - 1 / 4) * 2 ^ ((e : ℤ) - 1074) ∨
      ¬ (m = stepWord ∧ 0 < e) ∧ midpoint v = (m - 1 / 2) * 2 ^ ((e : ℤ) - 1074) := by
  have hstep : stepWord = 4503599627370496 := rfl
  by_cases hfirst : m = stepWord ∧ 0 < e
  · refine Or.inl ⟨hfirst, ?_⟩
    obtain ⟨rfl, he⟩ := hfirst
    obtain ⟨k, rfl⟩ : ∃ k, e = k + 1 := ⟨e - 1, by omega⟩
    have hv' : v = k * stepWord + (2 * stepWord - 1) := by rw [hstep] at hv ⊢; omega
    have hexp : ((k + 1 : ℕ) : ℤ) - 1074 = ((k : ℤ) - 1074) + 1 := by omega
    rw [hv', midpoint_units (Or.inr (by decide)) (by decide), hexp, two_zpow_succ, hstep]
    generalize (2 : ℚ) ^ ((k : ℤ) - 1074) = u
    push_cast
    ring
  · refine Or.inr ⟨hfirst, ?_⟩
    have hpos : 1 ≤ m := by rw [hstep] at hv hlow; omega
    have hv' : v = e * stepWord + (m - 1) := by omega
    rw [hv', midpoint_units (by omega) (by omega)]
    push_cast [hpos]
    ring

/-- A count `t` of units of `2 ^ (e - 1074)`, of at least one step unless the units are the
    smallest there are, and of less than two: rounded to a whole number it gives the word. -/
theorem roundsTo_of_units {t : ℚ} {e m : ℕ} (ht : t < 2 * stepWord) (hlow : e = 0 ∨ stepWord ≤ t)
    (hm : e = 0 ∨ stepWord ≤ m) (hm' : m ≤ 2 * stepWord) (h1 : t ≤ m + 1 / 2) (h2 : t = m + 1 / 2 → m % 2 = 0)
    (h3 : m - 1 / 2 ≤ t) (h4 : m - 1 / 2 = t → m % 2 = 0) :
    RoundsTo (t * 2 ^ ((e : ℤ) - 1074)) (e * stepWord + m) := by
  have hu := two_zpow_pos ((e : ℤ) - 1074)
  have hvalue := wordValue_eq hm hm'
  have habove : m < 2 * stepWord ∧ midpoint (e * stepWord + m) = (m + 1 / 2) * 2 ^ ((e : ℤ) - 1074) ∨
      t * 2 ^ ((e : ℤ) - 1074) < midpoint (e * stepWord + m) := by
    by_cases hlt : m < 2 * stepWord
    · exact Or.inl ⟨hlt, midpoint_units hm hlt⟩
    · right
      have hm2 : (m : ℚ) = 2 * stepWord := by exact_mod_cast (by omega : m = 2 * stepWord)
      calc t * 2 ^ ((e : ℤ) - 1074) < m * 2 ^ ((e : ℤ) - 1074) := by rw [hm2]; gcongr
        _ = wordValue (e * stepWord + m) := hvalue.symm
        _ < midpoint (e * stepWord + m) := wordValue_lt_midpoint _
  have hbelow : ∀ v, v + 1 = e * stepWord + m → midpoint v = (m - 1 / 2) * 2 ^ ((e : ℤ) - 1074) ∨
      midpoint v < t * 2 ^ ((e : ℤ) - 1074) := by
    intro v hv
    rcases midpoint_below hm hm' hv with ⟨⟨hms, he⟩, h⟩ | ⟨_, h⟩
    · right
      have hmt : (m : ℚ) ≤ t := by
        rw [hms]
        exact hlow.resolve_left he.ne'
      rw [h]
      exact mul_lt_mul_of_pos_right (by linarith) hu
    · exact Or.inl h
  refine ⟨?_, fun heq => ?_, fun v hv => ?_, fun v hv heq => ?_⟩
  · rcases habove with ⟨_, h⟩ | h
    · rw [h]
      gcongr
    · exact h.le
  · rw [units_mod_two]
    rcases habove with ⟨_, h⟩ | h
    · rw [h] at heq
      exact h2 (mul_right_cancel₀ hu.ne' heq)
    · exact absurd heq h.ne
  · rcases hbelow v hv with h | h
    · rw [h]
      gcongr
    · exact h.le
  · rw [units_mod_two]
    rcases hbelow v hv with h | h
    · rw [h] at heq
      exact h4 (mul_right_cancel₀ hu.ne' heq)
    · exact absurd heq h.ne

/-! ## The word of `nearest` -/

/-- The unit is as fine as it can be for a count of less than two steps of it. -/
theorem unitExponent_spec {num den : ℕ} (hn : 0 < num) (hd : 0 < den) :
    -1074 ≤ unitExponent num den ∧ (num / den / 2 ^ unitExponent num den : ℚ) < 2 * stepWord ∧
      (unitExponent num den = -1074 ∨ (stepWord : ℚ) ≤ num / den / 2 ^ unitExponent num den) := by
  have hstep : (stepWord : ℚ) = 2 ^ (52 : ℤ) := by norm_num [stepWord]
  obtain ⟨hk1, hk2⟩ := floorLog2_spec hn hd
  have hq1 : -1074 ≤ unitExponent num den := by unfold unitExponent; omega
  have hq2 : floorLog2 num den + 1 ≤ 53 + unitExponent num den := by unfold unitExponent; omega
  have hq3 : unitExponent num den = -1074 ∨ floorLog2 num den = 52 + unitExponent num den := by
    unfold unitExponent
    omega
  generalize unitExponent num den = q at hq1 hq2 hq3 ⊢
  refine ⟨hq1, ?_, ?_⟩
  · rw [div_lt_iff₀ (two_zpow_pos q), hstep]
    calc (num / den : ℚ) < 2 ^ (floorLog2 num den + 1) := hk2
      _ ≤ 2 ^ (53 + q) := zpow_le_zpow_right₀ (by norm_num) hq2
      _ = 2 * 2 ^ (52 : ℤ) * 2 ^ q := by rw [zpow_add₀ (by norm_num)]; norm_num
  · refine hq3.imp_right fun hk => ?_
    rw [le_div_iff₀ (two_zpow_pos q), hstep, ← zpow_add₀ (by norm_num), ← hk]
    exact hk1

/-- The word of `nearest num den` is the word that `num / den` rounds to, or infinity's if
    that is less. -/
theorem nearest_eq (num : ℕ) {den : ℕ} (hd : 0 < den) :
    ∃ w, RoundsTo (num / den) w ∧ nearest num den = ofMagnitude (min infinityWord w) := by
  by_cases hn : num = 0
  · refine ⟨0, ?_, by rw [nearest, if_pos hn, Nat.min_zero]⟩
    have h := roundsTo_wordValue 0
    rw [wordValue_zero] at h
    rwa [hn, Nat.cast_zero, zero_div]
  obtain ⟨hq, hlt, hge⟩ := unitExponent_spec (Nat.pos_of_ne_zero hn) hd
  rw [nearest, if_neg hn]
  refine ⟨_, ?_, rfl⟩
  have hscaled := scaled_eq num den (unitExponent num den)
  generalize unitExponent num den = q at hq hlt hge hscaled ⊢
  have hb : 0 < den * Nat.pow 2 q.toNat := Nat.mul_pos hd (Nat.pow_pos (by omega))
  rw [← hscaled] at hlt hge
  have hspec := roundEven_spec (num * Nat.pow 2 (-q).toNat) hb
  have hle : roundEven (num * Nat.pow 2 (-q).toNat) (den * Nat.pow 2 q.toNat) ≤ 2 * stepWord :=
    roundEven_le hb (by exact_mod_cast hlt)
  have he : ((q + 1074).toNat : ℤ) - 1074 = q := by omega
  have hnum : (num / den : ℚ) = ((num * Nat.pow 2 (-q).toNat : ℕ) : ℚ) / ((den * Nat.pow 2 q.toNat : ℕ) : ℚ) *
      2 ^ (((q + 1074).toNat : ℤ) - 1074) := by
    rw [he, hscaled, div_mul_cancel₀ _ (two_zpow_pos q).ne']
  rw [hnum]
  obtain ⟨h1, h2, h3, h4⟩ := hspec
  refine roundsTo_of_units hlt (hge.imp_left fun h => by omega) ?_ hle h1 h2 h3 h4
  exact hge.imp (fun h => by omega) fun h => le_roundEven hb h

/-! ## The nearest number -/

/-- The word is that of the number nearest to `r`, a number that is not negative. -/
structure Nearest (r : ℚ) (x : Binary64) : Prop where
  not_negative : x.isNegative = false
  not_nan : x.isNaN = false
  infinite_iff : x.bits = 0x7FF0000000000000 ↔ 2 ^ 1024 - 2 ^ 970 ≤ r
  zero_iff : x.bits = 0 ↔ r ≤ 2 ^ (-1075 : ℤ)
  closest : x.isFinite = true → ∀ y : Binary64, y.isFinite = true → |x.toRat - r| ≤ |y.toRat - r|
  even : x.isFinite = true → ∀ y : Binary64, y.isFinite = true → y.toRat ≠ x.toRat →
    |y.toRat - r| = |x.toRat - r| → x.significand % 2 = 0

theorem midpoint_zero : midpoint 0 = 2 ^ (-1075 : ℤ) := by
  have h := midpoint_units (e := 0) (m := 0) (Or.inl rfl) (by decide)
  have hexp : ((0 : ℕ) : ℤ) - 1074 = -1075 + 1 := by omega
  rw [Nat.zero_mul, hexp, two_zpow_succ] at h
  rw [h, Nat.cast_zero]
  ring

/-- Half way from the greatest finite number to what infinity's word would stand for. -/
theorem midpoint_last : midpoint (infinityWord - 1) = 2 ^ 1024 - 2 ^ 970 := by
  have hw : infinityWord - 1 = 2045 * stepWord + (2 * stepWord - 1) := by decide
  have hunit : (2 : ℚ) ^ (((2045 : ℕ) : ℤ) - 1074) = 2 * 2 ^ 970 := by
    rw [show ((2045 : ℕ) : ℤ) - 1074 = ((971 : ℕ) : ℤ) by omega, zpow_natCast, pow_succ']
  have hinf : (2 : ℚ) ^ 1024 = 18014398509481984 * 2 ^ 970 := by
    rw [show 1024 = 54 + 970 from rfl, pow_add]
    norm_num
  have hcount : ((2 * stepWord - 1 : ℕ) : ℚ) = 9007199254740991 := by norm_num [stepWord]
  rw [hw, midpoint_units (Or.inr (by decide)) (by decide), hunit, hinf, hcount]
  generalize (2 : ℚ) ^ 970 = u
  ring

theorem toNat_ofMagnitude {w : ℕ} (h : w ≤ infinityWord) : (ofMagnitude w).bits.toNat = w := by
  have hinf : infinityWord = 9218868437227405312 := rfl
  exact UInt64.toNat_ofNat_of_lt' (show w < 18446744073709551616 by omega)

theorem magnitude_ofMagnitude {w : ℕ} (h : w ≤ infinityWord) : (ofMagnitude w).magnitude = w := by
  have hlt : infinityWord < signWord := by decide
  rw [magnitude, toNat_ofMagnitude h, Nat.mod_eq_of_lt (by omega)]

theorem isNegative_ofMagnitude {w : ℕ} (h : w ≤ infinityWord) : (ofMagnitude w).isNegative = false := by
  have hlt : infinityWord < signWord := by decide
  rw [isNegative, toNat_ofMagnitude h, decide_eq_false_iff_not]
  omega

/-- A word without sign that is a number or infinity is that of its magnitude. -/
theorem ofMagnitude_magnitude {x : Binary64} (hs : x.isNegative = false) : ofMagnitude x.magnitude = x := by
  rw [isNegative, decide_eq_false_iff_not, not_le] at hs
  rw [magnitude, Nat.mod_eq_of_lt hs, ofMagnitude, UInt64.ofNat_toNat]

theorem toRat_ofMagnitude {w : ℕ} (h : w ≤ infinityWord) : (ofMagnitude w).toRat = wordValue w := by
  rw [toRat_eq, isNegative_ofMagnitude h, magnitude_ofMagnitude h]
  exact one_mul _

theorem significand_mod_two (x : Binary64) : x.significand % 2 = x.magnitude % 2 := by
  have hstep : stepWord = 2 * 2251799813685248 := rfl
  unfold significand
  split
  · rfl
  · rw [hstep]
    omega

theorem isFinite_iff {x : Binary64} : x.isFinite = true ↔ x.magnitude < infinityWord := decide_eq_true_iff

theorem isNaN_iff {x : Binary64} : x.isNaN = false ↔ x.magnitude ≤ infinityWord :=
  decide_eq_false_iff_not.trans not_lt

theorem isNaN_of_isFinite {x : Binary64} (hf : x.isFinite = true) : x.isNaN = false :=
  isNaN_iff.mpr (isFinite_iff.mp hf).le

theorem isFinite_ofMagnitude {w : ℕ} (h : w ≤ infinityWord) : (ofMagnitude w).isFinite = true ↔ w < infinityWord := by
  rw [isFinite_iff, magnitude_ofMagnitude h]

/-- A number with a sign is no nearer to `r` than the one without. -/
theorem abs_sub_le_toRat {r : ℚ} (hr : 0 ≤ r) (y : Binary64) : |wordValue y.magnitude - r| ≤ |y.toRat - r| := by
  have hv := wordValue_nonneg y.magnitude
  rw [toRat_eq]
  cases y.isNegative with
  | false => simp
  | true =>
    rw [if_pos rfl, abs_of_nonpos (a := -1 * wordValue y.magnitude - r) (by linarith)]
    exact abs_le.mpr ⟨by linarith, by linarith⟩

/-- A number as near as the one that `r` rounds to has another word behind its sign, or
    that word is zero's. -/
theorem magnitude_ne_of_tie {r : ℚ} {w : ℕ} (h : RoundsTo r w) (hw : 0 < w) {y : Binary64}
    (hne : y.toRat ≠ wordValue w) (heq : |y.toRat - r| = |wordValue w - r|) : y.magnitude ≠ w := by
  rintro rfl
  have hr := h.pos_of_pos hw
  have hv : 0 < wordValue y.magnitude := by
    rw [← wordValue_zero]
    exact wordValue_strictMono hw
  rw [toRat_eq] at hne heq
  cases hs : y.isNegative with
  | false => simp [hs] at hne
  | true =>
    rw [hs, if_pos rfl, abs_of_nonpos (a := -1 * wordValue y.magnitude - r) (by linarith)] at heq
    rcases abs_cases (wordValue y.magnitude - r) with ⟨habs, _⟩ | ⟨habs, _⟩ <;> rw [habs] at heq <;> linarith

/-- The word that a number rounds to, capped at infinity, is that of the nearest number. -/
theorem nearest_of_roundsTo {r : ℚ} (hr : 0 ≤ r) {w : ℕ} (h : RoundsTo r w) :
    Nearest r (ofMagnitude (min infinityWord w)) := by
  have hle : min infinityWord w ≤ infinityWord := Nat.min_le_left ..
  have hbits : ∀ {n : ℕ} {b : UInt64}, b.toNat = n →
      ((ofMagnitude (min infinityWord w)).bits = b ↔ min infinityWord w = n) := by
    intro n b hb
    rw [← UInt64.toNat_inj, toNat_ofMagnitude hle, hb]
  -- a finite result is not capped
  have hfin : (ofMagnitude (min infinityWord w)).isFinite = true → min infinityWord w = w := by
    rw [isFinite_ofMagnitude hle]
    omega
  refine ⟨isNegative_ofMagnitude hle, ?_, ?_, ?_, fun hf y _ => ?_, fun hf y _ hne heq => ?_⟩
  · rwa [isNaN_iff, magnitude_ofMagnitude hle]
  · have hmin : min infinityWord w = infinityWord ↔ infinityWord - 1 + 1 ≤ w := by
      have : 0 < infinityWord := by decide
      omega
    rw [hbits (n := infinityWord) rfl, hmin, h.succ_le_iff (by decide), midpoint_last]
  · have hmin : min infinityWord w = 0 ↔ w ≤ 0 := by
      have : 0 < infinityWord := by decide
      omega
    rw [hbits (n := 0) rfl, hmin, h.le_iff rfl, midpoint_zero]
  · rw [toRat_ofMagnitude hle, hfin hf]
    exact (h.closest _).trans (abs_sub_le_toRat hr y)
  · rw [toRat_ofMagnitude hle, hfin hf] at hne heq
    rw [significand_mod_two, magnitude_ofMagnitude hle, hfin hf]
    by_cases hw : w = 0
    · rw [hw]
    have hmag := magnitude_ne_of_tie h (Nat.pos_of_ne_zero hw) hne heq
    refine h.even_of_tie hmag (le_antisymm ?_ (h.closest _))
    rw [← heq]
    exact abs_sub_le_toRat hr y

namespace Nearest

variable {r : ℚ} {x y : Binary64}

theorem isFinite_and_toRat (hx : Nearest r x) (hinf : x.bits ≠ 0x7FF0000000000000) :
    x.isFinite = true ∧ x.toRat = wordValue x.magnitude := by
  have hs := hx.not_negative
  have hn := isNaN_iff.mp hx.not_nan
  rw [isNegative, decide_eq_false_iff_not, not_le] at hs
  refine ⟨?_, by rw [toRat_eq, hx.not_negative]; exact one_mul _⟩
  have hne : x.magnitude ≠ infinityWord := by
    intro h
    rw [magnitude, Nat.mod_eq_of_lt hs] at h
    exact hinf (UInt64.toNat_inj.mp h)
  exact isFinite_iff.mpr (by omega)

/-- Two nearest numbers would be as near and both be even, and a number between them
    would be nearer. -/
theorem magnitude_le (hx : Nearest r x) (hy : Nearest r y) (hxinf : x.bits ≠ 0x7FF0000000000000)
    (hyinf : y.bits ≠ 0x7FF0000000000000) : y.magnitude ≤ x.magnitude := by
  obtain ⟨hxf, hxr⟩ := hx.isFinite_and_toRat hxinf
  obtain ⟨hyf, hyr⟩ := hy.isFinite_and_toRat hyinf
  by_contra hlt
  rw [not_le] at hlt
  have hvalue := wordValue_strictMono hlt
  have heq : |y.toRat - r| = |x.toRat - r| := le_antisymm (hy.closest hyf x hxf) (hx.closest hxf y hyf)
  have hxe := hx.even hxf y hyf (by rw [hxr, hyr]; exact hvalue.ne') heq
  have hye := hy.even hyf x hxf (by rw [hxr, hyr]; exact hvalue.ne) heq.symm
  rw [significand_mod_two] at hxe hye
  have hfin := isFinite_iff.mp hyf
  have hle : x.magnitude + 1 ≤ infinityWord := by omega
  have h1 := wordValue_strictMono (Nat.lt_succ_self x.magnitude)
  have h2 : wordValue (x.magnitude + 1) < wordValue y.magnitude := wordValue_strictMono (by omega)
  have hmid := hx.closest hxf _ ((isFinite_ofMagnitude hle).mpr (by omega))
  rw [toRat_ofMagnitude hle, hxr] at hmid
  rw [hxr, hyr] at heq
  simp only [Nat.succ_eq_add_one] at h1
  rcases abs_cases (wordValue y.magnitude - r) with ⟨ha, _⟩ | ⟨ha, _⟩ <;>
    rcases abs_cases (wordValue x.magnitude - r) with ⟨hb, _⟩ | ⟨hb, _⟩ <;>
    rcases abs_cases (wordValue (x.magnitude + 1) - r) with ⟨hc, _⟩ | ⟨hc, _⟩ <;>
    rw [ha, hb] at heq <;> rw [hb, hc] at hmid <;> linarith

theorem unique (hx : Nearest r x) (hy : Nearest r y) : x = y := by
  by_cases hr : 2 ^ 1024 - 2 ^ 970 ≤ r
  · have hxb := hx.infinite_iff.mpr hr
    have hyb := hy.infinite_iff.mpr hr
    cases x
    cases y
    exact congrArg _ (hxb.trans hyb.symm)
  · have hxb : x.bits ≠ 0x7FF0000000000000 := fun h => hr (hx.infinite_iff.mp h)
    have hyb : y.bits ≠ 0x7FF0000000000000 := fun h => hr (hy.infinite_iff.mp h)
    have hmag := Nat.le_antisymm (hy.magnitude_le hx hyb hxb) (hx.magnitude_le hy hxb hyb)
    rw [← ofMagnitude_magnitude hx.not_negative, ← ofMagnitude_magnitude hy.not_negative, hmag]

end Nearest

/-- `nearest num den` is the one number nearest to `num / den`. -/
theorem nearest_iff (num : ℕ) {den : ℕ} (hd : 0 < den) {x : Binary64} :
    Nearest (num / den) x ↔ x = nearest num den := by
  obtain ⟨w, hw, heq⟩ := nearest_eq num hd
  have h := nearest_of_roundsTo (by positivity) hw
  rw [← heq] at h
  constructor
  · intro hx
    exact hx.unique h
  · rintro rfl
    exact h

/-- A finite number is nearest to what rounds to its word. -/
theorem nearest_iff_roundsTo {r : ℚ} (hr : 0 ≤ r) {x : Binary64} (hs : x.isNegative = false) (hf : x.isFinite = true) :
    Nearest r x ↔ RoundsTo r x.magnitude := by
  have hlt := isFinite_iff.mp hf
  constructor
  · intro h
    obtain ⟨w, hw, heq⟩ := nearest_eq r.num.toNat r.pos
    have hnum : ((r.num.toNat : ℕ) : ℚ) = r.num := by exact_mod_cast Int.toNat_of_nonneg (Rat.num_nonneg.mpr hr)
    have hcast : ((r.num.toNat : ℕ) / r.den : ℚ) = r := by rw [hnum, Rat.num_div_den]
    have hx := (nearest_iff r.num.toNat r.pos).mp (hcast.symm ▸ h)
    rw [hcast] at hw
    rw [hx, heq, magnitude_ofMagnitude (Nat.min_le_left ..)] at hlt ⊢
    rwa [Nat.min_eq_right (by omega)]
  · intro h
    have hx := nearest_of_roundsTo hr h
    rwa [Nat.min_eq_right hlt.le, ofMagnitude_magnitude hs] at hx

end Binary64

end LoxLexer
