/-
  LoxLexer.Proofs.Binary64.Coarsest — no shorter decimal than that of `shortest`.

  What rounds to a word is an interval, so a grid that has any point in it has one of the
  two that enclose the number (`exists_pick?_of_roundsTo`), and the search, which begins
  above every grid that has a point there (`le_gridStart`), stops at the coarsest. A decimal
  of fewer digits would lie below the next power of ten and the one found would not, so
  that power of ten, which is a point of a coarser grid, would lie in the interval.

  A number that is a point of its grid itself is the point taken.

  Proved:
  - `exponent_le_shortest`: no decimal that rounds to a number has a greater exponent than
    the shortest.
  - `length_shortest_le`: nor has any fewer digits.
  - `toRat_shortest_of_grid`: a number that is a multiple of its grid is written exactly.
-/

import LoxLexer.Binary64.Text
import LoxLexer.Proofs.Binary64.Interval

namespace LoxLexer

/-! ## Digits and powers of ten -/

namespace Decimal

variable (d : Decimal)

theorem length_digitChars_pos : 0 < d.digitChars.length := Nat.length_toDigits_pos

theorem digits_lt : d.digits < 10 ^ d.digitChars.length :=
  (Nat.length_toDigits_le_iff (by decide) d.length_digitChars_pos).mp (Nat.le_refl _)

variable {d}

theorem ten_pow_le_digits {k : ℕ} (hk : k < d.digitChars.length) (hd : 0 < d.digits) : 10 ^ k ≤ d.digits := by
  rcases Nat.eq_zero_or_pos k with rfl | hpos
  · rwa [Nat.pow_zero]
  · exact not_lt.mp ((Nat.length_toDigits_le_iff (by decide) hpos).not.mp (by exact Nat.not_le.mpr hk))

/-- The power of ten that the first digit counts, and the next, enclose a decimal. -/
theorem leading_bounds (hd : 0 < d.digits) : 10 ^ d.leading ≤ d.toRat ∧ d.toRat < 10 ^ (d.leading + 1) := by
  have hpos := d.length_digitChars_pos
  have hten : ∀ k : ℕ, (10 : ℚ) ^ (k : ℤ) * 10 ^ d.exponent = 10 ^ (k + d.exponent) := fun k =>
    (zpow_add₀ (by norm_num) _ _).symm
  constructor
  · have hdigits : (10 : ℚ) ^ ((d.digitChars.length - 1 : ℕ) : ℤ) ≤ d.digits := by
      rw [zpow_natCast]
      exact_mod_cast ten_pow_le_digits (Nat.sub_lt hpos Nat.one_pos) hd
    calc (10 : ℚ) ^ d.leading = 10 ^ ((d.digitChars.length - 1 : ℕ) : ℤ) * 10 ^ d.exponent := by
          rw [hten, leading]
          congr 1
          omega
      _ ≤ d.digits * 10 ^ d.exponent := by gcongr
  · have hdigits : (d.digits : ℚ) < 10 ^ (d.digitChars.length : ℤ) := by
      rw [zpow_natCast]
      exact_mod_cast d.digits_lt
    calc d.toRat = d.digits * 10 ^ d.exponent := rfl
      _ < 10 ^ (d.digitChars.length : ℤ) * 10 ^ d.exponent := by gcongr
      _ = 10 ^ (d.leading + 1) := by
        rw [hten, leading]
        congr 1
        omega

end Decimal

namespace Binary64

/-! ## What rounds to a word is an interval -/

namespace RoundsTo

variable {r s t : ℚ} {v w : ℕ}

theorem convex (hr : RoundsTo r w) (ht : RoundsTo t w) (hrs : r ≤ s) (hst : s ≤ t) : RoundsTo s w where
  le_midpoint := hst.trans ht.le_midpoint
  even_of_eq h := ht.even_of_eq (le_antisymm ht.le_midpoint (h ▸ hst))
  midpoint_le v hv := (hr.midpoint_le v hv).trans hrs
  even_of_eq_below v hv h := hr.even_of_eq_below v hv (le_antisymm (hr.midpoint_le v hv) (h ▸ hrs))

/-- Greater numbers round to greater words. -/
theorem mono (hr : RoundsTo r v) (hs : RoundsTo s w) (h : r ≤ s) : v ≤ w := by
  by_contra hlt
  obtain ⟨u, rfl⟩ : ∃ u, v = u + 1 := ⟨v - 1, by omega⟩
  have h1 := hr.midpoint_le u rfl
  have h2 := hs.le_midpoint
  have h3 : midpoint w ≤ midpoint u := midpoint_strictMono.monotone (by omega)
  have heq : r = s := by linarith
  exact hlt (hr.unique (heq ▸ hs)).le

end RoundsTo

/-! ## The points that enclose a number -/

section Points

variable {m : ℕ} {q g : ℤ}

/-- A point of the grid and the number, multiplied by the same number, are whole. -/
theorem point_scaled (c m : ℕ) (q g : ℤ) : ∃ k : ℚ, 0 < k ∧ (c * 10 ^ g : ℚ) = (c * pointUnits q g : ℕ) * k ∧
    (m * 2 ^ q : ℚ) = (4 * m * quarterUnits q g : ℕ) * k := by
  have hscale := pointUnits_mul q g
  have hquarter : (0 : ℚ) < quarterUnits q g := by exact_mod_cast quarterUnits_pos q g
  have hunit := two_zpow_sub_two q
  refine ⟨2 ^ (q - 2) / quarterUnits q g, div_pos (two_zpow_pos _) hquarter, ?_, ?_⟩
  · push_cast
    rw [mul_div_assoc', mul_assoc, hscale]
    field_simp
  · push_cast
    rw [hunit]
    field_simp

theorem le_pointBelow_iff {c : ℕ} : c ≤ pointBelow m q g ↔ (c * 10 ^ g : ℚ) ≤ m * 2 ^ q := by
  obtain ⟨k, hk, hc, hm⟩ := point_scaled c m q g
  rw [pointBelow, Nat.le_div_iff_mul_le (pointUnits_pos q g), hc, hm, mul_le_mul_iff_left₀ hk, Nat.cast_le]

theorem roundEven_mul (c : ℕ) {b : ℕ} (hb : 0 < b) : roundEven (c * b) b = c := by
  rw [roundEven, Nat.mul_mod_left, Nat.mul_div_cancel _ hb, if_pos (by omega)]

/-- A number that is a point of the grid is the point taken. -/
theorem pick?_of_grid {c d : ℕ} (h : (c * 10 ^ g : ℚ) = m * 2 ^ q) (hhits : hits m q g c = true)
    (hd : pick? m q g = some d) : d = c := by
  obtain ⟨k, hk, hc, hm⟩ := point_scaled c m q g
  have hwhole : 4 * m * quarterUnits q g = c * pointUnits q g := by
    rw [hc, hm] at h
    exact_mod_cast (mul_right_cancel₀ hk.ne' h).symm
  have hbelow : pointBelow m q g = c := by
    rw [pointBelow, hwhole, Nat.mul_div_cancel _ (pointUnits_pos q g)]
  rw [pick?_eq, hbelow, hhits, hwhole, roundEven_mul c (pointUnits_pos q g)] at hd
  cases habove : hits m q g (c + 1) with
  | true =>
    rw [habove] at hd
    exact (Option.some.inj hd).symm
  | false =>
    rw [habove] at hd
    exact (Option.some.inj hd).symm

end Points

section Units

variable {e m : ℕ} (hlow : e = 0 ∨ stepWord ≤ m) (hhigh : m < 2 * stepWord)
include hlow hhigh

/-- A grid that has a point in the interval has one that is taken. -/
theorem exists_pick?_of_roundsTo (hpos : 0 < e * stepWord + m) {c : ℕ} {g : ℤ}
    (h : RoundsTo (c * 10 ^ g) (e * stepWord + m)) :
    ∃ d, pick? m ((e : ℤ) - 1074) g = some d := by
  have hvalue := roundsTo_wordValue (e * stepWord + m)
  rw [wordValue_eq hlow hhigh.le] at hvalue
  have hten : (0 : ℚ) < 10 ^ g := by positivity
  have hbelow := (le_pointBelow_iff (m := m) (q := (e : ℤ) - 1074) (g := g)).mp (Nat.le_refl _)
  have habove : (m * 2 ^ ((e : ℤ) - 1074) : ℚ) ≤ (pointBelow m ((e : ℤ) - 1074) g + 1 : ℕ) * 10 ^ g := by
    by_contra hlt
    exact Nat.not_succ_le_self _ (le_pointBelow_iff.mpr (not_le.mp hlt).le)
  apply pick?_of_hits
  rw [hits_iff_roundsTo hlow hhigh hpos, hits_iff_roundsTo hlow hhigh hpos]
  rcases le_or_gt c (pointBelow m ((e : ℤ) - 1074) g) with hc | hc
  · left
    refine h.convex hvalue ?_ hbelow
    gcongr
  · right
    refine hvalue.convex h habove ?_
    gcongr
    exact hc

/-- What rounds to a word is less than the power of two above its significand. -/
theorem lt_of_roundsTo {r : ℚ} (h : RoundsTo r (e * stepWord + m)) :
    r < 2 ^ ((m.log2 : ℤ) + ((e : ℤ) - 1074) + 1) := by
  have hm : m + 1 ≤ 2 ^ (m.log2 + 1) := Nat.lt_log2_self
  calc r ≤ midpoint (e * stepWord + m) := h.le_midpoint
    _ < wordValue (e * stepWord + m + 1) := midpoint_lt_wordValue _
    _ = ((m + 1 : ℕ) : ℚ) * 2 ^ ((e : ℤ) - 1074) := by rw [wordValue_succ hlow hhigh, Nat.cast_succ]
    _ ≤ ((2 ^ (m.log2 + 1) : ℕ) : ℚ) * 2 ^ ((e : ℤ) - 1074) := by gcongr
    _ = 2 ^ ((m.log2 : ℤ) + ((e : ℤ) - 1074) + 1) := by
      rw [Nat.cast_pow, Nat.cast_ofNat, ← zpow_natCast, ← zpow_add₀ (by norm_num)]
      congr 1
      omega

end Units

/-! ## Where the search begins -/

/-- No grid above the first that is tried has a point in the interval. -/
theorem le_gridStart {m : ℕ} {q g : ℤ} (h : (10 : ℚ) ^ g < 2 ^ ((m.log2 : ℤ) + q + 1)) : g ≤ gridStart m q := by
  unfold gridStart
  generalize (m.log2 : ℤ) + q + 1 = k at h ⊢
  dsimp only
  by_contra hlt
  rw [not_le] at hlt
  refine absurd h (not_lt.mpr ?_)
  split at hlt
  · calc (2 : ℚ) ^ k ≤ 2 ^ (3 * g) := zpow_le_zpow_right₀ (by norm_num) (by omega)
      _ = 8 ^ g := by rw [zpow_mul]; norm_num
      _ ≤ 10 ^ g := zpow_le_zpow_left₀ (by omega) (by norm_num) (by norm_num)
  rcases le_or_gt g 0 with hg | hg
  · have hinv : ((16 : ℚ) ^ (-g))⁻¹ ≤ (10 ^ (-g))⁻¹ :=
      inv_anti₀ (by positivity) (zpow_le_zpow_left₀ (by omega) (by norm_num) (by norm_num))
    rw [zpow_neg, inv_inv, zpow_neg, inv_inv] at hinv
    calc (2 : ℚ) ^ k ≤ 2 ^ (4 * g) := zpow_le_zpow_right₀ (by norm_num) (by omega)
      _ = 16 ^ g := by rw [zpow_mul]; norm_num
      _ ≤ 10 ^ g := hinv
  · calc (2 : ℚ) ^ k ≤ 1 := zpow_le_one_of_nonpos₀ (by norm_num) (by omega)
      _ ≤ 10 ^ g := one_le_zpow₀ (by norm_num) hg.le

/-! ## The coarsest grid -/

/-- The search stops no later than at a grid that has a point. -/
theorem le_exponent_shortestFrom {m : ℕ} {q g : ℤ} {d n : ℕ} (hpick : pick? m q g = some d) (hg : g ≤ (n : ℤ) - 324) :
    g ≤ (shortestFrom m q n).exponent := by
  induction n with
  | zero => exact hg
  | succ n ih =>
    rw [shortestFrom]
    split
    · exact hg
    · rename_i hnone
      refine ih ?_
      by_contra hlt
      obtain rfl : g = ((n + 1 : ℕ) : ℤ) - 324 := by omega
      rw [hpick] at hnone
      cases hnone

theorem neg_le_exponent_shortestFrom (m : ℕ) (q : ℤ) (n : ℕ) : -324 ≤ (shortestFrom m q n).exponent := by
  induction n with
  | zero => exact Int.le_refl _
  | succ n ih =>
    rw [shortestFrom]
    split
    · simp only
      omega
    · exact ih

variable {x : Binary64}

/-- No decimal that rounds to a number has a greater exponent than the shortest. -/
theorem exponent_le_shortest (hx : 0 < x.magnitude) {c : ℕ} {g : ℤ} (h : RoundsTo (c * 10 ^ g) x.magnitude) :
    g ≤ x.shortest.exponent := by
  rcases lt_or_ge g (-324) with hg | hg
  · exact hg.le.trans (neg_le_exponent_shortestFrom _ _ _)
  obtain ⟨e, hexponent, hmagnitude, hlow, hhigh⟩ := x.magnitude_units
  have hc : 1 ≤ c := by
    have hpos := h.pos_of_pos hx
    rcases Nat.eq_zero_or_pos c with rfl | hc
    · simp at hpos
    · exact hc
  rw [hmagnitude] at hx h
  have hstart : g ≤ gridStart x.significand x.exponent := by
    apply le_gridStart
    rw [hexponent]
    refine lt_of_le_of_lt ?_ (lt_of_roundsTo hlow hhigh h)
    have hone : (1 : ℚ) ≤ c := by exact_mod_cast hc
    exact le_mul_of_one_le_left (by positivity) hone
  obtain ⟨d, hd⟩ := exists_pick?_of_roundsTo hlow hhigh hx h
  rw [← hexponent] at hd
  exact le_exponent_shortestFrom hd (by omega)

theorem digits_shortest_pos (hx : 0 < x.magnitude) : 0 < x.shortest.digits := by
  have hpos := (roundsTo_shortest hx).pos_of_pos hx
  rcases Nat.eq_zero_or_pos x.shortest.digits with h | h
  · rw [Decimal.toRat, h, Nat.cast_zero, zero_mul] at hpos
    exact absurd hpos (lt_irrefl _)
  · exact h

/-- A number that is a multiple of the unit of its shortest decimal is that decimal. -/
theorem toRat_shortest_of_grid (hx : 0 < x.magnitude) {c : ℕ}
    (h : (c * 10 ^ x.shortest.exponent : ℚ) = wordValue x.magnitude) : x.shortest.digits = c := by
  obtain ⟨e, hexponent, hmagnitude, hlow, hhigh⟩ := x.magnitude_units
  have hround := roundsTo_wordValue x.magnitude
  have hpick := pick?_shortest hx
  rw [hmagnitude] at hx
  rw [← h, hmagnitude, ← hits_iff_roundsTo hlow hhigh hx, ← hexponent] at hround
  exact pick?_of_grid h hround hpick

/-! ## The fewest digits -/

theorem length_shortest_le (hx : 0 < x.magnitude) {d : Decimal} (h : RoundsTo d.toRat x.magnitude) :
    x.shortest.digitChars.length ≤ d.digitChars.length := by
  by_contra hlt
  rw [not_le] at hlt
  have hshortest := roundsTo_shortest hx
  have hexponent := exponent_le_shortest hx h
  -- the power of ten that `d` has too few digits for lies between the two
  have hlow : d.toRat ≤ (1 : ℕ) * 10 ^ (x.shortest.exponent + d.digitChars.length) := by
    have hdigits : (d.digits : ℚ) ≤ 10 ^ d.digitChars.length := by exact_mod_cast d.digits_lt.le
    calc d.toRat = d.digits * 10 ^ d.exponent := rfl
      _ ≤ 10 ^ d.digitChars.length * 10 ^ x.shortest.exponent := by gcongr; norm_num
      _ = (1 : ℕ) * 10 ^ (x.shortest.exponent + d.digitChars.length) := by
        rw [Nat.cast_one, one_mul, zpow_add₀ (by norm_num), zpow_natCast, mul_comm]
  have hhigh : ((1 : ℕ) * 10 ^ (x.shortest.exponent + d.digitChars.length) : ℚ) ≤ x.shortest.toRat := by
    have hdigits : (10 : ℚ) ^ d.digitChars.length ≤ x.shortest.digits := by
      exact_mod_cast Decimal.ten_pow_le_digits hlt (digits_shortest_pos hx)
    calc ((1 : ℕ) * 10 ^ (x.shortest.exponent + d.digitChars.length) : ℚ)
        = 10 ^ d.digitChars.length * 10 ^ x.shortest.exponent := by
          rw [Nat.cast_one, one_mul, zpow_add₀ (by norm_num), zpow_natCast, mul_comm]
      _ ≤ x.shortest.digits * 10 ^ x.shortest.exponent := by gcongr
      _ = x.shortest.toRat := rfl
  have hbetween := exponent_le_shortest hx (h.convex hshortest hlow hhigh)
  have hpos := d.length_digitChars_pos
  omega

end Binary64

end LoxLexer
