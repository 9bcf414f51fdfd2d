/-
  LoxLexer.Proofs.Binary64.Interval — the decimal of `shortest` rounds to its number.

  The numbers that round to a word form an interval, whose edges are the midpoints to the
  words beside it. In quarters of the word's unit the edges are whole (`lowEdge`,
  `highEdge`), and a point of a grid is compared with them by making both sides whole
  (`pointUnits`, `quarterUnits`), so the comparison of whole numbers decides exactly
  whether the point rounds to the word.

  Proved:
  - `hits_iff_roundsTo`: the points of a grid that lie in the interval round to the word.
  - `exists_pick?`: the finest grid has a point in every interval.
  - `roundsTo_shortest`: the decimal found rounds to the word it was looked for.
-/

import LoxLexer.Binary64.Shortest
import LoxLexer.Proofs.Binary64.Rounding

namespace LoxLexer

/-- The number that a decimal stands for. -/
def Decimal.toRat (d : Decimal) : ℚ := d.digits * 10 ^ d.exponent

namespace Binary64

/-! ## The edges of an interval -/

theorem RoundsTo.succ_iff {r : ℚ} {v : ℕ} : RoundsTo r (v + 1) ↔
    midpoint v ≤ r ∧ r ≤ midpoint (v + 1) ∧ (r ≤ midpoint v ∨ midpoint (v + 1) ≤ r → (v + 1) % 2 = 0) := by
  constructor
  · intro h
    have hlow := h.midpoint_le v rfl
    refine ⟨hlow, h.le_midpoint, ?_⟩
    rintro (hr | hr)
    · exact h.even_of_eq_below v rfl (le_antisymm hlow hr)
    · exact h.even_of_eq (le_antisymm h.le_midpoint hr)
  · rintro ⟨hlow, hhigh, heven⟩
    refine ⟨hhigh, fun hr => heven (Or.inr hr.ge), fun u hu => ?_, fun u hu hr => ?_⟩
    · rwa [Nat.succ_injective hu]
    · rw [Nat.succ_injective hu] at hr
      exact heven (Or.inl hr.ge)

theorem within_iff {m lo n hi : ℕ} :
    within m lo n hi = true ↔ lo ≤ n ∧ n ≤ hi ∧ (n ≤ lo ∨ hi ≤ n → m % 2 = 0) := by
  unfold within
  split <;> rw [decide_eq_true_iff] <;> omega

/-- A word as steps and a count of units, both taken from its parts. -/
theorem magnitude_units (x : Binary64) : ∃ e : ℕ, x.exponent = (e : ℤ) - 1074 ∧
    x.magnitude = e * stepWord + x.significand ∧ (e = 0 ∨ stepWord ≤ x.significand) ∧ x.significand < 2 * stepWord := by
  have hstep : stepWord = 4503599627370496 := rfl
  unfold exponent significand
  rw [hstep]
  refine ⟨max (x.magnitude / 4503599627370496) 1 - 1, by omega, ?_⟩
  split <;> omega

theorem two_zpow_sub_two (q : ℤ) : (2 : ℚ) ^ (q - 2) = 2 ^ q / 4 := by
  rw [zpow_sub₀ (by norm_num)]
  norm_num

section Edges

variable {e m : ℕ} (hlow : e = 0 ∨ stepWord ≤ m) (hhigh : m < 2 * stepWord)
include hlow hhigh

theorem midpoint_eq_highEdge : midpoint (e * stepWord + m) = highEdge m * 2 ^ ((e : ℤ) - 1074 - 2) := by
  rw [midpoint_units hlow hhigh, two_zpow_sub_two, highEdge]
  generalize (2 : ℚ) ^ ((e : ℤ) - 1074) = u
  push_cast
  ring

theorem midpoint_eq_lowEdge {v : ℕ} (hv : v + 1 = e * stepWord + m) :
    midpoint v = lowEdge m ((e : ℤ) - 1074) * 2 ^ ((e : ℤ) - 1074 - 2) := by
  have hstep : stepWord = 4503599627370496 := rfl
  have hpos : 1 ≤ m := by rw [hstep] at hv hlow; omega
  rw [two_zpow_sub_two, lowEdge]
  rcases midpoint_below hlow hhigh.le hv with ⟨⟨hm, he⟩, h⟩ | ⟨hno, h⟩
  · rw [h, if_pos ⟨hm, by omega⟩]
    generalize (2 : ℚ) ^ ((e : ℤ) - 1074) = u
    push_cast [(by omega : 1 ≤ 4 * m)]
    ring
  · rw [h, if_neg fun hfirst => hno ⟨hfirst.1, by omega⟩]
    generalize (2 : ℚ) ^ ((e : ℤ) - 1074) = u
    push_cast [(by omega : 2 ≤ 4 * m)]
    ring

end Edges

/-! ## The points of a grid -/

/-- What a point of the grid of `10 ^ g` is multiplied by to compare it. -/
def pointUnits (q g : ℤ) : ℕ := Nat.pow 10 g.toNat * Nat.pow 2 (2 - q).toNat

/-- What a quarter of `2 ^ q` is multiplied by to compare it. -/
def quarterUnits (q g : ℤ) : ℕ := Nat.pow 2 (q - 2).toNat * Nat.pow 10 (-g).toNat

theorem quarterUnits_pos (q g : ℤ) : 0 < quarterUnits q g :=
  Nat.mul_pos (Nat.pow_pos (by omega)) (Nat.pow_pos (by omega))

theorem pointUnits_pos (q g : ℤ) : 0 < pointUnits q g :=
  Nat.mul_pos (Nat.pow_pos (by omega)) (Nat.pow_pos (by omega))

theorem pow_toNat_eq {b : ℚ} (hb : b ≠ 0) (e : ℤ) : b ^ e.toNat = b ^ (-e).toNat * b ^ e := by
  rw [← zpow_natCast, ← zpow_natCast, ← zpow_add₀ hb]
  congr 1
  omega

/-- The two are multiplied by the same number. -/
theorem pointUnits_mul (q g : ℤ) : (pointUnits q g : ℚ) * 2 ^ (q - 2) = quarterUnits q g * 10 ^ g := by
  have h2 := pow_toNat_eq (by norm_num : (2 : ℚ) ≠ 0) (q - 2)
  have h10 := pow_toNat_eq (by norm_num : (10 : ℚ) ≠ 0) g
  rw [neg_sub] at h2
  simp only [pointUnits, quarterUnits, Nat.pow_eq]
  push_cast
  rw [h2, h10]
  ring

/-- Whether a point of the grid lies in the interval. -/
def hits (m : ℕ) (q g : ℤ) (c : ℕ) : Bool :=
  within m (lowEdge m q * quarterUnits q g) (c * pointUnits q g) (highEdge m * quarterUnits q g)

/-- The last point of the grid that is not greater than the number. -/
def pointBelow (m : ℕ) (q g : ℤ) : ℕ := 4 * m * quarterUnits q g / pointUnits q g

theorem pick?_eq (m : ℕ) (q g : ℤ) : pick? m q g =
    match hits m q g (pointBelow m q g), hits m q g (pointBelow m q g + 1) with
    | true, true => some (roundEven (4 * m * quarterUnits q g) (pointUnits q g))
    | true, false => some (pointBelow m q g)
    | false, true => some (pointBelow m q g + 1)
    | false, false => none := rfl

theorem hits_iff_roundsTo {e m : ℕ} (hlow : e = 0 ∨ stepWord ≤ m) (hhigh : m < 2 * stepWord)
    (hpos : 0 < e * stepWord + m) (g : ℤ) (c : ℕ) :
    hits m ((e : ℤ) - 1074) g c = true ↔ RoundsTo (c * 10 ^ g) (e * stepWord + m) := by
  obtain ⟨v, hv⟩ : ∃ v, v + 1 = e * stepWord + m := ⟨e * stepWord + m - 1, by omega⟩
  have hscale := pointUnits_mul ((e : ℤ) - 1074) g
  have hhi := midpoint_eq_highEdge hlow hhigh
  have hlo := midpoint_eq_lowEdge hlow hhigh hv
  have hquarter : (0 : ℚ) < quarterUnits ((e : ℤ) - 1074) g := by exact_mod_cast quarterUnits_pos _ g
  have hunit := two_zpow_pos ((e : ℤ) - 1074 - 2)
  have hmod := units_mod_two e m
  rw [← hv] at hhi hmod ⊢
  rw [hits, within_iff, RoundsTo.succ_iff, hlo, hhi, hmod]
  generalize (2 : ℚ) ^ ((e : ℤ) - 1074 - 2) = u at hscale hunit ⊢
  generalize quarterUnits ((e : ℤ) - 1074) g = quarter at hscale hquarter ⊢
  generalize pointUnits ((e : ℤ) - 1074) g = point at hscale ⊢
  -- both sides of a comparison are those of the whole numbers, up to one factor
  have hpoint : (c * 10 ^ g : ℚ) * quarter = (c * point : ℕ) * u := by
    push_cast
    rw [mul_assoc, mul_assoc, hscale, mul_comm (quarter : ℚ)]
  have hedge : ∀ k : ℕ, (k * u : ℚ) * quarter = (k * quarter : ℕ) * u := by
    intro k
    push_cast
    ring
  have hle : ∀ k : ℕ, (k * quarter ≤ c * point ↔ (k * u : ℚ) ≤ c * 10 ^ g) := by
    intro k
    rw [← mul_le_mul_iff_left₀ hquarter, hpoint, hedge, mul_le_mul_iff_left₀ hunit, Nat.cast_le]
  have hge : ∀ k : ℕ, (c * point ≤ k * quarter ↔ (c * 10 ^ g : ℚ) ≤ k * u) := by
    intro k
    rw [← mul_le_mul_iff_left₀ hquarter, hpoint, hedge, mul_le_mul_iff_left₀ hunit, Nat.cast_le]
  rw [hle, hle, hge, hge]

/-! ## The point that is taken -/

theorem roundEven_cases (a b : ℕ) : roundEven a b = a / b ∨ roundEven a b = a / b + 1 := by
  unfold roundEven
  split
  · exact Or.inl rfl
  · split
    · exact Or.inr rfl
    · rcases Nat.mod_two_eq_zero_or_one (a / b) with h | h <;> rw [h]
      · exact Or.inl rfl
      · exact Or.inr rfl

variable {m : ℕ} {q g : ℤ}

/-- The point taken is one of the two that enclose the number, and lies in the interval. -/
theorem hits_of_pick? {c : ℕ} (h : pick? m q g = some c) : hits m q g c = true := by
  rw [pick?_eq] at h
  split at h
  · rename_i hbelow habove
    obtain rfl := Option.some.inj h
    rcases roundEven_cases (4 * m * quarterUnits q g) (pointUnits q g) with hc | hc <;> rw [hc]
    · exact hbelow
    · exact habove
  · obtain rfl := Option.some.inj h
    assumption
  · obtain rfl := Option.some.inj h
    assumption
  · cases h

/-- A point is taken if one of the two that enclose the number lies in the interval. -/
theorem pick?_of_hits (h : hits m q g (pointBelow m q g) = true ∨ hits m q g (pointBelow m q g + 1) = true) :
    ∃ c, pick? m q g = some c := by
  rw [pick?_eq]
  split
  · exact ⟨_, rfl⟩
  · exact ⟨_, rfl⟩
  · exact ⟨_, rfl⟩
  · rename_i hbelow habove
    rw [hbelow, habove] at h
    simp at h

theorem pointUnits_neg (q : ℤ) (n : ℕ) : pointUnits q (-n) = 2 ^ (2 - q).toNat := by
  have hexponent : (-(n : ℤ)).toNat = 0 := by omega
  rw [pointUnits, hexponent]
  exact Nat.one_mul _

theorem quarterUnits_neg (q : ℤ) (n : ℕ) : quarterUnits q (-n) = 2 ^ (q - 2).toNat * 10 ^ n := by
  rw [quarterUnits, neg_neg, Int.toNat_natCast]
  rfl

/-- The points of the finest grid are less than a quarter of a unit apart. -/
theorem pointUnits_le_quarterUnits (hq : -1074 ≤ q) : pointUnits q (-324) ≤ quarterUnits q (-324) := by
  have hexponent : (2 - q).toNat ≤ 93 * 11 + 53 := by omega
  have hpow : 2 ^ (93 * 11 + 53) ≤ 10 ^ (28 * 11 + 16) := by
    rw [pow_add, pow_mul, pow_add, pow_mul]
    exact Nat.mul_le_mul (Nat.pow_le_pow_left (by norm_num) 11) (by norm_num)
  have hgrid : (-324 : ℤ) = -((28 * 11 + 16 : ℕ) : ℤ) := by norm_num
  rw [hgrid, pointUnits_neg, quarterUnits_neg]
  calc 2 ^ (2 - q).toNat ≤ 2 ^ (93 * 11 + 53) := pow_le_pow_right₀ (by decide) hexponent
    _ ≤ 10 ^ (28 * 11 + 16) := hpow
    _ ≤ 2 ^ (q - 2).toNat * 10 ^ (28 * 11 + 16) := Nat.le_mul_of_pos_left _ (by positivity)

theorem exists_pick? (hm : 0 < m) (hq : -1074 ≤ q) : ∃ c, pick? m q (-324) = some c := by
  have hfine := pointUnits_le_quarterUnits hq
  have hmod := Nat.mod_lt (4 * m * quarterUnits q (-324)) (pointUnits_pos q (-324))
  have hdiv := Nat.div_add_mod' (4 * m * quarterUnits q (-324)) (pointUnits q (-324))
  have hlow : lowEdge m q * quarterUnits q (-324) ≤ (4 * m - 1) * quarterUnits q (-324) := by
    refine Nat.mul_le_mul_right _ ?_
    unfold lowEdge
    split <;> omega
  have hquarter : (4 * m - 1) * quarterUnits q (-324) + quarterUnits q (-324) = 4 * m * quarterUnits q (-324) := by
    rw [← Nat.succ_mul]
    congr 1
    omega
  have hhigh : highEdge m * quarterUnits q (-324) = 4 * m * quarterUnits q (-324) + 2 * quarterUnits q (-324) := by
    rw [highEdge, Nat.add_mul]
  apply pick?_of_hits
  left
  rw [hits, pointBelow, within_iff]
  omega

/-- The decimal found is a point that was taken. -/
theorem pick?_shortestFrom (hm : 0 < m) (hq : -1074 ≤ q) (n : ℕ) :
    pick? m q (shortestFrom m q n).exponent = some (shortestFrom m q n).digits := by
  induction n with
  | zero =>
    obtain ⟨c, hc⟩ := exists_pick? hm hq
    rw [shortestFrom, hc, Option.getD_some]
  | succ n ih =>
    rw [shortestFrom]
    split
    · assumption
    · exact ih

theorem pick?_shortest {x : Binary64} (hx : 0 < x.magnitude) :
    pick? x.significand x.exponent x.shortest.exponent = some x.shortest.digits := by
  obtain ⟨e, hexponent, hmagnitude, hlow, hhigh⟩ := x.magnitude_units
  have hm : 0 < x.significand := by
    have hstep : 0 < stepWord := by decide
    rcases hlow with rfl | h <;> omega
  exact pick?_shortestFrom hm (by omega) _

/-- The decimal found rounds to the word it was looked for. -/
theorem roundsTo_shortest {x : Binary64} (hx : 0 < x.magnitude) : RoundsTo x.shortest.toRat x.magnitude := by
  obtain ⟨e, hexponent, hmagnitude, hlow, hhigh⟩ := x.magnitude_units
  have hpick := pick?_shortest hx
  rw [hmagnitude] at hx ⊢
  rw [hexponent] at hpick
  exact (hits_iff_roundsTo hlow hhigh hx _ _).mp (hits_of_pick? hpick)

end Binary64

end LoxLexer
