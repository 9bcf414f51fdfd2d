/-
  LoxLexer.Proofs.Binary64.Plain — whole numbers written out, and written short.

  A whole number could also be written as any other number is, with the `.0` dropped that
  then stands behind it (`droppedText`). Below 10^16 this comes to the same: the digits of
  the shortest decimal, filled up with zeros, are those of the number, above 2^53 too, where
  not every whole number is one of these. From 10^16 on, the short text has an exponent and
  the number written out has none.

  Proved:
  - `Decimal.e_mem_chars_iff`: which decimals are written with an exponent.
  - `shortText_of_whole`: how a whole number below 10^16 is written short.
  - `text_eq_droppedText_iff`: the two texts are the same exactly below 10^16.
-/

import LoxLexer.Proofs.Binary64.Whole

namespace LoxLexer

namespace Decimal

/-- A decimal is written with an exponent if its first digit counts less than 10^-4, or
    10^16 or more. -/
theorem e_mem_chars_iff (d : Decimal) : 'e' ∈ d.chars ↔ d.leading < -4 ∨ 16 ≤ d.leading := by
  obtain ⟨whole, fraction, ⟨hrange, hshows, htext⟩ | ⟨hrange, -, -, htext⟩⟩ := d.chars_cases <;> rw [htext]
  · exact iff_of_false (not_mem_of_numeral (Piece.chars_number hshows.formed)) (by omega)
  · exact iff_of_true (by simp) hrange

end Decimal

namespace Binary64

variable {x : Binary64}

/-- The short text of a number, with the `.0` dropped that a whole number may end in. -/
def droppedText (x : Binary64) : String :=
  if x.isWhole then String.ofList ((x.shortText.toList.dropSuffix? ['.', '0']).getD x.shortText.toList) else x.shortText

theorem toRat_of_not_negative (hs : x.isNegative = false) : x.toRat = wordValue x.magnitude := by
  rw [toRat_eq, hs]
  exact one_mul _

theorem toRat_le_toRat_iff {y : Binary64} (hx : x.isNegative = false) (hy : y.isNegative = false) :
    x.toRat ≤ y.toRat ↔ x.magnitude ≤ y.magnitude := by
  rw [toRat_of_not_negative hx, toRat_of_not_negative hy, wordValue_strictMono.le_iff_le]

theorem toRat_eq_zero_iff (hs : x.isNegative = false) : x.toRat = 0 ↔ x.magnitude = 0 := by
  rw [toRat_of_not_negative hs, ← wordValue_zero, wordValue_strictMono.injective.eq_iff]

theorem eq_zero_of_magnitude (hs : x.isNegative = false) (h : x.magnitude = 0) : x = ⟨0⟩ := by
  rw [← ofMagnitude_magnitude hs, h]
  rfl

theorem eq_zero_of_wordValue {n : ℕ} (hn : wordValue x.magnitude = n) (h : x.magnitude = 0) : n = 0 := by
  rw [h, wordValue_zero] at hn
  exact_mod_cast hn.symm

/-! ## Texts of whole numbers -/

theorem text_of_whole (hs : x.isNegative = false) (hf : x.isFinite = true) {n : ℕ} (hn : wordValue x.magnitude = n) :
    x.text = toString n := by
  have hw : x.isWhole = true := isWhole_iff.mpr ⟨n, hn⟩
  have hwhole : x.whole = n := by
    have := whole_eq hw
    rw [hn] at this
    exact_mod_cast this
  rw [text_of_isWhole hs hf hw, hwhole]

theorem toList_text_of_whole (hs : x.isNegative = false) (hf : x.isFinite = true) {n : ℕ}
    (hn : wordValue x.magnitude = n) : x.text.toList = Nat.toDigits 10 n := by
  rw [text_of_whole hs hf hn]
  exact Nat.toList_repr

/-- A whole number below 10^16 is written short with a point and a zero behind it. -/
theorem shortText_of_whole (hs : x.isNegative = false) (hf : x.isFinite = true) {n : ℕ}
    (hn : wordValue x.magnitude = n) (hlt : n < 10 ^ 16) : x.shortText = toString n ++ ".0" := by
  rw [← String.toList_inj, String.toList_append, Nat.toString_eq_repr, Nat.toList_repr]
  rcases Nat.eq_zero_or_pos x.magnitude with hzero | hx
  · rw [shortText_zero hs hf hzero, eq_zero_of_wordValue hn hzero]
    rfl
  · have hdigits := digitChars_shortest_of_whole hx hn hlt
    obtain ⟨hexponent, -⟩ := toRat_shortest_of_whole hx hn hlt
    have hpos := x.shortest.length_digitChars_pos
    have hleading := (leading_shortest_lt_iff hx).mpr (by rw [hn]; exact_mod_cast hlt)
    have hdef : x.shortest.leading = x.shortest.exponent + x.shortest.digitChars.length - 1 := rfl
    have hfill : x.shortest.leading + 1 - x.shortest.digitChars.length = x.shortest.exponent := by omega
    rw [shortText_pos hs hf hx, Decimal.chars, if_pos ⟨by omega, hleading⟩, Decimal.positional, if_neg (by omega),
      if_pos (by omega), hfill, hdigits]
    rfl

/-- With its `.0` dropped, a whole number is written as it is written out. -/
theorem droppedText_of_whole (hs : x.isNegative = false) (hf : x.isFinite = true) {n : ℕ}
    (hn : wordValue x.magnitude = n) (hlt : n < 10 ^ 16) : x.droppedText = toString n := by
  have hdrop : ((toString n ++ ".0").toList).dropSuffix? ['.', '0'] = some (toString n).toList := by
    rw [String.toList_append]
    exact List.dropSuffix?_eq_some_iff.mpr ⟨['.', '0'], rfl, rfl⟩
  rw [droppedText, if_pos (isWhole_iff.mpr ⟨n, hn⟩), shortText_of_whole hs hf hn hlt, hdrop, Option.getD_some,
    String.ofList_toList]

/-- From 10^16 on, all numbers are whole and have an exponent in their short texts. -/
theorem isWhole_of_le (h : 10 ^ 16 ≤ wordValue x.magnitude) : x.isWhole = true := by
  by_contra hw
  have hneg := exponent_neg_of_not_whole (Bool.eq_false_iff.mpr hw)
  have hlt := x.wordValue_lt.trans_le (zpow_le_zpow_right₀ (by norm_num : (1 : ℚ) ≤ 2) (by omega : 53 + x.exponent ≤ 53))
  norm_num at hlt h
  linarith

theorem e_mem_droppedText (hs : x.isNegative = false) (hf : x.isFinite = true) (h : 10 ^ 16 ≤ wordValue x.magnitude) :
    'e' ∈ x.droppedText.toList := by
  have hx : 0 < x.magnitude := by
    rcases Nat.eq_zero_or_pos x.magnitude with hzero | hx
    · rw [hzero, wordValue_zero] at h
      norm_num at h
    · exact hx
  have hleading := (leading_shortest_lt_iff hx).not.mpr (not_lt.mpr h)
  have he : 'e' ∈ x.shortText.toList := by
    rw [shortText_pos hs hf hx, Decimal.e_mem_chars_iff]
    omega
  rw [droppedText, if_pos (isWhole_of_le h), String.toList_ofList]
  cases hdrop : x.shortText.toList.dropSuffix? ['.', '0'] with
  | none => exact he
  | some p =>
    obtain ⟨t, ht, hp⟩ := List.dropSuffix?_eq_some_iff.mp hdrop
    rw [ht, eq_of_beq hp] at he
    simpa using he

/-! ## Both together -/

/-- Whole numbers written out are the short texts without `.0` exactly below 10^16. In
    particular the digits of the shortest decimal of a whole number below 10^16, filled up
    with zeros, are the digits of the number. -/
theorem text_eq_droppedText_iff (hs : x.isNegative = false) (hf : x.isFinite = true) :
    (x.text = x.droppedText ↔ x.toRat < 10 ^ 16) ∧
      ∀ n : ℕ, n < 10 ^ 16 → x.toRat = n → x.shortText = toString n ++ ".0" ∧
        x.shortest.digitChars ++ Decimal.zeros x.shortest.exponent = Nat.toDigits 10 n := by
  rw [toRat_of_not_negative hs]
  refine ⟨?_, fun n hlt hn => ⟨shortText_of_whole hs hf hn hlt, ?_⟩⟩
  · rcases lt_or_ge (wordValue x.magnitude) (10 ^ 16) with hlt | hge
    · refine iff_of_true ?_ hlt
      cases hw : x.isWhole with
      | false =>
        rw [text_of_not_whole hw, droppedText, hw]
        rfl
      | true =>
        obtain ⟨n, hn⟩ := isWhole_iff.mp hw
        have hlt' : n < 10 ^ 16 := by
          rw [hn] at hlt
          exact_mod_cast hlt
        rw [text_of_whole hs hf hn, droppedText_of_whole hs hf hn hlt']
    · refine iff_of_false (fun h => ?_) (not_lt.mpr hge)
      obtain ⟨n, hn⟩ := isWhole_iff.mp (isWhole_of_le hge)
      have he := e_mem_droppedText hs hf hge
      rw [← h, toList_text_of_whole hs hf hn] at he
      cases isDigit_of_mem_toDigits _ he
  · rcases Nat.eq_zero_or_pos x.magnitude with hzero | hx
    · rw [eq_zero_of_wordValue hn hzero, eq_zero_of_magnitude hs hzero]
      decide +kernel
    · exact digitChars_shortest_of_whole hx hn hlt

/-- 2^53 + 8 is written short with 13 digits and three zeros. -/
theorem text_eq_droppedText_above_odd :
    let x : Binary64 := ⟨0x4340000000000004⟩
    x.isNegative = false ∧ x.isFinite = true ∧ (2 : ℚ) ^ 53 < x.toRat ∧ x.text = x.droppedText ∧
      x.shortText = "9007199254741000.0" ∧ x.shortest = ⟨9007199254741, 3⟩ := by
  intro x
  have hs : x.isNegative = false := by decide
  have hf : x.isFinite = true := by decide
  have hvalue : x.toRat = (9007199254741000 : ℕ) := by
    have hword : x.magnitude = 1075 * stepWord + (stepWord + 4) := by decide
    rw [toRat_of_not_negative hs, hword, wordValue_eq (Or.inr (by decide)) (by decide)]
    norm_num [stepWord]
  obtain ⟨hiff, hwhole⟩ := text_eq_droppedText_iff hs hf
  refine ⟨hs, hf, ?_, hiff.mpr ?_, (hwhole _ (by decide) hvalue).1, by decide +kernel⟩
  · rw [hvalue]
    norm_num
  · rw [hvalue]
    norm_num

end Binary64

end LoxLexer
