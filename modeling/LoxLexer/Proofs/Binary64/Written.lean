/-
  LoxLexer.Proofs.Binary64.Written — the text of a number reads back as the number.

  A text in digits, with or without a point and with or without an exponent, stands for a
  number (`writtenValue`). However a decimal is written, it is read as the decimal it is;
  so what `Binary64.text` writes is read as a number that rounds to the one written, and
  no two numbers are written alike.

  Proved:
  - `writtenValue_chars`: both ways to write a decimal stand for it.
  - `roundsTo_text`: the text of a finite number rounds to it.
  - `text_injective`: numbers without sign are told by their texts.
-/

import LoxLexer.Binary64.Text
import LoxLexer.Proofs.Binary64.Interval
import LoxLexer.Proofs.Numeral

namespace LoxLexer

open Piece

/-! ## Reading -/

/-- The exponent that a sign and digits stand for. -/
def exponentValue : List Char → ℤ
  | '-' :: digits => -digitsValue digits
  | _ :: digits => digitsValue digits
  | [] => 0

/-- The number that a numeral stands for, with an exponent behind it or without. -/
def writtenValue (text : List Char) : ℚ :=
  numeralValue (text.takeWhile (· != 'e')) * 10 ^ exponentValue ((text.dropWhile (· != 'e')).drop 1)

theorem writtenValue_of_not_mem {s : List Char} (h : 'e' ∉ s) : writtenValue s = numeralValue s := by
  have htake := List.takeWhile_eq_self_iff.mpr (bne_of_not_mem h)
  have hdrop := List.dropWhile_eq_nil_iff.mpr (bne_of_not_mem h)
  simp [writtenValue, htake, hdrop, exponentValue]

theorem writtenValue_append {s t : List Char} (h : 'e' ∉ s) :
    writtenValue (s ++ 'e' :: t) = numeralValue s * 10 ^ exponentValue t := by
  have hclear : Clear (· != 'e') ('e' :: t) := clear_cons_iff.mpr (by decide)
  rw [writtenValue, takeWhile_append_clear (bne_of_not_mem h) hclear, dropWhile_append_clear (bne_of_not_mem h) hclear]
  rfl

theorem writtenValue_nonneg (s : List Char) : 0 ≤ writtenValue s := by
  unfold writtenValue numeralValue
  positivity

theorem div_ten_pow (a : ℚ) {n : ℕ} {k : ℤ} (h : k = -n) : a / 10 ^ n = a * 10 ^ k := by
  rw [h, zpow_neg, zpow_natCast, div_eq_mul_inv]

/-! ## Writing -/

namespace Decimal

theorem isDigit_of_mem_digitChars {d : Decimal} : ∀ c ∈ d.digitChars, c.isDigit = true := isDigit_of_mem_toDigits

theorem isDigit_of_mem_zeros {n : ℤ} : ∀ c ∈ zeros n, c.isDigit = true := by
  intro c hc
  rw [List.eq_of_mem_replicate hc]
  rfl

/-- A numeral with these digits, of which so many are behind the point. It may have zeros in
    front of the digits, and behind them if it has no digits of theirs behind the point. -/
structure Shows (digits : List Char) (places : ℤ) (whole fraction : List Char) : Prop where
  formed : (number whole fraction).Formed
  filled : ∃ a b : ℕ, whole ++ fraction = List.replicate a '0' ++ digits ++ List.replicate b '0' ∧
    (fraction.length : ℤ) = places + b ∧ (0 < places → b = 0)

theorem Shows.numeralValue_eq {digits whole fraction : List Char} {places : ℤ} (h : Shows digits places whole fraction) :
    numeralValue (number whole fraction).text = digitsValue digits * 10 ^ (-places) := by
  obtain ⟨a, b, hdigits, hlength, -⟩ := h.filled
  have hvalue : digitsValue (whole ++ fraction) = 10 ^ b * digitsValue digits := by
    rw [hdigits, digitsValue_append, digitsValue_append, digitsValue_zeros, digitsValue_zeros, List.length_replicate]
    simp
  have hexponent : (-(places + b) : ℤ) = -(fraction.length : ℤ) := by omega
  rw [numeralValue_number h.formed, hvalue, div_ten_pow _ hexponent, neg_add, zpow_add₀ (by norm_num), zpow_neg _ (b : ℤ),
    zpow_natCast]
  push_cast
  field_simp

section Digits

variable {digits : List Char} (hd : ∀ c ∈ digits, c.isDigit = true) (hne : digits ≠ [])
include hd hne

/-- Digits with a point are a numeral of the language. -/
theorem positional_shows (before : ℤ) : ∃ whole fraction, Shows digits (digits.length - before) whole fraction ∧
    positional digits before = (number whole fraction).text := by
  have hzero : ∀ c ∈ ['0'], c.isDigit = true := isDigit_of_mem_zeros (n := 1)
  have hpos := List.length_pos_iff.mpr hne
  have hpoint : ∀ {fraction}, fraction ≠ [] → point fraction = '.' :: fraction := by
    intro fraction h
    obtain ⟨d, f, rfl⟩ := List.exists_cons_of_ne_nil h
    rfl
  unfold positional
  split
  · -- the point stands in front of all digits
    have hformed : (number ['0'] (zeros (-before) ++ digits)).Formed :=
      ⟨List.cons_ne_nil _ _, hzero, List.forall_mem_append.mpr ⟨isDigit_of_mem_zeros, hd⟩⟩
    refine ⟨_, _, ⟨hformed, (-before).toNat + 1, 0, by simp [zeros, List.replicate_succ], ?_, fun _ => rfl⟩, ?_⟩
    · rw [List.length_append, zeros, List.length_replicate]
      omega
    · rw [text, hpoint (by simp [hne])]
      rfl
  split
  · -- behind all digits
    have hformed : (number (digits ++ zeros (before - digits.length)) ['0']).Formed :=
      ⟨by simp [hne], List.forall_mem_append.mpr ⟨hd, isDigit_of_mem_zeros⟩, hzero⟩
    refine ⟨_, _, ⟨hformed, 0, (before - digits.length).toNat + 1, by simp [zeros, List.replicate_succ'], ?_,
      fun _ => by omega⟩, rfl⟩
    rw [List.length_singleton]
    omega
  · -- among them
    have hwhole : digits.take before.toNat ≠ [] := by
      rw [← List.length_pos_iff, List.length_take]
      omega
    have hfraction : digits.drop before.toNat ≠ [] := by
      rw [← List.length_pos_iff, List.length_drop]
      omega
    have hformed : (number (digits.take before.toNat) (digits.drop before.toNat)).Formed :=
      ⟨hwhole, fun c hc => hd c (List.mem_of_mem_take hc), fun c hc => hd c (List.mem_of_mem_drop hc)⟩
    refine ⟨_, _, ⟨hformed, 0, 0, by simp, ?_, fun _ => rfl⟩, ?_⟩
    · rw [List.length_drop]
      omega
    · rw [text, hpoint hfraction]

/-- In front of an exponent stands a numeral of the language. -/
theorem scientific_shows (e : ℤ) : ∃ whole fraction, Shows digits (digits.length - 1) whole fraction ∧
    whole ++ fraction = digits ∧ scientific digits e = (number whole fraction).text ++ 'e' :: exponentChars e := by
  obtain ⟨d, t, rfl⟩ := List.exists_cons_of_ne_nil hne
  obtain ⟨hfirst, hrest⟩ := List.forall_mem_cons.mp hd
  have hformed : (number [d] t).Formed := ⟨List.cons_ne_nil _ _, List.forall_mem_singleton.mpr hfirst, hrest⟩
  refine ⟨[d], t, ⟨hformed, 0, 0, by simp, ?_, fun _ => rfl⟩, rfl, ?_⟩
  · rw [List.length_cons]
    omega
  · cases t <;> rfl

end Digits

theorem exponentValue_exponentChars (e : ℤ) : exponentValue (exponentChars e) = e := by
  unfold exponentChars
  have hvalue : ∀ n : ℤ, digitsValue (zeros n ++ Nat.toDigits 10 e.natAbs) = e.natAbs := by
    intro n
    rw [digitsValue_append, digitsValue_toDigits, zeros, digitsValue_zeros, Nat.mul_zero, Nat.zero_add]
  split
  · rw [exponentValue, hvalue]
    omega
  · rw [exponentValue, hvalue]
    · omega
    · decide

/-- An exponent is written as its sign and digits. -/
theorem exponentChars_cases (e : ℤ) : ∃ ds, ds ≠ [] ∧ (∀ d ∈ ds, d.isDigit = true) ∧
    exponentChars e = (if e < 0 then '-' else '+') :: ds := by
  refine ⟨_, ?_, fun c hc => ?_, rfl⟩
  · exact List.append_ne_nil_of_right_ne_nil _ Nat.toDigits_ne_nil
  · rcases List.mem_append.mp hc with hc | hc
    · exact isDigit_of_mem_zeros c hc
    · exact isDigit_of_mem_toDigits c hc

theorem exponentChars_chars (e : ℤ) : ∀ c ∈ exponentChars e, c.isDigit = true ∨ c = '+' ∨ c = '-' := by
  intro c hc
  obtain ⟨ds, -, hdigits, htext⟩ := exponentChars_cases e
  rw [htext] at hc
  rcases List.mem_cons.mp hc with rfl | hc
  · split
    · exact Or.inr (Or.inr rfl)
    · exact Or.inr (Or.inl rfl)
  · exact Or.inl (hdigits c hc)

end Decimal

theorem not_mem_of_numeral {s : List Char} (h : ∀ c ∈ s, c.isDigit = true ∨ c = '.') : 'e' ∉ s := by
  intro hm
  rcases h 'e' hm with h | h <;> cases h

/-- The characters that numbers are written in. -/
def IsNumberChar (c : Char) : Prop := c.isDigit = true ∨ c = '.' ∨ c = 'e' ∨ c = '+' ∨ c = '-'

namespace Decimal

variable (d : Decimal)

/-- A decimal is written as a numeral with its digits, or as one with an exponent behind it. -/
theorem chars_cases : ∃ whole fraction,
    (-4 ≤ d.leading ∧ d.leading < 16) ∧ Shows d.digitChars (-d.exponent) whole fraction ∧
        d.chars = (number whole fraction).text ∨
      (d.leading < -4 ∨ 16 ≤ d.leading) ∧ Shows d.digitChars (d.digitChars.length - 1) whole fraction ∧
        whole ++ fraction = d.digitChars ∧ d.chars = (number whole fraction).text ++ 'e' :: exponentChars d.leading := by
  have hd := d.isDigit_of_mem_digitChars
  have hne : d.digitChars ≠ [] := Nat.toDigits_ne_nil
  unfold chars
  split
  · rename_i hrange
    obtain ⟨whole, fraction, hshows, htext⟩ := positional_shows hd hne (d.leading + 1)
    have hplaces : (d.digitChars.length : ℤ) - (d.leading + 1) = -d.exponent := by
      unfold leading
      omega
    rw [hplaces] at hshows
    exact ⟨whole, fraction, Or.inl ⟨hrange, hshows, htext⟩⟩
  · obtain ⟨whole, fraction, hshows, hdigits, htext⟩ := scientific_shows hd hne d.leading
    exact ⟨whole, fraction, Or.inr ⟨by omega, hshows, hdigits, htext⟩⟩

/-- A decimal is written as the number it stands for. -/
theorem writtenValue_chars : writtenValue d.chars = d.toRat := by
  have hvalue : digitsValue d.digitChars = d.digits := digitsValue_toDigits d.digits
  obtain ⟨whole, fraction, ⟨-, hshows, htext⟩ | ⟨-, hshows, -, htext⟩⟩ := d.chars_cases
  · rw [htext, writtenValue_of_not_mem (not_mem_of_numeral (chars_number hshows.formed)), hshows.numeralValue_eq, hvalue,
      neg_neg, toRat]
  · rw [htext, writtenValue_append (not_mem_of_numeral (chars_number hshows.formed)), hshows.numeralValue_eq,
      exponentValue_exponentChars, hvalue, toRat, mul_assoc, ← zpow_add₀ (by norm_num)]
    congr 2
    unfold leading
    omega

theorem isNumberChar_of_mem_chars : ∀ c ∈ d.chars, IsNumberChar c := by
  intro c hc
  obtain ⟨whole, fraction, ⟨-, hshows, htext⟩ | ⟨-, hshows, -, htext⟩⟩ := d.chars_cases <;> rw [htext] at hc
  · exact (chars_number hshows.formed c hc).imp_right Or.inl
  rcases List.mem_append.mp hc with hc | hc
  · exact (chars_number hshows.formed c hc).imp_right Or.inl
  rcases List.mem_cons.mp hc with rfl | hc
  · exact Or.inr (Or.inr (Or.inl rfl))
  · exact (exponentChars_chars _ c hc).imp_right fun h => Or.inr (Or.inr h)

end Decimal

/-! ## The text of a number -/

namespace Binary64

variable {x y : Binary64}

theorem whole_eq (h : x.isWhole = true) : (x.whole : ℚ) = wordValue x.magnitude := by
  have hdvd : Nat.pow 2 (-x.exponent).toNat ∣ x.significand * Nat.pow 2 x.exponent.toNat :=
    Nat.dvd_of_mod_eq_zero (by simpa [isWhole] using h)
  obtain ⟨k, hk⟩ := hdvd
  have hwhole : x.whole = k := by
    rw [whole, hk]
    exact Nat.mul_div_cancel_left k (Nat.pow_pos (by omega))
  have hpow := pow_toNat_eq (by norm_num : (2 : ℚ) ≠ 0) x.exponent
  have hpos : (0 : ℚ) < 2 ^ (-x.exponent).toNat := by positivity
  have hcast : (x.significand : ℚ) * 2 ^ x.exponent.toNat = 2 ^ (-x.exponent).toNat * k := by exact_mod_cast hk
  rw [hpow, mul_left_comm] at hcast
  rw [hwhole, ← mul_left_cancel₀ hpos.ne' hcast]
  rfl

theorem sign_eq_nil (hs : x.isNegative = false) : x.sign = [] := by
  rw [sign, hs]
  rfl

theorem text_of_not_whole (hw : x.isWhole = false) : x.text = x.shortText := by
  rw [text, hw, Bool.and_false]
  rfl

theorem pos_of_not_whole (hw : x.isWhole = false) : 0 < x.magnitude := by
  refine Nat.pos_of_ne_zero fun h => ?_
  rw [isWhole, significand, h, if_pos (by decide), Nat.zero_mul, Nat.zero_mod] at hw
  cases hw

section Finite

variable (hs : x.isNegative = false) (hf : x.isFinite = true)
include hs hf

theorem shortText_zero (hx : x.magnitude = 0) : x.shortText.toList = ['0', '.', '0'] := by
  rw [shortText, isNaN_of_isFinite hf, hf, sign_eq_nil hs, if_pos hx]
  rfl

theorem shortText_pos (hx : 0 < x.magnitude) : x.shortText.toList = x.shortest.chars := by
  rw [shortText, isNaN_of_isFinite hf, hf, sign_eq_nil hs, if_neg hx.ne']
  exact String.toList_ofList

/-- A whole number is written out. -/
theorem text_of_isWhole (hw : x.isWhole = true) : x.text = toString x.whole := by
  rw [text, hf, hw, toInt, hs]
  rfl

/-- A number with a fraction is written as its shortest decimal. -/
theorem text_of_fraction (hw : x.isWhole = false) : x.text.toList = x.shortest.chars := by
  rw [text_of_not_whole hw, shortText_pos hs hf (pos_of_not_whole hw)]

end Finite

/-- The three ways in which a number without sign is written. -/
theorem text_cases (hs : x.isNegative = false) (hn : x.isNaN = false) :
    (x.isFinite = true ∧ x.isWhole = true ∧ x.text.toList = Nat.toDigits 10 x.whole) ∨
      (x.isFinite = true ∧ 0 < x.magnitude ∧ x.text.toList = x.shortest.chars) ∨
      (x.magnitude = infinityWord ∧ x.text = "inf") := by
  cases hf : x.isFinite with
  | false =>
    right; right
    have hge : ¬ x.magnitude < infinityWord := fun h => by rw [isFinite_iff.mpr h] at hf; cases hf
    have hle := isNaN_iff.mp hn
    rw [text, shortText, hn, hf, sign_eq_nil hs]
    exact ⟨by omega, rfl⟩
  | true =>
    cases hw : x.isWhole with
    | true =>
      left
      rw [text_of_isWhole hs hf hw]
      exact ⟨rfl, rfl, Nat.toList_repr⟩
    | false =>
      right; left
      exact ⟨rfl, pos_of_not_whole hw, text_of_fraction hs hf hw⟩

/-- The text of a finite number rounds to the number. -/
theorem roundsTo_text (hs : x.isNegative = false) (hf : x.isFinite = true) :
    RoundsTo (writtenValue x.text.toList) x.magnitude := by
  have hlt := isFinite_iff.mp hf
  rcases text_cases hs (isNaN_of_isFinite hf) with ⟨_, hw, htext⟩ | ⟨_, h0, htext⟩ | ⟨hinf, _⟩
  · rw [htext, writtenValue_of_not_mem (not_mem_of_numeral fun c hc => Or.inl (isDigit_of_mem_toDigits c hc)),
      numeralValue_digits isDigit_of_mem_toDigits, digitsValue_toDigits, whole_eq hw]
    exact roundsTo_wordValue _
  · rw [htext, Decimal.writtenValue_chars]
    exact roundsTo_shortest h0
  · omega

theorem isNumberChar_of_mem_text (hs : x.isNegative = false) (hf : x.isFinite = true) :
    ∀ c ∈ x.text.toList, IsNumberChar c := by
  intro c hc
  have hlt := isFinite_iff.mp hf
  rcases text_cases hs (isNaN_of_isFinite hf) with ⟨_, _, htext⟩ | ⟨_, _, htext⟩ | ⟨hinf, _⟩
  · rw [htext] at hc
    exact Or.inl (isDigit_of_mem_toDigits c hc)
  · rw [htext] at hc
    exact x.shortest.isNumberChar_of_mem_chars c hc
  · omega

theorem text_eq_inf_iff (hs : x.isNegative = false) (hn : x.isNaN = false) :
    x.text = "inf" ↔ x.magnitude = infinityWord := by
  rcases text_cases hs hn with ⟨hf, _⟩ | ⟨hf, _⟩ | ⟨hinf, htext⟩
  case inr.inr => exact iff_of_true htext hinf
  all_goals
    refine iff_of_false (fun h => ?_) (isFinite_iff.mp hf).ne
    have hi := isNumberChar_of_mem_text hs hf 'i' (by rw [h]; decide)
    revert hi
    unfold IsNumberChar
    decide

/-- Numbers without sign are told by their texts, infinity among them. -/
theorem text_injective (hxs : x.isNegative = false) (hys : y.isNegative = false) (hxn : x.isNaN = false)
    (hyn : y.isNaN = false) (h : x.text = y.text) : x = y := by
  have hmagnitude : x.magnitude = y.magnitude := by
    by_cases hinf : x.text = "inf"
    · rw [(text_eq_inf_iff hxs hxn).mp hinf, (text_eq_inf_iff hys hyn).mp (h ▸ hinf)]
    · have hx := (text_eq_inf_iff hxs hxn).not.mp hinf
      have hy := (text_eq_inf_iff hys hyn).not.mp (h ▸ hinf)
      have hxf := isFinite_iff.mpr (lt_of_le_of_ne (isNaN_iff.mp hxn) hx)
      have hyf := isFinite_iff.mpr (lt_of_le_of_ne (isNaN_iff.mp hyn) hy)
      have hround := roundsTo_text hys hyf
      rw [← h] at hround
      exact (roundsTo_text hxs hxf).unique hround
  rw [← ofMagnitude_magnitude hxs, ← ofMagnitude_magnitude hys, hmagnitude]

end Binary64

end LoxLexer
