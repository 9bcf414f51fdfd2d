/-
  LoxLexer.Proofs.Binary64.Spelling — how the text of a number is spelled.

  A whole number is written as its expansion (`IsExpansion`). Any other number is written
  with the digits of its shortest decimal: as a numeral of the language, with a point among
  the digits or zeros in front of them, or as a numeral with an exponent behind it, which
  the language does not have. A decimal does not begin with a zero, so its digits are those
  that count in the text (`significant`).

  Proved:
  - `nearest_text`: a number is the one nearest to what its text stands for.
  - `text_spelled`: the numbers with an exponent in their texts are those above zero and
    below the number nearest to 10^-4.
  - `significant_text`: the digits that count in the text of a number with a fraction.
  - `length_significant_le`: no decimal of fewer digits reads back as the number.
-/

import LoxLexer.Proofs.Binary64.Plain
import LoxLexer.Proofs.Grammar

namespace LoxLexer

open Piece

/-- The digits of a whole number: no other characters, and no zero in front. -/
structure IsExpansion (n : ℕ) (text : List Char) : Prop where
  ne_nil : text ≠ []
  digits : ∀ c ∈ text, Digit c
  value_eq : digitsValue text = n
  leading : text.head? = some '0' → text = ['0']

/-- The spellings of numbers: a numeral of the language, and one with an exponent. -/
inductive Spelled : List Char → Prop
  | numeral {u : List Char} : IsUnit u (.token .number) → Spelled u
  | scaled {u ds : List Char} {sign : Char} : IsUnit u (.token .number) → sign = '+' ∨ sign = '-' → ds ≠ [] →
      (∀ d ∈ ds, Digit d) → Spelled (u ++ 'e' :: sign :: ds)

/-- The digits that count in the text of a number: those from the first that is not zero on,
    in front of the exponent. -/
def significant (text : List Char) : List Char :=
  ((text.takeWhile (· != 'e')).filter Char.isDigit).dropWhile (· == '0')

/-! ## Digits -/

theorem clear_toDigits {n : ℕ} (hn : 0 < n) : Clear (· == '0') (Nat.toDigits 10 n) := by
  induction n using Nat.strongRecOn with
  | ind n ih =>
    rw [Nat.toDigits_eq_if (by decide)]
    split
    · refine clear_cons_iff.mpr (Bool.eq_false_iff.mpr fun h => ?_)
      have := Nat.digitChar_eq_zero.mp (eq_of_beq h)
      omega
    · intro c hc
      rw [List.head?_append_of_ne_nil _ Nat.toDigits_ne_nil] at hc
      exact ih (n / 10) (by omega) (by omega) c hc

theorem isExpansion_toDigits (n : ℕ) : IsExpansion n (Nat.toDigits 10 n) where
  ne_nil := Nat.toDigits_ne_nil
  digits c hc := digit_iff.mpr (isDigit_of_mem_toDigits c hc)
  value_eq := digitsValue_toDigits n
  leading h := by
    rcases Nat.eq_zero_or_pos n with rfl | hn
    · exact Nat.toDigits_zero 10
    · cases clear_toDigits hn '0' h

section Numerals

variable {whole fraction : List Char} (hf : (number whole fraction).Formed)
include hf

theorem filter_number : (number whole fraction).text.filter Char.isDigit = whole ++ fraction := by
  have hkeep : ∀ {ds : List Char}, (∀ d ∈ ds, d.isDigit = true) → ds.filter Char.isDigit = ds := fun h =>
    List.filter_eq_self.mpr h
  rw [text, List.filter_append, hkeep hf.2.1]
  cases fraction with
  | nil => rfl
  | cons d f => rw [point, List.filter_cons_of_neg (by decide), hkeep hf.2.2]

/-- The digits that count in a numeral, whatever zeros stand in front of them. -/
theorem significant_number {digits t : List Char} {a : ℕ} (hdigits : whole ++ fraction = List.replicate a '0' ++ digits)
    (hclear : Clear (· == '0') digits) (ht : Clear (· != 'e') t) :
    significant ((number whole fraction).text ++ t) = digits := by
  have he := not_mem_of_numeral (chars_number hf)
  rw [significant, takeWhile_append_clear (bne_of_not_mem he) ht, filter_number hf, hdigits]
  exact dropWhile_append_clear (fun c hc => by rw [List.eq_of_mem_replicate hc]; rfl) hclear

end Numerals

namespace Binary64

variable {x : Binary64}

/-! ## The number nearest to 10^-4 -/

/-- The number nearest to 10^-4. -/
def tenThousandth : Binary64 := nearest 1 10000

theorem shortest_tenThousandth : tenThousandth.shortest = ⟨1, -4⟩ := by decide +kernel

theorem tenThousandth_pos : 0 < tenThousandth.magnitude := by decide +kernel

theorem tenThousandth_le_of_whole (hx : 0 < x.magnitude) (hw : x.isWhole = true) :
    tenThousandth.magnitude ≤ x.magnitude := by
  obtain ⟨n, hn⟩ := isWhole_iff.mp hw
  have hround := roundsTo_shortest tenThousandth_pos
  have hone : (1 : ℚ) ≤ n := by
    have hpos := wordValue_strictMono hx
    rw [wordValue_zero, hn] at hpos
    exact_mod_cast hpos
  rw [shortest_tenThousandth] at hround
  refine hround.mono (roundsTo_wordValue _) ?_
  rw [hn]
  refine le_trans ?_ hone
  norm_num [Decimal.toRat]

/-! ## Numbers with a fraction -/

section Fractions

variable (hw : x.isWhole = false)
include hw

theorem leading_lt_of_not_whole : x.shortest.leading < 16 := by
  refine (leading_shortest_lt_iff (pos_of_not_whole hw)).mpr (not_le.mp fun h => ?_)
  rw [isWhole_of_le h] at hw
  cases hw

theorem tenThousandth_le_iff : tenThousandth.magnitude ≤ x.magnitude ↔ -4 ≤ x.shortest.leading :=
  le_leading_iff tenThousandth_pos shortest_tenThousandth (pos_of_not_whole hw)

variable (hs : x.isNegative = false) (hf : x.isFinite = true)
include hs hf

/-- The digits that count in the text of a number with a fraction are those of its shortest
    decimal. -/
theorem significant_text : significant x.text.toList = x.shortest.digitChars := by
  have hx := pos_of_not_whole hw
  have hclear := clear_toDigits (digits_shortest_pos hx)
  rw [text_of_fraction hs hf hw]
  obtain ⟨whole, fraction, ⟨-, hshows, htext⟩ | ⟨-, hshows, hdigits, htext⟩⟩ := x.shortest.chars_cases <;> rw [htext]
  · -- with digits behind the point, there are no zeros behind the digits
    obtain ⟨a, b, hdigits, -, hb⟩ := hshows.filled
    obtain rfl := hb (Int.neg_pos_of_neg (exponent_shortest_neg hx hw))
    rw [List.replicate_zero, List.append_nil] at hdigits
    rw [← List.append_nil (number whole fraction).text]
    exact significant_number hshows.formed hdigits hclear fun c hc => by cases hc
  · exact significant_number hshows.formed (a := 0) hdigits hclear (clear_cons_iff.mpr (by decide))

/-- No decimal of fewer digits reads back as a number with a fraction. -/
theorem length_significant_le {d : Decimal} (h : Nearest d.toRat x) :
    (significant x.text.toList).length ≤ d.digitChars.length := by
  have hnonneg : 0 ≤ d.toRat := by
    unfold Decimal.toRat
    positivity
  rw [significant_text hw hs hf]
  exact length_shortest_le (pos_of_not_whole hw) ((nearest_iff_roundsTo hnonneg hs hf).mp h)

end Fractions

/-! ## The text of a number -/

section Text

variable (hs : x.isNegative = false) (hf : x.isFinite = true)
include hs hf

/-- A number is the one nearest to what its text stands for. -/
theorem nearest_text : Nearest (writtenValue x.text.toList) x :=
  (nearest_iff_roundsTo (writtenValue_nonneg _) hs hf).mpr (roundsTo_text hs hf)

/-- The text of a number is a numeral of the language, or if the number is above zero and
    less than the one nearest to 10^-4, a numeral with an exponent below zero. -/
theorem text_spelled : ∃ whole fraction, (number whole fraction).Formed ∧
    ((x.magnitude = 0 ∨ tenThousandth.magnitude ≤ x.magnitude) ∧ x.text.toList = (number whole fraction).text ∨
      (0 < x.magnitude ∧ x.magnitude < tenThousandth.magnitude) ∧ ∃ ds, ds ≠ [] ∧ (∀ d ∈ ds, d.isDigit = true) ∧
        x.text.toList = (number whole fraction).text ++ 'e' :: '-' :: ds) := by
  cases hw : x.isWhole with
  | true =>
    obtain ⟨n, hn⟩ := isWhole_iff.mp hw
    refine ⟨Nat.toDigits 10 n, [], ⟨Nat.toDigits_ne_nil, isDigit_of_mem_toDigits, fun d hd => by cases hd⟩,
      Or.inl ⟨?_, ?_⟩⟩
    · exact (Nat.eq_zero_or_pos x.magnitude).imp_right fun hx => tenThousandth_le_of_whole hx hw
    · rw [toList_text_of_whole hs hf hn, Piece.text, point, List.append_nil]
  | false =>
    have hiff := tenThousandth_le_iff hw
    have hlt := leading_lt_of_not_whole hw
    rw [text_of_fraction hs hf hw]
    obtain ⟨whole, fraction, ⟨hrange, hshows, htext⟩ | ⟨hrange, hshows, -, htext⟩⟩ := x.shortest.chars_cases
    · exact ⟨whole, fraction, hshows.formed, Or.inl ⟨Or.inr (hiff.mpr hrange.1), htext⟩⟩
    · obtain ⟨ds, hne, hdigits, hexponent⟩ := Decimal.exponentChars_cases x.shortest.leading
      rw [hexponent, if_pos (by omega)] at htext
      exact ⟨whole, fraction, hshows.formed, Or.inr ⟨⟨pos_of_not_whole hw, by omega⟩, ds, hne, hdigits, htext⟩⟩

theorem isExpansion_text {n : ℕ} (hn : x.toRat = n) : IsExpansion n x.text.toList := by
  rw [toRat_of_not_negative hs] at hn
  rw [toList_text_of_whole hs hf hn]
  exact isExpansion_toDigits n

theorem spelled_text : Spelled x.text.toList := by
  obtain ⟨whole, fraction, hformed, ⟨-, htext⟩ | ⟨-, ds, hne, hdigits, htext⟩⟩ := text_spelled hs hf <;> rw [htext]
  · exact .numeral (isUnit_number hformed)
  · exact .scaled (isUnit_number hformed) (Or.inr rfl) hne fun d hd => digit_iff.mpr (hdigits d hd)

end Text

end Binary64

end LoxLexer
