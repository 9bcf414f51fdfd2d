/-
  LoxLexer.Proofs.Rescanning — the value of a number in a table, scanned again.

  The value of a token that has a number for its literal is the text of the number, which
  reads back as the number. A text that is a numeral of the language is also scanned back:
  it is one piece, and its literal is the number nearest to what it stands for. A text with
  an exponent is a numeral, a word, a minus and another numeral.

  Proved:
  - `scan_number`: a source that is a numeral has one token before the end.
  - `kinds_scan_scaled`: what becomes of an exponent.
  - `number_value_reads_back`: how the value of a number is spelled, and which numbers a
    scan of it gives back.
-/

import LoxLexer.Proofs.Binary64.Spelling
import LoxLexer.Proofs.Literals
import LoxLexer.Proofs.Reading
import LoxLexer.Token.Display

namespace LoxLexer

open Piece Binary64

namespace Piece

variable {whole fraction : List Char} (hf : (number whole fraction).Formed)
include hf

theorem newlines_number : (number whole fraction).newlines = 0 := by
  refine List.count_eq_zero.mpr fun h => ?_
  rcases chars_number hf _ h with h | h <;> cases h

/-- The literal of a numeral is the number nearest to what it stands for. -/
theorem ofDecimal_eq {x : Binary64} (h : Nearest (numeralValue (number whole fraction).text) x) :
    ofDecimal (whole ++ fraction) fraction.length = x := by
  obtain ⟨_, y, hlit, _, hy⟩ := (hasLiteral_number hf 1).number rfl
  rw [String.toList_ofList] at hy
  cases hlit
  exact (hy x h).symm

end Piece

/-! ## A numeral alone, and with an exponent -/

section Sources

variable {source : String} {whole fraction : List Char} (hf : (number whole fraction).Formed)
include hf

/-- A source that is a numeral has one token before the end, and its literal is the number
    nearest to what the numeral stands for. -/
theorem scan_number (hsource : source.toList = (number whole fraction).text) {x : Binary64}
    (hx : Nearest (numeralValue source.toList) x) :
    scan source = (#[⟨.number, source, some (.number x), 1⟩, endToken 1], #[]) := by
  have hpieces : pieces source.toList = [number whole fraction] := by
    have hcut := pieces_text_append hf (ends_nil _)
    rwa [List.append_nil, pieces_nil, ← hsource] at hcut
  obtain ⟨ht, hd⟩ := toList_scan source
  rw [hsource] at hx
  rw [hpieces] at ht hd
  refine Prod.ext (Array.ext' ?_) (Array.ext' hd)
  rw [ht, lineAfter_cons, newlines_number hf, tokens, collect, token?, outcome, newlines_number hf, ofDecimal_eq hf hx,
    ← hsource, String.ofList_toList]
  rfl

/-- A numeral with an exponent below zero is scanned as a number, a name, a minus and
    another number. -/
theorem kinds_scan_scaled {ds : List Char} (hne : ds ≠ []) (hds : ∀ d ∈ ds, d.isDigit = true)
    (hsource : source.toList = (number whole fraction).text ++ 'e' :: '-' :: ds) :
    (scan source).1.toList.map (·.kind) = [.number, .identifier, .symbol .minus, .number, .eof] := by
  have hexponent : (number ds []).Formed := ⟨hne, hds, fun d hd => by cases hd⟩
  have hpieces : pieces source.toList = [number whole fraction, word ['e'], symbol .minus, number ds []] := by
    rw [hsource, pieces_eq_iff]
    refine .cons hf (ends_number (clear_cons_iff.mpr rfl) (clear_cons_iff.mpr rfl)) (.cons (p := word ['e']) ?_ ?_ ?_)
    · exact ⟨'e', [], rfl, rfl, fun d hd => by cases hd⟩
    · exact clear_cons_iff.mpr rfl
    · refine .cons (p := symbol .minus) trivial (fun c hc => by cases hc) ?_
      have hcut := Cut.cons hexponent (ends_nil _) .nil
      rwa [Piece.text, point, List.append_nil, List.append_nil] at hcut
  rw [(toList_scan source).1, hpieces]
  rfl

end Sources

/-! ## The text of a number -/

section Texts

variable {x : Binary64} (hs : x.isNegative = false) (hf : x.isFinite = true)
include hs hf

/-- A scan of the text of a number gives the number back, or else the text has an exponent. -/
theorem scan_text_cases :
    (x.magnitude = 0 ∨ tenThousandth.magnitude ≤ x.magnitude) ∧
        scan x.text = (#[⟨.number, x.text, some (.number x), 1⟩, endToken 1], #[]) ∨
      (0 < x.magnitude ∧ x.magnitude < tenThousandth.magnitude) ∧ 'e' ∈ x.text.toList ∧
        (scan x.text).1.toList.map (·.kind) = [.number, .identifier, .symbol .minus, .number, .eof] := by
  obtain ⟨whole, fraction, hformed, ⟨hrange, htext⟩ | ⟨hrange, ds, hne, hdigits, htext⟩⟩ := text_spelled hs hf
  · have hnear := nearest_text hs hf
    rw [writtenValue_of_not_mem (not_mem_of_numeral (htext ▸ chars_number hformed))] at hnear
    exact Or.inl ⟨hrange, scan_number hformed htext hnear⟩
  · refine Or.inr ⟨hrange, ?_, kinds_scan_scaled hformed hne hdigits htext⟩
    rw [htext]
    exact List.mem_append_right _ (List.mem_cons_self ..)

theorem scan_text_iff : scan x.text = (#[⟨.number, x.text, some (.number x), 1⟩, endToken 1], #[]) ↔
    x.magnitude = 0 ∨ tenThousandth.magnitude ≤ x.magnitude := by
  obtain ⟨hrange, hscan⟩ | ⟨hrange, -, hkinds⟩ := scan_text_cases hs hf
  · exact iff_of_true hscan hrange
  · refine iff_of_false (fun hscan => ?_) (by omega)
    rw [hscan] at hkinds
    simp at hkinds

end Texts

/-! ## The value of a number -/

/-- The value that a token with a finite number for its literal shows reads back as the
    number. It is the expansion of a whole number; another number has no decimal of fewer
    digits that reads back as it. A scan of the value gives exactly one token, with the
    number, if the number is zero or at least the one nearest to 10^-4; the values of the
    numbers between have an exponent and are scanned as four tokens. -/
theorem number_value_reads_back {t : Token} {x : Binary64} (ht : t.literal = some (.number x))
    (hs : x.isNegative = false) (hf : x.isFinite = true) :
    let s := t.row.value
    (Spelled s.toList ∧ Nearest (writtenValue s.toList) x) ∧
      (∀ n : ℕ, x.toRat = n → IsExpansion n s.toList) ∧
      ((∀ n : ℕ, x.toRat ≠ n) → ∀ d : Decimal, d.digitChars.length < (significant s.toList).length →
        ¬ Nearest d.toRat x) ∧
      (scan s = (#[⟨.number, s, some (.number x), 1⟩, endToken 1], #[]) ↔
        x.toRat = 0 ∨ tenThousandth.toRat ≤ x.toRat) ∧
      (0 < x.toRat → x.toRat < tenThousandth.toRat → 'e' ∈ s.toList ∧
        (scan s).1.toList.map (·.kind) = [.number, .identifier, .symbol .minus, .number, .eof]) := by
  have hvalue : t.row.value = x.text := by
    rw [Token.row, Token.value, ht]
    rfl
  have hten : tenThousandth.isNegative = false := by decide +kernel
  intro s
  have htext : s = x.text := hvalue
  rw [htext, toRat_eq_zero_iff hs, toRat_le_toRat_iff hten hs]
  refine ⟨⟨spelled_text hs hf, nearest_text hs hf⟩, fun n => isExpansion_text hs hf, fun hn d hlt hd => ?_,
    scan_text_iff hs hf, fun hpos hlt => ?_⟩
  · have hw : x.isWhole = false := by
      refine Bool.eq_false_iff.mpr fun hw => ?_
      obtain ⟨n, hn'⟩ := isWhole_iff.mp hw
      exact hn n ((toRat_of_not_negative hs).trans hn')
    exact absurd (length_significant_le hw hs hf hd) (not_le.mpr hlt)
  · obtain ⟨hrange, -⟩ | ⟨-, hscaled⟩ := scan_text_cases hs hf
    · rw [← toRat_eq_zero_iff hs, ← toRat_le_toRat_iff hten hs] at hrange
      exact absurd hrange (not_or.mpr ⟨hpos.ne', not_le.mpr hlt⟩)
    · exact hscaled

/-- 2^-14 has an exponent in its text, and two zeros that do not count. -/
theorem number_value_reads_back_exponent :
    let x : Binary64 := ⟨0x3F10000000000000⟩
    let t : Token := ⟨.number, "0.00006103515625", some (.number x), 1⟩
    t.literal = some (.number x) ∧ x.isNegative = false ∧ x.isFinite = true ∧ t.row.value = "6.103515625e-05" ∧
      significant t.row.value.toList = "6103515625".toList ∧
      (∀ d : Decimal, d.digitChars.length < 10 → ¬ Nearest d.toRat x) ∧
      (scan t.row.value).1.toList.map (·.kind) = [.number, .identifier, .symbol .minus, .number, .eof] := by
  intro x t
  have hs : x.isNegative = false := by decide
  have hten : tenThousandth.isNegative = false := by decide +kernel
  have hsignificant : significant t.row.value.toList = "6103515625".toList := by decide +kernel
  have hfraction : ∀ n : ℕ, x.toRat ≠ n := by
    intro n hn
    have hw : x.isWhole = true := isWhole_iff.mpr ⟨n, (toRat_of_not_negative hs).symm.trans hn⟩
    revert hw
    decide
  have hpos : 0 < x.toRat := by
    rw [toRat_of_not_negative hs, ← wordValue_zero]
    exact wordValue_strictMono (by decide)
  have hlt : x.toRat < tenThousandth.toRat := not_le.mp ((toRat_le_toRat_iff hten hs).not.mpr (by decide +kernel))
  obtain ⟨-, -, hfewest, -, hscaled⟩ := number_value_reads_back (t := t) (x := x) rfl hs (by decide)
  exact ⟨rfl, hs, by decide, by decide +kernel, hsignificant, fun d hd => hfewest hfraction d (by rw [hsignificant]; exact hd),
    (hscaled hpos hlt).2⟩

end LoxLexer
