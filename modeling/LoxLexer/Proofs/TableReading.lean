/-
  LoxLexer.Proofs.TableReading — reading the table of a scan.

  The rule under the heading tells how wide the first column is, so behind the name of a
  kind, which contains no blank, the blanks that fill up the column are known in number.
  The value behind the bar ends with its line, unless it is a string's, which may contain
  line feeds but no quote inside. A value tells the literal: what a number is written as
  reads back as the number.

  Proved:
  - `line_append_inj`: a row's first cell can be read if it contains no blank.
  - `Scanned.value_append_inj`: the value of a token of a known kind can be read in front
    of a line feed, up to the lexeme of a number.
  - `table_determines_tokens`: tables of texts are equal only if the tokens are, up to
    their lines and the lexemes of numbers.
-/

import LoxLexer.Proofs.Binary64.Written
import LoxLexer.Proofs.LogReading

namespace LoxLexer

open Binary64

/-! ## Lines of a table -/

namespace Table

theorem cons_replicate (n : ℕ) (c : Char) (l : List Char) :
    List.replicate n c ++ c :: l = c :: (List.replicate n c ++ l) := by
  rw [← List.cons_append, ← List.replicate_succ, List.replicate_succ', List.append_assoc, List.singleton_append]

/-- The first blank of a row, with nothing filled up, is the one in front of the bar. -/
theorem toList_line (w : ℕ) (r : Row) : (line w r).toList =
    r.type.toList ++ ' ' :: (List.replicate (w - r.type.length) ' ' ++ ("| ".toList ++ r.value.toList)) := by
  have hbar : (" | " : String).toList = ' ' :: "| ".toList := rfl
  rw [line, pad, String.toList_append, String.toList_append, String.toList_append, String.toList_ofList, hbar,
    List.append_assoc, List.append_assoc, List.cons_append, cons_replicate]

theorem toList_rule (w : ℕ) : (rule w).toList = List.replicate w '-' ++ "-+------".toList := by
  rw [rule, String.toList_append, String.toList_append, String.toList_ofList, List.append_assoc]
  rfl

theorem line_append_inj {w : ℕ} {r s : Row} (hr : ' ' ∉ r.type.toList) (hs : ' ' ∉ s.type.toList) {t t' : List Char}
    (h : (line w r).toList ++ t = (line w s).toList ++ t') :
    r.type = s.type ∧ r.value.toList ++ t = s.value.toList ++ t' := by
  simp only [toList_line, List.append_assoc, List.cons_append] at h
  obtain ⟨htype, hrest⟩ := append_cons_inj hr hs h
  have htype := String.toList_inj.mp htype
  rw [htype] at hrest
  exact ⟨htype, List.append_cancel_left (List.append_cancel_left hrest)⟩

/-- What is in front of a table's rows tells how wide the first column is. -/
theorem width_of_top {w w' : ℕ} {t t' : List Char}
    (h : (heading w).toList ++ '\n' :: ((rule w).toList ++ '\n' :: t) =
      (heading w').toList ++ '\n' :: ((rule w').toList ++ '\n' :: t')) : w = w' ∧ t = t' := by
  have hheading : ∀ w, '\n' ∉ (heading w).toList := by
    intro w
    rw [heading, toList_line]
    simp [List.mem_replicate]
  have hrule : ∀ w, '\n' ∉ (rule w).toList := by
    intro w
    rw [toList_rule]
    simp [List.mem_replicate]
  obtain ⟨_, hrest⟩ := append_cons_inj (hheading w) (hheading w') h
  obtain ⟨heq, hrest⟩ := append_cons_inj (hrule w) (hrule w') hrest
  rw [toList_rule, toList_rule] at heq
  have hlength := congrArg List.length (List.append_cancel_right heq)
  rw [List.length_replicate, List.length_replicate] at hlength
  exact ⟨hlength, hrest⟩

theorem intercalate_newline {ls : List (List Char)} (h : ls ≠ []) :
    ['\n'].intercalate ls ++ ['\n'] = ls.flatMap (· ++ ['\n']) := by
  induction ls with
  | nil => exact absurd rfl h
  | cons l ls ih =>
    cases ls with
    | nil => simp
    | cons l' ls =>
      rw [List.intercalate_cons_cons, List.append_assoc, ih (List.cons_ne_nil l' ls)]
      exact (List.flatMap_cons (f := (· ++ ['\n']))).symm

/-- The lines of a table, each of them ended. -/
theorem intercalate_lines (rows : List Row) : (String.intercalate "\n" (lines rows)).toList ++ ['\n'] =
    (heading (width rows)).toList ++ '\n' :: ((rule (width rows)).toList ++
      '\n' :: rows.flatMap fun r => (line (width rows) r).toList ++ ['\n']) := by
  have hnewline : ("\n" : String).toList = ['\n'] := rfl
  rw [String.toList_intercalate, hnewline, intercalate_newline (by simp [lines]), lines]
  simp [List.flatMap_map]

end Table

/-! ## Values -/

/-- What is no number has its lexeme for its value. -/
theorem Scanned.value_eq_lexeme {t : Token} (h : Scanned t) (hk : t.kind ≠ .number) : t.value = t.lexeme := by
  by_cases hs : t.kind = .string
  · obtain ⟨body, hlexeme, -, hliteral⟩ := h.hasLiteral.string hs
    rw [Token.value, hliteral]
    apply String.toList_inj.mp
    rw [hlexeme]
    simp [Literal.shown]
  · rw [Token.value, h.hasLiteral.none_iff.mpr ⟨hs, hk⟩]

/-- A number's literal is a number without sign, and its value is the text of it. -/
theorem Scanned.value_number {t : Token} (h : Scanned t) (hk : t.kind = .number) : ∃ x : Binary64,
    t.literal = some (.number x) ∧ t.value = x.text ∧ x.isNegative = false ∧ x.isNaN = false := by
  obtain ⟨_, x, hliteral, hnear, _⟩ := h.hasLiteral.number hk
  refine ⟨x, hliteral, ?_, hnear.not_negative, hnear.not_nan⟩
  rw [Token.value, hliteral]
  rfl

theorem newline_not_mem_text {x : Binary64} (hs : x.isNegative = false) (hn : x.isNaN = false) :
    '\n' ∉ x.text.toList := by
  intro hm
  by_cases hinf : x.magnitude = infinityWord
  · rw [(text_eq_inf_iff hs hn).mpr hinf] at hm
    revert hm
    decide
  · have hf := isFinite_iff.mpr (lt_of_le_of_ne (isNaN_iff.mp hn) hinf)
    have hc := isNumberChar_of_mem_text hs hf '\n' hm
    revert hc
    unfold IsNumberChar
    decide

/-- In front of a line feed, the value of a token of a known kind can be read back, and
    tells the literal. -/
theorem Scanned.value_append_inj {t u : Token} (ht : Scanned t) (hu : Scanned u) (hk : t.kind = u.kind)
    {r r' : List Char} (h : t.value.toList ++ '\n' :: r = u.value.toList ++ '\n' :: r') :
    (t.literal = u.literal ∧ (t.kind ≠ .number → t.lexeme = u.lexeme)) ∧ r = r' := by
  by_cases hn : t.kind = .number
  · obtain ⟨x, htl, htv, hxs, hxn⟩ := ht.value_number hn
    obtain ⟨y, hul, huv, hys, hyn⟩ := hu.value_number (hk ▸ hn)
    rw [htv, huv] at h
    obtain ⟨htext, hr⟩ := append_cons_inj (newline_not_mem_text hxs hxn) (newline_not_mem_text hys hyn) h
    have hxy := text_injective hxs hys hxn hyn (String.toList_inj.mp htext)
    exact ⟨⟨by rw [htl, hul, hxy], fun h => absurd hn h⟩, hr⟩
  · rw [ht.value_eq_lexeme hn, hu.value_eq_lexeme (hk ▸ hn)] at h
    obtain ⟨hlexeme, hr⟩ := ht.lexeme_inj hu hk (Or.inr rfl) h
    exact ⟨⟨ht.literal_eq hu hk hlexeme, fun _ => hlexeme⟩, hr⟩

/-! ## A whole table -/

/-- The table of the tokens of a text tells the tokens with their literals, but neither on
    which lines they are nor how its numbers are spelled. -/
theorem table_determines_tokens (a b : String)
    (h : String.intercalate "\n" (Table.lines ((scan a).1.toList.map Token.row)) =
      String.intercalate "\n" (Table.lines ((scan b).1.toList.map Token.row))) :
    List.Forall₂ (fun t u => t.kind = u.kind ∧ t.literal = u.literal ∧ (t.kind ≠ .number → t.lexeme = u.lexeme))
      (scan a).1.toList (scan b).1.toList := by
  have htexts := congrArg (fun s => s.toList ++ ['\n']) h
  simp only [Table.intercalate_lines] at htexts
  obtain ⟨hwidth, hrows⟩ := Table.width_of_top htexts
  rw [hwidth, List.flatMap_map, List.flatMap_map] at hrows
  refine forall₂_of_flatMap_eq (p := Scanned) (by simp) ?_ (fun t ht => scanned_of_mem_scan ht)
    (fun t ht => scanned_of_mem_scan ht) hrows
  intro t u ht hu r r' hread
  simp only [List.append_assoc] at hread
  obtain ⟨hname, hvalue⟩ := Table.line_append_inj t.kind.name_chars.2 u.kind.name_chars.2 hread
  have hkind := Kind.name_injective hname
  obtain ⟨hagree, hrest⟩ := ht.value_append_inj hu hkind hvalue
  exact ⟨⟨hkind, hagree⟩, hrest⟩

/-- A number can be spelled in two ways, and a row be spread over lines. -/
theorem table_determines_tokens_spellings :
    let a := "1.50 \"NUMBER\n | 1\""
    let b := "01.5\n\"NUMBER\n | 1\""
    String.intercalate "\n" (Table.lines ((scan a).1.toList.map Token.row)) =
      String.intercalate "\n" (Table.lines ((scan b).1.toList.map Token.row)) ∧
    List.Forall₂ (fun t u => t.kind = u.kind ∧ t.literal = u.literal ∧ (t.kind ≠ .number → t.lexeme = u.lexeme))
      (scan a).1.toList (scan b).1.toList := by
  intro a b
  have h : String.intercalate "\n" (Table.lines ((scan a).1.toList.map Token.row)) =
      String.intercalate "\n" (Table.lines ((scan b).1.toList.map Token.row)) := by decide +kernel
  exact ⟨h, table_determines_tokens a b h⟩

end LoxLexer
