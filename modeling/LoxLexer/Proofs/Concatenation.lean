/-
  LoxLexer.Proofs.Concatenation — two sources with a line feed between them.

  Every piece but a string that is never closed ends before a line feed if it ends where
  the text does: no number, word, symbol or comment takes a line feed. So the pieces of
  two texts with a line feed between them are those of the first, the line feed, and
  those of the second (`Cut.append_newline`), and all that the second takes over from the
  first is the line it begins on (`collect_shift`).

  Proved:
  - `scan_append_newline`: a scan of both gives the tokens and the reports of the first,
    and behind them those of the second with their lines moved down.
-/

import LoxLexer.Proofs.Lookahead
import LoxLexer.Proofs.Segmentation

namespace LoxLexer

open Piece

/-- The token as it is when its source begins this many lines further down. -/
def Token.shift (n : Int) (t : Token) : Token := { t with line := t.line + n }

/-- The diagnostic as it is when its source begins this many lines further down. -/
def Diagnostic.shift (n : Int) (d : Diagnostic) : Diagnostic := { d with line := d.line.map (· + n) }

/-- What is said about a string that is never closed. -/
def unterminated : String := "Unterminated string literal"

namespace Piece

/-! ## Pieces further down -/

theorem collect_shift {α : Type} {f : Int → Piece → Option α} {g : α → α} {n : Int}
    (hf : ∀ line p, f (line + n) p = (f line p).map g) (line : Int) (ps : List Piece) :
    collect f (line + n) ps = (collect f line ps).map g := by
  induction ps generalizing line with
  | nil => rfl
  | cons p ps ih =>
    have hline : line + n + p.newlines = line + p.newlines + n := by omega
    rw [collect, hline, ih, hf, collect, List.map_append]
    cases f line p <;> rfl

theorem token?_shift (n line : Int) (p : Piece) : p.token? (line + n) = (p.token? line).map (Token.shift n) := by
  have hline : line + n + p.newlines = line + p.newlines + n := by omega
  unfold token?
  split
  · rw [hline]; rfl
  · rfl

theorem diagnostic?_shift (n line : Int) (p : Piece) :
    p.diagnostic? (line + n) = (p.diagnostic? line).map (Diagnostic.shift n) := by
  have hline : line + n + p.newlines = line + p.newlines + n := by omega
  unfold diagnostic?
  split
  · rw [hline]; rfl
  · rfl

theorem lineAfter_shift (n line : Int) (ps : List Piece) : lineAfter (line + n) ps = lineAfter line ps + n := by
  simp only [lineAfter]; omega

/-! ## A line feed between two texts -/

theorem Cut.append_newline {s : List Char} {ps : List Piece} (h : Cut s ps)
    (hopen : ∀ p ∈ ps, ∀ body, p ≠ openString body) (t : List Char) :
    Cut (s ++ '\n' :: t) (ps ++ blank '\n' :: pieces t) := by
  induction h with
  | nil => exact .cons (p := blank '\n') rfl trivial (cut_pieces t)
  | cons hf he _ ih =>
    have hp := hopen _ (List.mem_cons_self ..)
    rw [List.append_assoc]
    exact .cons hf (he.append_newline hp t) (ih fun q hq => hopen q (List.mem_cons_of_mem _ hq))

/-- A string that is never closed is always reported. -/
theorem unterminated_of_mem (line : Int) {ps : List Piece} {body : List Char} (h : openString body ∈ ps) :
    ∃ d ∈ diagnostics line ps, d.message = unterminated := by
  have hm : unterminated ∈ (diagnostics line ps).map (·.message) := by
    rw [message_diagnostics]
    exact List.mem_filterMap.mpr ⟨_, h, rfl⟩
  obtain ⟨d, hd, hmsg⟩ := List.mem_map.mp hm
  exact ⟨d, hd, hmsg⟩

theorem pieces_append_newline {s : List Char} {line : Int}
    (h : ∀ d ∈ diagnostics line (pieces s), d.message ≠ unterminated) (t : List Char) :
    pieces (s ++ '\n' :: t) = pieces s ++ blank '\n' :: pieces t := by
  refine pieces_eq_iff.mpr ((cut_pieces s).append_newline (fun p hp body hb => ?_) t)
  rw [hb] at hp
  obtain ⟨d, hd, hmsg⟩ := unterminated_of_mem line hp
  exact h d hd hmsg

end Piece

/-! ## Scanning both -/

/-- If no string is left open in the first source, a scan of both with a line feed between
    them gives the tokens of the first but the one for the end, then those of the second,
    and the reports of both, all of the second as many lines further down as the first has. -/
theorem scan_append_newline (a b : String) (h : ∀ d ∈ (scan a).2.toList, d.message ≠ unterminated) :
    ∃ (ts : List Token) (e : Token), (scan a).1.toList = ts ++ [e] ∧ e.kind = .eof ∧ (∀ t ∈ ts, t.kind ≠ .eof) ∧
      (scan (a ++ "\n" ++ b)).1.toList = ts ++ (scan b).1.toList.map (Token.shift e.line) ∧
      (scan (a ++ "\n" ++ b)).2.toList = (scan a).2.toList ++ (scan b).2.toList.map (Diagnostic.shift e.line) := by
  obtain ⟨hta, hda⟩ := toList_scan a
  obtain ⟨htb, hdb⟩ := toList_scan b
  obtain ⟨ht, hd⟩ := toList_scan (a ++ "\n" ++ b)
  rw [hda] at h
  have htext : (a ++ "\n" ++ b).toList = a.toList ++ '\n' :: b.toList := by simp
  rw [htext, pieces_append_newline h] at ht hd
  -- the second source begins on the line behind that of the end of the first
  have hline : lineAfter 1 (pieces a.toList) + (blank '\n').newlines = 1 + lineAfter 1 (pieces a.toList) := by
    rw [Int.add_comm]; rfl
  refine ⟨tokens 1 (pieces a.toList), endToken (lineAfter 1 (pieces a.toList)), hta, rfl, fun t => kind_ne_eof, ?_, ?_⟩
  · have hend : lineAfter 1 (pieces a.toList ++ blank '\n' :: pieces b.toList) =
        lineAfter 1 (pieces b.toList) + lineAfter 1 (pieces a.toList) := by
      rw [lineAfter_append, lineAfter_cons, hline, lineAfter_shift]
    have hrest : collect token? (lineAfter 1 (pieces a.toList)) (blank '\n' :: pieces b.toList) =
        (tokens 1 (pieces b.toList)).map (Token.shift (lineAfter 1 (pieces a.toList))) := by
      rw [collect, hline]
      exact collect_shift (token?_shift _) 1 _
    rw [ht, htb, hend, tokens, collect_append, hrest, List.map_append, List.append_assoc]
    rfl
  · rw [hd, hda, hdb, diagnostics, collect_append, collect, hline, collect_shift (diagnostic?_shift _)]
    rfl

/-- A number in front of a point, a stray character and a comment in front of the line feed;
    a fraction and a string that is never closed behind it. -/
theorem scan_append_newline_cuts_fraction :
    (∀ d ∈ (scan "@ 1. // \"").2.toList, d.message ≠ unterminated) ∧
      (scan ("@ 1. // \"" ++ "\n" ++ ".5 \"x")).2.toList =
        (scan "@ 1. // \"").2.toList ++ (scan ".5 \"x").2.toList.map (Diagnostic.shift 1) := by
  have h : ∀ d ∈ (scan "@ 1. // \"").2.toList, d.message ≠ unterminated := by decide +kernel
  obtain ⟨ts, e, ha, -, -, -, hd⟩ := scan_append_newline "@ 1. // \"" ".5 \"x" h
  have he : (scan "@ 1. // \"").1.toList.getLast? = some ⟨.eof, "", none, 1⟩ := by decide +kernel
  rw [ha, List.getLast?_concat] at he
  rw [hd, Option.some.inj he]
  exact ⟨h, rfl⟩

end LoxLexer
