/-
  LoxLexer.Proofs.Lines — the line of a scanner, a token and a diagnostic.

  The line of a place in a source is one more than the number of line feeds in front of
  it (`lineAt`). A scanner that scans, steps and looks always stands on the line of its
  place, also when the sink has just refused a report. So a token names the line of the
  end of its lexeme, a stray character the line it stands on, and a string that is never
  closed and the end of the input the last line of the source (`Span.line`).

  Proved:
  - `lines_exact`: all of this, in every state that such a run leads to and behind every
    scan from there; and that the lines of tokens, and those of diagnostics, never
    decrease, so that the text of every diagnostic names its line.
-/

import LoxLexer.Proofs.Segmentation

namespace LoxLexer

open Piece

/-- The line of the place in front of the character `n` of a source. -/
def lineAt (source : List Char) (n : Nat) : Int := 1 + ((source.take n).count '\n' : Nat)

/-- The line that the token or the diagnostic of a unit names. -/
def Span.line (source : List Char) (u : Span) : Int :=
  match u.role with
  | .stray _ => lineAt source u.start
  | .unclosed => lineAt source source.length
  | .token _ | .passed => lineAt source u.stop

theorem lineAt_add {source u r : List Char} {o : Nat} (h : source.drop o = u ++ r) :
    lineAt source (o + u.length) = lineAt source o + (u.count '\n' : Nat) := by
  rw [lineAt, List.take_add, h, List.take_left, List.count_append, lineAt]; omega

namespace Piece

/-! ## Lines of pieces and of units -/

/-- What the pieces of a source yield, with the lines counted on the way, is what its
    units yield, with the lines counted from the beginning. -/
theorem map_collect_spans {α β : Type} {f : Int → Piece → Option α} {g : α → β} {h : Span → Option β}
    {source : List Char}
    (hfg : ∀ o p r, Formed p → Ends p r → source.drop o = text p ++ r →
      (f (lineAt source o) p).map g = h ⟨o, text p, role p⟩)
    {ps qs : List Piece} {o : Nat} (hc : Cut (source.drop o) (ps ++ qs)) :
    (collect f (lineAt source o) ps).map g = (spans o ps).filterMap h := by
  induction ps generalizing o with
  | nil => rfl
  | cons p ps ih =>
    obtain ⟨r, hs, hf, he, hc'⟩ := hc.uncons
    have hr : r = source.drop (o + p.text.length) := by rw [← List.drop_drop, hs, List.drop_left]
    rw [hr] at hc'
    have := ih hc'
    rw [lineAt_add hs] at this
    rw [collect, spans, List.map_append, List.filterMap_cons, ← hfg o p r hf he hs]
    rw [show (collect f (lineAt source o + p.newlines) ps).map g = _ from this]
    cases f (lineAt source o) p <;> rfl

theorem line_of_token {source : List Char} (o : Nat) (p : Piece) (r : List Char) (_ : p.Formed) (_ : p.Ends r)
    (h : source.drop o = p.text ++ r) :
    (p.token? (lineAt source o)).map (fun t => ((t.kind, t.lexeme), t.line)) =
      (⟨o, p.text, p.role⟩ : Span).written?.map fun w => (w, Span.line source ⟨o, p.text, p.role⟩) := by
  have hl : lineAt source (o + p.text.length) = lineAt source o + p.newlines := lineAt_add h
  cases p with
  | blank | comment | stray | openString => rfl
  | symbol | string | number | word => exact congrArg some (Prod.ext rfl hl.symm)

theorem line_of_diagnostic {source : List Char} (o : Nat) (p : Piece) (r : List Char) (hf : p.Formed) (he : p.Ends r)
    (h : source.drop o = p.text ++ r) :
    (p.diagnostic? (lineAt source o)).map (fun d => (d.message, d.line)) =
      (⟨o, p.text, p.role⟩ : Span).message?.map fun m => (m, some (Span.line source ⟨o, p.text, p.role⟩)) := by
  cases p with
  | stray c =>
    -- a stray character is no line feed, so the line it ends on is the line it stands on
    have hc : c ≠ '\n' := stray_ne_blank hf (by decide)
    have hn : (stray c).newlines = 0 := by simp [newlines, text, hc]
    refine congrArg some (Prod.ext rfl (congrArg some ?_))
    show lineAt source o + ((stray c).newlines : Nat) = lineAt source o
    rw [hn]; omega
  | openString body =>
    have hr : r = [] := he
    rw [hr, List.append_nil] at h
    have hlen := congrArg List.length h
    rw [List.length_drop, text, List.length_cons] at hlen
    refine congrArg some (Prod.ext rfl (congrArg some ?_))
    show lineAt source o + ((openString body).newlines : Nat) = lineAt source source.length
    rw [show source.length = o + (openString body).text.length by rw [text, List.length_cons]; omega]
    exact (lineAt_add (by rw [h, List.append_nil])).symm
  | _ => rfl

end Piece

namespace HasRead

variable {σ : Type} [Sink σ] {source : List Char} {sink : σ} {ps : List Piece} {s : Session σ}

theorem cut (h : HasRead source sink ps s) : Cut (source.drop 0) (ps ++ pieces s.scanner.rest) := by
  rw [List.drop_zero, ← h.pieces_eq]; exact cut_pieces source

theorem lineAfter_eq (h : HasRead source sink ps s) : lineAfter 1 ps = lineAt source s.scanner.current := by
  rw [lineAt, h.take_current, lineAfter]

/-- A scanner stands on the line of its place. -/
theorem line_eq_lineAt (h : HasRead source sink ps s) : s.scanner.line = lineAt source s.scanner.current := by
  rw [h.line_eq, h.lineAfter_eq]

theorem current_of_done (h : HasRead source sink ps s) (hd : s.scanner.done = true) :
    s.scanner.current = source.length := by
  have := congrArg List.length h.text_append_rest
  rw [h.rest_of_done hd, List.append_nil, ← h.current_eq] at this
  exact this

theorem tokens_lines (h : HasRead source sink ps s) :
    s.scanner.tokens.toList.map (fun t => ((t.kind, t.lexeme), t.line)) =
      ((spans 0 ps).filterMap fun u => u.written?.map fun w => (w, u.line source)) ++
        if s.scanner.done then [((.eof, ""), lineAt source source.length)] else [] := by
  rw [h.tokens_eq, List.map_append]
  congr 1
  · exact map_collect_spans line_of_token h.cut
  · split
    · rename_i hd
      rw [h.lineAfter_eq, h.current_of_done hd]; rfl
    · rfl

/-- The token for the end of the input stands behind all others, on the last line. -/
theorem getLast?_tokens (h : HasRead source sink ps s) (hd : s.scanner.done = true) :
    s.scanner.tokens.toList.getLast? = some (endToken (lineAt source source.length)) := by
  rw [h.tokens_eq, if_pos hd, h.lineAfter_eq, h.current_of_done hd, List.getLast?_concat]

theorem diagnostics_lines (h : HasRead source sink ps s) : (diagnostics 1 ps).map (fun d => (d.message, d.line)) =
    (spans 0 ps).filterMap fun u => u.message?.map fun m => (m, some (u.line source)) :=
  map_collect_spans line_of_diagnostic h.cut

theorem tokens_sorted (h : HasRead source sink ps s) : s.scanner.tokens.toList.Pairwise (·.line ≤ ·.line) := by
  obtain ⟨hp, hle⟩ := collect_lines token? Token.line (fun _ _ _ => line_token?) 1 ps
  rw [h.tokens_eq, List.pairwise_append]
  refine ⟨hp, ?_, fun t ht e he => ?_⟩
  · split
    · exact List.pairwise_singleton _ _
    · exact .nil
  · split at he
    · rw [List.mem_singleton.mp he]; exact (hle t ht).2
    · cases he

end HasRead

/-! ## Diagnostics -/

theorem diagnostics_sorted (line : Int) (ps : List Piece) :
    (diagnostics line ps).Pairwise (fun a b => a.line.getD 0 ≤ b.line.getD 0) ∧
      ∀ d ∈ diagnostics line ps, line ≤ d.line.getD 0 := by
  obtain ⟨hp, hle⟩ := collect_lines diagnostic? (fun d => d.line.getD 0)
    (fun _ _ _ h => by rw [line_diagnostic? h]; rfl) line ps
  exact ⟨hp, fun d hd => (hle d hd).1⟩

/-- The text of a diagnostic on a line from the first on names its line. -/
theorem text_of_line {d : Diagnostic} (h : 1 ≤ d.line.getD 0) :
    ∃ n : Int, 1 ≤ n ∧ d.line = some n ∧ d.text = "[Line " ++ toString n ++ "]: " ++ d.message := by
  cases hl : d.line with
  | none => rw [hl] at h; exact absurd h (by decide)
  | some n =>
    rw [hl] at h
    have hn : 1 ≤ n := h
    exact ⟨n, hn, rfl, by rw [Diagnostic.text, hl, Diagnostic.place, if_neg (by omega)]⟩

/-- In every state that scans, steps and looks lead to, whatever the sink answers: the
    scanner stands on the line of its place; the tokens and the reports so far are those
    of the units it has read, each with the line of that unit; their lines never
    decrease; and the text of each report names its line. A scan from there is done if the
    sink accepts what it reports, and then the last token is the one for the end, on the
    last line of the source. -/
theorem lines_exact {σ : Type} [Sink σ] (sink : σ) (source : String) (ops : List Op)
    (ho : ∀ op ∈ ops, op.reads = true) :
    let s := (Session.fresh source.toList sink).run ops
    s.scanner.line = lineAt source.toList s.scanner.current ∧
      (s.scan.2 = .accepted → s.scan.1.scanner.done = true ∧
        s.scan.1.scanner.tokens.toList.getLast? = some ⟨.eof, "", none, lineAt source.toList source.toList.length⟩) ∧
      ∃ (before behind : List Span) (ds : List Diagnostic), Split 0 source.toList (before ++ behind) ∧
        before.flatMap Span.text = source.toList.take s.scanner.current ∧
        s.scanner.tokens.toList.map (fun t => ((t.kind, t.lexeme), t.line)) =
          ((before.filterMap fun u => u.written?.map fun w => (w, u.line source.toList)) ++
            if s.scanner.done then [((.eof, ""), lineAt source.toList source.toList.length)] else []) ∧
        s.sink = Sink.after sink ds ∧
        ds.map (fun d => (d.message, d.line)) =
          (before.filterMap fun u => u.message?.map fun m => (m, some (u.line source.toList))) ∧
        s.scanner.tokens.toList.Pairwise (·.line ≤ ·.line) ∧
        ds.Pairwise (fun a b => a.line.getD 0 ≤ b.line.getD 0) ∧
        ∀ d ∈ ds, ∃ n : Int, 1 ≤ n ∧ d.line = some n ∧ d.text = "[Line " ++ toString n ++ "]: " ++ d.message := by
  intro s
  obtain ⟨ps, h⟩ := HasRead.run_fresh source.toList sink ho
  obtain ⟨hsorted, hone⟩ := diagnostics_sorted 1 ps
  obtain ⟨qs, hscan, hdone, _⟩ := h.scan
  refine ⟨h.line_eq_lineAt, fun hacc => ⟨hdone hacc, hscan.getLast?_tokens (hdone hacc)⟩, spans 0 ps, spans (0 + (ps.flatMap text).length) (pieces s.scanner.rest), diagnostics 1 ps,
    ?_, ?_, h.tokens_lines, h.sink_eq, h.diagnostics_lines, h.tokens_sorted, hsorted,
    fun d hd => text_of_line (hone d hd)⟩
  · rw [← spans_append]
    exact split_spans h.cut 0
  · rw [flatMap_text_spans, h.take_current]

/-- A string over two lines, a stray character, and a string that is never closed; the
    sink refuses both reports, and the third scan comes to the end. -/
theorem lines_exact_when_refused :
    let s := (Session.fresh "\"a\n\"@\n\"\n".toList (Chain.collecting #[] .refusing)).run [.scan, .scan]
    (∀ op ∈ [Op.scan, .scan], op.reads = true) ∧ s.scanner.line = 4 ∧
      s.scanner.line = lineAt "\"a\n\"@\n\"\n".toList s.scanner.current ∧
      s.sink.kept.toList.map (·.text) = ["[Line 2]: Unrecognized character \"@\"", "[Line 4]: Unterminated string literal"] ∧
      s.scanner.done = false ∧ s.scan.2 = .accepted ∧ s.scan.1.scanner.done = true ∧
      s.scan.1.scanner.tokens.toList.map (·.line) = [2, 4] ∧
      s.scan.1.scanner.tokens.toList.getLast? = some ⟨.eof, "", none, 4⟩ := by
  intro s
  have ho : ∀ op ∈ [Op.scan, .scan], op.reads = true := by decide
  have hacc : s.scan.2 = .accepted := by decide +kernel
  obtain ⟨hline, hend, _⟩ := lines_exact (Chain.collecting #[] .refusing) "\"a\n\"@\n\"\n" _ ho
  obtain ⟨hdone, hlast⟩ := hend hacc
  exact ⟨ho, by decide +kernel, hline, by decide +kernel, by decide +kernel, hacc, hdone, by decide +kernel, hlast⟩

end LoxLexer
