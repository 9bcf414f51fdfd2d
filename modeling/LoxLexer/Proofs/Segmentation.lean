/-
  LoxLexer.Proofs.Segmentation — a scan follows the split of its source by the grammar.

  The grammar (`LoxLexer.Proofs.Grammar`) splits a source into units, each the longest
  that stands at its place. A scan whose sink accepts everything adds, in the order of the
  units, one token for each unit that becomes one and hands out one diagnostic for each
  that is at fault, and adds the token for the end behind them (`Emits`).

  Proved:
  - `scan_emits_split`: every source has exactly one split, and a scan emits what is in
    it: no unit is lost, none is read twice, and nothing else is emitted.
-/

import LoxLexer.Proofs.Grammar
import LoxLexer.Proofs.Reading

namespace LoxLexer

open Piece

namespace Span

/-- The kind and the lexeme of the token that a unit becomes. -/
def written? (u : Span) : Option (Kind × String) :=
  match u.role with
  | .token kind => some (kind, String.ofList u.text)
  | _ => none

/-- What is said about a unit that is at fault. -/
def message? (u : Span) : Option String :=
  match u.role with
  | .stray c => some ("Unrecognized character \"" ++ String.singleton c ++ "\"")
  | .unclosed => some "Unterminated string literal"
  | _ => none

end Span

/-- The session holds the tokens of these units and the token for the end, and has
    reported the units at fault, each of all these once and in order. -/
structure Emits {σ : Type} [Sink σ] (sink : σ) (us : List Span) (s : Session σ) : Prop where
  tokens : ∃ (ts : List Token) (e : Token), s.scanner.tokens.toList = ts ++ [e] ∧
    ts.map (fun t => (t.kind, t.lexeme)) = us.filterMap Span.written? ∧ (∀ t ∈ ts, t.kind ≠ .eof) ∧
    e.kind = .eof ∧ e.lexeme = "" ∧ e.literal = none
  reports : ∃ ds : List Diagnostic, s.sink = Sink.after sink ds ∧ ds.map (·.message) = us.filterMap Span.message?

namespace Piece

/-! ## Pieces and units yield the same -/

/-- A piece as a unit, wherever it stands. -/
def span (p : Piece) : Span := ⟨0, p.text, p.role⟩

theorem filterMap_spans {α : Type} (f : Span → Option α) (hf : ∀ o p, f ⟨o, text p, role p⟩ = f (span p)) (o : Nat)
    (ps : List Piece) : (spans o ps).filterMap f = ps.filterMap fun p => f p.span := by
  induction ps generalizing o with
  | nil => rfl
  | cons p ps ih => rw [spans, List.filterMap_cons, List.filterMap_cons, hf, ih]

theorem written_token? (line : Int) (p : Piece) :
    (p.token? line).map (fun t => (t.kind, t.lexeme)) = p.span.written? := by cases p <;> rfl

theorem message_diagnostic? (line : Int) (p : Piece) :
    (p.diagnostic? line).map (·.message) = p.span.message? := by cases p <;> rfl

theorem written_tokens (line : Int) (ps : List Piece) :
    (tokens line ps).map (fun t => (t.kind, t.lexeme)) = ps.filterMap fun p => p.span.written? :=
  map_collect _ _ _ written_token? line ps

theorem message_diagnostics (line : Int) (ps : List Piece) :
    (diagnostics line ps).map (·.message) = ps.filterMap fun p => p.span.message? :=
  map_collect _ _ _ message_diagnostic? line ps

theorem written_spans (o : Nat) (ps : List Piece) :
    (spans o ps).filterMap Span.written? = ps.filterMap fun p => p.span.written? :=
  filterMap_spans _ (fun _ _ => rfl) o ps

theorem message_spans (o : Nat) (ps : List Piece) :
    (spans o ps).filterMap Span.message? = ps.filterMap fun p => p.span.message? :=
  filterMap_spans _ (fun _ _ => rfl) o ps

theorem written?_eq_some {p : Piece} {l : Kind × String} (h : p.span.written? = some l) :
    p.role = .token l.1 ∧ p.text = l.2.toList := by
  unfold Span.written? at h
  split at h
  · rename_i k hk
    cases h
    exact ⟨hk, String.toList_ofList.symm⟩
  · cases h

theorem role_ne_eof (p : Piece) : p.role ≠ .token .eof := by
  cases p with
  | word letters =>
    intro h
    rcases ofWord_cases (String.ofList letters) with ⟨k, _, hk⟩ | ⟨_, hk⟩ <;> rw [role, hk] at h <;> cases h
  | _ => intro h; cases h

theorem kind_ne_eof {line : Int} {ps : List Piece} {t : Token} (h : t ∈ tokens line ps) : t.kind ≠ .eof := by
  intro he
  have hm : (t.kind, t.lexeme) ∈ (tokens line ps).map fun t => (t.kind, t.lexeme) := List.mem_map_of_mem h
  rw [written_tokens, he] at hm
  obtain ⟨p, _, hp⟩ := List.mem_filterMap.mp hm
  exact role_ne_eof p (written?_eq_some hp).1

end Piece

theorem HasRead.emits {σ : Type} [Sink σ] {source : List Char} {sink : σ} {ps : List Piece} {s : Session σ}
    (h : HasRead source sink ps s) (hd : s.scanner.done = true) : Emits sink (spans 0 ps) s := by
  have ht := h.tokens_eq
  rw [hd] at ht
  refine ⟨⟨Piece.tokens 1 ps, endToken (lineAfter 1 ps), ht, ?_, fun t => kind_ne_eof, rfl, rfl, rfl⟩,
    ⟨diagnostics 1 ps, h.sink_eq, ?_⟩⟩
  · rw [written_tokens, written_spans]
  · rw [message_diagnostics, message_spans]

theorem text_ne_nil_of_mem_spans {s : List Char} {ps : List Piece} (h : Cut s ps) {o : Nat} {u : Span}
    (hu : u ∈ spans o ps) : u.text ≠ [] := by
  induction h generalizing o with
  | nil => cases hu
  | cons hf _ _ ih =>
    rcases List.mem_cons.mp hu with rfl | hu
    · exact text_ne_nil hf
    · exact ih hu

/-- A source has exactly one split by the grammar, and a scan emits what is in it. -/
theorem scan_emits_split {σ : Type} [Sink σ] {sink : σ} (ha : Sink.Accepting sink) (source : String) :
    ∃ us, (∀ vs, Split 0 source.toList vs ↔ vs = us) ∧ us.flatMap Span.text = source.toList ∧
      (∀ u ∈ us, u.text ≠ []) ∧ ((Session.fresh source.toList sink).scan).2 = .accepted ∧
      Emits sink us ((Session.fresh source.toList sink).scan).1 := by
  obtain ⟨hv, hd, h⟩ := scan_of_accepting ha source.toList
  refine ⟨spans 0 (pieces source.toList), fun vs => split_iff, ?_, fun u => text_ne_nil_of_mem_spans (cut_pieces _), hv,
    h.emits hd⟩
  rw [flatMap_text_spans, flatMap_text_pieces]

/-- Two points, a quote inside a comment, and two slashes inside a string that is never closed. -/
theorem points_and_quotes_emit_split :
    Sink.Accepting (Chain.collecting #[] .silent) ∧
      ∃ us, Split 0 "1.2.3//\"\n\"//".toList us ∧
        Emits (Chain.collecting #[] .silent) us
          ((Session.fresh "1.2.3//\"\n\"//".toList (Chain.collecting #[] .silent)).scan).1 := by
  have ha := Chain.accepting_collecting Chain.accepting_silent #[]
  obtain ⟨us, hu, _, _, _, he⟩ := scan_emits_split ha "1.2.3//\"\n\"//"
  exact ⟨ha, us, (hu us).mpr rfl, he⟩

end LoxLexer
