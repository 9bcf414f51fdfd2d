/-
  LoxLexer.Proofs.Blanking — a source with its faults blanked out.

  Where a character is stray, a space may stand as well, and where a string is never
  closed, blanks may stand in the place of all that it takes (`Span.blanked`). Nothing
  else is cut differently then. A blank joins with nothing in front of it or behind it
  (`Ends.blanked`), and line feeds are left where they are, so a comment in front of a
  fault still ends where it did, and every line keeps its number.

  Proved:
  - `pieces_blanked`: the pieces of the blanked text are those of the text, with blanks
    for the pieces at fault (`mended`).
  - `scan_blanked`: a scan of the blanked source adds the same tokens and reports nothing.
-/

import LoxLexer.Proofs.Lines
import LoxLexer.Proofs.Lookahead

namespace LoxLexer

open Piece

/-- What is written in the place of a unit: itself, or, if it is at fault, a space for
    each of its characters but the line feeds. -/
def Span.blanked (u : Span) : List Char :=
  match u.role with
  | .stray _ => [' ']
  | .unclosed => u.text.map fun c => if c = '\n' then c else ' '
  | .passed | .token _ => u.text

theorem count_of_blanks {s t : List Char} (h : List.Forall₂ Blanks s t) : t.count '\n' = s.count '\n' := by
  induction h with
  | nil => rfl
  | cons hb _ ih =>
    rcases hb with rfl | ⟨hn, rfl⟩
    · rw [List.count_cons, List.count_cons, ih]
    · rw [List.count_cons_of_ne hn, List.count_cons_of_ne (by decide), ih]

namespace Piece

/-- The pieces that are cut where a piece was, once its faults are blanked out. -/
def mended : Piece → List Piece
  | stray c => (stray c).span.blanked.map blank
  | openString body => (openString body).span.blanked.map blank
  | p => [p]

/-- A piece stays as it is, or blanks stand in its place. -/
theorem mended_cases (p : Piece) :
    (p.mended = [p] ∧ p.span.blanked = p.text ∧ ∀ line, p.diagnostic? line = none) ∨
      p.mended = p.span.blanked.map blank ∧ (∀ c ∈ p.span.blanked, isBlank c = true) ∧ ∀ line, p.token? line = none := by
  cases p with
  | stray c =>
    refine Or.inr ⟨rfl, fun d hd => ?_, fun _ => rfl⟩
    rw [List.mem_singleton.mp hd]
    rfl
  | openString body =>
    refine Or.inr ⟨rfl, fun d hd => ?_, fun _ => rfl⟩
    obtain ⟨c, _, rfl⟩ := List.mem_map.mp hd
    by_cases hc : c = '\n'
    · rw [if_pos hc, hc]; rfl
    · rw [if_neg hc]; rfl
  | _ => exact Or.inl ⟨rfl, rfl, fun _ => rfl⟩

theorem flatMap_text_blanks (cs : List Char) : (cs.map blank).flatMap text = cs := by
  induction cs with
  | nil => rfl
  | cons c cs ih => exact congrArg (List.cons c) ih

theorem flatMap_text_mended (p : Piece) : p.mended.flatMap text = p.span.blanked := by
  rcases mended_cases p with ⟨hp, hb, _⟩ | ⟨hp, _⟩
  · rw [hp, hb, List.flatMap_singleton]
  · rw [hp, flatMap_text_blanks]

theorem blanks_text {p : Piece} (hf : p.Formed) : List.Forall₂ Blanks p.text p.span.blanked := by
  have same : ∀ s : List Char, List.Forall₂ Blanks s s := fun s => List.forall₂_same.mpr fun c _ => Or.inl rfl
  cases p with
  | stray c => exact .cons (Or.inr ⟨stray_ne_blank hf (by decide), rfl⟩) .nil
  | openString body =>
    refine List.forall₂_map_right_iff.mpr (List.forall₂_same.mpr fun c _ => ?_)
    by_cases hc : c = '\n'
    · exact Or.inl (if_pos hc)
    · exact Or.inr ⟨hc, if_neg hc⟩
  | _ => exact same _

theorem Cut.blanks {s : List Char} {ps : List Piece} (h : Cut s ps) :
    List.Forall₂ Blanks s (ps.flatMap fun p => p.span.blanked) := by
  induction h with
  | nil => exact .nil
  | cons hf _ _ ih => exact List.rel_append (blanks_text hf) ih

/-- The blanked text is cut as the text is, but for the faults. -/
theorem pieces_blanked {s : List Char} {ps : List Piece} (h : Cut s ps) :
    pieces (ps.flatMap fun p => p.span.blanked) = ps.flatMap mended := by
  induction h with
  | nil => exact pieces_nil
  | @cons p r ps hf he h ih =>
    rw [List.flatMap_cons, List.flatMap_cons, ← ih]
    rcases mended_cases p with ⟨hp, hb, _⟩ | ⟨hp, hblank, _⟩
    · rw [hp, hb, pieces_text_append hf (he.blanked h.blanks)]
      rfl
    · rw [hp, pieces_blanks hblank]

/-! ## What the blanked text yields -/

theorem lineAfter_mended {p : Piece} (hf : p.Formed) (line : Int) : lineAfter line p.mended = line + p.newlines := by
  rw [lineAfter, flatMap_text_mended, count_of_blanks (blanks_text hf), newlines]

theorem collect_of_none {α : Type} {f : Int → Piece → Option α} {ps : List Piece}
    (hf : ∀ line, ∀ p ∈ ps, f line p = none) (line : Int) : collect f line ps = [] := by
  induction ps generalizing line with
  | nil => rfl
  | cons p ps ih =>
    rw [collect, hf line p (List.mem_cons_self ..), ih fun l q hq => hf l q (List.mem_cons_of_mem _ hq)]
    rfl

theorem tokens_mended (line : Int) (p : Piece) : collect token? line p.mended = (p.token? line).toList := by
  rcases mended_cases p with ⟨hp, _, _⟩ | ⟨hp, _, ht⟩
  · rw [hp, collect_singleton]
  · rw [hp, ht, collect_of_none fun l q hq => ?_]
    · rfl
    · obtain ⟨c, _, rfl⟩ := List.mem_map.mp hq
      rfl

theorem diagnostics_mended (line : Int) (p : Piece) : collect diagnostic? line p.mended = [] := by
  refine collect_of_none (fun l q hq => ?_) line
  rcases mended_cases p with ⟨hp, _, hd⟩ | ⟨hp, _⟩
  · rw [hp] at hq
    rw [List.mem_singleton.mp hq]
    exact hd l
  · rw [hp] at hq
    obtain ⟨c, _, rfl⟩ := List.mem_map.mp hq
    rfl

section Blanked

variable {s : List Char} {ps : List Piece}

theorem tokens_blanked (h : Cut s ps) (line : Int) :
    tokens line (pieces (ps.flatMap fun p => p.span.blanked)) = tokens line ps := by
  rw [pieces_blanked h, tokens]
  exact collect_flatMap (fun p hp l => ⟨tokens_mended l p, lineAfter_mended (h.formed p hp) l⟩) line

theorem diagnostics_blanked (h : Cut s ps) (line : Int) :
    diagnostics line (pieces (ps.flatMap fun p => p.span.blanked)) = [] := by
  have hnone : collect diagnostic? line (ps.flatMap mended) = collect (fun _ _ => none) line ps :=
    collect_flatMap (fun p hp l => ⟨diagnostics_mended l p, lineAfter_mended (h.formed p hp) l⟩) line
  rw [pieces_blanked h, diagnostics, hnone]
  exact collect_of_none (fun _ _ _ => rfl) line

theorem lineAfter_blanked (h : Cut s ps) (line : Int) :
    lineAfter line (pieces (ps.flatMap fun p => p.span.blanked)) = lineAfter line ps := by
  have hs : ps.flatMap text = s := by rw [← pieces_eq_iff.mpr h, flatMap_text_pieces]
  rw [lineAfter, flatMap_text_pieces, count_of_blanks h.blanks, lineAfter, hs]

end Blanked

theorem flatMap_blanked_spans (o : Nat) (ps : List Piece) :
    (spans o ps).flatMap Span.blanked = ps.flatMap fun p => p.span.blanked := by
  induction ps generalizing o with
  | nil => rfl
  | cons p ps ih =>
    rw [spans, List.flatMap_cons, List.flatMap_cons, ih]
    rfl

end Piece

/-! ## Scanning the blanked source -/

/-- A scan reports the units at fault in the split of its source, and no others. With
    these blanked out, a scan reports nothing to any sink and adds the same tokens, on
    the same lines. -/
theorem scan_blanked {σ : Type} [Sink σ] (sink : σ) (source : String) :
    ∃ us, (∀ vs, Split 0 source.toList vs ↔ vs = us) ∧
      (scan source).2.toList.map (fun d => (d.message, d.line)) =
        (us.filterMap fun u => u.message?.map fun m => (m, some (u.line source.toList))) ∧
      let r := (Session.fresh (us.flatMap Span.blanked) sink).scan
      r.2 = .accepted ∧ r.1.sink = sink ∧ r.1.scanner.tokens = (scan source).1 := by
  obtain ⟨hts, hds⟩ := toList_scan source
  have hcut := cut_pieces source.toList
  refine ⟨spans 0 (pieces source.toList), fun vs => split_iff, ?_, ?_⟩
  · rw [hds]
    have hall : Cut (source.toList.drop 0) (pieces source.toList ++ []) := by rwa [List.append_nil]
    exact map_collect_spans line_of_diagnostic hall
  · rw [flatMap_blanked_spans]
    have hreports := diagnostics_blanked hcut 1
    obtain ⟨hv, hd, h⟩ := scan_of_no_diagnostics sink hreports
    have htokens := h.tokens_eq
    have hsink := h.sink_eq
    rw [hreports] at hsink
    rw [hd, if_pos rfl, tokens_blanked hcut, lineAfter_blanked hcut, ← hts] at htokens
    exact ⟨hv, hsink, Array.ext' htokens⟩

/-- A string that is never closed is blanked out to the end, but for its line feed; a point
    between a number and a stray character stays a point. -/
example :
    let us : List Span := [⟨0, ['1'], .token .number⟩, ⟨1, ['.'], .token (.symbol .dot)⟩, ⟨2, ['@'], .stray '@'⟩,
      ⟨3, "\"a\n//".toList, .unclosed⟩]
    us.flatMap Span.blanked = "1.   \n  ".toList := by decide

end LoxLexer
