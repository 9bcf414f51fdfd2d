/-
  LoxLexer.Proofs.Printing — writing lexemes down and reading them back.

  Lexemes of any kinds are written one behind the other with gaps of blanks in front,
  between and behind (`printed`). Reading gives back the kinds and the lexemes that were
  written exactly when none of them fuse (`LoxLexer.Proofs.Fusing`).

  Where two fuse, what is read instead can be anything, a comment that takes the rest of
  a line and an odd quote with it included. But if the same lexemes came out all the
  same, they would hold every character that is no blank, so only blanks would be left
  for the pieces that become no token (`blank_of_given_back`). Then each lexeme is read
  at the place where it was written, and is the longest unit there.

  Proved:
  - `given_back_iff`: the pieces of what was written give the lexemes back exactly when
    each is the longest unit at its place.
  - `scan_printed`: a scan gives them back exactly when none of them fuse, and then hands
    nothing to its sink.
-/

import LoxLexer.Proofs.Fusing
import LoxLexer.Proofs.Segmentation

namespace LoxLexer

open Piece

/-- The text with a gap in front. -/
def printed (lead : Gap) (ws : List Written) : List Char := lead.chars ++ written ws

def Written.pair (w : Written) : Kind × String := (w.kind, String.ofList w.text)

/-- All the characters of some lexemes. -/
def spelled (ls : List (Kind × String)) : List Char := ls.flatMap fun l => l.2.toList

/-- The number of characters that are no blanks. -/
def inked (s : List Char) : Nat := s.countP fun c => !isBlank c

@[simp] theorem inked_append (s t : List Char) : inked (s ++ t) = inked s + inked t := List.countP_append

theorem inked_eq_zero {s : List Char} : inked s = 0 ↔ ∀ c ∈ s, isBlank c = true := by simp [inked]

theorem Gap.inked_chars (g : Gap) : inked g.chars = 0 :=
  inked_eq_zero.mpr fun c hc => blank_iff.mp (g.blank c hc)

theorem inked_written (ws : List Written) : inked (written ws) = inked (spelled (ws.map Written.pair)) := by
  induction ws with
  | nil => rfl
  | cons w ws ih =>
    have hg := w.gap.inked_chars
    have hw : spelled ((w :: ws).map Written.pair) = w.text ++ spelled (ws.map Written.pair) := by
      simp [spelled, Written.pair]
    rw [hw, written_cons, inked_append, inked_append, inked_append, ih, hg]
    omega

namespace Piece

/-- A character that is no blank stands in a lexeme or in a piece that becomes no token. -/
theorem inked_flatMap (ps : List Piece) : inked (ps.flatMap text) =
    inked (spelled (ps.filterMap fun p => p.span.written?)) +
      inked ((ps.filter fun p => p.span.written?.isNone).flatMap text) := by
  induction ps with
  | nil => rfl
  | cons p ps ih =>
    rw [List.flatMap_cons, inked_append, ih]
    cases h : p.span.written? with
    | none =>
      simp only [List.filterMap_cons, List.filter_cons, h, Option.isNone_none, if_true, List.flatMap_cons, inked_append]
      omega
    | some l =>
      have hl := (written?_eq_some h).2
      simp only [List.filterMap_cons, List.filter_cons, h, Option.isNone_some, Bool.false_eq_true, if_false, spelled,
        List.flatMap_cons, inked_append, hl]
      omega

/-- A formed piece of blanks only is one blank. -/
theorem blank_of_inked {p : Piece} (hf : p.Formed) (h : inked p.text = 0) (hw : p.span.written? = none) :
    ∃ c, Blank c ∧ p = blank c := by
  rw [inked_eq_zero] at h
  cases p with
  | blank c => exact ⟨c, blank_iff.mpr hf, rfl⟩
  | comment body => exact absurd (h '/' (List.mem_cons_self ..)) (by decide)
  | openString body => exact absurd (h '\"' (List.mem_cons_self ..)) (by decide)
  | stray c =>
    have hb := h c (List.mem_cons_self ..)
    rw [hf.1] at hb
    cases hb
  | _ => cases hw

/-- If the lexemes come out as they were written, only blanks are left besides. -/
theorem blank_of_given_back {lead : Gap} {ws : List Written}
    (h : (pieces (printed lead ws)).filterMap (fun p => p.span.written?) = ws.map Written.pair) :
    ∀ p ∈ pieces (printed lead ws), p.span.written? = none → ∃ c, Blank c ∧ p = blank c := by
  intro p hp hw
  have hall := inked_flatMap (pieces (printed lead ws))
  have htext : inked (printed lead ws) = inked (spelled (ws.map Written.pair)) := by
    rw [printed, inked_append, lead.inked_chars, inked_written]; omega
  rw [flatMap_text_pieces, h, htext] at hall
  have hzero : inked (((pieces (printed lead ws)).filter fun p => p.span.written?.isNone).flatMap text) = 0 := by omega
  refine blank_of_inked ((cut_pieces _).formed p hp) ?_ hw
  rw [inked_eq_zero] at hzero ⊢
  intro c hc
  exact hzero c (List.mem_flatMap.mpr ⟨p, List.mem_filter.mpr ⟨hp, by rw [hw]; rfl⟩, hc⟩)

end Piece

/-! ## Reading back -/

theorem pieces_gap (g : Gap) (r : List Char) : pieces (g.chars ++ r) = g.chars.map blank ++ pieces r :=
  pieces_blanks (fun c hc => blank_iff.mp (g.blank c hc)) r

theorem filterMap_blank (cs : List Char) : (cs.map blank).filterMap (fun p => p.span.written?) = [] := by
  simp [span, Span.written?, role]

/-- If the lexemes are given back, the first piece behind the gap is the first of them. -/
theorem first_of_given_back {lead : Gap} {w : Written} {ws : List Written}
    (h : (pieces (printed lead (w :: ws))).filterMap (fun p => p.span.written?) = (w :: ws).map Written.pair) :
    Longest (written (w :: ws)) w.text (.token w.kind) ∧
      (pieces (printed w.gap ws)).filterMap (fun p => p.span.written?) = ws.map Written.pair := by
  have hblank := blank_of_given_back h
  rw [printed, pieces_gap] at h hblank
  rw [List.filterMap_append, filterMap_blank, List.nil_append] at h
  have hcut := cut_pieces (written (w :: ws))
  cases hps : pieces (written (w :: ws)) with
  | nil => rw [hps] at h; cases h
  | cons p ps =>
    rw [hps] at h hcut hblank
    obtain ⟨r, hs, hf, he, hcut⟩ := hcut.uncons
    cases hw : p.span.written? with
    | none =>
      -- the first piece would be a blank, but a lexeme begins with no blank
      obtain ⟨c, hc, hp⟩ := hblank p (List.mem_append_right _ (List.mem_cons_self ..)) hw
      obtain ⟨d, t, hd, hhead⟩ := w.begins
      rw [hp, written_cons, hd] at hs
      rw [(List.cons.inj hs).1] at hhead
      exact absurd hc hhead.not_blank
    | some l =>
      rw [List.filterMap_cons, hw, List.map_cons] at h
      obtain ⟨hl, hrest⟩ := List.cons.inj h
      obtain ⟨hrole, htext⟩ := written?_eq_some hw
      rw [hl, Written.pair, String.toList_ofList] at htext
      rw [hl] at hrole
      have hr : printed w.gap ws = r := by
        rw [written_cons, htext] at hs
        exact List.append_cancel_left hs
      rw [hr, pieces_eq_iff.mpr hcut, hs, ← htext]
      exact ⟨hrole ▸ longest_of_ends hf he, hrest⟩

/-- Lexemes are given back exactly when each is the longest unit at its place. -/
theorem given_back_iff (lead : Gap) (ws : List Written) :
    (pieces (printed lead ws)).filterMap (fun p => p.span.written?) = ws.map Written.pair ↔ Apart ws := by
  induction ws generalizing lead with
  | nil =>
    refine iff_of_true ?_ trivial
    rw [printed, written_nil, pieces_gap, pieces_nil, List.append_nil]
    exact filterMap_blank _
  | cons w ws ih =>
    constructor
    · intro h
      obtain ⟨hl, hrest⟩ := first_of_given_back h
      exact ⟨hl, (ih w.gap).mp hrest⟩
    · intro h
      obtain ⟨p, r, hf, he, ht, hr, hs⟩ := longest_iff.mp h.1
      have hw : p.span.written? = some w.pair := by rw [span, Span.written?, hr, ht]; rfl
      have hr : r = printed w.gap ws := by
        rw [written_cons] at hs
        exact List.append_cancel_left hs
      have hrest := (ih w.gap).mpr h.2
      rw [← ht] at hs
      rw [printed, pieces_gap, List.filterMap_append, filterMap_blank, ← hs, pieces_text_append hf he, hr,
        List.nil_append, List.filterMap_cons, hw, hrest, List.map_cons]

/-! ## Scanning back -/

/-- What is given back is at fault nowhere. -/
theorem diagnostics_of_given_back {lead : Gap} {ws : List Written}
    (h : (pieces (printed lead ws)).filterMap (fun p => p.span.written?) = ws.map Written.pair) :
    diagnostics 1 (pieces (printed lead ws)) = [] := by
  have hm := message_diagnostics 1 (pieces (printed lead ws))
  have hnone : (pieces (printed lead ws)).filterMap (fun p => p.span.message?) = [] := by
    rw [List.filterMap_eq_nil_iff]
    intro p hp
    cases hw : p.span.written? with
    | none =>
      obtain ⟨c, _, hc⟩ := blank_of_given_back h p hp hw
      rw [hc]; rfl
    | some l => simp only [span, Span.message?, (written?_eq_some hw).1]
  rw [hnone] at hm
  exact List.map_eq_nil_iff.mp hm

theorem HasRead.pairs_eq {σ : Type} [Sink σ] {source : List Char} {sink : σ} {ps : List Piece} {s : Session σ}
    (h : HasRead source sink ps s) (hd : s.scanner.done = true) :
    s.scanner.tokens.toList.map (fun t => (t.kind, t.lexeme)) =
      (pieces source).filterMap (fun p => p.span.written?) ++ [(.eof, "")] := by
  have ht := h.tokens_eq
  rw [hd, h.all_of_done hd] at ht
  rw [ht, List.map_append, written_tokens]
  rfl

/-- The scan has returned, with the tokens of these lexemes and the token for the end. -/
structure GivenBack {σ : Type} (r : Session σ × Verdict) (ws : List Written) : Prop where
  accepted : r.2 = .accepted
  pairs_eq : r.1.scanner.tokens.toList.map (fun t => (t.kind, t.lexeme)) = ws.map Written.pair ++ [(.eof, "")]

/-- A scan of lexemes that were written down gives them back exactly when no two or three
    of them are fused, and then it has nothing to report. -/
theorem scan_printed {σ : Type} [Sink σ] (sink : σ) (lead : Gap) (ws : List Written) :
    let r := (Session.fresh (printed lead ws) sink).scan
    (GivenBack r ws ↔ ¬ Fused ws) ∧
      (GivenBack r ws → r.1.sink = sink ∧ (scan (String.ofList (printed lead ws))).2 = #[]) := by
  intro r
  have hback : GivenBack r ws → (pieces (printed lead ws)).filterMap (fun p => p.span.written?) = ws.map Written.pair := by
    intro hg
    obtain ⟨ps, h, hacc, _⟩ := (HasRead.fresh (printed lead ws) sink).scan
    have hw := hg.pairs_eq
    rw [h.pairs_eq (hacc hg.accepted)] at hw
    exact List.append_cancel_right hw
  -- what is given back is read to the end, whatever the sink would have refused
  have hread : (pieces (printed lead ws)).filterMap (fun p => p.span.written?) = ws.map Written.pair →
      r.2 = .accepted ∧ r.1.scanner.done = true ∧ HasRead (printed lead ws) sink (pieces (printed lead ws)) r.1 := by
    intro h
    refine scan_of_all_accepted fun ds d es hds => ?_
    rw [diagnostics_of_given_back h] at hds
    simp at hds
  refine ⟨⟨fun hg => ?_, fun hf => ?_⟩, fun hg => ?_⟩
  · exact (apart_iff ws).mp ((given_back_iff lead ws).mp (hback hg))
  · have hgiven := (given_back_iff lead ws).mpr ((apart_iff ws).mpr hf)
    obtain ⟨hv, hd, h⟩ := hread hgiven
    exact ⟨hv, by rw [h.pairs_eq hd, hgiven]⟩
  · have hnone := diagnostics_of_given_back (hback hg)
    obtain ⟨_, _, h⟩ := hread (hback hg)
    have hs := h.sink_eq
    rw [hnone] at hs
    have hkept := (toList_scan (String.ofList (printed lead ws))).2
    rw [String.toList_ofList, hnone] at hkept
    exact ⟨hs, by simpa using hkept⟩

def Gap.none : Gap := ⟨[], fun _ h => by cases h⟩

def Gap.space : Gap := ⟨[' '], fun _ h => Or.inl (List.mem_singleton.mp h)⟩

/-- The lexemes `1`, `.` and `2`, with a gap behind the first. -/
def pointed (g : Gap) : List Written :=
  [⟨.number, ['1'], .whole (by simp) (by simp [Digit]), g⟩, ⟨.symbol .dot, ['.'], .symbol .dot, .none⟩,
    ⟨.number, ['2'], .whole (by simp) (by simp [Digit]), .none⟩]

/-- `1 .2` is three tokens, and `1.2` is not. -/
theorem blank_keeps_point_apart :
    GivenBack ((Session.fresh (printed .none (pointed .space)) Chain.silent).scan) (pointed .space) ∧
      ¬ GivenBack ((Session.fresh (printed .none (pointed .none)) Chain.silent).scan) (pointed .none) := by
  refine ⟨(scan_printed Chain.silent _ _).1.mpr fun h => ?_, fun h => (scan_printed Chain.silent _ _).1.mp h ?_⟩
  · cases h with
    | pair hg => cases hg
    | fraction hg => cases hg
    | later h =>
      cases h with
      | pair _ hj => exact absurd hj (by simp [joins_symbol, Symbol.joinsWith])
      | later h =>
        cases h with
        | later h => exact fused_nil h
  · exact .fraction rfl rfl rfl (by simp) rfl rfl

end LoxLexer
