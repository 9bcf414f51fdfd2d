/-
  LoxLexer.Proofs.Stability — what a scan keeps when more is written behind its source.

  A piece that does not reach the end of the text is cut in the same way whatever is
  written behind the text, but for one: a number in front of a point that ends the text
  is read on if digits are written behind it. So a token is settled (`Settled`) when the
  scanner that added it was not yet at the end and it is no such number. A stray
  character is settled wherever it stands.

  Proved:
  - `Cut.uncons_append`: what becomes of the first piece when more is written behind.
  - `added_steps`: the tokens that steps add, each with the place of the scanner, are
    those of the pieces that the steps read.
  - `settled_prefix`: the settled tokens of a source, and the stray characters reported
    in it, come first in every longer source.
-/

import LoxLexer.Proofs.Lookahead
import LoxLexer.Proofs.Segmentation

namespace LoxLexer

open Piece

/-! ## Tokens and places -/

namespace Session

variable {σ : Type} [Sink σ]

/-- The tokens that an operation adds, each with the place of the scanner behind it. -/
def addedBy (s : Session σ) (op : Op) : List (Token × Nat) :=
  ((s.exec op).1.scanner.tokens.toList.drop s.scanner.tokens.size).map fun t => (t, (s.exec op).1.scanner.current)

/-- The tokens that a run of operations adds, each with the place of the scanner when it
    was added. -/
def added (s : Session σ) : List Op → List (Token × Nat)
  | [] => []
  | op :: ops => s.addedBy op ++ (s.exec op).1.added ops

end Session

/-- The token was added in front of the end of the source, and is no number without a
    point that only a point follows there. -/
def Settled (source : List Char) (t : Token × Nat) : Prop :=
  t.2 < source.length ∧ ¬ (t.1.kind = .number ∧ '.' ∉ t.1.lexeme.toList ∧
    source.drop (t.2 - t.1.lexeme.length) = t.1.lexeme.toList ++ ['.'])

instance (source : List Char) (t : Token × Nat) : Decidable (Settled source t) := inferInstanceAs (Decidable (_ ∧ _))

/-- Whether the diagnostic is about a stray character. -/
def Diagnostic.isStray (d : Diagnostic) : Bool := "Unrecognized character".toList.isPrefixOf d.message.toList

namespace Piece

/-- The tokens of the pieces, the first of them at `o`, each with the place behind it. -/
def placed : Nat → Int → List Piece → List (Token × Nat)
  | _, _, [] => []
  | o, line, p :: ps =>
    (p.token? line).toList.map (fun t => (t, o + p.text.length)) ++ placed (o + p.text.length) (line + p.newlines) ps

theorem map_fst_placed (o : Nat) (line : Int) (ps : List Piece) : (placed o line ps).map (·.1) = tokens line ps := by
  induction ps generalizing o line with
  | nil => rfl
  | cons p ps ih =>
    rw [placed, List.map_append, ih, tokens, collect]
    cases p.token? line <;> rfl

end Piece

/-! ## The tokens that steps add -/

namespace Session

variable {σ : Type} [Sink σ]

theorem addedBy_step_nil {s : Session σ} (h : s.scanner.rest = []) : s.addedBy .step = [] := by
  rw [addedBy, exec_step_nil h]
  simp [Scanner.mark]

theorem addedBy_step_cons {s : Session σ} {c : Char} {r : List Char} (h : s.scanner.rest = c :: r) :
    s.addedBy .step = ((first c r).1.token? s.scanner.line).toList.map
      fun t => (t, s.scanner.current + (first c r).1.text.length) := by
  rw [addedBy, exec_step_cons h, read_eq, Scanner.read_eq]
  simp

/-- As many steps as there are pieces left add the tokens of those pieces. -/
theorem added_steps (s : Session σ) (n : Nat) : s.added (List.replicate n .step) =
    placed s.scanner.current s.scanner.line ((pieces s.scanner.rest).take n) := by
  induction n generalizing s with
  | zero => rw [List.take_zero]; rfl
  | succ n ih =>
    rw [List.replicate_succ, added, ih]
    cases h : s.scanner.rest with
    | nil =>
      rw [addedBy_step_nil h, exec_step_nil h, pieces_nil]
      show placed _ _ ((pieces s.scanner.rest).take n) = _
      rw [h, pieces_nil, List.take_nil, List.take_nil]
      rfl
    | cons c r =>
      rw [addedBy_step_cons h, exec_step_cons h, rest_read h, pieces_cons, List.take_succ_cons, placed, read_eq,
        Scanner.read_eq]

end Session

/-! ## More text behind -/

namespace Piece

/-- The first of some pieces is the last of them, or a number in front of a point that is
    the last, or stays the first whatever is written behind the text. -/
theorem Cut.uncons_append {s : List Char} {p : Piece} {ps : List Piece} (h : Cut s (p :: ps)) :
    ∃ r, s = p.text ++ r ∧ p.Formed ∧ p.Ends r ∧ Cut r ps ∧
      (r = [] ∧ ps = [] ∨ (∃ w, p = number w []) ∧ r = ['.'] ∧ ps = [symbol .dot] ∨
        r ≠ [] ∧ (∀ w, p = number w [] → r ≠ ['.']) ∧ ∀ t, pieces (s ++ t) = p :: pieces (r ++ t)) := by
  obtain ⟨r, rfl, hf, he, hc⟩ := h.uncons
  refine ⟨r, rfl, hf, he, hc, ?_⟩
  by_cases hr : r = []
  · subst hr
    cases pieces_eq_iff.mpr hc
    exact Or.inl ⟨rfl, pieces_nil⟩
  by_cases hp : (∃ w, p = number w []) ∧ r = ['.']
  · obtain ⟨hw, rfl⟩ := hp
    have hdot := pieces_text_append (p := symbol .dot) trivial (ends_nil _)
    rw [pieces_nil, show (symbol .dot).text ++ [] = ['.'] from rfl, pieces_eq_iff.mpr hc] at hdot
    exact Or.inr (Or.inl ⟨hw, rfl, hdot⟩)
  · have hpoint : ∀ w, p = number w [] → r ≠ ['.'] := fun w hw hr => hp ⟨⟨w, hw⟩, hr⟩
    refine Or.inr (Or.inr ⟨hr, hpoint, fun t => ?_⟩)
    rw [List.append_assoc]
    exact pieces_text_append hf (he.append hr hpoint t)

/-- A token that is no number in front of a last point is settled unless it ends the text. -/
theorem settled_of_token? {source : List Char} {o : Nat} {line : Int} {p : Piece} {r : List Char} {t : Token}
    (hs : source.drop o = p.text ++ r) (hf : p.Formed) (hr : r ≠ []) (hpoint : ∀ w, p = number w [] → r ≠ ['.'])
    (ht : p.token? line = some t) : Settled source (t, o + p.text.length) := by
  have hw := written_token? line p
  rw [ht] at hw
  obtain ⟨hrole, htext⟩ := written?_eq_some hw.symm
  have hlen : t.lexeme.length = p.text.length := by rw [htext, String.length_toList]
  have hdrop := congrArg List.length hs
  rw [List.length_drop, List.length_append] at hdrop
  have hrlen := List.length_pos_iff.mpr hr
  refine ⟨by simp only; omega, fun ⟨hkind, hdot, hend⟩ => ?_⟩
  simp only at hkind hdot hend hrole htext
  rw [hlen, Nat.add_sub_cancel, hs, ← htext] at hend
  rw [← htext] at hdot
  rw [hkind] at hrole
  obtain ⟨whole, fraction, rfl⟩ := number_of_role hrole
  cases fraction with
  | nil => exact hpoint whole rfl (List.append_cancel_left hend)
  | cons d f => exact hdot (by simp [text, point])

/-- The scanner is at the end when it adds the token of the last piece. -/
theorem filter_placed_last {source : List Char} {o : Nat} {line : Int} {p : Piece} (hs : source.drop o = p.text)
    (ho : o ≤ source.length) : (placed o line [p]).filter (fun t => Settled source t) = [] := by
  have hlen := congrArg List.length hs
  rw [List.length_drop] at hlen
  refine List.filter_eq_nil_iff.mpr fun q hq => ?_
  simp only [placed, List.append_nil, List.mem_map] at hq
  obtain ⟨t, _, rfl⟩ := hq
  have hat : ¬ o + p.text.length < source.length := by omega
  simp [Settled, hat]

theorem filter_placed_point {source w : List Char} {o : Nat} {line : Int} (hf : (number w []).Formed)
    (hs : source.drop o = w ++ ['.']) (ho : o ≤ source.length) :
    (placed o line [number w [], symbol .dot]).filter (fun t => Settled source t) = [] := by
  have hlen := congrArg List.length hs
  rw [List.length_drop, List.length_append, List.length_singleton] at hlen
  have htext : (number w []).text = w := List.append_nil w
  have hdot : '.' ∉ w := fun hm => by cases hf.2.1 _ hm
  refine List.filter_eq_nil_iff.mpr fun q hq => ?_
  rcases List.mem_cons.mp hq with rfl | hq
  · simp [Settled, htext, hdot, hs]
  · rcases List.mem_cons.mp hq with rfl | hq
    · have hat : ¬ o + w.length + 1 < source.length := by omega
      simp [Settled, text, point, Symbol.chars, hat]
    · cases hq

/-- The settled tokens of a text come first in every longer text. -/
theorem Cut.settled_tokens {source s : List Char} {ps : List Piece} (h : Cut s ps) {o : Nat} (line : Int)
    (hs : source.drop o = s) (ho : o ≤ source.length) (t : List Char) :
    ((placed o line ps).filter fun t => Settled source t).map (·.1) <+: tokens line (pieces (s ++ t)) := by
  induction ps generalizing s o line with
  | nil => exact List.nil_prefix
  | cons p ps ih =>
    obtain ⟨r, rfl, hf, _, hc, hend⟩ := h.uncons_append
    have hlen := congrArg List.length hs
    rw [List.length_drop, List.length_append] at hlen
    rcases hend with ⟨rfl, rfl⟩ | ⟨⟨w, rfl⟩, rfl, rfl⟩ | ⟨hr, hpoint, hfirst⟩
    · rw [filter_placed_last (by rw [hs, List.append_nil]) ho]
      exact List.nil_prefix
    · rw [filter_placed_point hf (by rw [hs, text, point, List.append_nil]) ho]
      exact List.nil_prefix
    · have hdrop : source.drop (o + p.text.length) = r := by rw [← List.drop_drop, hs, List.drop_left]
      have hrest := ih hc (line + p.newlines) hdrop (by omega)
      rw [hfirst, placed, tokens, collect]
      cases ht : p.token? line with
      | none => exact hrest
      | some u =>
        have hsettled := settled_of_token? hs hf hr hpoint ht
        show (((u, o + p.text.length) :: placed _ _ ps).filter fun t => Settled source t).map (·.1) <+: u :: _
        rw [List.filter_cons, if_pos (decide_eq_true hsettled)]
        exact (List.prefix_cons_inj u).mpr hrest

/-! ## Stray characters -/

theorem isStray_stray (line : Option Int) (c : Char) :
    (⟨"Unrecognized character \"" ++ String.singleton c ++ "\"", line⟩ : Diagnostic).isStray = true := by
  simp [Diagnostic.isStray, String.toList_append]

theorem isStray_unterminated (line : Option Int) :
    (⟨"Unterminated string literal", line⟩ : Diagnostic).isStray = false := by
  show "Unrecognized character".toList.isPrefixOf "Unterminated string literal".toList = false
  decide

/-- The stray characters of a text are reported first in every longer text. -/
theorem Cut.stray_diagnostics {s : List Char} {ps : List Piece} (h : Cut s ps) (line : Int) (t : List Char) :
    (diagnostics line ps).filter Diagnostic.isStray <+: diagnostics line (pieces (s ++ t)) := by
  induction ps generalizing s line with
  | nil => exact List.nil_prefix
  | cons p ps ih =>
    obtain ⟨r, rfl, hf, he, hc, hend⟩ := h.uncons_append
    have hrest := ih hc (line + p.newlines)
    by_cases hp : ∃ c, p = stray c
    · obtain ⟨c, rfl⟩ := hp
      -- a stray character ends where it ends, whatever is behind it
      rw [List.append_assoc, pieces_text_append (r := r ++ t) hf trivial]
      show (_ :: diagnostics _ ps).filter Diagnostic.isStray <+: _ :: diagnostics _ (pieces (r ++ t))
      rw [List.filter_cons_of_pos (isStray_stray _ c)]
      exact (List.prefix_cons_inj _).mpr hrest
    rcases hend with ⟨rfl, rfl⟩ | ⟨⟨w, rfl⟩, rfl, rfl⟩ | ⟨hr, hpoint, hfirst⟩
    · have hnone : (diagnostics line [p]).filter Diagnostic.isStray = [] := by
        cases p with
        | stray c => exact absurd ⟨c, rfl⟩ hp
        | openString body => exact List.filter_cons_of_neg (isStray_unterminated _ ▸ Bool.false_ne_true)
        | _ => rfl
      rw [hnone]
      exact List.nil_prefix
    · exact List.nil_prefix
    · have hnone : p.diagnostic? line = none := by
        cases p with
        | stray c => exact absurd ⟨c, rfl⟩ hp
        | openString body => exact absurd he hr
        | _ => rfl
      show (collect diagnostic? line (p :: ps)).filter Diagnostic.isStray <+: collect diagnostic? line _
      rw [hfirst, collect, collect, hnone]
      exact hrest

end Piece

/-! ## Longer sources -/

/-- The settled tokens of a source, as they are, come first among those of every longer
    source, and the reports of its stray characters first among the reports. -/
theorem settled_prefix {σ : Type} [Sink σ] (sink : σ) (a b : String) :
    let added := (Session.fresh a.toList sink).added (List.replicate a.toList.length .step)
    (∃ e : Token, e.kind = .eof ∧ (∀ t ∈ added, t.1.kind ≠ .eof) ∧ (scan a).1.toList = added.map (·.1) ++ [e]) ∧
      (added.filter fun t => Settled a.toList t).map (·.1) <+: (scan (a ++ b)).1.toList ∧
      (scan a).2.toList.filter Diagnostic.isStray <+: (scan (a ++ b)).2.toList := by
  intro added
  obtain ⟨hta, hda⟩ := toList_scan a
  obtain ⟨ht, hd⟩ := toList_scan (a ++ b)
  rw [String.toList_append] at ht hd
  have hadded : added = placed 0 1 (pieces a.toList) := by
    show Session.added _ _ = _
    rw [Session.added_steps]
    show placed 0 1 ((pieces a.toList).take _) = _
    rw [List.take_of_length_le (cut_pieces _).length_le]
  have hfst := map_fst_placed 0 1 (pieces a.toList)
  rw [hadded]
  refine ⟨⟨endToken (lineAfter 1 (pieces a.toList)), rfl, fun t htm => ?_, by rw [hta, hfst]⟩, ?_, ?_⟩
  · have hm : t.1 ∈ tokens 1 (pieces a.toList) := by
      rw [← hfst]
      exact List.mem_map_of_mem htm
    exact kind_ne_eof hm
  · have hpre := (cut_pieces a.toList).settled_tokens 1 (show a.toList.drop 0 = a.toList from rfl) (Nat.zero_le _) b.toList
    rw [ht]
    exact hpre.trans (List.prefix_append _ _)
  · rw [hda, hd]
    exact (cut_pieces a.toList).stray_diagnostics 1 b.toList

/-- The number of `1.` is not settled, and that of `1.;` is. -/
example :
    let added (s : String) := (Session.fresh s.toList Chain.silent).added (List.replicate s.toList.length .step)
    ((added "1.").map fun t => decide (Settled "1.".toList t)) = [false, false] ∧
      ((added "1.;").map fun t => decide (Settled "1.;".toList t)) = [true, true, false] := by decide +kernel

end LoxLexer
