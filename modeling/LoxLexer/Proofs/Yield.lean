/-
  LoxLexer.Proofs.Yield — what a list of pieces yields: its tokens and its diagnostics.

  A piece yields at most one token and at most one diagnostic, and never both. Both name
  the line on which the piece ends, so all that a piece takes from those before it is the
  line it begins on. Tokens and diagnostics are gathered in the same way (`collect`), and
  what holds of gathering is proved once for both.

  Proved:
  - `collect_append`: what is gathered from two lists of pieces, one behind the other.
  - `collect_lines`: lines never decrease on the way, and stay between the first and the
    last.
-/

import LoxLexer.Report.Diagnostic
import LoxLexer.Proofs.Cutting

namespace LoxLexer

namespace Piece

/-- The token that a piece becomes, if it does, when it begins on this line. -/
def token? (line : Int) (p : Piece) : Option Token :=
  match p.outcome with
  | .token kind literal => some ⟨kind, String.ofList p.text, literal, line + p.newlines⟩
  | _ => none

/-- The diagnostic that a piece causes, if it does, when it begins on this line. -/
def diagnostic? (line : Int) (p : Piece) : Option Diagnostic :=
  match p.outcome with
  | .fault message => some ⟨message, some (line + p.newlines)⟩
  | _ => none

/-- The line behind the pieces. -/
def lineAfter (line : Int) (ps : List Piece) : Int := line + ((ps.flatMap text).count '\n' : Nat)

@[simp] theorem lineAfter_nil (line : Int) : lineAfter line [] = line := Int.add_zero line

@[simp] theorem lineAfter_cons (line : Int) (p : Piece) (ps : List Piece) :
    lineAfter line (p :: ps) = lineAfter (line + p.newlines) ps := by
  simp only [lineAfter, newlines, List.flatMap_cons, List.count_append]; omega

theorem lineAfter_append (line : Int) (ps qs : List Piece) :
    lineAfter line (ps ++ qs) = lineAfter (lineAfter line ps) qs := by
  simp only [lineAfter, List.flatMap_append, List.count_append]; omega

/-! ## Gathering -/

section Collect

variable {α β : Type} (f : Int → Piece → Option α)

/-- What `f` finds in each piece, given the line the piece begins on. -/
def collect : Int → List Piece → List α
  | _, [] => []
  | line, p :: ps => (f line p).toList ++ collect (line + p.newlines) ps

theorem collect_append (line : Int) (ps qs : List Piece) :
    collect f line (ps ++ qs) = collect f line ps ++ collect f (lineAfter line ps) qs := by
  induction ps generalizing line with
  | nil => simp [collect]
  | cons p ps ih => simp [collect, ih]

theorem collect_singleton (line : Int) (p : Piece) : collect f line [p] = (f line p).toList := by simp [collect]

theorem collect_map (g : α → β) (line : Int) (ps : List Piece) :
    collect (fun line p => (f line p).map g) line ps = (collect f line ps).map g := by
  induction ps generalizing line with
  | nil => rfl
  | cons p ps ih =>
    rw [collect, collect, ih, List.map_append]
    cases f line p <;> rfl

/-- If in the place of each piece stand pieces with as many line ends, from which `f`
    gathers what `g` finds in it, then all these are gathered in the same way. -/
theorem collect_flatMap {f : Int → Piece → Option α} {g : Int → Piece → Option α} {h : Piece → List Piece}
    {ps : List Piece} (hp : ∀ p ∈ ps, ∀ line, collect f line (h p) = (g line p).toList ∧
      lineAfter line (h p) = line + p.newlines) (line : Int) :
    collect f line (ps.flatMap h) = collect g line ps := by
  induction ps generalizing line with
  | nil => rfl
  | cons p ps ih =>
    obtain ⟨hf, hl⟩ := hp p (List.mem_cons_self ..) line
    rw [List.flatMap_cons, collect_append, hf, hl, collect, ih fun q hq => hp q (List.mem_cons_of_mem _ hq)]

/-- What does not hang on the line is gathered without it. -/
theorem map_collect (g : α → β) (h : Piece → Option β) (hf : ∀ line p, (f line p).map g = h p) (line : Int)
    (ps : List Piece) : (collect f line ps).map g = ps.filterMap h := by
  induction ps generalizing line with
  | nil => rfl
  | cons p ps ih =>
    rw [collect, List.map_append, ih, List.filterMap_cons, ← hf line p]
    cases f line p <;> rfl

/-- If all that is found in a piece lies on the line where the piece ends, then lines
    never decrease, and none comes before the first line or after the last. -/
theorem collect_lines (lineOf : α → Int) (hf : ∀ line p a, f line p = some a → lineOf a = line + p.newlines)
    (line : Int) (ps : List Piece) :
    (collect f line ps).Pairwise (fun a b => lineOf a ≤ lineOf b) ∧
      ∀ a ∈ collect f line ps, line ≤ lineOf a ∧ lineOf a ≤ lineAfter line ps := by
  induction ps generalizing line with
  | nil => exact ⟨.nil, fun a h => by cases h⟩
  | cons p ps ih =>
    obtain ⟨hp, hle⟩ := ih (line + p.newlines)
    have hafter : line + p.newlines ≤ lineAfter line (p :: ps) := by
      rw [lineAfter_cons, lineAfter]; omega
    rw [collect]
    cases hc : f line p with
    | none =>
      refine ⟨hp, fun a ha => ?_⟩
      obtain ⟨h1, h2⟩ := hle a ha
      rw [lineAfter_cons]
      omega
    | some a =>
      have ha := hf line p a hc
      refine ⟨List.pairwise_cons.mpr ⟨fun b hb => by rw [ha]; exact (hle b hb).1, hp⟩, fun b hb => ?_⟩
      rcases List.mem_cons.mp hb with rfl | hb
      · omega
      · obtain ⟨h1, h2⟩ := hle b hb
        rw [lineAfter_cons]
        omega

end Collect

/-! ## Tokens and diagnostics -/

def tokens : Int → List Piece → List Token := collect token?

def diagnostics : Int → List Piece → List Diagnostic := collect diagnostic?

/-- The token for the end of the input. -/
def endToken (line : Int) : Token := ⟨.eof, "", none, line⟩

theorem line_token? {line : Int} {p : Piece} {t : Token} (h : token? line p = some t) : t.line = line + p.newlines := by
  unfold token? at h
  split at h <;> cases h
  rfl

theorem lexeme_token? {line : Int} {p : Piece} {t : Token} (h : token? line p = some t) :
    t.lexeme = String.ofList p.text := by
  unfold token? at h
  split at h <;> cases h
  rfl

theorem line_diagnostic? {line : Int} {p : Piece} {d : Diagnostic} (h : diagnostic? line p = some d) :
    d.line = some (line + p.newlines) := by
  unfold diagnostic? at h
  split at h <;> cases h
  rfl

/-- Pieces do not yield more, in tokens and diagnostics together, than there are of them. -/
theorem length_yield_le (line : Int) (ps : List Piece) :
    (tokens line ps).length + (diagnostics line ps).length ≤ ps.length := by
  induction ps generalizing line with
  | nil => exact Nat.le_refl 0
  | cons p ps ih =>
    have hp : (p.token? line).toList.length + (p.diagnostic? line).toList.length ≤ 1 := by
      rw [token?, diagnostic?]
      cases p.outcome <;> simp
    have hps := ih (line + p.newlines)
    simp only [tokens, diagnostics] at hps
    simp only [tokens, diagnostics, collect, List.length_append, List.length_cons]
    omega

end Piece

end LoxLexer
