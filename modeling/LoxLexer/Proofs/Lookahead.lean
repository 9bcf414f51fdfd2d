/-
  LoxLexer.Proofs.Lookahead — how much of the text behind a piece decides where it ends.

  A piece ends where it does because of the first character behind it, and a number
  without a fraction because of the first two; a string that is never closed ends only
  where the text does. So another text may stand behind a piece as long as its first
  character is the same, a line feed, or a space in the place of a character that is no
  line feed, and no point and digit have come to stand behind a number (`Ends.transfer`).

  Three such texts:
  - `Ends.append_newline`: the same text with a line feed and anything behind it.
  - `Ends.append`: the same text, if it is not empty, with anything behind it; only a
    number in front of a point that ends the text may go on.
  - `Ends.blanked`: the text with spaces in the place of some of its characters.
-/

import Mathlib.Data.List.Forall2
import LoxLexer.Proofs.Cutting

namespace LoxLexer

theorem Clear.transfer {q : Char → Bool} {r r' : List Char} (h : Clear q r)
    (hhead : ∀ c ∈ r'.head?, c ∈ r.head? ∨ q c = false) : Clear q r' := by
  intro c hc
  rcases hhead c hc with hr | hq
  · exact h c hr
  · exact hq

namespace Piece

theorem joinsWith_cases {s : Symbol} {c : Char} (h : c ∈ s.joinsWith) : c = '/' ∨ c = '=' := by
  cases s <;> cases h <;> simp

/-- A piece also ends before a text that shows it nothing new to take. -/
theorem Ends.transfer {p : Piece} {r r' : List Char} (h : p.Ends r)
    (hhead : ∀ c ∈ r'.head?, c ∈ r.head? ∨ c = '\n' ∨ c = ' ' ∧ ∃ d ∈ r.head?, d ≠ '\n')
    (hpoint : ∀ w, p = number w [] → ∀ d t, r' = '.' :: d :: t → d.isDigit = false ∨ ∃ u, r = '.' :: d :: u)
    (hopen : ∀ body, p = openString body → r' = []) : p.Ends r' := by
  -- every class but that of a comment is free of the line feed and the space
  have clear : ∀ {q : Char → Bool}, q '\n' = false → q ' ' = false → Clear q r → Clear q r' := by
    intro q hn hs hq
    refine hq.transfer fun c hc => ?_
    rcases hhead c hc with hc | rfl | ⟨rfl, _⟩
    · exact Or.inl hc
    · exact Or.inr hn
    · exact Or.inr hs
  cases p with
  | blank | string | stray => trivial
  | openString body => exact hopen body rfl
  | comment body =>
    refine Clear.transfer h fun c hc => ?_
    rcases hhead c hc with hc | rfl | ⟨_, d, hd, hne⟩
    · exact Or.inl hc
    · exact Or.inr rfl
    · have hd' : (d != '\n') = false := h d hd
      exact absurd (by simpa using hd') hne
  | symbol s =>
    intro c hc
    rcases joinsWith_cases hc with rfl | rfl
    · exact clear rfl rfl (h _ hc)
    · exact clear rfl rfl (h _ hc)
  | word letters => exact clear (by decide) (by decide) h
  | number whole fraction =>
    cases fraction with
    | cons d f => exact clear rfl rfl h
    | nil =>
      refine ⟨clear rfl rfl h.1, fun d t ht => ?_⟩
      rcases hpoint whole rfl d t ht with hd | ⟨u, hu⟩
      · exact hd
      · exact h.2 d u hu

theorem Ends.append_newline {p : Piece} {r : List Char} (h : p.Ends r) (hopen : ∀ body, p ≠ openString body)
    (t : List Char) : p.Ends (r ++ '\n' :: t) := by
  refine h.transfer (fun c hc => ?_) (fun _ _ d u hu => ?_) (fun body hp => absurd hp (hopen body))
  · cases r with
    | nil =>
      cases hc
      exact Or.inr (Or.inl rfl)
    | cons e r => exact Or.inl hc
  · cases r with
    | nil => cases hu
    | cons e r =>
      cases r with
      | nil =>
        cases hu
        exact Or.inl rfl
      | cons e' r =>
        cases hu
        exact Or.inr ⟨r, rfl⟩

theorem Ends.append {p : Piece} {r : List Char} (h : p.Ends r) (hr : r ≠ [])
    (hpoint : ∀ w, p = number w [] → r ≠ ['.']) (t : List Char) : p.Ends (r ++ t) := by
  obtain ⟨e, r, rfl⟩ := List.exists_cons_of_ne_nil hr
  refine h.transfer (fun c hc => Or.inl hc) (fun w hw d u hu => ?_) (fun body hp => ?_)
  · cases r with
    | nil =>
      obtain ⟨rfl, _⟩ := List.cons.inj hu
      exact absurd rfl (hpoint w hw)
    | cons e' r =>
      cases hu
      exact Or.inr ⟨r, rfl⟩
  · rw [hp] at h
    exact absurd h hr

/-! ## Spaces in the place of characters -/

/-- The character is kept, or a space stands in its place, though not in that of a line feed. -/
def Blanks (c d : Char) : Prop := d = c ∨ c ≠ '\n' ∧ d = ' '

theorem Ends.blanked {p : Piece} {r r' : List Char} (h : p.Ends r) (hb : List.Forall₂ Blanks r r') : p.Ends r' := by
  refine h.transfer (fun c hc => ?_) (fun _ _ d t ht => ?_) (fun body hp => ?_)
  · cases hb with
    | nil => cases hc
    | cons hd _ =>
      cases hc
      rcases hd with rfl | ⟨hn, hs⟩
      · exact Or.inl rfl
      · exact Or.inr (Or.inr ⟨hs, _, rfl, hn⟩)
  · subst ht
    cases hb with
    | cons hd hb =>
      cases hb with
      | cons he _ =>
        rcases hd with rfl | ⟨_, hs⟩
        · rcases he with rfl | ⟨_, rfl⟩
          · exact Or.inr ⟨_, rfl⟩
          · exact Or.inl rfl
        · cases hs
  · rw [hp] at h
    have hr : r = [] := h
    subst hr
    cases hb
    rfl

end Piece

end LoxLexer
