/-
  LoxLexer.Proofs.Literals — what the tokens of a scan are like.

  A scan makes a token of a formed piece, and one for the end (`Scanned`). So the lexeme
  of a token tells its kind's spelling and its literal: a string's is what stands between
  its quotes, as it stands there; a number's is the binary number nearest to the decimal
  it is written as, of however many digits; no other token has one.

  Proved:
  - `HasRead.scanned`: every token of a session that reads is made so.
  - `Scanned.literal_eq`: tokens of one kind and one lexeme have one literal.
  - `literals_exact`: what the literal of every token of a scan is.
-/

import LoxLexer.Proofs.Binary64.Rounding
import LoxLexer.Proofs.Numeral
import LoxLexer.Proofs.Segmentation

namespace LoxLexer

open Piece Binary64

/-- A token as a scan makes it. -/
inductive Scanned : Token → Prop
  | piece {p : Piece} {line : Int} {t : Token} : p.Formed → p.token? line = some t → Scanned t
  | eof (line : Int) : Scanned (endToken line)

namespace Piece

theorem mem_collect {α : Type} {f : Int → Piece → Option α} {line : Int} {ps : List Piece} {a : α}
    (h : a ∈ collect f line ps) : ∃ p ∈ ps, ∃ l, f l p = some a := by
  induction ps generalizing line with
  | nil => cases h
  | cons p ps ih =>
    rw [collect, List.mem_append] at h
    rcases h with h | h
    · exact ⟨p, List.mem_cons_self .., line, Option.mem_toList.mp h⟩
    · obtain ⟨q, hq, hl⟩ := ih h
      exact ⟨q, List.mem_cons_of_mem _ hq, hl⟩

end Piece

theorem HasRead.scanned {σ : Type} [Sink σ] {source : List Char} {sink : σ} {ps : List Piece} {s : Session σ}
    (h : HasRead source sink ps s) {t : Token} (ht : t ∈ s.scanner.tokens.toList) : Scanned t := by
  rw [h.tokens_eq, List.mem_append] at ht
  rcases ht with ht | ht
  · obtain ⟨p, hp, l, hl⟩ := mem_collect ht
    have hcut := cut_pieces source
    rw [h.pieces_eq] at hcut
    exact .piece (hcut.formed p (List.mem_append_left _ hp)) hl
  · split at ht
    · rw [List.mem_singleton.mp ht]
      exact .eof _
    · cases ht

/-- The tokens of a text, in a form that says where they come from. -/
theorem scanned_of_mem_scan {source : String} {t : Token} (h : t ∈ (scan source).1.toList) : Scanned t := by
  obtain ⟨_, _, hr⟩ := scan_of_accepting (Chain.accepting_collecting Chain.accepting_silent #[]) source.toList
  exact hr.scanned h

/-! ## Lexemes and literals -/

/-- What the literal of a token is, by its kind and its lexeme. -/
structure HasLiteral (t : Token) : Prop where
  none_iff : t.literal = none ↔ t.kind ≠ .string ∧ t.kind ≠ .number
  string : t.kind = .string → ∃ body, t.lexeme.toList = '\"' :: (body ++ ['\"']) ∧ '\"' ∉ body ∧
    t.literal = some (.text (String.ofList body))
  number : t.kind = .number → IsUnit t.lexeme.toList (.token .number) ∧ ∃ x, t.literal = some (.number x) ∧
    Nearest (numeralValue t.lexeme.toList) x ∧ ∀ y, Nearest (numeralValue t.lexeme.toList) y → y = x

theorem ofWord_apart (s : String) : Kind.ofWord s ≠ .string ∧ Kind.ofWord s ≠ .number := by
  rcases ofWord_cases s with ⟨k, _, h⟩ | ⟨_, h⟩ <;> rw [h] <;> simp

/-- The value of a number's digits, and the decimal that its text stands for. -/
theorem numeralValue_text {whole fraction : List Char} (hf : (Piece.number whole fraction).Formed) :
    numeralValue (Piece.number whole fraction).text =
      (digitsValue (whole ++ fraction) : ℚ) / ((Nat.pow 10 fraction.length : ℕ) : ℚ) := by
  rw [Nat.pow_eq, Nat.cast_pow, Nat.cast_ofNat, numeralValue_number hf]

theorem hasLiteral_number {whole fraction : List Char} (hf : (Piece.number whole fraction).Formed) (line : Int) :
    HasLiteral ⟨.number, String.ofList (Piece.number whole fraction).text,
      some (.number (.ofDecimal (whole ++ fraction) fraction.length)), line⟩ := by
  refine ⟨by simp, fun h => (by cases h), fun _ => ?_⟩
  have hpos : 0 < Nat.pow 10 fraction.length := Nat.pow_pos (by omega)
  have hiff := fun x => nearest_iff (digitsValue (whole ++ fraction)) hpos (x := x)
  simp only [String.toList_ofList, numeralValue_text hf]
  exact ⟨isUnit_number hf, _, rfl, (hiff _).mpr rfl, fun y hy => (hiff y).mp hy⟩

theorem Scanned.hasLiteral {t : Token} (h : Scanned t) : HasLiteral t := by
  cases h with
  | eof line => exact ⟨by simp [endToken], fun h => (by cases h), fun h => (by cases h)⟩
  | @piece p line _ hf ht =>
    cases p with
    | blank | comment | stray | openString => cases ht
    | symbol s =>
      cases ht
      exact ⟨by simp, fun h => (by cases h), fun h => (by cases h)⟩
    | string body =>
      cases ht
      refine ⟨by simp, fun _ => ⟨body, ?_, hf, rfl⟩, fun h => (by cases h)⟩
      rw [String.toList_ofList]
      rfl
    | number whole fraction =>
      cases ht
      exact hasLiteral_number hf _
    | word letters =>
      cases ht
      have hk := ofWord_apart (String.ofList letters)
      exact ⟨by simp [hk], fun h => absurd h hk.1, fun h => absurd h hk.2⟩

/-- Tokens of one kind and one lexeme have one literal. -/
theorem Scanned.literal_eq {t u : Token} (ht : Scanned t) (hu : Scanned u) (hk : t.kind = u.kind)
    (hl : t.lexeme = u.lexeme) : t.literal = u.literal := by
  have h := ht.hasLiteral
  have h' := hu.hasLiteral
  by_cases hs : t.kind = .string
  · obtain ⟨body, hb, _, hlit⟩ := h.string hs
    obtain ⟨body', hb', _, hlit'⟩ := h'.string (hk ▸ hs)
    rw [hl, hb'] at hb
    have hbody := List.append_cancel_right (List.cons.inj hb).2
    rw [hlit, hlit', hbody]
  by_cases hn : t.kind = .number
  · obtain ⟨_, x, hlit, _, hx⟩ := h.number hn
    obtain ⟨_, y, hlit', hy, _⟩ := h'.number (hk ▸ hn)
    rw [hl] at hx
    rw [hlit, hlit', hx y hy]
  · rw [h.none_iff.mpr ⟨hs, hn⟩, h'.none_iff.mpr ⟨hk ▸ hs, hk ▸ hn⟩]

/-- The literal of every token of a scan, stopped or not, is what `HasLiteral` says: none
    unless the token is a string or a number, a string's text as it stands between the
    quotes, and the one binary number nearest to the decimal that a number is written as. -/
theorem literals_exact {σ : Type} [Sink σ] (sink : σ) (source : String) {t : Token}
    (ht : t ∈ ((Session.fresh source.toList sink).scan).1.scanner.tokens) : HasLiteral t := by
  obtain ⟨ps, h, _⟩ := (HasRead.fresh source.toList sink).scan
  exact (h.scanned (Array.mem_toList_iff.mpr ht)).hasLiteral

/-- `2 ^ 53 + 1` lies half way between two numbers, and the even one is `2 ^ 53`. -/
theorem literals_exact_half_way :
    let tokens := ((Session.fresh "9007199254740993".toList Chain.silent).scan).1.scanner.tokens
    let t : Token := ⟨.number, "9007199254740993", some (.number ⟨0x4340000000000000⟩), 1⟩
    t ∈ tokens ∧ Nearest (numeralValue "9007199254740993".toList) ⟨0x4340000000000000⟩ := by
  intro tokens t
  have htokens : tokens.toList = [t, endToken 1] := by decide +kernel
  have ht : t ∈ tokens := by
    rw [← Array.mem_toList_iff, htokens]
    exact List.mem_cons_self ..
  obtain ⟨_, x, hx, hnear, _⟩ := (literals_exact Chain.silent "9007199254740993" ht).number rfl
  cases hx
  exact ⟨ht, hnear⟩

end LoxLexer
