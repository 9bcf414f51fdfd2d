/-
  LoxLexer.Proofs.Grammar — the lexical grammar of Lox, and the split of a text by it.

  The grammar says which texts are units (`IsUnit`) and what becomes of each (`Role`): it
  is passed over, becomes a token of some kind, or is a stray character. A quote that is
  never closed is the one unit that depends on where it stands (`Begins`): it takes the
  whole text. A split goes through a text from left to right and takes, each time, the
  longest unit that the text left begins with (`Longest`, `Split`). Each unit is kept
  with its place (`Span`).

  The grammar names no piece and no function that cuts one.

  Proved:
  - `longest_iff`: the longest unit is the text of a formed piece that ends there, with
    its role.
  - `split_iff`: a text has one split, the spans of its pieces.
-/

import LoxLexer.Proofs.Cutting

namespace LoxLexer

/-! ## The grammar -/

def Blank (c : Char) : Prop := c = ' ' ∨ c = '\t' ∨ c = '\r' ∨ c = '\n'

def Digit (c : Char) : Prop := '0' ≤ c ∧ c ≤ '9'

def Letter (c : Char) : Prop := ('a' ≤ c ∧ c ≤ 'z') ∨ ('A' ≤ c ∧ c ≤ 'Z') ∨ c = '_'

instance (c : Char) : Decidable (Blank c) := inferInstanceAs (Decidable (_ ∨ _))

instance (c : Char) : Decidable (Digit c) := inferInstanceAs (Decidable (_ ∧ _))

instance (c : Char) : Decidable (Letter c) := inferInstanceAs (Decidable (_ ∨ _))

/-- What becomes of a unit. -/
inductive Role where
  | passed
  | token (kind : Kind)
  | stray (c : Char)
  | unclosed
  deriving DecidableEq, Repr

/-- The texts that are units wherever they stand. -/
inductive IsUnit : List Char → Role → Prop
  | blank {c : Char} : Blank c → IsUnit [c] .passed
  | comment {body : List Char} : '\n' ∉ body → IsUnit ('/' :: '/' :: body) .passed
  | symbol (s : Symbol) : IsUnit s.chars (.token (.symbol s))
  | string {body : List Char} : '\"' ∉ body → IsUnit ('\"' :: (body ++ ['\"'])) (.token .string)
  | whole {ds : List Char} : ds ≠ [] → (∀ d ∈ ds, Digit d) → IsUnit ds (.token .number)
  | decimal {ds fs : List Char} : ds ≠ [] → (∀ d ∈ ds, Digit d) → fs ≠ [] → (∀ d ∈ fs, Digit d) →
      IsUnit (ds ++ '.' :: fs) (.token .number)
  | keyword (k : Keyword) : IsUnit k.text.toList (.token (.keyword k))
  | identifier {c : Char} {cs : List Char} : Letter c → (∀ d ∈ cs, Letter d ∨ Digit d) →
      (∀ k : Keyword, k.text.toList ≠ c :: cs) → IsUnit (c :: cs) (.token .identifier)
  | stray {c : Char} : ¬ Blank c → ¬ Digit c → ¬ Letter c → c ≠ '\"' → (∀ s : Symbol, s.chars.head? ≠ some c) →
      IsUnit [c] (.stray c)

/-- The text begins with this unit. A string that is never closed takes the whole text. -/
inductive Begins : List Char → List Char → Role → Prop
  | unit {u : List Char} {role : Role} (r : List Char) : IsUnit u role → Begins (u ++ r) u role
  | unclosed {body : List Char} : '\"' ∉ body → Begins ('\"' :: body) ('\"' :: body) .unclosed

/-- The unit is the longest that the text begins with. -/
structure Longest (text u : List Char) (role : Role) : Prop where
  begins : Begins text u role
  length_le : ∀ {v : List Char} {role' : Role}, Begins text v role' → v.length ≤ u.length

/-- A unit at its place in a source. -/
structure Span where
  start : Nat
  text : List Char
  role : Role
  deriving DecidableEq, Repr

def Span.stop (u : Span) : Nat := u.start + u.text.length

/-- The text, which stands at `o`, is split into these units. -/
inductive Split : Nat → List Char → List Span → Prop
  | nil (o : Nat) : Split o [] []
  | cons {o : Nat} {u r : List Char} {role : Role} {us : List Span} : Longest (u ++ r) u role →
      Split (o + u.length) r us → Split o (u ++ r) (⟨o, u, role⟩ :: us)

/-! ## Characters of the grammar -/

theorem blank_iff {c : Char} : Blank c ↔ isBlank c = true := by simp [Blank, isBlank, or_assoc]

theorem digit_iff {c : Char} : Digit c ↔ c.isDigit = true := isDigit_iff.symm

theorem letter_iff {c : Char} : Letter c ↔ isWordStart c = true := isWordStart_iff.symm

theorem wordChar_iff {c : Char} : Letter c ∨ Digit c ↔ isWordChar c = true := by
  rw [isWordChar, Bool.or_eq_true, letter_iff, digit_iff]

theorem symbol_head (s : Symbol) :
    ∀ c ∈ s.chars.head?, c = '/' ∨ (Symbol.single? c).isSome = true ∨ (Symbol.joining? c).isSome = true := by
  cases s <;> intro c hc <;> cases hc <;> decide

/-- A character that begins no symbol is none of the characters that are read as one. -/
theorem begins_no_symbol_iff {c : Char} : (∀ s : Symbol, s.chars.head? ≠ some c) ↔
    c ≠ '/' ∧ Symbol.single? c = none ∧ Symbol.joining? c = none := by
  constructor
  · intro h
    refine ⟨fun e => h .slash (by rw [e]; rfl), ?_, ?_⟩
    · cases hs : Symbol.single? c with
      | none => rfl
      | some s => exact absurd (by rw [Piece.chars_single hs]; rfl) (h s)
    · cases hj : Symbol.joining? c with
      | none => rfl
      | some ja => exact absurd (by rw [(Piece.chars_joining hj).2]; rfl) (h ja.2)
  · rintro ⟨hs, h1, h2⟩ s h
    rcases symbol_head s c h with h | h | h
    · exact hs h
    · rw [h1] at h; cases h
    · rw [h2] at h; cases h

/-! ## Words -/

theorem ofText?_text (k : Keyword) : Keyword.ofText? k.text = some k := by cases k <;> decide

theorem ofWord_text (k : Keyword) : Kind.ofWord k.text = .keyword k := by rw [Kind.ofWord, ofText?_text]

/-- A word is an identifier exactly when no keyword is spelled so. -/
theorem ofWord_cases (s : String) :
    (∃ k : Keyword, s = k.text ∧ Kind.ofWord s = .keyword k) ∨
      (∀ k : Keyword, k.text ≠ s) ∧ Kind.ofWord s = .identifier := by
  unfold Kind.ofWord
  cases h : Keyword.ofText? s with
  | some k =>
    have hk : (k.text == s) = true := List.find?_some (p := fun k : Keyword => k.text == s) h
    exact Or.inl ⟨k, (eq_of_beq hk).symm, rfl⟩
  | none => exact Or.inr ⟨fun k hk => by have := List.find?_eq_none.mp h k (Keyword.mem_all k); simp [hk] at this, rfl⟩

theorem keyword_letters (k : Keyword) :
    ∃ c r, k.text.toList = c :: r ∧ isWordStart c = true ∧ ∀ d ∈ r, isWordChar d = true := by
  cases k <;> exact ⟨_, _, rfl, by decide, List.all_eq_true.mp (by decide)⟩

/-! ## Pieces are the units of the grammar -/

namespace Piece

def role : Piece → Role
  | blank _ | comment _ => .passed
  | symbol s => .token (.symbol s)
  | string _ => .token .string
  | number _ _ => .token .number
  | word letters => .token (.ofWord (String.ofList letters))
  | stray c => .stray c
  | openString _ => .unclosed

theorem number_of_role {p : Piece} (h : p.role = .token .number) : ∃ whole fraction, p = number whole fraction := by
  cases p with
  | number whole fraction => exact ⟨whole, fraction, rfl⟩
  | word letters =>
    rcases ofWord_cases (String.ofList letters) with ⟨k, _, hk⟩ | ⟨_, hk⟩ <;> rw [role, hk] at h <;> cases h
  | _ => cases h

theorem isUnit_word {letters : List Char} (hf : (word letters).Formed) : IsUnit letters (word letters).role := by
  obtain ⟨c, r, rfl, hc, hr⟩ := hf
  rcases ofWord_cases (String.ofList (c :: r)) with ⟨k, hk, h⟩ | ⟨hk, h⟩
  · have := IsUnit.keyword k
    rw [← hk, String.toList_ofList] at this
    rw [role, h]; exact this
  · rw [role, h]
    refine .identifier (letter_iff.mpr hc) (fun d hd => wordChar_iff.mpr (hr d hd)) fun k e => hk k ?_
    rw [← e, String.ofList_toList]

theorem isUnit_of_formed {p : Piece} (hf : p.Formed) (hc : ∀ body, p ≠ openString body) : IsUnit p.text p.role := by
  cases p with
  | blank c => exact .blank (blank_iff.mpr hf)
  | comment body => exact .comment hf
  | symbol s => exact .symbol s
  | string body => exact .string hf
  | word letters => exact isUnit_word hf
  | openString body => exact absurd rfl (hc body)
  | number whole fraction =>
    obtain ⟨hne, hw, hd⟩ := hf
    have hw' : ∀ d ∈ whole, Digit d := fun d h => digit_iff.mpr (hw d h)
    cases fraction with
    | nil => rw [text, point, List.append_nil]; exact .whole hne hw'
    | cons d f => exact .decimal hne hw' (List.cons_ne_nil _ _) fun d h => digit_iff.mpr (hd d h)
  | stray c =>
    obtain ⟨h1, h2, h3, h4, h5, h6⟩ := hf
    refine .stray ?_ ?_ ?_ h3 (begins_no_symbol_iff.mpr ⟨h2, h6⟩)
    · rw [blank_iff, h1]; exact Bool.false_ne_true
    · rw [digit_iff, h4]; exact Bool.false_ne_true
    · rw [letter_iff, h5]; exact Bool.false_ne_true

theorem isUnit_number {whole fraction : List Char} (hf : (number whole fraction).Formed) :
    IsUnit (number whole fraction).text (.token .number) :=
  isUnit_of_formed hf fun body h => by cases h

theorem formed_of_isUnit {u : List Char} {role : Role} (h : IsUnit u role) :
    ∃ p : Piece, p.Formed ∧ p.text = u ∧ p.role = role := by
  cases h with
  | @blank c hb => exact ⟨blank c, blank_iff.mp hb, rfl, rfl⟩
  | @comment body hb => exact ⟨comment body, hb, rfl, rfl⟩
  | symbol s => exact ⟨symbol s, trivial, rfl, rfl⟩
  | @string body hb => exact ⟨string body, hb, rfl, rfl⟩
  | whole hne hd =>
    exact ⟨number u [], ⟨hne, fun d h => digit_iff.mp (hd d h), fun d h => by cases h⟩, List.append_nil u, rfl⟩
  | @decimal ds fs hne hd hfe hf =>
    refine ⟨number ds fs, ⟨hne, fun d h => digit_iff.mp (hd d h), fun d h => digit_iff.mp (hf d h)⟩, ?_, rfl⟩
    cases fs with
    | nil => exact absurd rfl hfe
    | cons d f => rfl
  | keyword k => exact ⟨word k.text.toList, keyword_letters k, rfl, by rw [role, String.ofList_toList, ofWord_text]⟩
  | @identifier c cs hc hcs hk =>
    refine ⟨word (c :: cs), ⟨c, cs, rfl, letter_iff.mp hc, fun d h => wordChar_iff.mp (hcs d h)⟩, rfl, ?_⟩
    rcases ofWord_cases (String.ofList (c :: cs)) with ⟨k, e, _⟩ | ⟨_, h⟩
    · exact absurd (by rw [← e, String.toList_ofList]) (hk k)
    · rw [role, h]
  | @stray c hb hd hl hq hs =>
    obtain ⟨h2, h6⟩ := begins_no_symbol_iff.mp hs
    exact ⟨stray c, ⟨Bool.eq_false_iff.mpr fun h => hb (blank_iff.mpr h), h2, hq,
      Bool.eq_false_iff.mpr fun h => hd (digit_iff.mpr h), Bool.eq_false_iff.mpr fun h => hl (letter_iff.mpr h), h6⟩,
      rfl, rfl⟩

theorem begins_of_formed {p : Piece} {r : List Char} (hf : p.Formed) (he : p.Ends r) :
    Begins (p.text ++ r) p.text p.role := by
  by_cases h : ∃ body, p = openString body
  · obtain ⟨body, rfl⟩ := h
    have hr : r = [] := he
    rw [hr, List.append_nil]
    exact .unclosed hf
  · exact .unit r (isUnit_of_formed hf fun body e => h ⟨body, e⟩)

theorem formed_of_begins {t u : List Char} {role : Role} (h : Begins t u role) :
    ∃ (p : Piece) (r : List Char), p.Formed ∧ p.text = u ∧ p.role = role ∧ u ++ r = t := by
  cases h with
  | unit r h =>
    obtain ⟨p, hf, ht, hr⟩ := formed_of_isUnit h
    exact ⟨p, r, hf, ht, hr, rfl⟩
  | @unclosed body hb => exact ⟨openString body, [], hb, rfl, rfl, List.append_nil _⟩

theorem longest_of_ends {p : Piece} {r : List Char} (hf : p.Formed) (he : p.Ends r) :
    Longest (p.text ++ r) p.text p.role := by
  refine ⟨begins_of_formed hf he, fun {v role'} h => ?_⟩
  obtain ⟨q, t, hq, rfl, _, ht⟩ := formed_of_begins h
  cases hc : p.text ++ r with
  | nil => exact absurd (List.append_eq_nil_iff.mp hc).1 (text_ne_nil hf)
  | cons c s =>
    have := length_text_le_first hq (ht.trans hc)
    rwa [first_of_ends hf he hc] at this

/-- The longest unit is the text of a formed piece that ends there. -/
theorem longest_iff {t u : List Char} {role : Role} : Longest t u role ↔
    ∃ (p : Piece) (r : List Char), p.Formed ∧ p.Ends r ∧ p.text = u ∧ p.role = role ∧ u ++ r = t := by
  constructor
  · rintro ⟨hb, hle⟩
    obtain ⟨p, r, hf, rfl, hr, ht⟩ := formed_of_begins hb
    refine ⟨p, r, hf, ?_, rfl, hr, ht⟩
    cases hc : p.text ++ r with
    | nil => exact absurd (List.append_eq_nil_iff.mp hc).1 (text_ne_nil hf)
    | cons c s =>
      obtain ⟨hf', he'⟩ := first_cut c s
      have hfirst := hle (by rw [← ht, hc, ← text_append_first c s]; exact begins_of_formed hf' he')
      -- a piece that goes on would be the beginning of one longer than the first
      apply Classical.byContradiction
      intro hn
      obtain ⟨q, t', hq, hq', hl⟩ := goes_on hf hn
      have := length_text_le_first hq (hq'.trans hc)
      omega
  · rintro ⟨p, r, hf, he, rfl, rfl, rfl⟩
    exact longest_of_ends hf he

/-- What a formed piece is, it is as the longest unit where it ends, and nowhere else. -/
theorem longest_text_append_iff {p : Piece} {r : List Char} (hf : p.Formed) :
    Longest (p.text ++ r) p.text p.role ↔ p.Ends r := by
  constructor
  · intro h
    obtain ⟨q, t, hq, he, ht, _, hs⟩ := longest_iff.mp h
    rw [eq_of_text_eq hf hq ht.symm, ← List.append_cancel_left hs]
    exact he
  · exact longest_of_ends hf

/-! ## The split of a text -/

/-- The pieces as units, the first of them at `o`. -/
def spans (o : Nat) : List Piece → List Span
  | [] => []
  | p :: ps => ⟨o, p.text, p.role⟩ :: spans (o + p.text.length) ps

theorem split_spans {s : List Char} {ps : List Piece} (h : Cut s ps) : ∀ o, Split o s (spans o ps) := by
  induction h with
  | nil => intro o; exact .nil o
  | cons hf he _ ih => intro o; exact .cons (longest_of_ends hf he) (ih _)

/-- A text has one split: its pieces, each at its place. -/
theorem split_iff {o : Nat} {s : List Char} {us : List Span} : Split o s us ↔ us = spans o (pieces s) := by
  constructor
  · intro h
    induction h with
    | nil => rw [pieces_nil]; rfl
    | cons hl _ ih =>
      obtain ⟨p, r, hf, he, rfl, rfl, ht⟩ := longest_iff.mp hl
      obtain rfl := List.append_cancel_left ht
      rw [pieces_text_append hf he, ih]; rfl
  · rintro rfl
    exact split_spans (cut_pieces s) o

theorem spans_append (o : Nat) (ps qs : List Piece) :
    spans o (ps ++ qs) = spans o ps ++ spans (o + (ps.flatMap text).length) qs := by
  induction ps generalizing o with
  | nil => rfl
  | cons p ps ih => simp [spans, ih, Nat.add_assoc]

theorem flatMap_text_spans (o : Nat) (ps : List Piece) : (spans o ps).flatMap Span.text = ps.flatMap text := by
  induction ps generalizing o with
  | nil => rfl
  | cons p ps ih => simp only [spans, List.flatMap_cons, ih]

end Piece

end LoxLexer
