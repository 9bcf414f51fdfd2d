/-
  LoxLexer.Proofs.Passes — one turn of a loop, and the piece it is in.

  Scanning character by character comes to a loop in the middle of a piece: part of the
  piece has been read (`behind`), and the loop takes characters of what is left of it
  (`Loop.Within`). Behind those stands none that the loop would take (`clear_tail`), so the
  loop ends where the piece has it end.

  Proved:
  - `pass_pieces`: a pass of the loop from piece to piece reads a piece, or its beginning.
  - `pass_takes`: a pass of any other loop takes one character.
  - `leave_end`: what is done behind the loop completes the piece, as `Scanner.read` has
    it; a number with a fraction goes on in a loop of its own.
  - `isSome_ofNumeral?_iff`: what can be read as a number is what the grammar says.
  - `turn_takes`, `turn_clear`: when a turn is a pass, and when the loop is left.
  - `turn_finish`, `turn_pieces`, `turn_run`, `turn_end`: what a turn comes to in front of
    a piece, within one, and at its end.
-/

import LoxLexer.Proofs.Grammar
import LoxLexer.Proofs.Walk

namespace LoxLexer

open Piece

namespace Scanner

/-! ## Part of a piece -/

/-- The scanner that has read on over the text `w`, with its line feeds counted. -/
def past (s : Scanner) (w : List Char) : Scanner :=
  { s with current := s.current + w.length, line := s.line + (w.count '\n' : Nat) }

/-- The scanner that has marked its place and then read the text `w`. -/
def behind (s : Scanner) (w : List Char) : Scanner :=
  ⟨s.source, s.current, s.current + w.length, s.line + (w.count '\n' : Nat), s.tokens, s.done⟩

section Behind

variable {s : Scanner} {w t : List Char} {c : Char}

theorem rest_past (h : s.rest = w ++ t) : (s.past w).rest = t := by
  show s.source.drop (s.current + w.length) = t
  rw [← List.drop_drop, show s.source.drop s.current = w ++ t from h, List.drop_left]

@[simp] theorem past_nil (s : Scanner) : s.past [] = s := by simp [past]

theorem past_append (s : Scanner) (v w : List Char) : s.past (v ++ w) = (s.past v).past w := by
  simp [past, List.count_append, Nat.add_assoc, Int.add_assoc]

theorem past_of_ne (hc : c ≠ '\n') : s.past [c] = s.seek (s.current + 1) := by simp [past, seek, hc]

theorem next_of_ne (h : s.rest = c :: t) (hc : c ≠ '\n') : s.next = .ok (c, s.past [c]) := by
  rw [next_cons h, past_of_ne hc]

theorem rest_behind (h : s.rest = w ++ t) : (s.behind w).rest = t := rest_past h

theorem slice_behind (h : s.rest = w ++ t) : (s.behind w).slice (s.behind w).start (s.behind w).current = w := by
  show (s.source.drop s.current).take (s.current + w.length - s.current) = w
  rw [show s.source.drop s.current = w ++ t from h, Nat.add_sub_cancel_left, List.take_left]

theorem lexeme_behind (h : s.rest = w ++ t) : (s.behind w).lexeme = String.ofList w := by rw [lexeme, slice_behind h]

theorem behind_append (s : Scanner) (v w : List Char) : s.behind (v ++ w) = (s.behind v).past w :=
  s.mark.past_append v w

theorem next_behind_of_ne (h : s.rest = w ++ c :: t) (hc : c ≠ '\n') :
    (s.behind w).next = .ok (c, s.behind (w ++ [c])) := by
  rw [behind_append, next_of_ne (rest_behind h) hc]

end Behind

/-! ## Whole pieces -/

/-- What reading a piece comes to. -/
def ofRead (r : Scanner × Option Diagnostic) : Scanner × Turn :=
  match r with
  | (s, none) => (s, .goOn .pieces)
  | (s, some d) => (s, .report d)

section Read

variable {s : Scanner} {p : Piece} {r : List Char}

theorem ofRead_skip (ho : p.outcome = .skip) : ofRead (s.read p) = (s.behind p.text, .goOn .pieces) := by
  rw [read, ho]
  rfl

theorem ofRead_token {kind : Kind} {literal : Option Literal} (h : s.rest = p.text ++ r)
    (ho : p.outcome = .token kind literal) : ofRead (s.read p) = ((s.behind p.text).add kind literal, .goOn .pieces) := by
  rw [read, ho, add, lexeme_behind h]
  rfl

theorem ofRead_fault {message : String} (ho : p.outcome = .fault message) :
    ofRead (s.read p) = (s.behind p.text, .report ⟨message, some (s.behind p.text).line⟩) := by
  rw [read, ho]
  rfl

end Read

end Scanner

/-! ## Where in a piece a loop is -/

/-- The characters that a loop within a piece takes. -/
def Loop.takes : Loop → Char → Bool
  | pieces, _ => true
  | comment, c => c != '\n'
  | string, c => c != '\"'
  | digits, c | fraction, c => c.isDigit
  | word, c => isWordChar c

/-- What stands in the piece behind the characters that the loop takes, if the loop is one
    of those that go through such a piece. -/
def Loop.tail? : Loop → Piece → Option (List Char)
  | comment, .comment _ => some []
  | string, .string _ => some ['\"']
  | string, .openString _ => some []
  | digits, .number _ ds => some (point ds)
  | fraction, .number _ (_ :: _) => some []
  | word, .word _ => some []
  | _, _ => none

/-- The loop is within the piece: `w` has been read, and `run` is left to take. -/
structure Loop.Within (l : Loop) (p : Piece) (w run tail : List Char) : Prop where
  tail_eq : l.tail? p = some tail
  text_eq : p.text = w ++ (run ++ tail)
  takes_run : ∀ c ∈ run, l.takes c = true

namespace Loop.Within

variable {l : Loop} {p : Piece} {w run tail : List Char}

theorem ne_pieces (h : l.Within p w run tail) : l ≠ .pieces := by
  rintro rfl
  cases h.tail_eq

/-- The loop takes characters of the run. -/
theorem take {v : List Char} (h : l.Within p w (v ++ run) tail) : l.Within p (w ++ v) run tail :=
  ⟨h.tail_eq, by rw [h.text_eq]; simp, fun c hc => h.takes_run c (List.mem_append_right v hc)⟩

end Loop.Within

namespace Scanner

variable {s : Scanner} {p : Piece} {r : List Char}

/-! ## The loop from piece to piece -/

theorem no_symbol_of_wordChar {c : Char} (h : isWordChar c = true) :
    c ≠ '/' ∧ Symbol.single? c = none ∧ Symbol.joining? c = none := by
  refine begins_no_symbol_iff.mp fun k hk => ?_
  cases k <;> cases hk <;> exact absurd h (by decide)

/-- A symbol is a slash, or what one character always is, or what one character is with a
    following equals sign or without. -/
theorem symbol_cases (k : Symbol) : k = .slash ∨ (∃ c, k.chars = [c] ∧ c ≠ '\n' ∧ Symbol.single? c = some k) ∨
    ∃ c joined alone, Symbol.single? c = none ∧ Symbol.joining? c = some (joined, alone) ∧ c ≠ '\n' ∧
      (k = joined ∧ k.chars = [c, '='] ∨ k = alone ∧ k.chars = [c] ∧ k.joinsWith = some '=') := by
  cases k with
  | slash => exact Or.inl rfl
  | bangEqual | equalEqual | greaterEqual | lessEqual =>
    exact Or.inr (Or.inr ⟨_, _, _, rfl, rfl, by decide, Or.inl ⟨rfl, rfl⟩⟩)
  | bang | equal | greater | less =>
    exact Or.inr (Or.inr ⟨_, _, _, rfl, rfl, by decide, Or.inr ⟨rfl, rfl, rfl⟩⟩)
  | _ => exact Or.inr (Or.inl ⟨_, rfl, by decide, rfl⟩)

theorem pass_pieces_eq {c : Char} (h : s.rest = c :: r) (hc : c ≠ '\n') :
    s.pass .pieces = (s.behind [c]).dispatch c := by
  have hn := next_behind_of_ne (w := []) h hc
  have hmark : s.behind [] = s.mark := by simp [behind, mark]
  rw [hmark] at hn
  rw [pass, hn]
  rfl

theorem dispatch_plain {c : Char} (h1 : Symbol.single? c = none) (h2 : Symbol.joining? c = none) (hs : c ≠ '/')
    (hb : isBlank c = false) (hq : c ≠ '\"') (u : Scanner) : u.dispatch c =
      if c.isDigit then .ok (u, .goOn .digits)
      else if isWordStart c then .ok (u, .goOn .word)
      else .ok (u, .report ⟨"Unrecognized character \"" ++ String.singleton c ++ "\"", some u.line⟩) := by
  have hblank : ¬ (c = ' ' ∨ c = '\t' ∨ c = '\r') ∧ c ≠ '\n' := by
    simp [isBlank] at hb
    simp [hb]
  simp only [dispatch, h1, h2, if_neg hs, if_neg hblank.1, if_neg hblank.2, if_neg hq]
  rfl

theorem pass_symbol {k : Symbol} (h : s.rest = (symbol k).text ++ r) (he : (symbol k).Ends r) :
    s.pass .pieces = .ok (ofRead (s.read (symbol k))) := by
  rw [ofRead_token h rfl]
  rcases symbol_cases k with rfl | ⟨c, hk, hn, h1⟩ | ⟨c, joined, alone, h1, h2, hn, hk⟩
  · have hrest : (s.behind ['/']).rest = r := rest_behind h
    have hslash := nextIs_of_clear (s := s.behind ['/']) (c := '/') (by rw [hrest]; exact he '/' rfl)
    rw [pass_pieces_eq h (by decide), dispatch, hslash]
    rfl
  · rw [text, hk] at h ⊢
    rw [pass_pieces_eq h hn, dispatch, h1]
    rfl
  · rcases hk with ⟨rfl, hk⟩ | ⟨rfl, hk, hj⟩
    · rw [text, hk] at h ⊢
      have hequal := nextIs_of_cons (rest_behind (w := [c]) h)
      rw [pass_pieces_eq h hn, dispatch, h1, h2]
      simp only [hequal]
      rw [show [c, '='] = [c] ++ ['='] from rfl, behind_append, past_of_ne (by decide)]
      rfl
    · rw [text, hk] at h ⊢
      have hequal := nextIs_of_clear (s := s.behind [c]) (c := '=') (by rw [rest_behind h]; exact he '=' hj)
      rw [pass_pieces_eq h hn, dispatch, h1, h2]
      simp only [hequal]
      rfl

/-- A pass from piece to piece reads the piece, or its beginning, and comes to the loop
    that goes through the rest of it. -/
theorem pass_pieces (h : s.rest = p.text ++ r) (hf : p.Formed) (he : p.Ends r) :
    s.pass .pieces = .ok (ofRead (s.read p)) ∨
      ∃ l w run tail, s.pass .pieces = .ok (s.behind w, .goOn l) ∧ w ≠ [] ∧ Loop.Within l p w run tail := by
  cases p with
  | blank c =>
    left
    rw [ofRead_skip rfl]
    rcases isBlank_cases hf with rfl | rfl | rfl | rfl
    · exact pass_pieces_eq h (by decide)
    · exact pass_pieces_eq h (by decide)
    · exact pass_pieces_eq h (by decide)
    · have hn := next_cons (s := s.mark) h
      rw [pass, hn]
      rfl
  | comment body =>
    right
    refine ⟨.comment, ['/', '/'], body, [], ?_, by simp, rfl, by simp [text], bne_of_not_mem hf⟩
    have hslash := nextIs_of_cons (rest_behind (w := ['/']) h)
    rw [pass_pieces_eq h (by decide), dispatch, hslash]
    rfl
  | symbol k => exact Or.inl (pass_symbol h he)
  | string body =>
    right
    refine ⟨.string, ['\"'], body, ['\"'], ?_, by simp, rfl, rfl, bne_of_not_mem hf⟩
    rw [pass_pieces_eq h (by decide)]
    rfl
  | openString body =>
    right
    refine ⟨.string, ['\"'], body, [], ?_, by simp, rfl, by simp [text], bne_of_not_mem hf⟩
    rw [pass_pieces_eq h (by decide)]
    rfl
  | number whole fraction =>
    right
    obtain ⟨hne, hw, _⟩ := hf
    obtain ⟨c, w, rfl⟩ := List.exists_cons_of_ne_nil hne
    have hd : c.isDigit = true := hw c (List.mem_cons_self ..)
    obtain ⟨hb, hs, hq⟩ := digit_apart hd
    obtain ⟨_, h1, h2⟩ := no_symbol_of_wordChar (c := c) (by rw [isWordChar, hd, Bool.or_true])
    refine ⟨.digits, [c], w, point fraction, ?_, by simp, rfl, rfl, fun d h => hw d (List.mem_cons_of_mem _ h)⟩
    have hn : c ≠ '\n' := by
      rintro rfl
      cases hd
    rw [pass_pieces_eq h hn, dispatch_plain h1 h2 hs hb hq, if_pos hd]
  | word letters =>
    right
    obtain ⟨c, w, rfl, hc, hw⟩ := hf
    obtain ⟨hb, hs, hq, hd⟩ := wordStart_apart hc
    obtain ⟨_, h1, h2⟩ := no_symbol_of_wordChar (c := c) (by rw [isWordChar, hc, Bool.true_or])
    refine ⟨.word, [c], w, [], ?_, by simp, rfl, by simp [text], hw⟩
    have hn : c ≠ '\n' := by
      rintro rfl
      exact absurd hb (by decide)
    rw [pass_pieces_eq h hn, dispatch_plain h1 h2 hs hb hq, hd, if_neg Bool.false_ne_true, if_pos hc]
  | stray c =>
    left
    obtain ⟨hb, hs, hq, hd, hw, h1, h2⟩ := hf
    have hn : c ≠ '\n' := by
      rintro rfl
      exact absurd hb (by decide)
    rw [ofRead_fault rfl, pass_pieces_eq h hn, dispatch_plain h1 h2 hs hb hq, hd, hw]
    rfl

/-! ## The loops within a piece -/

theorem goesOn_eq (s : Scanner) (l : Loop) : s.goesOn l = .ok (s.rest.head?.any l.takes) := by
  cases hr : s.rest with
  | nil => cases l <;> simp [goesOn, look_eq, peek_nil hr, atEnd_eq, hr] <;> rfl
  | cons c r => cases l <;> simp [goesOn, look_eq, peek_cons hr, atEnd_eq, hr] <;> rfl

theorem pass_of_next {l : Loop} {c : Char} {u : Scanner} (hp : l ≠ .pieces) (hs : l ≠ .string)
    (h : s.next = .ok (c, u)) : s.pass l = .ok (u, .goOn l) := by
  cases l with
  | pieces => exact absurd rfl hp
  | string => exact absurd rfl hs
  | _ => simp only [pass, h]; rfl

theorem ne_newline_of_takes {l : Loop} {c : Char} (hp : l ≠ .pieces) (hs : l ≠ .string) (h : l.takes c = true) :
    c ≠ '\n' := by
  rintro rfl
  cases l with
  | pieces => exact hp rfl
  | string => exact hs rfl
  | _ => exact absurd h (by decide)

theorem pass_string {c : Char} {t : List Char} (h : s.rest = c :: t) :
    s.pass .string = .ok (s.past [c], .goOn .string) := by
  have hlook : s.look = .ok c := by rw [look_eq, peek_cons h]
  by_cases hc : c = '\n'
  · have hn : (s.setLine (s.line + 1)).next = .ok (c, s.past [c]) := by
      rw [hc] at h ⊢
      exact next_cons h
    simp only [pass, hlook, bind, Except.bind, if_pos hc, hn]
    rfl
  · simp only [pass, hlook, bind, Except.bind, if_neg hc, next_of_ne h hc]
    rfl

/-- A pass of a loop within a piece takes one character, and counts it if it is a line
    feed, from whatever state. -/
theorem pass_takes {l : Loop} {c : Char} {t : List Char} (hp : l ≠ .pieces) (h : s.rest = c :: t)
    (hc : l.takes c = true) : s.pass l = .ok (s.past [c], .goOn l) := by
  by_cases hs : l = .string
  · rw [hs]
    exact pass_string h
  · exact pass_of_next hp hs (next_of_ne h (ne_newline_of_takes hp hs hc))

/-! ## Numbers -/

theorem ofNumeral?_text {whole fraction : List Char} (hf : (number whole fraction).Formed) :
    Binary64.ofNumeral? (number whole fraction).text = some (.ofDecimal (whole ++ fraction) fraction.length) := by
  obtain ⟨hne, hw, hd⟩ := hf
  have hclear : Clear Char.isDigit (point fraction) := by
    cases fraction with
    | nil => exact fun c hc => by cases hc
    | cons d f => exact clear_cons_iff.mpr rfl
  rw [text, Binary64.ofNumeral?, takeWhile_append_clear hw hclear, dropWhile_append_clear hw hclear]
  cases fraction with
  | nil => simp [point, hne]
  | cons d f =>
    have hall : (d :: f).all Char.isDigit = true := List.all_eq_true.mpr hd
    simp only [point]
    rw [if_pos ⟨hne, List.cons_ne_nil _ _, hall⟩]

/-- A text is read as a number exactly if it is one by the grammar. -/
theorem isSome_ofNumeral?_iff {w : List Char} :
    (Binary64.ofNumeral? w).isSome = true ↔ IsUnit w (.token .number) := by
  constructor
  · intro h
    have hw := List.takeWhile_append_dropWhile (p := Char.isDigit) (l := w)
    have hd : ∀ d ∈ w.takeWhile Char.isDigit, Digit d := fun d hd => digit_iff.mpr (of_mem_takeWhile hd)
    rw [Binary64.ofNumeral?] at h
    split at h
    · rename_i hrest
      by_cases hne : w.takeWhile Char.isDigit ≠ []
      · rw [hrest, List.append_nil] at hw
        rw [hw] at hne hd
        exact .whole hne hd
      · rw [if_neg hne] at h
        cases h
    · rename_i fraction hrest
      split at h
      · rename_i hall
        obtain ⟨hne, hfne, hf⟩ := hall
        rw [hrest] at hw
        rw [← hw]
        exact .decimal hne hd hfne fun d hd => digit_iff.mpr (List.all_eq_true.mp hf d hd)
      · cases h
    · cases h
  · intro h
    obtain ⟨p, hf, rfl, hr⟩ := formed_of_isUnit h
    obtain ⟨whole, fraction, rfl⟩ := number_of_role hr
    rw [ofNumeral?_text hf]
    rfl

theorem addNumber_behind {whole fraction : List Char} (h : s.rest = (number whole fraction).text ++ r)
    (hf : (number whole fraction).Formed) :
    (s.behind (number whole fraction).text).addNumber =
      .ok ((s.behind (number whole fraction).text).add .number
        (some (.number (.ofDecimal (whole ++ fraction) fraction.length)))) := by
  rw [addNumber, slice_behind h]
  simp only [ofNumeral?_text hf]

theorem leave_digits_of_point {d : Char} {t : List Char} (h : s.rest = '.' :: d :: t) (hd : d.isDigit = true) :
    s.leave .digits = .ok (s.seek (s.current + 1), .goOn .fraction) := by
  have hlook : s.look = .ok '.' := by rw [look_eq, peek_cons h]
  have hnext : s.lookNext = .ok d := by
    rw [lookNext_eq, peekNext_cons h]
    rfl
  simp only [leave, hlook, hnext, next_cons h, bind, Except.bind, if_pos, hd]
  rfl

theorem leave_digits_of_no_point (h : ∀ d t, s.rest = '.' :: d :: t → d.isDigit = false) :
    s.leave .digits = do return (← s.addNumber, .goOn .pieces) := by
  have hnext : s.peek = '.' → s.peekNext.isDigit = false := by
    intro hpeek
    cases hr : s.rest with
    | nil =>
      rw [peek_nil hr] at hpeek
      cases hpeek
    | cons c t =>
      rw [peek_cons hr] at hpeek
      subst hpeek
      rw [peekNext_cons hr]
      cases t with
      | nil => rfl
      | cons d t => exact h d t hr
  simp only [leave, look_eq, lookNext_eq, bind, Except.bind]
  by_cases hpeek : s.peek = '.'
  · rw [if_pos hpeek, hnext hpeek]
    rfl
  · rw [if_neg hpeek]

/-! ## Behind the loops -/

/-- Behind the characters that a loop takes stands none that it would take. -/
theorem clear_tail {l : Loop} {w run tail : List Char} (hf : p.Formed) (he : p.Ends r) (hl : l.Within p w run tail) :
    Clear l.takes (tail ++ r) := by
  obtain ⟨ht, _, _⟩ := hl
  cases l with
  | pieces => cases ht
  | comment =>
    cases p with
    | comment body =>
      cases ht
      exact he
    | _ => cases ht
  | string =>
    cases p with
    | string body =>
      cases ht
      exact clear_cons_iff.mpr rfl
    | openString body =>
      cases ht
      have hr : r = [] := he
      rw [hr]
      exact fun c hc => by cases hc
    | _ => cases ht
  | digits =>
    cases p with
    | number whole fraction =>
      cases ht
      exact clear_point he
    | _ => cases ht
  | fraction =>
    cases p with
    | number whole fraction =>
      cases fraction with
      | nil => cases ht
      | cons d f =>
        cases ht
        exact he
    | _ => cases ht
  | word =>
    cases p with
    | word letters =>
      cases ht
      exact he
    | _ => cases ht

/-- What lies between the quotes of a string that has been read. -/
theorem value_behind {body t : List Char} (h : s.rest = '\"' :: body ++ '\"' :: t) :
    let u := s.behind ('\"' :: body ++ ['\"'])
    u.slice (u.start + 1) (u.current - 1) = body := by
  have hdrop : s.source.drop (s.current + 1) = body ++ '\"' :: t := by
    rw [← List.drop_drop, show s.source.drop s.current = _ from h]
    rfl
  have hlen : s.current + ('\"' :: body ++ ['\"']).length - 1 - (s.current + 1) = body.length := by
    simp only [List.length_append, List.length_cons, List.length_nil]
    omega
  show (s.source.drop (s.current + 1)).take (s.current + ('\"' :: body ++ ['\"']).length - 1 - (s.current + 1)) = body
  rw [hdrop, hlen, List.take_left]

theorem leave_string {body : List Char} (h : s.rest = (Piece.string body).text ++ r) :
    (s.behind ('\"' :: body)).leave .string = .ok (ofRead (s.read (.string body))) := by
  have hr : s.rest = ('\"' :: body) ++ '\"' :: r := by rw [h]; simp [text]
  have hend : (s.behind ('\"' :: body)).atEnd = false := by rw [atEnd_eq, rest_behind hr]; rfl
  rw [ofRead_token h rfl, leave, hend, next_behind_of_ne hr (by decide)]
  show Except.ok ((s.behind ('\"' :: body ++ ['\"'])).add .string (some (.text (String.ofList _))), _) = _
  rw [value_behind hr]
  rfl

theorem leave_digits {whole fraction : List Char} (h : s.rest = (number whole fraction).text ++ r)
    (hf : (number whole fraction).Formed) (he : (number whole fraction).Ends r) :
    (s.behind whole).leave .digits = .ok (ofRead (s.read (number whole fraction))) ∨
      ∃ d f, (s.behind whole).leave .digits = .ok (s.behind (whole ++ ['.']), .goOn .fraction) ∧
        Loop.Within .fraction (number whole fraction) (whole ++ ['.']) (d :: f) [] := by
  cases fraction with
  | nil =>
    have htext : (number whole []).text = whole := List.append_nil whole
    have hb : (s.behind whole).rest = r := rest_behind (by rw [h, htext])
    have hadd := addNumber_behind h hf
    rw [htext] at hadd
    rw [leave_digits_of_no_point (by rw [hb]; exact he.2), hadd, ofRead_token h rfl, htext]
    exact Or.inl rfl
  | cons d f =>
    have hr : s.rest = whole ++ '.' :: d :: (f ++ r) := by rw [h]; simp [text, point]
    have hd : d.isDigit = true := hf.2.2 d (List.mem_cons_self ..)
    refine Or.inr ⟨d, f, ?_, rfl, by simp [text, point], hf.2.2⟩
    rw [leave_digits_of_point (rest_behind hr) hd, behind_append, past_of_ne (by decide)]

/-- Behind the loop the piece has been read, but for the fraction of a number, which has a
    loop of its own. -/
theorem leave_end {l : Loop} {w tail : List Char} (h : s.rest = p.text ++ r) (hf : p.Formed) (he : p.Ends r)
    (hl : l.Within p w [] tail) :
    (s.behind w).leave l = .ok (ofRead (s.read p)) ∨
      ∃ d f, l = .digits ∧ (s.behind w).leave l = .ok (s.behind (w ++ ['.']), .goOn .fraction) ∧
        Loop.Within .fraction p (w ++ ['.']) (d :: f) [] := by
  obtain ⟨ht, hw, _⟩ := hl
  cases l with
  | pieces => cases ht
  | comment =>
    cases p with
    | comment body =>
      cases ht
      obtain rfl : (comment body).text = w := by simpa using hw
      rw [ofRead_skip rfl]
      exact Or.inl rfl
    | _ => cases ht
  | string =>
    cases p with
    | string body =>
      cases ht
      obtain rfl : '\"' :: body = w := List.append_cancel_right hw
      exact Or.inl (leave_string h)
    | openString body =>
      cases ht
      obtain rfl : (openString body).text = w := by simpa using hw
      have hr : r = [] := he
      have hb := rest_behind h
      rw [hr] at hb
      rw [ofRead_fault rfl, leave, atEnd_eq, hb]
      exact Or.inl rfl
    | _ => cases ht
  | digits =>
    cases p with
    | number whole fraction =>
      cases ht
      obtain rfl : whole = w := List.append_cancel_right hw
      exact (leave_digits h hf he).imp_right fun ⟨d, f, hleave, hl⟩ => ⟨d, f, rfl, hleave, hl⟩
    | _ => cases ht
  | fraction =>
    cases p with
    | number whole fraction =>
      cases fraction with
      | nil => cases ht
      | cons d f =>
        cases ht
        obtain rfl : (number whole (d :: f)).text = w := by simpa using hw
        rw [ofRead_token h rfl, leave, addNumber_behind h hf]
        exact Or.inl rfl
    | _ => cases ht
  | word =>
    cases p with
    | word letters =>
      cases ht
      obtain rfl : (word letters).text = w := by simpa using hw
      rw [ofRead_token h rfl, leave, lexeme_behind h]
      exact Or.inl rfl
    | _ => cases ht

/-! ## One turn -/

theorem turn_of_goesOn {l : Loop} {b : Bool} (h : s.goesOn l = .ok b) :
    s.turn l = (if b then s.pass l else s.leave l) ∧ s.passes l = b.toNat := by
  rw [turn, passes, h]
  cases b <;> exact ⟨rfl, rfl⟩

/-- In front of a character that the loop takes, it makes a pass. -/
theorem turn_takes {l : Loop} {c : Char} {t : List Char} (h : s.rest = c :: t) (hc : l.takes c = true) :
    s.turn l = s.pass l ∧ s.passes l = 1 := by
  have hg := goesOn_eq s l
  rw [h, show (c :: t).head?.any l.takes = true from hc] at hg
  exact turn_of_goesOn hg

/-- In front of none, it is left. -/
theorem turn_clear {l : Loop} (h : Clear l.takes s.rest) : s.turn l = s.leave l ∧ s.passes l = 0 := by
  have hg := goesOn_eq s l
  have hno : s.rest.head?.any l.takes = false := by
    cases hr : s.rest with
    | nil => rfl
    | cons c t =>
      rw [hr] at h
      exact clear_cons_iff.mp h
  rw [hno] at hg
  exact turn_of_goesOn hg

/-- At the end of the source the loop from piece to piece finishes. -/
theorem turn_finish (h : s.rest = []) : s.turn .pieces = .ok (s.finish, .finished) ∧ s.passes .pieces = 0 :=
  turn_clear (l := .pieces) (by rw [h]; exact fun c hc => by cases hc)

/-- In front of a piece it makes a pass. -/
theorem turn_pieces (h : s.rest = p.text ++ r) (hf : p.Formed) :
    s.turn .pieces = s.pass .pieces ∧ s.passes .pieces = 1 := by
  obtain ⟨c, w, hc⟩ := List.exists_cons_of_ne_nil (text_ne_nil hf)
  rw [hc] at h
  exact turn_takes h rfl

theorem turn_run {l : Loop} {w run tail : List Char} {c : Char} (h : s.rest = p.text ++ r)
    (hl : l.Within p w (c :: run) tail) :
    (s.behind w).turn l = .ok (s.behind (w ++ [c]), .goOn l) ∧ (s.behind w).passes l = 1 := by
  have hr : (s.behind w).rest = c :: (run ++ tail ++ r) := rest_behind (by rw [h, hl.text_eq]; simp)
  have hc : l.takes c = true := hl.takes_run c (List.mem_cons_self ..)
  obtain ⟨ht, hp⟩ := turn_takes hr hc
  rw [behind_append]
  exact ⟨ht.trans (pass_takes hl.ne_pieces hr hc), hp⟩

theorem turn_end {l : Loop} {w tail : List Char} (h : s.rest = p.text ++ r) (hf : p.Formed) (he : p.Ends r)
    (hl : l.Within p w [] tail) : (s.behind w).turn l = (s.behind w).leave l ∧ (s.behind w).passes l = 0 := by
  have hr : (s.behind w).rest = tail ++ r := rest_behind (by rw [h, hl.text_eq]; simp)
  have hclear := clear_tail hf he hl
  rw [← hr] at hclear
  exact turn_clear hclear

end Scanner

end LoxLexer
