/-
  LoxLexer.Scan.Piece — the lexical units of a source text.

  A source text is cut into pieces, one after the other, each as long as it can be
  (`first`): a blank, a comment up to the end of its line, a symbol joined with a
  following `=` where it takes one, a string, a number with its fraction if digits
  follow the point, a word, a stray character that begins nothing, and a string that
  is never closed, which takes the rest of the text.

  Nothing is lost in cutting: a piece and the rest are the text (`text_append_first`),
  so the pieces in order are the whole text (`flatMap_text_pieces`). A piece is never
  empty (`length_first_lt`), so the cutting ends.

  A piece is either passed over, or becomes a token, or is a fault (`outcome`).
-/

import LoxLexer.Token.Basic

namespace LoxLexer

/-! ## Characters -/

/-- The characters that only separate. -/
def isBlank (c : Char) : Bool := c == ' ' || c == '\t' || c == '\r' || c == '\n'

/-- An ASCII letter or an underscore. -/
def isWordStart (c : Char) : Bool := c.isAlpha || c == '_'

/-- An ASCII letter or digit, or an underscore. -/
def isWordChar (c : Char) : Bool := isWordStart c || c.isDigit

/-- The symbol a character always is, whatever follows it. -/
def Symbol.single? : Char → Option Symbol
  | '(' => some leftParen
  | ')' => some rightParen
  | '\x7b' => some leftBrace
  | '\x7d' => some rightBrace
  | ',' => some comma
  | '.' => some dot
  | '-' => some minus
  | '+' => some plus
  | ';' => some semicolon
  | '*' => some star
  | _ => none

/-- The two symbols of a character that joins with a following `=`: joined, and alone. -/
def Symbol.joining? : Char → Option (Symbol × Symbol)
  | '!' => some (bangEqual, bang)
  | '=' => some (equalEqual, equal)
  | '<' => some (lessEqual, less)
  | '>' => some (greaterEqual, greater)
  | _ => none

/-! ## Pieces -/

inductive Piece where
  | blank (c : Char)
  | comment (body : List Char)
  | symbol (s : Symbol)
  | string (body : List Char)
  /-- The digits before the point and those after it; no digits after it, no point. -/
  | number (whole fraction : List Char)
  | word (letters : List Char)
  | stray (c : Char)
  | openString (body : List Char)
  deriving DecidableEq, Repr

namespace Piece

def point : List Char → List Char
  | [] => []
  | d :: ds => '.' :: d :: ds

def text : Piece → List Char
  | blank c => [c]
  | comment body => '/' :: '/' :: body
  | symbol s => s.chars
  | string body => '\"' :: (body ++ ['\"'])
  | number whole fraction => whole ++ point fraction
  | word letters => letters
  | stray c => [c]
  | openString body => '\"' :: body

/-- The line ends in a piece. -/
def newlines (p : Piece) : Nat := p.text.count '\n'

/-! ## The first piece of a text -/

def firstSlash : List Char → Piece × List Char
  | '/' :: r => (comment (r.takeWhile (· != '\n')), r.dropWhile (· != '\n'))
  | r => (symbol .slash, r)

def firstString (r : List Char) : Piece × List Char :=
  match r.dropWhile (· != '\"') with
  | _ :: rest => (string (r.takeWhile (· != '\"')), rest)
  | [] => (openString r, [])

/-- A point belongs to a number only when a digit follows it. -/
def firstFraction (whole : List Char) : List Char → Piece × List Char
  | '.' :: d :: r =>
    if d.isDigit then (number whole (d :: r.takeWhile Char.isDigit), r.dropWhile Char.isDigit)
    else (number whole [], '.' :: d :: r)
  | r => (number whole [], r)

def firstJoining (joined alone : Symbol) : List Char → Piece × List Char
  | '=' :: r => (symbol joined, r)
  | r => (symbol alone, r)

/-- The first piece of the text `c :: r`, and what is left after it. -/
def first (c : Char) (r : List Char) : Piece × List Char :=
  if isBlank c then (blank c, r)
  else if c = '/' then firstSlash r
  else if c = '\"' then firstString r
  else if c.isDigit then firstFraction (c :: r.takeWhile Char.isDigit) (r.dropWhile Char.isDigit)
  else if isWordStart c then (word (c :: r.takeWhile isWordChar), r.dropWhile isWordChar)
  else
    match Symbol.single? c with
    | some s => (symbol s, r)
    | none =>
      match Symbol.joining? c with
      | some (joined, alone) => firstJoining joined alone r
      | none => (stray c, r)

/-! ## Nothing is lost -/

theorem text_append_firstSlash (r : List Char) :
    (firstSlash r).1.text ++ (firstSlash r).2 = '/' :: r := by
  unfold firstSlash
  split
  · simp [text, List.takeWhile_append_dropWhile]
  · simp [text, Symbol.chars]

theorem text_append_firstString (r : List Char) :
    (firstString r).1.text ++ (firstString r).2 = '\"' :: r := by
  unfold firstString
  split
  · rename_i q rest h
    have hq : q = '\"' := by
      have := List.head?_dropWhile_not (· != '\"') r
      simpa [h] using this
    have := List.takeWhile_append_dropWhile (p := (· != '\"')) (l := r)
    rw [h, hq] at this
    simp [text, this]
  · simp [text]

theorem text_append_firstFraction (whole r : List Char) :
    (firstFraction whole r).1.text ++ (firstFraction whole r).2 = whole ++ r := by
  unfold firstFraction
  split
  · split
    · simp [text, point, List.takeWhile_append_dropWhile]
    · simp [text, point]
  · simp [text, point]

theorem chars_single {c : Char} {s : Symbol} (h : Symbol.single? c = some s) : s.chars = [c] := by
  unfold Symbol.single? at h
  split at h <;> cases h <;> rfl

theorem chars_joining {c : Char} {j a : Symbol} (h : Symbol.joining? c = some (j, a)) :
    j.chars = [c, '='] ∧ a.chars = [c] := by
  unfold Symbol.joining? at h
  split at h <;> cases h <;> exact ⟨rfl, rfl⟩

/-- A piece and what is left after it are the text it was cut from. -/
theorem text_append_first (c : Char) (r : List Char) :
    (first c r).1.text ++ (first c r).2 = c :: r := by
  unfold first
  split
  · rfl
  split
  · rename_i h
    rw [h, text_append_firstSlash]
  split
  · rename_i h
    rw [h, text_append_firstString]
  split
  · rw [text_append_firstFraction]
    simp [List.takeWhile_append_dropWhile]
  split
  · simp [text, List.takeWhile_append_dropWhile]
  split
  · rename_i h
    simp [text, chars_single h]
  split
  · rename_i h
    obtain ⟨hj, ha⟩ := chars_joining h
    unfold firstJoining
    split <;> simp [text, hj, ha]
  · rfl

theorem symbol_chars_ne_nil (s : Symbol) : s.chars ≠ [] := by cases s <;> decide

theorem text_first_ne_nil (c : Char) (r : List Char) : (first c r).1.text ≠ [] := by
  unfold first firstSlash firstString firstFraction firstJoining
  intro h
  repeat' split at h
  all_goals simp [text, point, symbol_chars_ne_nil] at h

/-- What is left after a piece is shorter than the text it was cut from. -/
theorem length_first_lt (c : Char) (r : List Char) : (first c r).2.length < (c :: r).length := by
  have h := congrArg List.length (text_append_first c r)
  have := List.length_pos_iff.mpr (text_first_ne_nil c r)
  rw [List.length_append] at h
  omega

/-! ## All the pieces of a text -/

/-- The pieces of a text, put behind those already cut. -/
def piecesOnto (done : Array Piece) : List Char → Array Piece
  | [] => done
  | c :: r =>
    let cut := first c r
    piecesOnto (done.push cut.1) cut.2
termination_by s => s.length
decreasing_by exact length_first_lt c r

def pieces (s : List Char) : List Piece := (piecesOnto #[] s).toList

theorem toList_piecesOnto (done : Array Piece) (s : List Char) :
    (piecesOnto done s).toList = done.toList ++ pieces s := by
  induction h : s.length using Nat.strongRecOn generalizing done s with
  | ind n ih =>
    cases s with
    | nil => simp [pieces, piecesOnto]
    | cons c r =>
      have hl := length_first_lt c r
      rw [pieces, piecesOnto, piecesOnto, ih _ (h ▸ hl) _ _ rfl, ih _ (h ▸ hl) (#[].push _) _ rfl]
      simp

@[simp] theorem pieces_nil : pieces [] = [] := by simp [pieces, piecesOnto]

theorem pieces_cons (c : Char) (r : List Char) :
    pieces (c :: r) = (first c r).1 :: pieces (first c r).2 := by
  rw [pieces, piecesOnto, toList_piecesOnto]
  simp

/-- The pieces of a text, in order, are the text. -/
theorem flatMap_text_pieces (s : List Char) : (pieces s).flatMap text = s := by
  induction h : s.length using Nat.strongRecOn generalizing s with
  | ind n ih =>
    cases s with
    | nil => simp
    | cons c r =>
      rw [pieces_cons, List.flatMap_cons, ih _ (h ▸ length_first_lt c r) _ rfl]
      exact text_append_first c r

/-! ## What becomes of a piece -/

inductive Outcome where
  | skip
  | token (kind : Kind) (literal : Option Literal)
  | fault (message : String)

def outcome : Piece → Outcome
  | blank _ | comment _ => .skip
  | symbol s => .token (.symbol s) none
  | string body => .token .string (some (.text (String.ofList body)))
  | number whole fraction =>
    .token .number (some (.number (.ofDecimal (whole ++ fraction) fraction.length)))
  | word letters => .token (.ofWord (String.ofList letters)) none
  | stray c => .fault ("Unrecognized character \"" ++ String.singleton c ++ "\"")
  | openString _ => .fault "Unterminated string literal"

end Piece

end LoxLexer
