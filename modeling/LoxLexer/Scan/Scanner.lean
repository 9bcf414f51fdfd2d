/-
  LoxLexer.Scan.Scanner — a position in a source text, and the tokens read so far.

  A scanner stands before the character `current`; `start` marks where the lexeme in
  hand begins. Lexemes are cut from the source between the two (`lexeme`). Either
  mark may be moved by hand, also behind the other or past the end, so a cut is
  clipped to the source and may be empty (`slice`).

  Reading a piece (`read`) sets both marks and the line, and then adds the piece's
  token or hands out its diagnostic. The position never depends on what becomes of
  the diagnostic.
-/

import LoxLexer.Report.Diagnostic
import LoxLexer.Scan.Piece

namespace LoxLexer

structure Scanner where
  source : List Char
  start : Nat
  current : Nat
  line : Int
  tokens : Array Token
  done : Bool
  deriving DecidableEq, Repr

namespace Scanner

def fresh (source : List Char) : Scanner := ⟨source, 0, 0, 1, #[], false⟩

/-! ## Looking -/

/-- The source that is not read yet. -/
def rest (s : Scanner) : List Char := s.source.drop s.current

/-- The source from `i` up to, not including, `j`. -/
def slice (s : Scanner) (i j : Nat) : List Char := (s.source.drop i).take (j - i)

def lexeme (s : Scanner) : String := String.ofList (s.slice s.start s.current)

def atEnd (s : Scanner) : Bool := decide (s.source.length ≤ s.current)

/-- The next character; a null character past the end. -/
def peek (s : Scanner) : Char := s.source[s.current]?.getD '\x00'

/-- The character after the next; a null character past the end. -/
def peekNext (s : Scanner) : Char := s.source[s.current + 1]?.getD '\x00'

/-! ## Moving -/

def mark (s : Scanner) : Scanner := { s with start := s.current }

def seek (s : Scanner) (n : Nat) : Scanner := { s with current := n }

def setLine (s : Scanner) (line : Int) : Scanner := { s with line := line }

/-- Read one character. -/
def advance? (s : Scanner) : Option (Char × Scanner) :=
  s.source[s.current]?.map fun c => (c, { s with current := s.current + 1 })

/-- Read one character if it is all of `expected`. -/
def accept (s : Scanner) (expected : String) : Scanner × Bool :=
  match s.source[s.current]? with
  | some c => if expected.toList = [c] then ({ s with current := s.current + 1 }, true) else (s, false)
  | none => (s, false)

/-! ## Adding tokens -/

/-- Add a token for the lexeme between the marks. -/
def add (s : Scanner) (kind : Kind) (literal : Option Literal) : Scanner :=
  { s with tokens := s.tokens.push ⟨kind, s.lexeme, literal, s.line⟩ }

/-- Read on to the end of a word and add the lexeme as a word. -/
def identifier (s : Scanner) : Scanner :=
  let s := { s with current := s.current + (s.rest.takeWhile isWordChar).length }
  s.add (.ofWord s.lexeme) none

/-- Read on to the closing quote of a string that has been opened, and add the lexeme
    as a string whose value lies between the first and the last character. Without a
    closing quote, read to the end and say so. -/
def string (s : Scanner) : Scanner × Option Diagnostic :=
  let body := s.rest.takeWhile (· != '\"')
  let s := { s with current := s.current + body.length, line := s.line + body.count '\n' }
  if s.atEnd then (s, some ⟨"Unterminated string literal", some s.line⟩)
  else
    let s := { s with current := s.current + 1 }
    let value := String.ofList (s.slice (s.start + 1) (s.current - 1))
    (s.add .string (some (.text value)), none)

/-- Read the piece that the unread source begins with. -/
def read : Scanner → Piece → Scanner × Option Diagnostic
  | ⟨source, _, current, line, tokens, done⟩, p =>
    let next := current + p.text.length
    let line := line + p.newlines
    match p.outcome with
    | .skip => (⟨source, current, next, line, tokens, done⟩, none)
    | .token kind literal =>
      let token := ⟨kind, String.ofList p.text, literal, line⟩
      (⟨source, current, next, line, tokens.push token, done⟩, none)
    | .fault message => (⟨source, current, next, line, tokens, done⟩, some ⟨message, some line⟩)

/-- Add the token for the end of the input. -/
def finish : Scanner → Scanner
  | ⟨source, start, current, line, tokens, _⟩ =>
    ⟨source, start, current, line, tokens.push ⟨.eof, "", none, line⟩, true⟩

end Scanner

end LoxLexer
