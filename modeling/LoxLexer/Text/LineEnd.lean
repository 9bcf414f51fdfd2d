/-
  LoxLexer.Text.LineEnd — one way to end a line.

  A carriage return followed by a line feed, and a carriage return alone, both become a
  line feed, so no carriage return is left.
-/

namespace LoxLexer

def unifyLineEnds : List Char → List Char
  | '\r' :: '\n' :: r => '\n' :: unifyLineEnds r
  | '\r' :: r => '\n' :: unifyLineEnds r
  | c :: r => c :: unifyLineEnds r
  | [] => []

end LoxLexer
