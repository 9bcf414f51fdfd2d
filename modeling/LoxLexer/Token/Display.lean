/-
  LoxLexer.Token.Display — the two ways a token is shown.

  As a line of a log, a token shows its kind, its lexeme and its line; the first
  carriage return and line feed of the lexeme, where they stand together, are shown by
  the letters `r` and `n` behind backslashes, and all else is shown as it is.

  As a row of a table, a token shows its kind and its value. The literal decides what
  the value is, whatever the kind: a number as `Binary64.text`, a text between double
  quotes, and without a literal the lexeme.
-/

import LoxLexer.Binary64.Text
import LoxLexer.Table
import LoxLexer.Token.Basic

namespace LoxLexer

/-- Show the first line end of two characters by letters. -/
def showLineEnd : List Char → List Char
  | '\r' :: '\n' :: r => '\\' :: 'r' :: '\\' :: 'n' :: r
  | c :: r => c :: showLineEnd r
  | [] => []

def Literal.shown : Literal → String
  | .number x => x.text
  | .text s => "\"" ++ s ++ "\""

namespace Token

def logLine (t : Token) : String :=
  "Token [" ++ t.kind.name ++ "]\t\t\"" ++ String.ofList (showLineEnd t.lexeme.toList) ++ "\" on line "
    ++ toString t.line ++ "."

def value (t : Token) : String :=
  match t.literal with
  | some l => l.shown
  | none => t.lexeme

def row (t : Token) : Row := ⟨t.kind.name, t.value⟩

end Token

end LoxLexer
