/-
  LoxLexer.Token.Basic — tokens and the values they carry.

  A token has a kind, the text it was written as (`lexeme`), the line it ends on,
  and, if it is a string or a number, the value that text stands for (`literal`).

  Tokens are compared field by field. Literals are compared as values: two numbers
  as numbers, so the two zeros are equal and what is no number differs from itself;
  two texts character by character; a number never equals a text.
-/

import LoxLexer.Token.Kind
import LoxLexer.Binary64.Basic

namespace LoxLexer

inductive Literal where
  | number (value : Binary64)
  | text (value : String)
  deriving DecidableEq, Repr

structure Token where
  kind : Kind
  lexeme : String
  literal : Option Literal
  line : Int
  deriving DecidableEq, Repr

instance : BEq Literal where
  beq
    | .number x, .number y => x == y
    | .text s, .text t => s == t
    | _, _ => false

instance : BEq Token where
  beq a b := a.kind == b.kind && a.lexeme == b.lexeme && a.literal == b.literal && a.line == b.line

end LoxLexer
