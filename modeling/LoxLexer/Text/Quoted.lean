/-
  LoxLexer.Text.Quoted — text between quotes, on one line and in printable characters.

  A text is put between single quotes, or between double quotes if it holds a single
  quote and no double one. Inside, a backslash and the quote in use are written behind
  a backslash; tab, line feed and carriage return by a letter; any other character that
  is not printable by its code point, in two, four or eight hexadecimal digits.
-/

import LoxLexer.Text.Printable

namespace LoxLexer

namespace Quoted

def quoteFor (s : List Char) : Char :=
  if s.contains '\x27' && !s.contains '\x22' then '\x22' else '\x27'

def hexChars (width n : Nat) : List Char :=
  let digits := Nat.toDigits 16 n
  List.replicate (width - digits.length) '0' ++ digits

def escape (quote c : Char) : List Char :=
  if c = quote ∨ c = '\\' then ['\\', c]
  else if c = '\t' then ['\\', 't']
  else if c = '\n' then ['\\', 'n']
  else if c = '\r' then ['\\', 'r']
  else if isPrintable c then [c]
  else if c.toNat < 0x100 then '\\' :: 'x' :: hexChars 2 c.toNat
  else if c.toNat < 0x10000 then '\\' :: 'u' :: hexChars 4 c.toNat
  else '\\' :: 'U' :: hexChars 8 c.toNat

end Quoted

/-- The text between quotes. -/
def quoted (s : String) : String :=
  let q := Quoted.quoteFor s.toList
  String.ofList (q :: (s.toList.flatMap (Quoted.escape q) ++ [q]))

end LoxLexer
