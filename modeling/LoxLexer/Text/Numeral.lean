/-
  LoxLexer.Text.Numeral — texts that look like a negative number.

  A decimal digit is a character of the general category decimal number in Unicode 14.0;
  these come in runs of ten, of which `zeroDigits` lists the first. A text looks like a
  negative number if a minus sign is followed by digits, or by a point with digits behind
  it and perhaps before it; one line feed may follow.
-/

namespace LoxLexer

namespace Numeral

def zeroDigits : List Nat :=
  [0x30, 0x660, 0x6f0, 0x7c0, 0x966, 0x9e6, 0xa66, 0xae6, 0xb66, 0xbe6, 0xc66, 0xce6, 0xd66, 0xde6, 0xe50,
    0xed0, 0xf20, 0x1040, 0x1090, 0x17e0, 0x1810, 0x1946, 0x19d0, 0x1a80, 0x1a90, 0x1b50, 0x1bb0, 0x1c40,
    0x1c50, 0xa620, 0xa8d0, 0xa900, 0xa9d0, 0xa9f0, 0xaa50, 0xabf0, 0xff10, 0x104a0, 0x10d30, 0x11066,
    0x110f0, 0x11136, 0x111d0, 0x112f0, 0x11450, 0x114d0, 0x11650, 0x116c0, 0x11730, 0x118e0, 0x11950,
    0x11c50, 0x11d50, 0x11da0, 0x16a60, 0x16ac0, 0x16b50, 0x1d7ce, 0x1d7d8, 0x1d7e2, 0x1d7ec, 0x1d7f6,
    0x1e140, 0x1e2f0, 0x1e950, 0x1fbf0]

def isDigit (c : Char) : Bool := zeroDigits.any fun z => decide (z ≤ c.toNat ∧ c.toNat ≤ z + 9)

def isDigits (s : List Char) : Bool := !s.isEmpty && s.all isDigit

/-- Digits, or digits behind a point and perhaps before it. -/
def isUnsigned (s : List Char) : Bool :=
  isDigits s ||
    match s.dropWhile isDigit with
    | '.' :: fraction => isDigits fraction
    | _ => false

def dropLineFeed (s : List Char) : List Char := if s.getLast? = some '\n' then s.dropLast else s

end Numeral

def looksNegative : List Char → Bool
  | '-' :: s => Numeral.isUnsigned (Numeral.dropLineFeed s)
  | _ => false

end LoxLexer
