/-
  LoxLexer.Binary64.Text — how a number is written.

  A whole number is written as an integer with all its digits, however many
  (`Binary64.text`); both zeros are `0`. Any other number is written with the fewest
  digits that read back as it (`shortText`): with a point where its first digit counts
  at least 10^-4 and less than 10^16, and with an exponent of at least two digits
  elsewhere. What is no number, or is infinite, has a name.

  `shortText` also writes whole numbers, with `.0` where it uses a point.
-/

import LoxLexer.Binary64.Shortest

namespace LoxLexer

/-! ## Decimals as text -/

namespace Decimal

def digitChars (d : Decimal) : List Char := Nat.toDigits 10 d.digits

/-- The power of ten that the first digit counts. -/
def leading (d : Decimal) : Int := d.exponent + d.digitChars.length - 1

def zeros (n : Int) : List Char := List.replicate n.toNat '0'

/-- With a point behind `before` of the digits, filled up with zeros on either side. -/
def positional (digits : List Char) (before : Int) : List Char :=
  if before ≤ 0 then '0' :: '.' :: (zeros (-before) ++ digits)
  else if digits.length ≤ before then digits ++ zeros (before - digits.length) ++ ['.', '0']
  else digits.take before.toNat ++ '.' :: digits.drop before.toNat

def exponentChars (e : Int) : List Char :=
  let digits := Nat.toDigits 10 e.natAbs
  (if e < 0 then '-' else '+') :: (zeros (2 - digits.length) ++ digits)

/-- With a point behind the first digit, if there are more, and an exponent. -/
def scientific (digits : List Char) (e : Int) : List Char :=
  match digits with
  | d :: t => d :: ((if t.isEmpty then [] else '.' :: t) ++ 'e' :: exponentChars e)
  | [] => []

def chars (d : Decimal) : List Char :=
  if -4 ≤ d.leading ∧ d.leading < 16 then positional d.digitChars (d.leading + 1)
  else scientific d.digitChars d.leading

end Decimal

/-! ## Numbers as text -/

namespace Binary64

/-- Whether a finite number has no fraction. -/
def isWhole (x : Binary64) : Bool :=
  x.significand * Nat.pow 2 x.exponent.toNat % Nat.pow 2 (-x.exponent).toNat == 0

/-- The whole part of the magnitude of a finite number. -/
def whole (x : Binary64) : Nat :=
  x.significand * Nat.pow 2 x.exponent.toNat / Nat.pow 2 (-x.exponent).toNat

/-- A finite number that has no fraction, as an integer. -/
def toInt (x : Binary64) : Int := if x.isNegative then -x.whole else x.whole

def sign (x : Binary64) : List Char := if x.isNegative then ['-'] else []

def shortText (x : Binary64) : String :=
  if x.isNaN then "nan"
  else if !x.isFinite then String.ofList (x.sign ++ ['i', 'n', 'f'])
  else if x.magnitude = 0 then String.ofList (x.sign ++ ['0', '.', '0'])
  else String.ofList (x.sign ++ x.shortest.chars)

def text (x : Binary64) : String :=
  if x.isFinite && x.isWhole then toString x.toInt else x.shortText

end Binary64

end LoxLexer
