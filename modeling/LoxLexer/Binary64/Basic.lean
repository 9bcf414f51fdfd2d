/-
  LoxLexer.Binary64.Basic — 64-bit binary floating-point numbers, as words.

  A number is kept as its 64 bits (`Binary64`). A finite one is
  plus or minus `significand * 2 ^ exponent`, with `significand < 2 ^ 53` and
  `exponent` at least -1074; above all finite magnitudes lies infinity, and above
  that are the words that are no number (`isNaN`).

  Equality of numbers (`==`) is not equality of words: the two zeros are equal, and
  a word that is no number equals nothing, itself included.

  `nearest num den` is the number closest to the fraction `num / den`. The fraction
  is measured in units of `2 ^ q`, where `q` is chosen so that the result has 53
  bits, or -1074 if that would be finer; the count of units is rounded with ties to
  the even one (`roundEven`). Magnitudes are ordered as their words are, so a count
  that rounds up to the next power of two, or past the greatest finite number, needs
  no case of its own: the word is the sum, capped at infinity.
-/

namespace LoxLexer

structure Binary64 where
  bits : UInt64
  deriving DecidableEq, Repr

namespace Binary64

/-! ## The parts of a word -/

/-- The sign bit, `2 ^ 63`. -/
def signWord : Nat := 0x8000000000000000

/-- The step from one exponent to the next, `2 ^ 52`. -/
def stepWord : Nat := 0x10000000000000

/-- The magnitude of infinity: 2047 steps. -/
def infinityWord : Nat := 0x7FF0000000000000

def isNegative (x : Binary64) : Bool := decide (signWord ≤ x.bits.toNat)

/-- The word without its sign. -/
def magnitude (x : Binary64) : Nat := x.bits.toNat % signWord

def isNaN (x : Binary64) : Bool := decide (infinityWord < x.magnitude)

def isFinite (x : Binary64) : Bool := decide (x.magnitude < infinityWord)

def significand (x : Binary64) : Nat :=
  if x.magnitude < stepWord then x.magnitude else stepWord + x.magnitude % stepWord

def exponent (x : Binary64) : Int := (max (x.magnitude / stepWord) 1 : Nat) - 1075

/-! ## Equality -/

instance : BEq Binary64 where
  beq x y := !x.isNaN && !y.isNaN && (x.bits == y.bits || x.magnitude == 0 && y.magnitude == 0)

/-! ## The number nearest to a fraction -/

/-- `a / b` rounded to a whole number, a half going to the even neighbour. -/
def roundEven (a b : Nat) : Nat :=
  if 2 * (a % b) < b then a / b
  else if b < 2 * (a % b) then a / b + 1
  else a / b + a / b % 2

/-- The greatest `k` with `2 ^ k ≤ num / den`. -/
def floorLog2 (num den : Nat) : Int :=
  let k : Int := (num.log2 : Int) - den.log2
  if den * Nat.pow 2 k.toNat ≤ num * Nat.pow 2 (-k).toNat then k else k - 1

/-- The exponent of the unit in which a fraction is measured. -/
def unitExponent (num den : Nat) : Int := max (floorLog2 num den - 52) (-1074)

def ofMagnitude (w : Nat) : Binary64 := ⟨UInt64.ofNat w⟩

def nearest (num den : Nat) : Binary64 :=
  if num = 0 then ofMagnitude 0
  else
    let q := unitExponent num den
    let m := roundEven (num * Nat.pow 2 (-q).toNat) (den * Nat.pow 2 q.toNat)
    ofMagnitude (min infinityWord ((q + 1074).toNat * stepWord + m))

/-- The number nearest to a decimal: all its digits, and how many of them follow the point. -/
def ofDecimal (digits : List Char) (places : Nat) : Binary64 :=
  nearest (Nat.ofDigitChars 10 digits 0) (Nat.pow 10 places)

end Binary64

end LoxLexer
