/-
  LoxLexer.Binary64.Shortest — the shortest decimal that reads back as a number.

  The reals that `nearest` sends to a positive finite number `m * 2 ^ q` are an
  interval around it (`lowEdge`, `highEdge`): half a unit to either side, but only a
  quarter below a power of two, where the units under it are half as wide. Its edges
  belong to it exactly when `m` is even.

  `shortest` looks for the coarsest grid, the multiples of `10 ^ g` with `g` as great
  as can be, that has a point in this interval, and takes the point nearer to the
  number if it has two, the even one if they are equally near (`pick?`). If any
  multiple of `10 ^ g` lies in the interval, so does one of the two that enclose the
  number, so only those are tried. A decimal with fewer digits that lies in the
  interval would put a power of ten between itself and the point found, hence into
  the interval, and that is a point of a coarser grid.

  The search starts at a `g` that is surely too great (`gridStart`) and goes down to
  -324, where the grid is finer than any interval is wide.
-/

import LoxLexer.Binary64.Basic

namespace LoxLexer

/-- The number `digits * 10 ^ exponent`. -/
structure Decimal where
  digits : Nat
  exponent : Int
  deriving DecidableEq, Repr

namespace Binary64

/-! ## The interval of a number, in quarters of its unit -/

def lowEdge (m : Nat) (q : Int) : Nat :=
  if m = stepWord ∧ -1074 < q then 4 * m - 1 else 4 * m - 2

def highEdge (m : Nat) : Nat := 4 * m + 2

/-- Whether `n`, with the edges `lo` and `hi`, lies in the interval of a number with
    the significand `m`. -/
def within (m lo n hi : Nat) : Bool :=
  if m % 2 = 0 then decide (lo ≤ n ∧ n ≤ hi) else decide (lo < n ∧ n < hi)

/-! ## The points of a grid -/

/-- The point of the grid of `10 ^ g` that stands for `m * 2 ^ q`. Quarters of
    `2 ^ q` and points of the grid are both multiplied by what makes them whole. -/
def pick? (m : Nat) (q g : Int) : Option Nat :=
  let point := Nat.pow 10 g.toNat * Nat.pow 2 (2 - q).toNat
  let quarter := Nat.pow 2 (q - 2).toNat * Nat.pow 10 (-g).toNat
  let lo := lowEdge m q * quarter
  let hi := highEdge m * quarter
  let n := 4 * m * quarter
  let below := n / point
  match within m lo (below * point) hi, within m lo ((below + 1) * point) hi with
  | true, true => some (roundEven n point)
  | true, false => some below
  | false, true => some (below + 1)
  | false, false => none

/-- No point of a grid coarser than this lies in the interval: with `2 ^ k` above
    the interval, `10 ^ g < 2 ^ k` bounds `g` by `k / 3`, or by `k / 4` if negative. -/
def gridStart (m : Nat) (q : Int) : Int :=
  let k := (m.log2 : Int) + q + 1
  if 0 ≤ k then k / 3 else k / 4

/-- Try the grids from `n - 324` down. -/
def shortestFrom (m : Nat) (q : Int) : Nat → Decimal
  | 0 => ⟨(pick? m q (-324)).getD 0, -324⟩
  | n + 1 =>
    match pick? m q ((n + 1 : Nat) - 324) with
    | some c => ⟨c, (n + 1 : Nat) - 324⟩
    | none => shortestFrom m q n

/-- The shortest decimal that reads back as the magnitude of a finite number other than zero. -/
def shortest (x : Binary64) : Decimal :=
  shortestFrom x.significand x.exponent (gridStart x.significand x.exponent + 324).toNat

end Binary64

end LoxLexer
