/-!
# The shortest decimal in an interval

A positive number is known by its place in an interval: every decimal inside the interval stands for
it as well. This module finds the decimal with the fewest digits, and among those the one nearest to
the number; of two that are equally near, the larger.

The number is `value / denom`, and the interval reaches from `(value - below) / denom` to `(value +
above) / denom`. All arithmetic is on natural numbers, so it is exact.
-/

namespace Fluxion.Decimal

/-- A number together with the interval of numbers that it stands for. -/
structure Rounding where
  /-- The number, in units of `1 / denom`. -/
  value : Nat
  /-- How far the interval reaches down. -/
  below : Nat
  /-- How far the interval reaches up. -/
  above : Nat
  denom : Nat
  /-- Whether the two ends belong to the interval. -/
  closed : Bool
  deriving Repr

/-- The decimal `digits * 10 ^ exponent`. -/
structure Scientific where
  digits : Nat
  exponent : Int
  deriving DecidableEq, Repr

/-- The number of decimal digits of `n`; zero has one. -/
def digitCount (n : Nat) : Nat :=
  (Nat.toDigits 10 n).length

namespace Scientific

/-- The decimal without zeros at the end of its digits, where `room` bounds their number. -/
def trimZeros (s : Scientific) : Nat → Scientific
  | 0 => s
  | room + 1 =>
    if s.digits != 0 && s.digits % 10 == 0 then
      trimZeros ⟨s.digits / 10, s.exponent + 1⟩ room
    else
      s

end Scientific

namespace Rounding

/-- Whether `x / d` lies in the interval. -/
def contains (r : Rounding) (x d : Nat) : Bool :=
  let low := (r.value - r.below) * d
  let high := (r.value + r.above) * d
  let mid := x * r.denom
  if r.closed then low ≤ mid && mid ≤ high else low < mid && mid < high

/-- The exponent `k` for which the number lies from `10 ^ (k - 1)` up to `10 ^ k`. -/
def magnitude (r : Rounding) : Int :=
  if r.denom ≤ r.value then
    digitCount (r.value / r.denom)
  else
    1 - (digitCount ((r.denom - 1) / r.value) : Int)

/-- The better of the two multiples of `10 ^ exponent` around the number, if one lies in the
interval. -/
def onGrid (r : Rounding) (exponent : Int) : Option Scientific :=
  -- the number and the grid points in units of `1 / (denom * scale)`
  let unit := Nat.pow 10 exponent.toNat
  let scale := Nat.pow 10 (-exponent).toNat
  let down := r.value * scale / (r.denom * unit)
  let up := down + 1
  let downIn := down != 0 && r.contains (down * unit) scale
  let upIn := r.contains (up * unit) scale
  let nearerUp := r.value * scale * 2 ≥ (down + up) * unit * r.denom
  match downIn, upIn with
  | true, true => some ⟨if nearerUp then up else down, exponent⟩
  | true, false => some ⟨down, exponent⟩
  | false, true => some ⟨up, exponent⟩
  | false, false => none

/-- The first hit on grids of more and more digits, starting at `10 ^ exponent`, with `tries` grids
left. -/
def search (r : Rounding) (exponent : Int) : Nat → Option Scientific
  | 0 => none
  | tries + 1 =>
    match r.onGrid exponent with
    | some s => some s
    | none => search r (exponent - 1) tries

/-- The decimal with the fewest digits in the interval. Seventeen digits tell any two binary numbers
of 53 bits apart, so for their intervals the search ends. -/
def shortest (r : Rounding) : Scientific :=
  match r.search (r.magnitude - 1) 17 with
  | some s => s.trimZeros 17
  | none => ⟨0, 0⟩

end Rounding

end Fluxion.Decimal
