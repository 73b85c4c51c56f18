import Fluxion.Decimal.Positional
import Fluxion.Scalar

/-!
# Binary floating-point numbers

The numbers of the binary64 format as scalars. A decimal is read as the nearest of them, and each is
written as the shortest decimal that is read back as the same number; both zeros are written `0`.
-/

namespace Fluxion.Binary64

/-- The place of a number in the order of all numbers: negative before positive, each by size, with
negative zero just below zero, the infinities at the ends and undefined values beyond them. -/
def orderKey (x : Float) : Int :=
  let b := x.toBits.toNat
  if b < Decimal.signBit then b else (Decimal.signBit : Int) - 1 - b

/-- The largest size up to which integral exponents are written with raised digits. -/
def shortLimit : Float := 1e15

/-- A function applied to a number. -/
def apply : Func → Float → Float
  | .sin => Float.sin
  | .cos => Float.cos
  | .tan => Float.tan
  | .ln => Float.log
  | .log => Float.log10
  | .exp => Float.exp

instance : Scalar Float where
  zero := 0.0
  one := 1.0
  two := 2.0
  lnTen := 2.302585092994046
  pow := Float.pow
  apply := apply
  isFinite := Float.isFinite
  isNegative := fun x => x < 0.0
  atMost := fun x y => orderKey x ≤ orderKey y

instance : Numeral Float where
  ofDecimal := fun digits places => Float.ofScientific digits true places
  text := fun x => if x == 0.0 then ['0'] else Decimal.ofBits x.toBits
  isShortInteger := fun x => x.isFinite && x.floor == x && x.abs ≤ shortLimit

end Fluxion.Binary64
