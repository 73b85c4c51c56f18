import Fluxion.Decimal.Shortest

/-!
# Decimals in positional notation

A decimal is written without an exponent: whole digits, and a point and further digits only if there
is a fractional part. The text of a binary number is its shortest decimal; a minus sign goes in
front of every negative number, negative zero included.
-/

namespace Fluxion.Decimal

/-- A natural number in decimal digits. -/
def numeral (n : Nat) : List Char :=
  Nat.toDigits 10 n

namespace Scientific

/-- The decimal in positional notation. -/
def positional (s : Scientific) : List Char :=
  let ds := numeral s.digits
  if 0 ≤ s.exponent then
    ds ++ List.replicate s.exponent.toNat '0'
  else
    let places := (-s.exponent).toNat
    if places < ds.length then
      ds.take (ds.length - places) ++ '.' :: ds.drop (ds.length - places)
    else
      '0' :: '.' :: List.replicate (places - ds.length) '0' ++ ds

end Scientific

/-- The significand of a power of two, in units of its last place. -/
def hiddenBit : Nat := 0x10000000000000

/-- The bit that tells negative numbers from positive ones. -/
def signBit : Nat := 0x8000000000000000

/-- The numbers that round to the positive binary number `mantissa * 2 ^ exponent`. Halfway points
belong to it if its mantissa is even. Below a power of two the numbers are twice as dense as above
it, unless `lowest` says that the exponent is as low as it can be. -/
def Rounding.ofBinary (mantissa : Nat) (exponent : Int) (lowest : Bool) : Rounding :=
  -- in quarters of a unit in the last place
  let quarter := exponent - 2
  let unit := Nat.pow 2 quarter.toNat
  { value := 4 * mantissa * unit
    below := (if mantissa == hiddenBit && !lowest then 1 else 2) * unit
    above := 2 * unit
    denom := Nat.pow 2 (-quarter).toNat
    closed := mantissa % 2 == 0 }

/-- The text of a number given by its bits in the binary64 format: a sign bit, eleven bits of
exponent, and the bits of the significand below its first. -/
def ofBits (bits : UInt64) : List Char :=
  let b := bits.toNat
  let field : Nat := b / hiddenBit % 2048
  let fraction := b % hiddenBit
  let magnitude :=
    if field == 2047 then
      ['i', 'n', 'f']
    else if field == 0 && fraction == 0 then
      ['0']
    else if field == 0 then
      (Rounding.ofBinary fraction (-1074) true).shortest.positional
    else
      let exponent : Int := field - 1075
      (Rounding.ofBinary (hiddenBit + fraction) exponent (field == 1)).shortest.positional
  if field == 2047 && fraction != 0 then
    ['N', 'a', 'N']
  else if signBit ≤ b then
    '-' :: magnitude
  else
    magnitude

end Fluxion.Decimal
