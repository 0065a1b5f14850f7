import CallerFirst.Decimal.Shortest

/-!
# Decimals as text

Two layouts: positional digits, and a digit before the point with an exponent after it.
`NumberFormat` records which of them a format uses where.
-/

namespace CallerFirst

/-- The decisions of a number format. -/
structure NumberFormat where
  /-- Which of two equally near shortest decimals is written. -/
  tie : Tie
  /-- Whether whole numbers are written with `.0`. -/
  keepsPoint : Bool
  /-- The decimal exponents that are written positionally; `none` means all of them. -/
  positional : Option (Int × Int)

namespace Decimal

/-- The digits of the significand. -/
def digits (d : Decimal) : List Char := Nat.toDigits 10 d.significand

/-- The exponent of the leading digit. -/
def magnitude (d : Decimal) : Int := d.exponent + d.digits.length - 1

/-- Digits with a point where it belongs. -/
def positional (keepsPoint : Bool) (d : Decimal) : List Char :=
  match d.exponent with
  | .ofNat k => d.digits ++ List.replicate k '0' ++ if keepsPoint then ".0".toList else []
  | .negSucc k =>
    let places := k + 1
    let padded := List.replicate (places + 1 - d.digits.length) '0' ++ d.digits
    padded.take (padded.length - places) ++ '.' :: padded.drop (padded.length - places)

/-- One digit, a point if more follow, and a signed exponent. -/
def scientific (d : Decimal) : List Char :=
  let fraction := d.digits.drop 1
  let power := d.magnitude
  d.digits.take 1 ++ (if fraction.isEmpty then [] else '.' :: fraction)
    ++ 'e' :: (if power < 0 then '-' else '+') :: Nat.toDigits 10 power.natAbs

end Decimal

/-- The text of a binary64 number in a format. -/
def NumberFormat.write (format : NumberFormat) (x : Binary64) : List Char :=
  let d := x.shortest format.tie
  let body :=
    match format.positional with
    | none => d.positional format.keepsPoint
    | some (low, high) =>
      if x.isZero || (low ≤ d.magnitude && d.magnitude ≤ high) then d.positional format.keepsPoint
      else d.scientific
  if x.negative then '-' :: body else body

end CallerFirst
