import CallerFirst.Decimal.Binary64

/-!
# Decimals read as binary64 numbers

A decimal is a whole significand and a power of ten. It becomes a binary64 number by rounding the
significand first and then multiplying or dividing by the rounded power of ten. Powers beyond
`10 ^ 308` are taken in several steps. Each step rounds, so the result can be a neighbour of the
nearest number when the significand has more than fifteen digits.
-/

namespace CallerFirst

/-- The magnitude `significand * 10 ^ exponent`. -/
structure Decimal where
  significand : Nat
  exponent : Int
  deriving DecidableEq, Repr

namespace Decimal

/-- The largest power of ten that binary64 holds. -/
def topPower : Nat := 308

/-- The binary64 number nearest to `10 ^ k`. -/
def power? (k : Nat) : Option Binary64 := Binary64.ofRatio? (Nat.pow 10 k) 1

/-- Divides by `10 ^ 308` the given number of times; zero stays zero. -/
def divideByTop (x : Binary64) : (times : Nat) → Option Binary64
  | 0 => some x
  | times + 1 =>
    if x.isZero then some x
    else ((power? topPower).bind x.div?).bind (divideByTop · times)

/-- Divides by `10 ^ k`, in steps of at most `10 ^ 308`. -/
def scaleDown (x : Binary64) (k : Nat) : Option Binary64 :=
  let times := (k - 1) / topPower
  (divideByTop x times).bind fun y => (power? (k - topPower * times)).bind y.div?

/-- Multiplies by `10 ^ k`; only zero takes a power beyond `10 ^ 308`. -/
def scaleUp (x : Binary64) (k : Nat) : Option Binary64 :=
  if k ≤ topPower then (power? k).bind x.mul?
  else if x.isZero then some x
  else none

/-- The binary64 number that a decimal is read as, unless it is too large. -/
def toBinary64? (d : Decimal) : Option Binary64 :=
  match Binary64.ofRatio? d.significand 1, d.exponent with
  | some x, .ofNat k => scaleUp x k
  | some x, .negSucc k => scaleDown x (k + 1)
  | none, _ => none

end Decimal

end CallerFirst
