import CallerFirst.Decimal.Layout

/-!
# Decimals beyond binary64

Which decimals round to no finite binary64 number. Most decimals are judged by the place of their
leading digit alone; only those that lead at `10 ^ 308` need exact arithmetic.
-/

namespace CallerFirst.Decimal

/-- The binary64 number nearest to a decimal, unless it is too large. -/
def nearest? (d : Decimal) : Option Binary64 :=
  match d.exponent with
  | .ofNat k => Binary64.ofRatio? (d.significand * Nat.pow 10 k) 1
  | .negSucc k => Binary64.ofRatio? d.significand (Nat.pow 10 (k + 1))

/-- Whether a decimal is too large for a finite binary64 number. -/
def isTooLarge (d : Decimal) : Bool :=
  if d.significand = 0 ∨ d.magnitude < topPower then false
  else if topPower < d.magnitude then true
  else d.nearest?.isNone

end CallerFirst.Decimal
