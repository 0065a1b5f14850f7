import CallerFirst.Decimal.Scaled

/-!
# The shortest decimal of a binary64 number

Of all decimals that are nearer to a number than to its neighbours, `Binary64.shortest` takes one
with the fewest digits, and of those the nearest. When two are equally near, `Tie` decides.
-/

namespace CallerFirst

/-- Which of two equally near decimals is taken. -/
inductive Tie
  | upward
  | toEven
  deriving DecidableEq, Repr

namespace Binary64

/-- The exact value of a magnitude as a quotient, counted in steps of `10 ^ exponent`. -/
def inSteps (units : Nat) (exponent : Int) : Nat × Nat :=
  match exponent with
  | .ofNat k => (units, unitsInOne * Nat.pow 10 k)
  | .negSucc k => (units * Nat.pow 10 (k + 1), unitsInOne)

/-- The exponent of the leading decimal digit of a magnitude above zero. -/
def leadingExponent (units : Nat) : Int :=
  let digits := Nat.toDigits 10 (units * Nat.pow 10 400 / unitsInOne)
  (digits.length : Int) - 401

/-- Whether `steps * 10 ^ exponent` reads back as the number at this rank: it lies between the
midpoints to both neighbours, which count when the rank is even. -/
def readsBack (rank : Nat) (exponent : Int) (steps : Nat) : Bool :=
  let (num, den) := inSteps 1 exponent
  let low := unitsAt (rank - 1) + unitsAt rank
  let high := unitsAt rank + unitsAt (rank + 1)
  let twice := 2 * (steps * den)
  if rank % 2 = 0 then low * num ≤ twice && twice ≤ high * num
  else low * num < twice && twice < high * num

/-- The better of the two neighbours on the grid of step `10 ^ exponent`, if one reads back. -/
def onGrid? (tie : Tie) (rank : Nat) (exponent : Int) : Option Nat :=
  let (num, den) := inSteps (unitsAt rank) exponent
  let below := num / den
  let twice := 2 * (num % den)
  match readsBack rank exponent below, readsBack rank exponent (below + 1) with
  | true, true =>
    if twice < den then some below
    else if den < twice then some (below + 1)
    else match tie with
      | .upward => some (below + 1)
      | .toEven => some (below + below % 2)
  | true, false => some below
  | false, true => some (below + 1)
  | false, false => none

/-- Drops trailing zeros of a significand, at most `fuel` of them. -/
def dropZeros : (fuel : Nat) → Decimal → Decimal
  | 0, d => d
  | fuel + 1, d =>
    if d.significand ≠ 0 ∧ d.significand % 10 = 0 then
      dropZeros fuel ⟨d.significand / 10, d.exponent + 1⟩
    else d

/-- Seventeen digits always tell a binary64 number from its neighbours. -/
def maxDigits : Nat := 17

/-- Tries the grids of `count` digits, `count + 1` digits and so on. -/
def searchGrids (tie : Tie) (rank : Nat) (leading : Int) : (tries count : Nat) → Decimal
  | 0, _ => ⟨0, 0⟩
  | tries + 1, count =>
    let exponent := leading - count + 1
    match onGrid? tie rank exponent with
    | some steps => dropZeros (maxDigits + 1) ⟨steps, exponent⟩
    | none => searchGrids tie rank leading tries (count + 1)

/-- The shortest decimal that reads back as the magnitude of `x`. -/
def shortest (tie : Tie) (x : Binary64) : Decimal :=
  if x.isZero then ⟨0, 0⟩
  else searchGrids tie x.rank (leadingExponent x.units) maxDigits 1

end Binary64

end CallerFirst
