/-!
# Finite binary64 numbers

A finite binary64 number is a sign and a *rank*: its place among the non-negative numbers of the
format, counted from zero. Every such number is a whole multiple of the unit `2 ^ -1074`, so all
arithmetic here is exact arithmetic on natural numbers followed by one rounding.

Main definitions:

* `Binary64.units`: the magnitude as a multiple of the unit;
* `Binary64.ofRatio?`: the number nearest to a quotient, a half going to the even rank;
* `Binary64.mul?` and `Binary64.div?`: the rounded product and quotient of magnitudes.
-/

namespace CallerFirst

/-- How many numbers there are from one power of two to the next. -/
def Binary64.ranksPerBinade : Nat := Nat.pow 2 52

/-- The first rank that is too large for a finite number. -/
def Binary64.rankLimit : Nat := 2047 * ranksPerBinade

/-- A finite binary64 number. -/
structure Binary64 where
  negative : Bool
  rank : Nat
  finite : rank < Binary64.rankLimit
  deriving DecidableEq

namespace Binary64

/-- How many units make one. -/
def unitsInOne : Nat := Nat.pow 2 1074

/-- The quotient rounded to the nearest whole number, a half going to the even one. -/
def roundHalfEven (num den : Nat) : Nat :=
  let whole := num / den
  let twice := 2 * (num % den)
  if twice < den then whole
  else if den < twice then whole + 1
  else whole + whole % 2

/-- The multiple of `2 ^ -1074` that stands at a rank. -/
def unitsAt (rank : Nat) : Nat :=
  if rank < ranksPerBinade then rank
  else (ranksPerBinade + rank % ranksPerBinade) * Nat.pow 2 (rank / ranksPerBinade - 1)

/-- The rank nearest to `num / den`; it reaches `rankLimit` when the quotient is too large. -/
def nearestRank (num den : Nat) : Nat :=
  let scaled := num * unitsInOne
  let shift := (scaled / den).log2 - 52
  shift * ranksPerBinade + roundHalfEven scaled (den * Nat.pow 2 shift)

/-- The magnitude as a multiple of `2 ^ -1074`. -/
def units (x : Binary64) : Nat := unitsAt x.rank

/-- The positive zero. -/
def zero : Binary64 := ⟨false, 0, by decide⟩

instance : Inhabited Binary64 := ⟨zero⟩

/-- Whether a number is a zero of either sign. -/
def isZero (x : Binary64) : Bool := x.rank == 0

/-- The same magnitude under the given sign. -/
def withSign (negative : Bool) (x : Binary64) : Binary64 := { x with negative }

/-- The non-negative number nearest to `num / den`, if it is finite. -/
def ofRatio? (num den : Nat) : Option Binary64 :=
  let rank := nearestRank num den
  if h : rank < rankLimit then some ⟨false, rank, h⟩ else none

/-- The rounded product of two magnitudes, if it is finite. -/
def mul? (x y : Binary64) : Option Binary64 :=
  ofRatio? (x.units * y.units) (unitsInOne * unitsInOne)

/-- The rounded quotient of two magnitudes, if it is finite. -/
def div? (x y : Binary64) : Option Binary64 :=
  ofRatio? x.units y.units

end Binary64

end CallerFirst
