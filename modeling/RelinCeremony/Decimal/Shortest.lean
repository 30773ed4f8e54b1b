import RelinCeremony.Power

namespace RelinCeremony

/-!
# The fewest digits that identify a binary value

A positive binary value `significand * 2 ^ exponent` stands for the reals that
round to it.  Among the decimals in that interval this module selects one with
the fewest digits, and of those the nearest.  All comparisons are exact, in
natural numbers.

How the digits are laid out is the matter of `Decimal.Notation`.
-/

/-- The decimal value `digits * 10 ^ exponent`. -/
structure Decimal where
  digits : Nat
  exponent : Int
deriving DecidableEq

namespace Decimal

/-- A positive binary value and whether its lower neighbour is only half as far
away as the upper one. -/
structure Binary where
  significand : Nat
  exponent : Int
  narrowBelow : Bool

/-- The order of `a * 10 ^ i` and `n * 2 ^ j`. -/
def compareScaled (a : Nat) (i : Int) (n : Nat) (j : Int) : Ordering :=
  compare (a * 10 ^ i.toNat * 2 ^ (-j).toNat) (n * 2 ^ j.toNat * 10 ^ (-i).toNat)

/-- Whether a decimal lies among the reals that round to the value: half-way to
either neighbour at most, and the ends themselves for an even significand. -/
def identifies (d : Decimal) (x : Binary) : Bool :=
  let lower := if x.narrowBelow then 4 * x.significand - 1 else 4 * x.significand - 2
  let upper := 4 * x.significand + 2
  let ends := x.significand % 2 == 0
  let toLower := compareScaled d.digits d.exponent lower (x.exponent - 2)
  let toUpper := compareScaled d.digits d.exponent upper (x.exponent - 2)
  (toLower == .gt || (ends && toLower == .eq)) &&
    (toUpper == .lt || (ends && toUpper == .eq))

/-- The greatest multiple of `10 ^ scale` that is at most the value, counted in
that unit. -/
def floorAt (x : Binary) (scale : Int) : Nat :=
  x.significand * 2 ^ x.exponent.toNat * 10 ^ (-scale).toNat /
    (2 ^ (-x.exponent).toNat * 10 ^ scale.toNat)

/-- Whether the value is nearer to `n * 10 ^ scale` than to the next multiple of
`10 ^ scale`; the middle counts as nearer to the next one. -/
def isNearerBelow (x : Binary) (scale : Int) (n : Nat) : Bool :=
  compareScaled (2 * n + 1) scale (2 * x.significand) x.exponent == .gt

/-- The neighbour of the value among the multiples of `10 ^ scale` that
identifies it, the nearer one if both do. -/
def onGrid? (x : Binary) (scale : Int) : Option Decimal :=
  let below : Decimal := ⟨floorAt x scale, scale⟩
  let above : Decimal := ⟨floorAt x scale + 1, scale⟩
  match below.identifies x, above.identifies x with
  | true, true => some (if isNearerBelow x scale below.digits then below else above)
  | true, false => some below
  | false, true => some above
  | false, false => none

/-- The least `k` in reach of a search from `k` upwards for which the value is
below `10 ^ k`. -/
def magnitudeFrom (x : Binary) : (steps : Nat) → Int → Int
  | 0, k => k
  | steps + 1, k =>
      if compareScaled 1 k x.significand x.exponent == .gt then k
      else magnitudeFrom x steps (k + 1)

/-- The least `k` for which the value is below `10 ^ k`.  The binary logarithm
gives a start that is at most a few units too low. -/
def magnitude (x : Binary) : Int :=
  let binary := (x.significand.log2 : Int) + x.exponent
  magnitudeFrom x 8 (Int.fdiv (binary * 30103) 100000 - 2)

/-- Moves up to `steps` trailing zeros of the digits into the exponent. -/
def stripZeros : (steps : Nat) → Decimal → Decimal
  | 0, d => d
  | steps + 1, d =>
      if d.digits ≠ 0 && d.digits % 10 == 0 then
        stripZeros steps ⟨d.digits / 10, d.exponent + 1⟩
      else d

def exact (x : Binary) : Decimal :=
  ⟨x.significand * 2 ^ x.exponent.toNat * 5 ^ (-x.exponent).toNat, -(-x.exponent).toNat⟩

/-- The decimal with the fewest digits that identifies a positive value: grids
of 1, 2, … 17 digits are tried in turn. -/
def shortest (x : Binary) : Decimal :=
  let k := magnitude x
  let found := (List.range 17).findSome? fun (n : Nat) => onGrid? x (k - ((n : Int) + 1))
  stripZeros 400 (found.getD (exact x))

end Decimal
end RelinCeremony
