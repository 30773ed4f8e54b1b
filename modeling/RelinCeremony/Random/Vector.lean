import RelinCeremony.Random.Normal

namespace RelinCeremony
namespace Random

/-!
# Random vectors

Vectors of independent coefficients: ternary ones, discrete normal ones and
uniform ones, with the checks of their parameters.  A request that is refused
draws nothing.
-/

/-- Why a random vector or a distribution is refused. -/
inductive DistributionError where
  /-- The probability of a non-zero coefficient is not in `(0, 1]`. -/
  | probability
  | deviation
  | unboundedDeviation
deriving DecidableEq

def DistributionError.message : DistributionError → String
  | .probability => "The probability p must belong to (0, 1]"
  | .deviation => "The standard deviation must be a positive finite number"
  | .unboundedDeviation => "Invalid standard deviation"

/-- Whether a value is a probability above zero. -/
def isProbability (p : Binary64) : Bool :=
  p.isPositive && p.isAtMostOne

/-- The number of words of 64 bits for which an event of the given probability
takes place. -/
def threshold (p : Binary64) : Nat :=
  match p with
  | .finite _ significand exponent => Binary64.scaledFloor significand (exponent + 64)
  | _ => 0

namespace Draw

/-- Whether an event that takes place for `threshold` words of 64 bits does.  A
certain event draws nothing. -/
def event (threshold : Nat) : Draw Bool := do
  if threshold = Word.size then
    return true
  else
    return decide ((← word64) < threshold)

/-- A coefficient that is 0 unless the event takes place, and then 1 or -1 by a
coin. -/
def ternary (threshold : Nat) : Draw Int := do
  if ← event threshold then
    return if ← coin then 1 else -1
  else
    return 0

end Draw

/-- A vector of ternary coefficients: non-zero with probability `p`, of either
sign alike. -/
def ternaryVector (size : Nat) (p : Float) : Except DistributionError (Draw (List Int)) :=
  if isProbability (.ofFloat p) then
    .ok (Draw.times (Draw.ternary (threshold (.ofFloat p))) size)
  else .error .probability

/-- A vector of discrete normal coefficients of mean zero within a bound. -/
def normalVector (size : Nat) (deviation : Float) (bound : Int) :
    Except DistributionError (Draw (List Int)) :=
  if (Binary64.ofFloat deviation).isPositive then
    .ok (Draw.times (Draw.boundedNormal 0.0 deviation bound) size)
  else .error .deviation

/-- A list of discrete normal numbers within a bound, of any mean and of any
finite standard deviation, be it zero or negative. -/
def boundedNormals (count : Nat) (mean deviation : Float) (bound : Int) :
    Except DistributionError (Draw (List Int)) :=
  if (Binary64.ofFloat deviation).isFinite then
    .ok (Draw.times (Draw.boundedNormal mean deviation bound) count)
  else .error .unboundedDeviation

def uniformVector (size p : Nat) : Draw (List Nat) := Draw.times (Draw.below p) size

end Random
end RelinCeremony
