import RelinCeremony.Decimal.Notation
import RelinCeremony.Random.Vector

namespace RelinCeremony
namespace Ring

/-!
# Errors of the ring

Why a modulus, a ring, an element or a sampler is refused, and the words of
each refusal.  Numbers with a fraction are written by `Decimal.plain`.
-/

/-- A refusal of the ring layer. -/
inductive Error where
  /-- The number is not an odd integer from 3 to `2^62 - 1`. -/
  | inadmissibleModulus (value : Nat)
  /-- A list of coefficients does not have the length of the ring. -/
  | foreignCoefficients
  /-- The probability of a ternary coefficient is refused. -/
  | probability (p : Float) (reason : Random.DistributionError)
  | deviation (sigma : Float)
  /-- The truncation bound is not positive. -/
  | bound (value : Int)
  | degree
  | noModulus
  /-- A modulus has no transform of the degree. -/
  | noTransform
  | repeatedModulus

namespace Error

def floatText (x : Float) : String := Decimal.plain.render (.ofFloat x)

def message : Error → String
  | .inadmissibleModulus value =>
      s!"Invalid modulus: modulus {value} should be an odd integer between 3 and " ++
        "(1 << 62) - 1."
  | .foreignCoefficients => "Invalid context provided."
  | .probability p reason =>
      "Invalid probability: " ++ floatText p ++ ": " ++ reason.message
  | .deviation sigma =>
      "Invalid distribution: Invalid standard deviation " ++ floatText sigma
  | .bound value => s!"Invalid distribution: Invalid truncation bound {value}"
  | .degree => "The degree is not a power of two larger or equal to 8"
  | .noModulus => "At least one modulus is required"
  | .noTransform => "Impossible to construct a Ntt operator"
  | .repeatedModulus => "The moduli are not distinct"

end Error
end Ring
end RelinCeremony
