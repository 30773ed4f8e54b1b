import RelinCeremony.Grid.Basic
import RelinCeremony.Ring.Error

namespace RelinCeremony
namespace Protocol

/-!
# Errors of the protocol

Why parameters are refused, and why a step of the key generation is refused.
-/

/-- The greatest number of bits of a modulus, and of the part of a residue that
the digits cover. -/
def coveredBits : Nat := 60

/-- The least number of bits that a modulus can be asked for with. -/
def leastModulusBits : Nat := 10

/-- A refusal of parameters. -/
inductive ParameterError where
  /-- The degree is not a power of two from 8 on. -/
  | degree (value : Nat)
  /-- The size of a modulus is not between 10 and 60 bits. -/
  | modulusSize (bits : Nat)
  /-- There is no further prime of this size for the degree. -/
  | tooFewPrimes (bits degree : Nat)
  /-- Both the moduli and their sizes are given. -/
  | tooManySpecified
  /-- Neither the moduli nor their sizes are given. -/
  | tooFewSpecified
  /-- The number of bits of a digit is not between 1 and 60. -/
  | digitBits (bits : Nat)
  /-- The standard deviation of the noise is refused. -/
  | deviation (reason : Ring.Error)

namespace ParameterError

def message : ParameterError → String
  | .degree value => s!"Invalid degree: {value} is not a power of 2 larger than 8"
  | .modulusSize bits =>
      s!"Invalid modulus size: {bits}, expected an integer between {leastModulusBits} " ++
        s!"and {coveredBits}"
  | .tooFewPrimes bits size =>
      s!"Not enough primes of size {bits} for polynomials of degree {size}"
  | .tooManySpecified =>
      "Only one of `ciphertext_moduli` and `ciphertext_moduli_sizes` can be specified"
  | .tooFewSpecified =>
      "One of `ciphertext_moduli` and `ciphertext_moduli_sizes` must be specified"
  | .digitBits bits =>
      s!"Invalid bit decomposition: {bits}, expected an integer between 1 and {coveredBits}"
  | .deviation reason => "Invalid standard deviation: " ++ reason.message

end ParameterError

/-- A refusal of the protocol layer. -/
inductive Error where
  | ring (reason : Ring.Error)
  /-- The sampler could not give an element. -/
  | sampling (reason : Ring.Error)
  /-- A share, a matrix or a key does not have the shape of the engine. -/
  | shape (expected found : Shape)
  /-- Fewer values are given than needed. -/
  | tooFewValues (given needed : Nat)
  | parameters (reason : ParameterError)

namespace Error

def message : Error → String
  | .ring reason => reason.message
  | .sampling reason => "Sampling error: " ++ reason.message
  | .shape expected found =>
      "Invalid share shape: expected " ++ expected.text ++ ", found " ++ found.text
  | .tooFewValues given needed =>
      s!"Too few values provided: {given} is below limit {needed}"
  | .parameters reason => reason.message

end Error

/-- Results of the protocol layer. -/
abbrev Outcome (α : Type) : Type := Fallible Error α

end Protocol
end RelinCeremony
