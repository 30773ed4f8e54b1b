import RelinCeremony.Prime.Search
import RelinCeremony.Protocol.Error
import RelinCeremony.Ring.Sampler

namespace RelinCeremony
namespace Protocol

/-!
# Parameters

The parameters that all parties of a key generation share: the ring, the noise
and the number of bits of a decomposition digit.  They are built from a
`Request`, which names either the moduli or the sizes of moduli to be searched.
-/

/-- The number of levels of a decomposition into digits of the given number of
bits: enough to cover 60 bits. -/
def levelCount (digitBits : Nat) : Checked Nat := do
  require (0 < digitBits) .zeroDigitSize
  return (coveredBits + digitBits - 1) / digitBits

/-- What parameters are asked for. -/
structure Request where
  degree : Nat := 0
  deviation : Float := Ring.NormalSampler.defaultDeviation
  digitBits : Nat := coveredBits
  moduli : List Nat := []
  modulusSizes : List Nat := []

/-- Parameters. -/
structure Parameters where
  ring : Ring.NegacyclicRing
  /-- The bit lengths of the moduli. -/
  modulusSizes : List Nat
  digitBits : Nat
  /-- The sampler of secrets and noise. -/
  sampler : Ring.NormalSampler

namespace Parameters

/-! ## Search for moduli -/

/-- The largest prime of the given size below `upper` that is 1 modulo `step`
and not among those chosen already.  Each chosen prime that is met lowers the
bound, so one more attempt than there are chosen primes is enough. -/
def unusedPrime (bits step : Nat) (chosen : List Nat) :
    (attempts upper : Nat) → Checked (Option Nat)
  | 0, _ => return none
  | attempts + 1, upper => do
      match ← Prime.largestBelow bits step upper with
      | none => return none
      | some prime =>
          if chosen.contains prime then unusedPrime bits step chosen attempts prime
          else return some prime

/-- Chooses a prime for each size in turn, after those chosen already. -/
def chooseModuli (degree : Nat) : (sizes chosen : List Nat) → Outcome (List Nat)
  | [], chosen => return chosen
  | bits :: sizes, chosen => do
      if coveredBits < bits || bits < leastModulusBits then
        Fallible.refuse (.parameters (.modulusSize bits))
      else
        let step ← (Word.checkedMul 2 degree : Checked Nat)
        match ← (unusedPrime bits step chosen (chosen.length + 1) (2 ^ bits) : Checked _) with
        | none => Fallible.refuse (.parameters (.tooFewPrimes bits degree))
        | some prime => chooseModuli degree sizes (chosen ++ [prime])

/-! ## Construction -/

/-- Refuses sizes above 60 bits: the first such size is named. -/
def checkSizes (sizes : List Nat) : Outcome Unit :=
  match sizes.find? fun bits => coveredBits < bits with
  | some bits => Fallible.refuse (.parameters (.modulusSize bits))
  | none => return ()

/-- Checks a request and builds its parameters.  The degree is checked first,
then the digits, the noise, and the moduli. -/
def build (request : Request) : Outcome Parameters := do
  if request.degree < 8 || !Word.isPowerOfTwo request.degree then
    Fallible.refuse (.parameters (.degree request.degree))
  else if request.digitBits == 0 || coveredBits < request.digitBits then
    Fallible.refuse (.parameters (.digitBits request.digitBits))
  else
    match Ring.NormalSampler.build request.deviation with
    | .error reason => Fallible.refuse (.parameters (.deviation reason))
    | .ok sampler =>
      if !request.moduli.isEmpty && !request.modulusSizes.isEmpty then
        Fallible.refuse (.parameters .tooManySpecified)
      else if request.moduli.isEmpty && request.modulusSizes.isEmpty then
        Fallible.refuse (.parameters .tooFewSpecified)
      else
        let moduli ←
          if request.modulusSizes.isEmpty then pure request.moduli
          else chooseModuli request.degree request.modulusSizes []
        let sizes := moduli.map Word.bitLength
        checkSizes sizes
        let ring ← Fallible.mapError Error.ring (Ring.NegacyclicRing.build moduli request.degree)
        return ⟨ring, sizes, request.digitBits, sampler⟩

/-- Parameters with moduli of 55 bits and everything else as usual.  An
unsupported degree and any refusal are faults here. -/
def standard (moduliCount degree : Nat) : Checked Parameters := do
  if !Word.isPowerOfTwo degree || degree < 8 then
    .error .unsupportedDegree
  else
    match build { degree := degree, modulusSizes := List.replicate moduliCount 55 } with
    | .ok parameters => return parameters
    | .error (.fault fault) => .error fault
    | .error (.error reason) => .error (.rejectedDefaults reason.message)

/-! ## Reading -/

def degree (par : Parameters) : Nat := par.ring.degree

def moduli (par : Parameters) : List Nat := par.ring.moduli

def levels (par : Parameters) : Checked Nat := levelCount par.digitBits

def shape (par : Parameters) : Checked Shape := do
  return ⟨par.moduli.length, ← par.levels⟩

end Parameters
end Protocol
end RelinCeremony
