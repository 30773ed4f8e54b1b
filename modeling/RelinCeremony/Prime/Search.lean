import RelinCeremony.Prime.Basic
import RelinCeremony.Word

namespace RelinCeremony
namespace Prime

/-!
# Primes of a given size in a residue class

The primes that are 1 modulo a given number and have a given number of bits are
looked for downwards from a bound, candidate by candidate.
-/

/-- Walks down the residue class of `candidate` modulo `step` to the first
prime above `lower`.  The walk visits at most `candidates` numbers. -/
def firstPrimeDownwards (lower step : Nat) : (candidates candidate : Nat) → Option Nat
  | 0, _ => none
  | candidates + 1, candidate =>
      if candidate ≤ lower then none
      else if isPrime candidate then some candidate
      else if candidate ≤ step then none
      else firstPrimeDownwards lower step candidates (candidate - step)

/-- Whether primes of `bits` bits can be asked for. -/
def isSearchable (bits : Nat) : Bool := 10 ≤ bits && bits ≤ 62

/-- The largest prime of `bits` bits that is 1 modulo `step` and lies below
`upper`.

There is none for sizes outside 10 to 62 bits or a step of zero.  The bound has
to lie above `2^(bits - 1)` and not above `2^bits`, and the step has to be
even. -/
def largestBelow (bits step upper : Nat) : Checked (Option Nat) := do
  if !isSearchable bits || step == 0 then
    return none
  require (upper ≤ 2 ^ bits ∧ 2 ^ (bits - 1) < upper) .operandOutOfRange
  require (step % 2 = 0) .operandOutOfRange
  if upper ≤ step then
    return none
  let highest := (upper - 1) - (upper - 2) % step
  return firstPrimeDownwards (2 ^ (bits - 1)) step highest highest

end Prime
end RelinCeremony
