import RelinCeremony.Fault

namespace RelinCeremony
namespace Random

/-!
# Sample variance

The sums run from the first value to the last, in floating-point arithmetic, so
that the result is the same to the last bit wherever it is computed.
-/

def sum (values : List Float) : Float := values.foldl (· + ·) 0.0

/-- The sample variance of at least two numbers. -/
def variance (values : List Float) : Checked Float := do
  require (1 < values.length) .sizeMismatch
  let count := Float.ofNat values.length
  let mean := sum values / count
  return sum (values.map fun v => (v - mean) * (v - mean)) / (count - 1.0)

end Random
end RelinCeremony
