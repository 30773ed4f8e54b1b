import RelinCeremony.Binary64.Basic
import RelinCeremony.Random.Generator
import RelinCeremony.Random.ZigguratTable

namespace RelinCeremony
namespace Random

/-!
# Normal numbers

Standard normal numbers by the ziggurat: a layer and a point of its rectangle
are drawn; a point inside the next layer is taken at once, one in the wedge by
comparison with the density, and one beyond the lowest layer is replaced by a
draw from the tail.

The discrete numbers are normal numbers rounded to integers and drawn again
until they lie within a bound.  Rounding and comparison are exact.
-/

namespace Draw

/-- A float in `[0, 1)`: the high 53 bits of a word. -/
def unit : Draw Float := do
  return ((← word) >>> 11).toFloat * Float.ofBits 0x3ca0000000000000

/-- A float in the open unit interval, from the high 52 bits of a word. -/
def openUnit : Draw Float := do
  return Float.ofBits (((← word) >>> 12) + 0x3ff0000000000000) - Float.ofBits 0x3fefffffffffffff

def tailStart : Float := edge 1

/-- One attempt at a number beyond `tailStart`, given as its distance. -/
def attemptTail : Draw (Option Float) := do
  let s ← openUnit
  let t ← openUnit
  let x := s.log / tailStart
  let y := t.log
  return if -2.0 * y < x * x then none else some x

def tail (negative : Bool) : Draw Float := do
  let x ← untilAccepted attemptTail
  return if negative then x - tailStart else tailStart - x

/-- One attempt at a standard normal number. -/
def attemptStandard : Draw (Option Float) := do
  let word ← word
  let layer := (word % 256).toNat
  let u := Float.ofBits ((word >>> 12) + 0x4000000000000000) - 3.0
  let x := u * edge layer
  if x.abs < edge (layer + 1) then
    return some x
  else if layer = 0 then
    return some (← tail (u < 0.0))
  else
    let height := density (layer + 1) + (density layer - density (layer + 1)) * (← unit)
    return if height < (-x * x / 2.0).exp then some x else none

def standard : Draw Float := untilAccepted attemptStandard

/-- A normal number of the given mean and standard deviation. -/
def normal (mean deviation : Float) : Draw Float := do
  return mean + deviation * (← standard)

end Draw

/-- The integer that a normal number is taken for: the nearest one, if it is
within the bound as a floating-point comparison sees it.  An infinity and what
is no number are taken for none. -/
def acceptWithin (bound : Int) (x : Binary64) : Option Int :=
  match x.round? with
  | some n =>
      if (n.natAbs : Int) ≤ Binary64.nearestInt bound then some (Binary64.clamp n) else none
  | none => none

namespace Draw

/-- A discrete normal number within a bound. -/
def boundedNormal (mean deviation : Float) (bound : Int) : Draw Int :=
  untilAccepted do return acceptWithin bound (.ofFloat (← normal mean deviation))

end Draw
end Random
end RelinCeremony
