import RelinCeremony.Lockstep
import RelinCeremony.Ring.NegacyclicRing

namespace RelinCeremony
namespace Ring
namespace NegacyclicRing

/-!
# Integers and residues

Elements are made from integer coefficients by reduction in every channel, and
the coefficients modulo `Q` come back by the idempotents of the channels.
-/

/-- Writes the residues of integer coefficients over an element, in lockstep. -/
def writeInts (ring : NegacyclicRing) (coefficients : List Int) (out : Element) :
    Checked Element := do
  let rows ← Lockstep.update
    (fun row (channel : Channel) =>
      Lockstep.update (fun _ x => .ok (channel.modulus.reduceInt x)) row coefficients)
    out.rows ring.channels
  return ⟨rows⟩

/-- The element with the given signed coefficients. -/
def ofInts (ring : NegacyclicRing) (coefficients : List Int) : RingResult Element := do
  if coefficients.length = ring.degree then
    ring.writeInts coefficients ring.zero
  else
    Fallible.refuse .foreignCoefficients

def ofNats (ring : NegacyclicRing) (coefficients : List Nat) : RingResult Element := do
  if coefficients.length = ring.degree then
    return ⟨ring.moduli.map fun q => coefficients.map fun x => x % q⟩
  else
    Fallible.refuse .foreignCoefficients

/-- The coefficient in column `j`, from 0 to `Q - 1`. -/
def coefficient (ring : NegacyclicRing) (rows : List (List Nat)) (j : Nat) :
    Checked Nat := do
  let terms ← (ring.channels.zip rows).mapM fun (channel, row) => do
    return channel.idempotent * (← Lockstep.read row j)
  return terms.foldr (· + ·) 0 % ring.modulus

def toNats (ring : NegacyclicRing) (a : Element) : Checked (List Nat) := do
  require (a.rowCount = ring.channels.length) .sizeMismatch
  (List.range ring.degree).mapM (ring.coefficient a.rows)

/-- A uniformly random element, row by row. -/
def random (ring : NegacyclicRing) : Random.Draw Element := do
  let rows ← ring.channels.mapM fun channel =>
    Random.uniformVector ring.degree channel.modulus.value
  return ⟨rows⟩

def randomOfSeed (ring : NegacyclicRing) (seed : Random.Seed) : Checked Element := do
  return (← ring.random.run (.chacha8 seed)).1

end NegacyclicRing
end Ring
end RelinCeremony
