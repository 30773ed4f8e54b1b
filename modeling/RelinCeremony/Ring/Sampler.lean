import RelinCeremony.Ring.Arithmetic
import RelinCeremony.Ring.Residues

namespace RelinCeremony
namespace Ring

/-!
# Sampling of secrets and noise

A noise source samples ternary elements for secrets and writes noise over
elements.  Both come in the form that the rounds work with: ternary elements
transformed and in Montgomery form, noise transformed.  `keyOf` and `transformOf`
make elements of these forms from given integers.

`NormalSampler` is the source with truncated discrete normal noise,
`BoundedNoise` one with noise that is uniform modulo a number, for tests.
-/

/-! ## Elements of integers -/

namespace NegacyclicRing

/-- The transformed element with the given coefficients. -/
def transformOf (ring : NegacyclicRing) (coefficients : List Int) : RingResult Element := do
  let a ← ring.ofInts coefficients
  (ring.forward a : Checked _)

/-- The key with the given coefficients. -/
def keyOf (ring : NegacyclicRing) (coefficients : List Int) : RingResult Element := do
  let a ← ring.transformOf coefficients
  (ring.toMontgomery a : Checked _)

end NegacyclicRing

/-! ## Sources -/

/-- A source of secrets and noise for rings. -/
structure NoiseSource where
  /-- Samples a ternary element, non-zero with the given probability.  The
  generator is left alone by a refusal. -/
  ternary :
    NegacyclicRing → Float → Random.Generator → RingResult (Element × Random.Generator)
  /-- Writes fresh noise over an element. -/
  noise : NegacyclicRing → Element → Random.Draw Element

/-- A ternary element, transformed and in Montgomery form. -/
def sampleTernary (ring : NegacyclicRing) (p : Float) (g : Random.Generator) :
    RingResult (Element × Random.Generator) := do
  match Random.ternaryVector ring.degree p with
  | .error reason => Fallible.refuse (.probability p reason)
  | .ok draw =>
    let (coefficients, g) ← (draw.run g : Checked _)
    let a ← ring.ofInts coefficients
    return (← (do ring.toMontgomery (← ring.forward a) : Checked _), g)

/-! ## Truncated normal noise -/

/-- Discrete normal noise of a standard deviation within a bound. -/
structure NormalSampler where
  deviation : Float
  bound : Int

namespace NormalSampler

def defaultDeviation : Float := 3.19

/-- The bound in use if none is given: six standard deviations, rounded down. -/
def defaultBound (deviation : Float) : Int :=
  (Binary64.ofFloat (6.0 * deviation)).floorClamped

/-- The sampler of a standard deviation and a bound. -/
def withBound (deviation : Float) (bound : Int) : Except Error NormalSampler :=
  if !(Binary64.ofFloat deviation).isPositive then .error (.deviation deviation)
  else if bound < 1 then .error (.bound bound)
  else .ok ⟨deviation, bound⟩

def build (deviation : Float) : Except Error NormalSampler :=
  withBound deviation (defaultBound deviation)

def standard : NormalSampler := ⟨defaultDeviation, defaultBound defaultDeviation⟩

/-- Writes the residues of freshly drawn integers over an element and transforms
it. -/
def noise (s : NormalSampler) (ring : NegacyclicRing) (out : Element) : Random.Draw Element := do
  let coefficients ←
    Random.Draw.times (Random.Draw.boundedNormal 0.0 s.deviation s.bound) ring.degree
  ring.forward (← ring.writeInts coefficients out)

def source (s : NormalSampler) : NoiseSource := ⟨sampleTernary, s.noise⟩

end NormalSampler

/-! ## Bounded noise -/

/-- Noise that is uniform modulo `2 * bound + 1`. -/
structure BoundedNoise where
  bound : Nat
deriving DecidableEq

namespace BoundedNoise

/-- One coefficient between `-bound` and `bound`, from one word. -/
def coefficient (s : BoundedNoise) : Random.Draw Int := do
  let word ← Random.Draw.word64
  return (word % (2 * s.bound + 1) : Nat) - (s.bound : Int)

/-- Replaces an element by fresh noise. -/
def noise (s : BoundedNoise) (ring : NegacyclicRing) (_out : Element) : Random.Draw Element := do
  let coefficients ← Random.Draw.times s.coefficient ring.degree
  ring.forward (← ring.writeInts coefficients ring.zero)

def source (s : BoundedNoise) : NoiseSource := ⟨sampleTernary, s.noise⟩

end BoundedNoise
end Ring
end RelinCeremony
