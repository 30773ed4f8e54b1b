import RelinCeremony.Grid.Basic
import RelinCeremony.Protocol.Parameters

namespace RelinCeremony
namespace Protocol

/-!
# Engines

An engine is one party's view of a key generation: the ring, the noise and the
number of bits `b` of a digit, which fixes the number of levels.  Shares, matrices
and keys are grids of the shape of the engine.

The rounds are in `Protocol.Rounds`, the sums of shares in `Protocol.Aggregation`
and the key in `Protocol.Key`.
-/

/-- A party's share of the first round: one element for each slot. -/
abbrev RoundOneShare : Type := Grid Ring.Element

/-- A party's share of the second round: two elements for each slot. -/
abbrev RoundTwoShare : Type := Grid (Ring.Element × Ring.Element)

/-- A party's share of the third round: one element for each slot. -/
abbrev RoundThreeShare : Type := Grid Ring.Element

/-- A relinearization key: two elements for each slot, transformed and in
Montgomery form. -/
abbrev RelinearizationKey : Type := Grid (Ring.Element × Ring.Element)

/-! ## The common matrix

All parties work with the same matrix of random ring elements, one for each modulus
index and each level.  It is drawn slot by slot from a generator, or from a seed that
the parties share. -/

/-- A matrix of ring elements. -/
abbrev CommonMatrix : Type := Grid Ring.Element

namespace CommonMatrix

def random (par : Parameters) : Random.Draw CommonMatrix := do
  let shape ← (par.shape : Checked _)
  Grid.tabulate shape fun _ _ => par.ring.random

def ofSeed (par : Parameters) (seed : Random.Seed) : Checked CommonMatrix := do
  return (← (random par).run (.chacha8 seed)).1

end CommonMatrix

/-! ## Engines -/

/-- One party's engine. -/
structure Engine where
  ring : Ring.NegacyclicRing
  source : Ring.NoiseSource
  digitBits : Nat
  levels : Nat

namespace Engine

/-- The engine of a ring, a noise source and a number of bits of a digit, which
must not be zero. -/
def build (ring : Ring.NegacyclicRing) (source : Ring.NoiseSource) (digitBits : Nat) :
    Checked Engine := do
  return ⟨ring, source, digitBits, ← levelCount digitBits⟩

def ofParameters (par : Parameters) : Checked Engine :=
  build par.ring par.sampler.source par.digitBits

/-- The shape of every share, matrix and key of the engine. -/
def shape (e : Engine) : Shape := ⟨e.ring.channels.length, e.levels⟩

/-- Refuses a grid of another shape. -/
def requireShape {α : Type} (e : Engine) (grid : Grid α) : Outcome Unit :=
  if grid.shape = e.shape then return ()
  else Fallible.refuse (.shape e.shape grid.shape)

/-! ### Zero grids -/

def zeroGrid (e : Engine) : Checked (Grid Ring.Element) :=
  Grid.ofFn e.shape fun _ _ => return e.ring.zero

def zeroPairGrid (e : Engine) : Checked (Grid (Ring.Element × Ring.Element)) :=
  Grid.ofFn e.shape fun _ _ => return (e.ring.zero, e.ring.zero)

def zeroShares (e : Engine) : Checked (RoundOneShare × RoundTwoShare × RoundThreeShare) := do
  return (← e.zeroGrid, ← e.zeroPairGrid, ← e.zeroGrid)

def zeroKey (e : Engine) : Checked RelinearizationKey := e.zeroPairGrid

/-! ### Randomness -/

/-- Samples an ephemeral key, non-zero with probability `p`, transformed and in
Montgomery form. -/
def ephemeralKey (e : Engine) (p : Float) (g : Random.Generator) :
    Outcome (Ring.Element × Random.Generator) :=
  Fallible.mapError Error.sampling (e.source.ternary e.ring p g)

/-- One seed for each slot, drawn in the order of the slots. -/
def drawSeeds (e : Engine) : Random.Draw (List Random.Seed) := do
  let size ← (e.shape.size : Checked _)
  Random.Draw.times Random.Draw.seed size

end Engine
end Protocol
end RelinCeremony
