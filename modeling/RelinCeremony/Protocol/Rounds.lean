import RelinCeremony.Protocol.Engine

namespace RelinCeremony
namespace Protocol
namespace Engine

/-!
# The rounds

Every party holds a share `s` of the secret key and an ephemeral key `u`.  With
the common matrix `a`, the aggregates `h` of the first and `(h0, h1)` of the
second round, and fresh noise `e`, the slot `(i, w)` of a share is

* `-u * a + s * 2^(w * b) + e` in the first round, the secret term in channel `i`
  only,
* `(h * s + e, s * a + e')` in the second round, and
* `(u - s) * h1 + e` in the third round.

A round draws one seed for each slot before it works on any; the noise of a slot
comes from the keystream with 20 rounds of its seed.  Each round writes over an
existing share.  A grid of another shape is refused before anything is drawn.
-/

/-- The generator of the noise of a slot. -/
def slotGenerator (seed : Random.Seed) : Random.Generator := .chacha20 seed

/-! ## Slots -/

/-- A slot of the first round, written over `old`. -/
def roundOneSlot (e : Engine) (u s : Ring.Element) (i w : Nat) (a old : Ring.Element)
    (seed : Random.Seed) : Checked Ring.Element := do
  let (noisy, _) ← (e.source.noise e.ring old).run (slotGenerator seed)
  let shifted ← Word.checkedMul w e.digitBits
  let gadget ← e.ring.addShiftedDigits s (shifted % 2 ^ 32) i noisy
  e.ring.mulMontgomerySub u a gadget

/-- A slot of the second round, written over `old`.  The first noise is written
over the element `scratch`, the second over the second component of `old`. -/
def roundTwoSlot (e : Engine) (s h a scratch : Ring.Element)
    (old : Ring.Element × Ring.Element) (seed : Random.Seed) :
    Checked (Ring.Element × Ring.Element) := do
  let (noise, g) ← (e.source.noise e.ring scratch).run (slotGenerator seed)
  let product ← e.ring.mulMontgomery h s old.1
  let first ← e.ring.addAssign noise product
  let (noisy, _) ← (e.source.noise e.ring old.2).run g
  let second ← e.ring.mulMontgomeryAdd s a noisy
  return (first, second)

/-- A slot of the third round, written over `old`. -/
def roundThreeSlot (e : Engine) (delta : Ring.Element) (h : Ring.Element × Ring.Element)
    (old : Ring.Element) (seed : Random.Seed) : Checked Ring.Element := do
  let (noisy, _) ← (e.source.noise e.ring old).run (slotGenerator seed)
  e.ring.mulMontgomeryAdd delta h.2 noisy

/-! ## Shares -/

/-- A party's share of the first round. -/
def roundOne (e : Engine) (u s : Ring.Element) (a : CommonMatrix) (out : RoundOneShare)
    (g : Random.Generator) : Outcome (RoundOneShare × Random.Generator) := do
  e.requireShape a
  e.requireShape out
  let (seeds, g) ← (e.drawSeeds.run g : Checked _)
  let slots ← ((out.slots.zip (a.slots.zip seeds)).zipIdx.mapM
    fun ((old, aSlot, seed), index) => do
      let (i, w) ← e.shape.coordinates index
      e.roundOneSlot u s i w aSlot old seed : Checked _)
  return (⟨out.shape, slots⟩, g)

def roundTwo (e : Engine) (h : RoundOneShare) (s : Ring.Element) (a : CommonMatrix)
    (out : RoundTwoShare) (g : Random.Generator) :
    Outcome (RoundTwoShare × Random.Generator) := do
  e.requireShape h
  e.requireShape a
  e.requireShape out
  let (seeds, g) ← (e.drawSeeds.run g : Checked _)
  let slots ← ((out.slots.zip (h.slots.zip (a.slots.zip seeds))).mapM
    fun (old, hSlot, aSlot, seed) => e.roundTwoSlot s hSlot aSlot e.ring.zero old seed :
      Checked _)
  return (⟨out.shape, slots⟩, g)

def roundThree (e : Engine) (h : RoundTwoShare) (u s : Ring.Element) (out : RoundThreeShare)
    (g : Random.Generator) : Outcome (RoundThreeShare × Random.Generator) := do
  e.requireShape h
  e.requireShape out
  let (seeds, g) ← (e.drawSeeds.run g : Checked _)
  let delta ← (e.ring.sub u s e.ring.zero : Checked _)
  let slots ← ((out.slots.zip (h.slots.zip seeds)).mapM
    fun (old, hSlot, seed) => e.roundThreeSlot delta hSlot old seed : Checked _)
  return (⟨out.shape, slots⟩, g)

end Engine
end Protocol
end RelinCeremony
