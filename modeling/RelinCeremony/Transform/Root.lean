import RelinCeremony.Modulus.Basic
import RelinCeremony.Prime.Basic
import RelinCeremony.Random.Generator

namespace RelinCeremony
namespace Transform

/-!
# Roots of unity

The negacyclic transform of size `n` modulo `p` needs a root of unity of order
`2n`.  One is found by raising random residues to the power `(p - 1) / 2n`; the
residues come from a generator with a fixed seed, so the root found depends on
`p` and `n` only.
-/

/-- Whether `p` is a prime with a negacyclic transform of size `size`: it has to
be 1 modulo `2 * size`.  The size has to be a power of two from 8 on. -/
def isSupported (p size : Nat) : Checked Bool := do
  require (8 ≤ size ∧ Word.isPowerOfTwo size) .unsupportedSize
  let rest ← Word.checkedMod p (Word.low (2 * size))
  return rest == 1 && Prime.isPrime p

/-- Whether `root` has the given order, a power of two from 2 on. -/
def hasOrder (m : Modulus) (root order : Nat) : Bool :=
  m.pow root order == 1 && m.pow root (order / 2) != 1

/-- Draws residues until a power of one has order `2 * size`, at most the given
number of times. -/
def drawRoot (m : Modulus) (size : Nat) : (draws : Nat) → Random.Draw (Option Nat)
  | 0 => return none
  | draws + 1 => do
      match ← Random.Draw.belowShifted? m.value with
      | none => return none
      | some candidate =>
          let root := m.pow candidate ((m.value - 1) / (2 * size))
          if hasOrder m root (2 * size) then return some root
          else drawRoot m size draws

def rootGenerator : Random.Generator := .chacha8 (.ofWord 0)

/-- A root of unity of order `2 * size`, if one is found in 100 draws. -/
def findRoot (m : Modulus) (size : Nat) : Checked (Option Nat) := do
  let (root?, _) ← (drawRoot m size 100).run rootGenerator
  return root?

end Transform
end RelinCeremony
