import RelinCeremony.Modulus.Basic

namespace RelinCeremony

/-!
# Multiplication by a fixed factor

A factor that is used often is kept with its Shoup quotient
`⌊factor * 2^64 / p⌋`.  The quotient gives, by one word product, the quotient of
`a * factor` by `p` up to one unit, and the rest of the product is done modulo
`2^64`.

The quotient that a caller hands to the multiplications is not compared with
the right one: with another quotient the lazy product is some other word.
-/

namespace Modulus

def shoupQuotient (m : Modulus) (a : Nat) : Checked UInt64 := do
  require (a < m.value) .operandOutOfRange
  return .ofNat (a * 2 ^ 64 / m.value)

/-- Lazy product of a word by a factor with its quotient.  With the right
quotient the result is congruent to the product and below twice the modulus. -/
@[inline] def lazyShoupMul (m : Modulus) (a factor : Nat) (quotient : UInt64) : Checked Nat := do
  require (factor < m.value) .operandOutOfRange
  let estimate := Word.highProduct (.ofNat a) quotient
  return (.ofNat a * .ofNat factor - estimate * m.word : UInt64).toNat

/-- Product of a word by a factor with its quotient, reduced. -/
@[inline] def shoupMul (m : Modulus) (a factor : Nat) (quotient : UInt64) : Checked Nat := do
  reduceOnce m.value (← m.lazyShoupMul a factor quotient)

end Modulus

/-- A fixed factor with its Shoup quotient. -/
structure Multiplier where
  factor : Nat
  quotient : UInt64
deriving DecidableEq

namespace Multiplier

def ofResidue (m : Modulus) (a : Nat) : Checked Multiplier := do
  return { factor := a, quotient := ← m.shoupQuotient a }

@[inline] def apply (multiplier : Multiplier) (m : Modulus) (a : Nat) : Checked Nat :=
  m.shoupMul a multiplier.factor multiplier.quotient

end Multiplier
end RelinCeremony
