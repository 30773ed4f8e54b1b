import RelinCeremony.DoubleWord
import RelinCeremony.Modulus.Basic

namespace RelinCeremony
namespace Modulus

/-!
# Montgomery arithmetic

With the radix `R = 2^64`, the Montgomery form of a residue `a` is `a * R`
modulo the modulus.  The reduction divides by `R`, so the Montgomery product of
a residue in Montgomery form and a plain one is their plain product.
-/

/-- Montgomery reduction: the residue `r` with `r * R = x`, for `x` below
`R` times the modulus.  The multiple of the modulus that is added clears the low
word of the sum, and the high word is the quotient by `R`. -/
@[inline] def montgomeryReduce (m : Modulus) (x : DoubleWord) : Checked Nat := do
  require (x.high.toNat < m.value) .operandOutOfRange
  let total ← x.checkedAdd (.ofProduct (x.low * m.negInverse) m.word)
  reduceOnce m.value total.high.toNat

/-- Montgomery product of two residues: `a * b / R`. -/
def montgomeryMul (m : Modulus) (a b : Nat) : Checked Nat := do
  require (a < m.value ∧ b < m.value) .operandOutOfRange
  m.montgomeryReduce (.ofProduct (.ofNat a) (.ofNat b))

def toMontgomery (m : Modulus) (a : Nat) : Checked Nat :=
  m.montgomeryMul a m.radixSquared

/-- The residue that a word in Montgomery form stands for. -/
def ofMontgomery (m : Modulus) (a : Nat) : Checked Nat :=
  m.montgomeryReduce (.ofWord (.ofNat a))

/-- Digit shift: `x * 2^bits / R` for a residue `x` and fewer than 64 bits.
It takes the Montgomery form of `s` to the plain residue `s * 2^bits`. -/
def shiftDigits (m : Modulus) (x bits : Nat) : Checked Nat := do
  require (bits < 64) .operandOutOfRange
  require (x < m.value) .operandOutOfRange
  m.montgomeryReduce (.ofProduct (.ofNat x) (1 <<< UInt64.ofNat bits))

end Modulus
end RelinCeremony
