import RelinCeremony.Modulus.Shoup
import RelinCeremony.Transform.BitReversal
import RelinCeremony.Transform.Root

namespace RelinCeremony
namespace Transform

/-!
# Plans of transforms

A plan holds what the negacyclic transform of one size modulo one prime
needs: the powers of a root of unity of order `2n` in bit-reversed order, the
powers of its inverse likewise, and the inverse of the size.  The application of
a plan is the matter of `Transform.Apply`.
-/

/-- The tables of the transform of one size modulo one prime. -/
structure Plan where
  modulus : Modulus
  size : Nat
  /-- The binary logarithm of the size. -/
  depth : Nat
  /-- Entry `i` is the power of the root with the reversal of `i` as exponent. -/
  rootPowers : Array Multiplier
  /-- Entry `i` is the power of the inverse root with exponent one more than the
  reversal of `i`. -/
  inversePowers : Array Multiplier
  sizeInverse : Multiplier
deriving DecidableEq

/-- The first `count` terms of the geometric sequence from `start` on. -/
def geometric (m : Modulus) (ratio : Nat) : (count start : Nat) → List Nat
  | 0, _ => []
  | count + 1, start => start :: geometric m ratio count (m.mul start ratio)

def entry {α : Type} (table : Array α) (i : Nat) : Checked α :=
  match table[i]? with
  | some value => .ok value
  | none => .error .missingEntry

/-- The terms of a table of `2 ^ depth` residues in bit-reversed order, as
multipliers. -/
def reversedMultipliers (m : Modulus) (depth : Nat) (terms : List Nat) :
    Checked (Array Multiplier) := do
  let table := terms.toArray
  let multipliers ← (List.range (2 ^ depth)).mapM fun i => do
    Multiplier.ofResidue m (← entry table (bitReverse depth i))
  return multipliers.toArray

namespace Plan

/-- The plan made of a root of unity, its inverse and the inverse of the
size. -/
def ofRoot (m : Modulus) (size root inverseRoot sizeInverse : Nat) : Checked Plan := do
  let depth := size.log2
  return {
    modulus := m
    size := size
    depth := depth
    rootPowers := ← reversedMultipliers m depth (geometric m root size 1)
    inversePowers :=
      ← reversedMultipliers m depth (geometric m inverseRoot size inverseRoot)
    sizeInverse := ← Multiplier.ofResidue m sizeInverse }

/-- The plan of a size modulo a prime.  There is none if the modulus does
not support the size or no root is found. -/
def build (m : Modulus) (size : Nat) : Checked (Option Plan) := do
  if !(← isSupported m.value size) then
    return none
  match m.inverse? size with
  | none => return none
  | some sizeInverse =>
    match ← findRoot m size with
    | none => return none
    | some root =>
      match m.inverse? root with
      | none => return none
      | some inverseRoot =>
        return some (← ofRoot m size root inverseRoot sizeInverse)

end Plan
end Transform
end RelinCeremony
