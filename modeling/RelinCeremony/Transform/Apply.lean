import RelinCeremony.Transform.Plan

namespace RelinCeremony
namespace Transform

/-!
# The negacyclic transform

The forward transform splits a block in two halves, combines them by butterflies
with one power of the root, and goes on with either half.  The blocks form a
binary tree, and block `k` of the tree, counted from 1 by levels, uses entry `k`
of the table.  The backward transform undoes the tree from the leaves to the
root and divides by the size.

The values of the forward transform stand in bit-reversed order.
-/

/-- Applies a butterfly to the pairs of entries of two halves. -/
@[specialize] def butterflies (step : Nat → Nat → Checked (Nat × Nat)) :
    List Nat → List Nat → Checked (List Nat × List Nat)
  | x :: xs, y :: ys => do
      let (x', y') ← step x y
      let (xs', ys') ← butterflies step xs ys
      return (x' :: xs', y' :: ys')
  | _, _ => return ([], [])

namespace Plan

/-- The forward butterfly: `(x + w * y, x - w * y)`. -/
@[inline] def splitStep (plan : Plan) (w : Multiplier) (x y : Nat) : Checked (Nat × Nat) := do
  require (x < plan.modulus.value ∧ y < plan.modulus.value) .operandOutOfRange
  let t ← w.apply plan.modulus y
  return (← plan.modulus.add x t, ← plan.modulus.sub x t)

/-- The backward butterfly: `(x + y, z * (x - y))`. -/
@[inline] def mergeStep (plan : Plan) (z : Multiplier) (x y : Nat) : Checked (Nat × Nat) := do
  require (x < plan.modulus.value ∧ y < plan.modulus.value) .operandOutOfRange
  return (← plan.modulus.add x y, ← z.apply plan.modulus (← plan.modulus.sub x y))

/-- The forward transform of block `k` of the tree, of `2 ^ depth` entries. -/
def forwardBlock (plan : Plan) : (depth k : Nat) → List Nat → Checked (List Nat)
  | 0, _, xs => return xs
  | depth + 1, k, xs => do
      let w ← entry plan.rootPowers k
      let (left, right) ←
        butterflies (plan.splitStep w) (xs.take (2 ^ depth)) (xs.drop (2 ^ depth))
      return (← forwardBlock plan depth (2 * k) left) ++
        (← forwardBlock plan depth (2 * k + 1) right)

/-- The backward transform of block `i` among the `blocks` blocks of a level, of
`2 ^ depth` entries.  The levels follow one another in the table from the leaves
upwards. -/
def backwardBlock (plan : Plan) : (depth blocks i : Nat) → List Nat → Checked (List Nat)
  | 0, _, _, xs => return xs
  | depth + 1, blocks, i, xs => do
      let left ← backwardBlock plan depth (2 * blocks) (2 * i) (xs.take (2 ^ depth))
      let right ← backwardBlock plan depth (2 * blocks) (2 * i + 1) (xs.drop (2 ^ depth))
      let z ← entry plan.inversePowers (plan.size - 2 * blocks + i)
      let (left, right) ← butterflies (plan.mergeStep z) left right
      return left ++ right

def forward (plan : Plan) (xs : List Nat) : Checked (List Nat) := do
  require (xs.length = plan.size) .sizeMismatch
  plan.forwardBlock plan.depth 1 xs

def backward (plan : Plan) (xs : List Nat) : Checked (List Nat) := do
  require (xs.length = plan.size) .sizeMismatch
  let merged ← plan.backwardBlock plan.depth 1 0 xs
  merged.mapM (plan.sizeInverse.apply plan.modulus)

end Plan
end Transform
end RelinCeremony
