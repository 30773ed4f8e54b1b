import Mathlib.Algebra.BigOperators.Group.List.Basic
import Mathlib.Data.List.Zip
import Mathlib.Tactic.LinearCombination
import Mathlib.Tactic.Ring
import RelinCeremony.Power

namespace RelinCeremony
namespace Transform

/-!
# The transform over a commutative ring

The tree of butterflies as a function on lists over a commutative ring, with the
powers of the root given by block.  Two facts are proved of it: the forward tree
evaluates a polynomial at the leaves, and the backward tree undoes the forward
one up to the factor `2 ^ depth`, from either side.

That the program walks this tree on residues is the matter of `Proofs.Transform.Apply`.
-/

variable {K : Type} [CommRing K]

/-- The forward tree below block `k`, of `2 ^ depth` entries. -/
def forwardTree (w : Nat → K) : (depth k : Nat) → List K → List K
  | 0, _, xs => xs
  | depth + 1, k, xs =>
      let left := xs.take (2 ^ depth)
      let right := xs.drop (2 ^ depth)
      forwardTree w depth (2 * k) (List.zipWith (fun x y => x + w k * y) left right) ++
        forwardTree w depth (2 * k + 1) (List.zipWith (fun x y => x - w k * y) left right)

/-- The backward tree below block `k`, of `2 ^ depth` entries. -/
def backwardTree (z : Nat → K) : (depth k : Nat) → List K → List K
  | 0, _, xs => xs
  | depth + 1, k, xs =>
      let left := backwardTree z depth (2 * k) (xs.take (2 ^ depth))
      let right := backwardTree z depth (2 * k + 1) (xs.drop (2 ^ depth))
      List.zipWith (fun x y => x + y) left right ++
        List.zipWith (fun x y => z k * (x - y)) left right

/-! ## Halves -/

omit [CommRing K] in
theorem length_left_half {depth : Nat} {xs : List K} (h : xs.length = 2 ^ (depth + 1)) :
    (xs.take (2 ^ depth)).length = 2 ^ depth := by
  rw [List.length_take, h, Nat.pow_succ]
  omega

omit [CommRing K] in
theorem length_right_half {depth : Nat} {xs : List K} (h : xs.length = 2 ^ (depth + 1)) :
    (xs.drop (2 ^ depth)).length = 2 ^ depth := by
  rw [List.length_drop, h, Nat.pow_succ]
  omega

theorem length_forwardTree (w : Nat → K) {depth k : Nat} {xs : List K}
    (h : xs.length = 2 ^ depth) : (forwardTree w depth k xs).length = 2 ^ depth := by
  induction depth generalizing k xs with
  | zero => exact h
  | succ depth ih =>
      have hleft := length_left_half h
      have hright := length_right_half h
      rw [forwardTree, List.length_append, ih (by simp [hleft, hright]),
        ih (by simp [hleft, hright]), Nat.pow_succ]
      omega

theorem length_backwardTree (z : Nat → K) {depth k : Nat} {xs : List K}
    (h : xs.length = 2 ^ depth) : (backwardTree z depth k xs).length = 2 ^ depth := by
  induction depth generalizing k xs with
  | zero => exact h
  | succ depth ih =>
      have hleft := ih (k := 2 * k) (length_left_half h)
      have hright := ih (k := 2 * k + 1) (length_right_half h)
      rw [backwardTree, List.length_append, List.length_zipWith, List.length_zipWith, hleft, hright,
        Nat.pow_succ]
      omega

theorem zipWith_sub_mul (v : K) (xs ys : List K) :
    List.zipWith (fun x y => x - v * y) xs ys = List.zipWith (fun x y => x + -v * y) xs ys := by
  congr 1
  funext x y
  ring

/-! ## The two trees undo one another -/

/-- Sums and differences of the butterflies give back the halves, doubled. -/
theorem zipWith_butterflies {w z c : K} (hwz : w * z = 1) {xs ys : List K}
    (hlength : xs.length = ys.length) :
    List.zipWith (fun x y => x + y) ((List.zipWith (fun x y => x + w * y) xs ys).map (c * ·))
        ((List.zipWith (fun x y => x - w * y) xs ys).map (c * ·)) = xs.map (c * 2 * ·) ∧
      List.zipWith (fun x y => z * (x - y))
        ((List.zipWith (fun x y => x + w * y) xs ys).map (c * ·))
        ((List.zipWith (fun x y => x - w * y) xs ys).map (c * ·)) = ys.map (c * 2 * ·) := by
  induction xs generalizing ys with
  | nil =>
      obtain rfl : ys = [] := List.length_eq_zero_iff.1 hlength.symm
      exact ⟨rfl, rfl⟩
  | cons x xs ih =>
      cases ys with
      | nil => simp at hlength
      | cons y ys =>
          obtain ⟨hsums, hdifferences⟩ := ih (Nat.succ.inj hlength)
          simp only [List.zipWith_cons_cons, List.map_cons, hsums, hdifferences]
          refine ⟨?_, ?_⟩
          · congr 1
            ring
          · congr 1
            linear_combination c * 2 * y * hwz

/-- The backward tree undoes the forward tree, up to the size of the block. -/
theorem backwardTree_forwardTree {w z : Nat → K} (hwz : ∀ k, w k * z k = 1) {depth k : Nat}
    {xs : List K} (h : xs.length = 2 ^ depth) :
    backwardTree z depth k (forwardTree w depth k xs) = xs.map ((2 : K) ^ depth * ·) := by
  -- The blocks below are undone by induction, so the butterflies meet halves with a factor.
  induction depth generalizing k xs with
  | zero => simp [backwardTree, forwardTree]
  | succ depth ih =>
      have hleft := length_left_half h
      have hright := length_right_half h
      have hsumLength :
          (List.zipWith (fun x y => x + w k * y) (xs.take (2 ^ depth))
            (xs.drop (2 ^ depth))).length = 2 ^ depth := by simp [hleft, hright]
      have hdifferenceLength :
          (List.zipWith (fun x y => x - w k * y) (xs.take (2 ^ depth))
            (xs.drop (2 ^ depth))).length = 2 ^ depth := by simp [hleft, hright]
      have hleftTree := length_forwardTree w (k := 2 * k) hsumLength
      rw [forwardTree, backwardTree, List.take_left' hleftTree, List.drop_left' hleftTree,
        ih hsumLength, ih hdifferenceLength]
      obtain ⟨hsums, hdifferences⟩ := zipWith_butterflies (c := 2 ^ depth) (hwz k)
        (hleft.trans hright.symm)
      rw [hsums, hdifferences, ← List.map_append, List.take_append_drop, pow_succ]

theorem zipWith_map_mul (c v : K) (xs ys : List K) :
    List.zipWith (fun x y => x + v * y) (xs.map (c * ·)) (ys.map (c * ·)) =
      (List.zipWith (fun x y => x + v * y) xs ys).map (c * ·) := by
  rw [List.zipWith_map, List.map_zipWith]
  congr 1
  funext x y
  ring

theorem forwardTree_map_mul (w : Nat → K) (c : K) (depth k : Nat) (xs : List K) :
    forwardTree w depth k (xs.map (c * ·)) = (forwardTree w depth k xs).map (c * ·) := by
  induction depth generalizing k xs with
  | zero => rfl
  | succ depth ih =>
      simp only [forwardTree, ← List.map_take, ← List.map_drop, zipWith_sub_mul, zipWith_map_mul,
        ih, List.map_append]

/-- Butterflies on sums and differences give back the halves, doubled. -/
theorem butterflies_zipWith {w z : K} (hwz : w * z = 1) {xs ys : List K}
    (hlength : xs.length = ys.length) :
    List.zipWith (fun x y => x + w * y) (List.zipWith (fun x y => x + y) xs ys)
        (List.zipWith (fun x y => z * (x - y)) xs ys) = xs.map (2 * ·) ∧
      List.zipWith (fun x y => x - w * y) (List.zipWith (fun x y => x + y) xs ys)
        (List.zipWith (fun x y => z * (x - y)) xs ys) = ys.map (2 * ·) := by
  induction xs generalizing ys with
  | nil =>
      obtain rfl : ys = [] := List.length_eq_zero_iff.1 hlength.symm
      exact ⟨rfl, rfl⟩
  | cons x xs ih =>
      cases ys with
      | nil => simp at hlength
      | cons y ys =>
          obtain ⟨hsums, hdifferences⟩ := ih (Nat.succ.inj hlength)
          simp only [List.zipWith_cons_cons, List.map_cons, hsums, hdifferences]
          refine ⟨?_, ?_⟩
          · congr 1
            linear_combination (x - y) * hwz
          · congr 1
            linear_combination (y - x) * hwz

/-- The forward tree undoes the backward tree, up to the size of the block. -/
theorem forwardTree_backwardTree {w z : Nat → K} (hwz : ∀ k, w k * z k = 1) {depth k : Nat}
    {xs : List K} (h : xs.length = 2 ^ depth) :
    forwardTree w depth k (backwardTree z depth k xs) = xs.map ((2 : K) ^ depth * ·) := by
  -- Here the butterflies are undone first, and the factor passes through the trees below.
  induction depth generalizing k xs with
  | zero => simp [backwardTree, forwardTree]
  | succ depth ih =>
      have hleft := length_left_half h
      have hright := length_right_half h
      have hleftTree := length_backwardTree z (k := 2 * k) hleft
      have hrightTree := length_backwardTree z (k := 2 * k + 1) hright
      have hsumLength : (List.zipWith (fun x y => x + y)
          (backwardTree z depth (2 * k) (xs.take (2 ^ depth)))
          (backwardTree z depth (2 * k + 1) (xs.drop (2 ^ depth)))).length = 2 ^ depth := by
        simp [hleftTree, hrightTree]
      rw [backwardTree, forwardTree, List.take_left' hsumLength, List.drop_left' hsumLength]
      obtain ⟨hsums, hdifferences⟩ := butterflies_zipWith (hwz k) (hleftTree.trans hrightTree.symm)
      rw [hsums, hdifferences, forwardTree_map_mul, forwardTree_map_mul, ih hleft, ih hright,
        ← List.map_append, ← List.map_append, List.take_append_drop, List.map_map]
      congr 1
      funext x
      simp only [Function.comp_apply]
      ring

/-! ## Evaluation -/

/-- The value of the polynomial with the given coefficients, lowest first. -/
def evalAt (z : K) : List K → K
  | [] => 0
  | x :: xs => x + z * evalAt z xs

theorem evalAt_append (z : K) (xs ys : List K) :
    evalAt z (xs ++ ys) = evalAt z xs + z ^ xs.length * evalAt z ys := by
  induction xs with
  | nil => simp [evalAt]
  | cons x xs ih =>
      rw [List.cons_append, evalAt, ih, evalAt, List.length_cons, pow_succ]
      ring

theorem evalAt_zipWith (z v : K) {xs ys : List K} (hlength : xs.length = ys.length) :
    evalAt z (List.zipWith (fun x y => x + v * y) xs ys) = evalAt z xs + v * evalAt z ys := by
  induction xs generalizing ys with
  | nil =>
      obtain rfl : ys = [] := List.length_eq_zero_iff.1 hlength.symm
      simp [evalAt]
  | cons x xs ih =>
      cases ys with
      | nil => simp at hlength
      | cons y ys =>
          rw [List.zipWith_cons_cons, evalAt, ih (by simpa using hlength), evalAt, evalAt]
          ring

/-- The points of the leaves below block `k`; the class of block `k` is the power of
all of them with the size of the block as exponent. -/
def leafPoints (c : Nat → K) : (depth k : Nat) → List K
  | 0, k => [c k]
  | depth + 1, k => leafPoints c depth (2 * k) ++ leafPoints c depth (2 * k + 1)

omit [CommRing K] in
theorem length_leafPoints (c : Nat → K) (depth k : Nat) :
    (leafPoints c depth k).length = 2 ^ depth := by
  induction depth generalizing k with
  | zero => rfl
  | succ depth ih =>
      rw [leafPoints, List.length_append, ih, ih, Nat.pow_succ]
      omega

/-- The powers of the root fit the classes of the blocks below `size`: the class of a
block is the square of its power, and the blocks below have the classes of both
signs of the power. -/
structure FitsTree (w c : Nat → K) (size : Nat) : Prop where
  square : ∀ k, 0 < k → k < size → w k ^ 2 = c k
  left : ∀ k, 0 < k → k < size → c (2 * k) = w k
  right : ∀ k, 0 < k → k < size → c (2 * k + 1) = -w k

theorem below_size {size depth k : Nat} (hk : (k + 1) * 2 ^ (depth + 1) ≤ 2 * size) :
    k < size ∧ (2 * k + 1) * 2 ^ depth ≤ 2 * size ∧ (2 * k + 1 + 1) * 2 ^ depth ≤ 2 * size := by
  have hle : (k + 1) * 2 ^ 1 ≤ (k + 1) * 2 ^ (depth + 1) :=
    Nat.mul_le_mul_left _ (Nat.pow_le_pow_right (by decide) (by omega))
  have hright : (2 * k + 1 + 1) * 2 ^ depth = (k + 1) * 2 ^ (depth + 1) := by ring
  have hleft : (2 * k + 1) * 2 ^ depth ≤ (2 * k + 1 + 1) * 2 ^ depth :=
    Nat.mul_le_mul_right _ (by omega)
  exact ⟨by omega, by omega, by omega⟩

/-- The class of a block is the power of its leaves. -/
theorem pow_leafPoint {w c : Nat → K} {size : Nat} (hfit : FitsTree w c size) {depth k : Nat}
    (hpos : 0 < k) (hk : (k + 1) * 2 ^ depth ≤ 2 * size) {z : K} (hz : z ∈ leafPoints c depth k) :
    z ^ 2 ^ depth = c k := by
  induction depth generalizing k with
  | zero => simpa [leafPoints] using hz
  | succ depth ih =>
      obtain ⟨hsize, hbelow⟩ := below_size hk
      rw [leafPoints, List.mem_append] at hz
      rw [pow_succ, pow_mul, ← hfit.square k hpos hsize]
      -- A leaf on the left has the positive root of the class, one on the right the negative.
      rcases hz with hz | hz
      · rw [ih (by omega) hbelow.1 hz, hfit.left k hpos hsize]
      · rw [ih (by omega) hbelow.2 hz, hfit.right k hpos hsize, neg_sq]

/-- The forward tree evaluates at the leaves. -/
theorem forwardTree_eq_map_evalAt {w c : Nat → K} {size : Nat} (hfit : FitsTree w c size)
    {depth k : Nat} (hpos : 0 < k) (hk : (k + 1) * 2 ^ depth ≤ 2 * size) {xs : List K}
    (h : xs.length = 2 ^ depth) :
    forwardTree w depth k xs = (leafPoints c depth k).map (evalAt · xs) := by
  induction depth generalizing k xs with
  | zero =>
      obtain ⟨x, rfl⟩ := List.length_eq_one_iff.1 h
      simp [forwardTree, leafPoints, evalAt]
  | succ depth ih =>
      have hleft := length_left_half h
      have hright := length_right_half h
      obtain ⟨hsize, hbelow⟩ := below_size hk
      -- A leaf turns the upper half into a multiple of the power of its block.
      have hsplit : ∀ z : K, evalAt z xs =
          evalAt z (xs.take (2 ^ depth)) + z ^ 2 ^ depth * evalAt z (xs.drop (2 ^ depth)) := by
        intro z
        conv_lhs => rw [← List.take_append_drop (2 ^ depth) xs]
        rw [evalAt_append, hleft]
      rw [forwardTree, leafPoints, List.map_append, zipWith_sub_mul,
        ih (by omega) hbelow.1 (by simp [hleft, hright]),
        ih (by omega) hbelow.2 (by simp [hleft, hright])]
      congr 1
      · refine List.map_congr_left fun z hz => ?_
        rw [evalAt_zipWith z _ (hleft.trans hright.symm), hsplit,
          pow_leafPoint hfit (by omega) hbelow.1 hz, hfit.left k hpos hsize]
      · refine List.map_congr_left fun z hz => ?_
        rw [evalAt_zipWith z _ (hleft.trans hright.symm), hsplit,
          pow_leafPoint hfit (by omega) hbelow.2 hz, hfit.right k hpos hsize]

end Transform
end RelinCeremony
