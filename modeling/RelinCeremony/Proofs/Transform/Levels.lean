import RelinCeremony.Proofs.Transform.Tree

namespace RelinCeremony
namespace Transform

/-!
# The tree level by level

A loop over an array finishes a level of the tree before it begins the next one.
A level is a list of blocks, a stage works on the pairs of their halves, and the
halves, changed by the stage, are the blocks of the level below.

The stages of the forward direction end in the forward tree.  A stage of the
backward direction takes a level to the one above, times 2.
-/

variable {K : Type}

/-! ## Pairs of halves -/

/-- The two halves of a block. -/
def halves (half : Nat) (xs : List K) : List K × List K := (xs.take half, xs.drop half)

/-- The blocks that pairs of halves leave below them. -/
def blocksOf (pairs : List (List K × List K)) : List (List K) :=
  pairs.flatMap fun pair => [pair.1, pair.2]

/-- The butterflies of a stage.  Those of the first pair use entry `k` of a table, those
of the next pair entry `k + 1`, and so on. -/
def stage (f g : Nat → K → K → K) : (k : Nat) → List (List K × List K) → List (List K × List K)
  | _, [] => []
  | k, pair :: pairs =>
      (List.zipWith (f k) pair.1 pair.2, List.zipWith (g k) pair.1 pair.2) ::
        stage f g (k + 1) pairs

/-- All blocks have the given length. -/
def AllLength (length : Nat) (blocks : List (List K)) : Prop := ∀ xs ∈ blocks, xs.length = length

/-- All pairs consist of halves of the given length. -/
def AllHalves (half : Nat) (pairs : List (List K × List K)) : Prop :=
  ∀ pair ∈ pairs, pair.1.length = half ∧ pair.2.length = half

theorem blocksOf_cons (pair : List K × List K) (pairs : List (List K × List K)) :
    blocksOf (pair :: pairs) = pair.1 :: pair.2 :: blocksOf pairs := rfl

theorem length_blocksOf (pairs : List (List K × List K)) :
    (blocksOf pairs).length = 2 * pairs.length := by
  induction pairs with
  | nil => rfl
  | cons pair pairs ih =>
      rw [blocksOf_cons, List.length_cons, List.length_cons, ih, List.length_cons]
      ring

theorem AllHalves.blocksOf {half : Nat} {pairs : List (List K × List K)}
    (h : AllHalves half pairs) : AllLength half (blocksOf pairs) := by
  intro xs hxs
  obtain ⟨pair, hpair, hmem⟩ := List.mem_flatMap.1 hxs
  rcases List.mem_pair.1 hmem with rfl | rfl
  · exact (h pair hpair).1
  · exact (h pair hpair).2

theorem AllLength.halves {half : Nat} {blocks : List (List K)} (h : AllLength (2 * half) blocks) :
    AllHalves half (blocks.map (halves half)) := by
  intro pair hpair
  obtain ⟨xs, hxs, rfl⟩ := List.mem_map.1 hpair
  have hlength := h xs hxs
  simp only [Transform.halves, List.length_take, List.length_drop]
  omega

/-- The halves of blocks have the entries of the blocks, in the same order. -/
theorem flatten_blocksOf_halves (half : Nat) (blocks : List (List K)) :
    (blocksOf (blocks.map (halves half))).flatten = blocks.flatten := by
  induction blocks with
  | nil => rfl
  | cons xs blocks ih =>
      rw [List.map_cons, blocksOf_cons, List.flatten_cons, List.flatten_cons, ih,
        List.flatten_cons, ← List.append_assoc, halves, List.take_append_drop]

theorem length_stage (f g : Nat → K → K → K) (k : Nat) (pairs : List (List K × List K)) :
    (stage f g k pairs).length = pairs.length := by
  induction pairs generalizing k with
  | nil => rfl
  | cons pair pairs ih => rw [stage, List.length_cons, List.length_cons, ih]

theorem AllHalves.stage {f g : Nat → K → K → K} {half k : Nat} {pairs : List (List K × List K)}
    (h : AllHalves half pairs) : AllHalves half (stage f g k pairs) := by
  induction pairs generalizing k with
  | nil => exact h
  | cons pair pairs ih =>
      obtain ⟨hpair, hpairs⟩ := List.forall_mem_cons.1 h
      refine List.forall_mem_cons.2 ⟨?_, ih hpairs⟩
      simp only [List.length_zipWith]
      omega

/-! ## The levels of the forward tree -/

variable [CommRing K]

def splitStage (w : Nat → K) : Nat → List (List K × List K) → List (List K × List K) :=
  stage (fun k x y => x + w k * y) fun k x y => x - w k * y

def mergeStage (z : Nat → K) : Nat → List (List K × List K) → List (List K × List K) :=
  stage (fun _ x y => x + y) fun k x y => z k * (x - y)

theorem length_splitStage (w : Nat → K) (k : Nat) (pairs : List (List K × List K)) :
    (splitStage w k pairs).length = pairs.length :=
  length_stage _ _ k pairs

theorem AllHalves.splitStage {half : Nat} {pairs : List (List K × List K)}
    (h : AllHalves half pairs) (w : Nat → K) (k : Nat) : AllHalves half (splitStage w k pairs) :=
  h.stage

/-- The blocks of a level, of `2 ^ depth` entries each. -/
def levelBlocks (w : Nat → K) (xs : List K) : (depth level : Nat) → List (List K)
  | _, 0 => [xs]
  | depth, level + 1 =>
      blocksOf (splitStage w (2 ^ level)
        ((levelBlocks w xs (depth + 1) level).map (halves (2 ^ depth))))

variable {w : Nat → K} {xs : List K}

theorem length_levelBlocks (depth level : Nat) :
    (levelBlocks w xs depth level).length = 2 ^ level := by
  induction level generalizing depth with
  | zero => rfl
  | succ level ih =>
      rw [levelBlocks, length_blocksOf, length_splitStage, List.length_map, ih, pow_succ, mul_comm]

theorem allLength_levelBlocks {depth level : Nat} (h : xs.length = 2 ^ (depth + level)) :
    AllLength (2 ^ depth) (levelBlocks w xs depth level) := by
  induction level generalizing depth with
  | zero => simpa [AllLength, levelBlocks] using h
  | succ level ih =>
      rw [levelBlocks]
      refine ((AllLength.halves ?_).splitStage w _).blocksOf
      rw [← pow_succ']
      exact ih (by rw [h, Nat.add_right_comm, Nat.add_assoc])

/-- The halves of the blocks of a level. -/
def levelPairs (w : Nat → K) (xs : List K) (depth level : Nat) : List (List K × List K) :=
  (levelBlocks w xs (depth + 1) level).map (halves (2 ^ depth))

theorem length_levelPairs (depth level : Nat) :
    (levelPairs w xs depth level).length = 2 ^ level := by
  rw [levelPairs, List.length_map, length_levelBlocks]

theorem allHalves_levelPairs {depth level : Nat} (h : xs.length = 2 ^ (depth + (level + 1))) :
    AllHalves (2 ^ depth) (levelPairs w xs depth level) := by
  refine AllLength.halves ?_
  rw [← pow_succ']
  exact allLength_levelBlocks (by rw [h, Nat.add_right_comm, Nat.add_assoc])

/-- A level is what the stage makes of the halves of the level above. -/
theorem levelBlocks_succ (depth level : Nat) : levelBlocks w xs depth (level + 1) =
    blocksOf (splitStage w (2 ^ level) (levelPairs w xs depth level)) := rfl

theorem flatten_levelPairs (depth level : Nat) :
    (blocksOf (levelPairs w xs depth level)).flatten =
      (levelBlocks w xs (depth + 1) level).flatten :=
  flatten_blocksOf_halves _ _

/-- The forward trees below the blocks, the first of which is block `k`. -/
def forest (w : Nat → K) (depth : Nat) : (k : Nat) → List (List K) → List K
  | _, [] => []
  | k, xs :: blocks => forwardTree w depth k xs ++ forest w depth (k + 1) blocks

theorem forest_zero (k : Nat) (blocks : List (List K)) : forest w 0 k blocks = blocks.flatten := by
  induction blocks generalizing k with
  | nil => rfl
  | cons xs blocks ih => rw [forest, forwardTree, ih, List.flatten_cons]

/-- A stage takes the trees apart at their roots. -/
theorem forest_splitStage (depth k : Nat) (blocks : List (List K)) :
    forest w depth (2 * k) (blocksOf (splitStage w k (blocks.map (halves (2 ^ depth))))) =
      forest w (depth + 1) k blocks := by
  induction blocks generalizing k with
  | nil => rfl
  | cons xs blocks ih =>
      have hnext : 2 * k + 1 + 1 = 2 * (k + 1) := by ring
      rw [List.map_cons, splitStage, stage, ← splitStage, blocksOf_cons, forest, forest, hnext, ih,
        forest, forwardTree, List.append_assoc]
      rfl

/-- The trees below any level make up the whole tree. -/
theorem forest_levelBlocks (depth level : Nat) :
    forest w depth (2 ^ level) (levelBlocks w xs depth level) =
      forwardTree w (depth + level) 1 xs := by
  induction level generalizing depth with
  | zero => simp [forest, levelBlocks]
  | succ level ih =>
      rw [levelBlocks, pow_succ', forest_splitStage, ih, Nat.add_right_comm, Nat.add_assoc]

/-- The lowest level has the entries of the tree. -/
theorem flatten_levelBlocks_zero (level : Nat) :
    (levelBlocks w xs 0 level).flatten = forwardTree w level 1 xs := by
  rw [← forest_zero (2 ^ level), forest_levelBlocks, Nat.zero_add]

/-! ## Back to the level above -/

/-- All entries of the pairs times a factor. -/
def scalePairs (c : K) (pairs : List (List K × List K)) : List (List K × List K) :=
  pairs.map (Prod.map (List.map (c * ·)) (List.map (c * ·)))

theorem flatten_blocksOf_scalePairs (c : K) (pairs : List (List K × List K)) :
    (blocksOf (scalePairs c pairs)).flatten = (blocksOf pairs).flatten.map (c * ·) := by
  induction pairs with
  | nil => rfl
  | cons pair pairs ih =>
      rw [scalePairs, List.map_cons, ← scalePairs, blocksOf_cons, blocksOf_cons]
      simp [ih]

theorem length_scalePairs (c : K) (pairs : List (List K × List K)) :
    (scalePairs c pairs).length = pairs.length :=
  List.length_map _

theorem AllHalves.scalePairs {half : Nat} {pairs : List (List K × List K)} (c : K)
    (h : AllHalves half pairs) : AllHalves half (scalePairs c pairs) := by
  intro pair hpair
  obtain ⟨pair', hpair', rfl⟩ := List.mem_map.1 hpair
  simpa using h pair' hpair'

/-- A stage back undoes a stage of the forward direction, up to a factor of 2, if the
two tables have inverse entries for the pairs. -/
theorem mergeStage_splitStage {z : Nat → K} {half k i : Nat} {pairs : List (List K × List K)}
    (h : AllHalves half pairs) (hwz : ∀ t < pairs.length, w (k + t) * z (i + t) = 1) (c : K) :
    mergeStage z i (scalePairs c (splitStage w k pairs)) = scalePairs (c * 2) pairs := by
  induction pairs generalizing k i with
  | nil => rfl
  | cons pair pairs ih =>
      obtain ⟨hpair, hpairs⟩ := List.forall_mem_cons.1 h
      obtain ⟨hsums, hdifferences⟩ := zipWith_butterflies (c := c)
        (hwz 0 (by simp)) (hpair.1.trans hpair.2.symm)
      have hrest := ih hpairs (k := k + 1) (i := i + 1) fun t ht => by
        have hnext := hwz (t + 1) (by simpa using ht)
        rwa [← Nat.add_right_comm, Nat.add_assoc, ← Nat.add_right_comm i, Nat.add_assoc i]
      simp only [mergeStage, splitStage, scalePairs, stage, List.map_cons, Prod.map_apply]
        at hrest ⊢
      rw [hrest]
      exact congrArg (· :: _) (Prod.ext hsums hdifferences)

end Transform
end RelinCeremony
