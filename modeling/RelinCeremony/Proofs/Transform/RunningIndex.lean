import RelinCeremony.Proofs.Transform.Loops

namespace RelinCeremony
namespace Transform

/-!
# The running index of the loops

The loops in place read a table by one index that goes on by one with every block, through
all stages.  The forward loops begin with entry 1 and double the number of blocks from
stage to stage, the backward loops begin with entry 0 and halve it.  So the entry for block
`i` of a stage of `blocks` blocks is `blocks + i` in the one direction, and
`size - 2 * blocks + i` in the other.
-/

/-- The blocks of some stages in the order of the loops.  A stage is given by its number of
blocks, and a block by its stage and its place in the stage. -/
def visits (stages : List Nat) : List (Nat × Nat) :=
  stages.flatMap fun blocks => (List.range blocks).map (blocks, ·)

/-- The steps of some stages on a row.  The index into the table begins at `start` and
counts the blocks. -/
def visitSteps (op : Nat → Nat → Nat → Step) (size start : Nat) (stages : List Nat) : List Step :=
  ((visits stages).zipIdx start).flatMap fun ((blocks, i), k) =>
    let half := size / (2 * blocks)
    pairsLoop (fun left right => op left right k) half (2 * i * half) (2 * i * half + half)

/-- Stages from one of `blocks` blocks on: the number of blocks doubles from each to the
next. -/
def stagesFrom (blocks depth : Nat) : List Nat := (List.range depth).map (blocks * 2 ^ ·)

/-- The stages of the tree with `depth` levels of blocks, from the root downwards. -/
def stagesOf (depth : Nat) : List Nat := (List.range depth).map (2 ^ ·)

theorem visits_cons (blocks : Nat) (stages : List Nat) :
    visits (blocks :: stages) = (List.range blocks).map (blocks, ·) ++ visits stages := rfl

theorem mem_visits {stages : List Nat} {blocks i : Nat} :
    (blocks, i) ∈ visits stages ↔ blocks ∈ stages ∧ i < blocks := by
  simp only [visits, List.mem_flatMap, List.mem_map, List.mem_range, Prod.mk.injEq]
  constructor
  · rintro ⟨_, hstage, _, hi, rfl, rfl⟩
    exact ⟨hstage, hi⟩
  · rintro ⟨hstage, hi⟩
    exact ⟨blocks, hstage, i, hi, rfl, rfl⟩

theorem mem_visits_reverse {stages : List Nat} {blocks i : Nat} :
    (blocks, i) ∈ visits stages.reverse ↔ (blocks, i) ∈ visits stages := by
  rw [mem_visits, mem_visits, List.mem_reverse]

theorem mem_stagesOf {depth blocks : Nat} :
    blocks ∈ stagesOf depth ↔ ∃ level < depth, 2 ^ level = blocks := by
  simp [stagesOf]

theorem stagesOf_eq_stagesFrom (depth : Nat) : stagesOf depth = stagesFrom 1 depth := by
  simp [stagesOf, stagesFrom]

theorem stagesFrom_succ (blocks depth : Nat) :
    stagesFrom blocks (depth + 1) = blocks :: stagesFrom (2 * blocks) depth := by
  rw [stagesFrom, List.range_succ_eq_map, List.map_cons, List.map_map, pow_zero, mul_one]
  congr 1
  refine List.map_congr_left fun level _ => ?_
  simp only [Function.comp_apply, Nat.succ_eq_add_one, pow_succ]
  ring

theorem stagesOf_succ (depth : Nat) : stagesOf (depth + 1) = stagesOf depth ++ [2 ^ depth] := by
  simp [stagesOf, List.range_succ]

/-! ## One stage after another -/

theorem zipIdx_map_range {α : Type} (f : Nat → α) (count start : Nat) :
    ((List.range count).map f).zipIdx start = (List.range count).map fun i => (f i, start + i) :=
  List.ext_getElem (by simp) (by simp)

/-- The index goes on where the first stage has left it. -/
theorem zipIdx_visits_cons (blocks start : Nat) (stages : List Nat) :
    (visits (blocks :: stages)).zipIdx start =
      (List.range blocks).map (fun i => ((blocks, i), start + i)) ++
        (visits stages).zipIdx (start + blocks) := by
  rw [visits_cons, List.zipIdx_append, zipIdx_map_range, List.length_map, List.length_range]

theorem visitSteps_cons (op : Nat → Nat → Nat → Step) (size start blocks : Nat)
    (stages : List Nat) :
    visitSteps op size start (blocks :: stages) =
      stageLoop op (size / (2 * blocks)) 0 start blocks ++
        visitSteps op size (start + blocks) stages := by
  rw [visitSteps, zipIdx_visits_cons, List.flatMap_append, List.flatMap_map, stageLoop, visitSteps]
  simp only [Nat.zero_add]

/-! ## The two directions -/

/-- The forward loops from a stage of `blocks` blocks on. -/
theorem forwardLoop_eq_visitSteps {depth blocks size : Nat} (start : Nat) (hblocks : 0 < blocks)
    (hsize : blocks * 2 ^ depth = size) :
    forwardLoop depth blocks start = visitSteps .split size start (stagesFrom blocks depth) := by
  induction depth generalizing blocks start with
  | zero => rfl
  | succ depth ih =>
      have hbelow : 2 * blocks * 2 ^ depth = size := by
        rw [← hsize]
        ring
      have hhalf : size / (2 * blocks) = 2 ^ depth := by
        rw [← hbelow]
        exact Nat.mul_div_cancel_left _ (by omega)
      rw [stagesFrom_succ, visitSteps_cons, hhalf, forwardLoop,
        ih (start + blocks) (by omega) hbelow]

/-- The backward loops up to the root. -/
theorem backwardLoop_eq_visitSteps {levels half size : Nat} (start : Nat)
    (hsize : 2 ^ levels * half = size) :
    backwardLoop levels half start = visitSteps .merge size start (stagesOf levels).reverse := by
  induction levels generalizing half start with
  | zero => rfl
  | succ levels ih =>
      have habove : 2 ^ levels * (2 * half) = size := by
        rw [← hsize]
        ring
      have hhalf : size / (2 * 2 ^ levels) = half := by
        rw [← hsize, ← pow_succ']
        exact Nat.mul_div_cancel_left _ (Nat.two_pow_pos _)
      rw [stagesOf_succ, List.reverse_append, List.reverse_singleton, List.singleton_append,
        visitSteps_cons, hhalf, backwardLoop, ih (start + 2 ^ levels) habove]

theorem Plan.forwardSteps_eq_visitSteps {plan : Plan} (hsize : plan.size = 2 ^ plan.depth) :
    plan.forwardSteps = visitSteps .split plan.size 1 (stagesOf plan.depth) := by
  rw [forwardSteps, stagesOf_eq_stagesFrom]
  exact forwardLoop_eq_visitSteps 1 Nat.one_pos (by rw [hsize, one_mul])

theorem Plan.backwardSteps_eq_visitSteps {plan : Plan} (hsize : plan.size = 2 ^ plan.depth) :
    plan.backwardSteps =
      visitSteps .merge plan.size 0 (stagesOf plan.depth).reverse ++ scaleLoop plan.size 0 := by
  have hwhole : 2 ^ plan.depth * 1 = plan.size := by rw [hsize, mul_one]
  rw [backwardSteps, backwardLoop_eq_visitSteps 0 hwhole]

/-! ## The index as a function of the block -/

/-- If a stage of `blocks` blocks begins with entry `blocks`, then the next one, of twice as
many blocks, begins with the entry of its number as well. -/
theorem zipIdx_visits_stagesFrom (blocks depth : Nat) :
    (visits (stagesFrom blocks depth)).zipIdx blocks =
      (visits (stagesFrom blocks depth)).map fun v => (v, v.1 + v.2) := by
  induction depth generalizing blocks with
  | zero => rfl
  | succ depth ih =>
      rw [stagesFrom_succ, zipIdx_visits_cons, ← two_mul, ih, visits_cons, List.map_append,
        List.map_map]
      rfl

/-- The forward index: `blocks + i`. -/
theorem zipIdx_visits_forward (depth : Nat) :
    (visits (stagesOf depth)).zipIdx 1 = (visits (stagesOf depth)).map fun v => (v, v.1 + v.2) := by
  rw [stagesOf_eq_stagesFrom]
  exact zipIdx_visits_stagesFrom 1 depth

/-- The backward index: `size - 2 * blocks + i`.  Before the stages of the lowest `levels`
numbers of blocks it is `size - 2 ^ levels`. -/
theorem zipIdx_visits_backward {levels size : Nat} (hsize : 2 ^ levels ≤ size) :
    (visits (stagesOf levels).reverse).zipIdx (size - 2 ^ levels) =
      (visits (stagesOf levels).reverse).map fun v => (v, size - 2 * v.1 + v.2) := by
  induction levels with
  | zero => rfl
  | succ levels ih =>
      rw [pow_succ'] at hsize
      have hnext : size - 2 * 2 ^ levels + 2 ^ levels = size - 2 ^ levels := by omega
      rw [stagesOf_succ, List.reverse_append, List.reverse_singleton, List.singleton_append,
        zipIdx_visits_cons, pow_succ', hnext, ih (by omega), visits_cons, List.map_append,
        List.map_map]
      rfl

end Transform
end RelinCeremony
