import RelinCeremony.Proofs.Transform.Apply
import RelinCeremony.Proofs.Transform.Levels

namespace RelinCeremony
namespace Transform

/-!
# The transform in place

A transform in place works on one row of numbers by nested loops: over the levels
of the tree, over the blocks of a level with a running index into the table, and
over the pairs of places of a block.  Here the loops are unrolled to the list of
their steps, and the steps change a row one after the other.

Two facts are proved of a row of reduced numbers.  Whichever step the loops have
come to, the row consists of reduced numbers; and at their end it is what the
recursions `Plan.forward` and `Plan.backward` give.
-/

/-- One step of the loops: a butterfly on two places with an entry of a table, or the
product of one place with the inverse of the size. -/
inductive Step where
  | split (left right power : Nat)
  | merge (left right power : Nat)
  | scale (place : Nat)
deriving DecidableEq

/-! ## The loops -/

/-- The steps on the pairs of places from `left` and from `right` on. -/
def pairsLoop (op : Nat → Nat → Step) (count left right : Nat) : List Step :=
  (List.range count).map fun j => op (left + j) (right + j)

/-- The steps of a stage on `blocks` neighbouring blocks from the place `start` on.  The
index into the table runs with the blocks. -/
def stageLoop (op : Nat → Nat → Nat → Step) (half start power blocks : Nat) : List Step :=
  (List.range blocks).flatMap fun i =>
    pairsLoop (fun left right => op left right (power + i)) half (start + 2 * i * half)
      (start + 2 * i * half + half)

/-- The stages of the forward transform from a level of `blocks` blocks on; the halves
get shorter. -/
def forwardLoop : (depth blocks power : Nat) → List Step
  | 0, _, _ => []
  | depth + 1, blocks, power =>
      stageLoop .split (2 ^ depth) 0 power blocks ++
        forwardLoop depth (2 * blocks) (power + blocks)

/-- The stages of the backward transform up to the whole row; the halves get longer. -/
def backwardLoop : (levels half power : Nat) → List Step
  | 0, _, _ => []
  | levels + 1, half, power =>
      stageLoop .merge half 0 power (2 ^ levels) ++
        backwardLoop levels (2 * half) (power + 2 ^ levels)

/-- The products of the places from `start` on with the inverse of the size. -/
def scaleLoop (count start : Nat) : List Step := (List.range count).map fun j => .scale (start + j)

theorem pairsLoop_succ (op : Nat → Nat → Step) (count left right : Nat) :
    pairsLoop op (count + 1) left right =
      op left right :: pairsLoop op count (left + 1) (right + 1) := by
  rw [pairsLoop, List.range_succ_eq_map, List.map_cons, List.map_map]
  congr 1
  refine List.map_congr_left fun j _ => ?_
  simp only [Function.comp_apply]
  congr 1 <;> omega

theorem stageLoop_succ (op : Nat → Nat → Nat → Step) (half start power blocks : Nat) :
    stageLoop op half start power (blocks + 1) =
      pairsLoop (fun left right => op left right power) half start (start + half) ++
        stageLoop op half (start + 2 * half) (power + 1) blocks := by
  rw [stageLoop, List.range_succ_eq_map, List.flatMap_cons, List.flatMap_map, stageLoop]
  congr 1
  · simp
  · congr 1
    funext i
    have hstart : start + 2 * (i + 1) * half = start + 2 * half + 2 * i * half := by ring
    have hpower : power + (i + 1) = power + 1 + i := by omega
    simp only [Nat.succ_eq_add_one, hstart, hpower]

theorem scaleLoop_succ (count start : Nat) :
    scaleLoop (count + 1) start = .scale start :: scaleLoop count (start + 1) := by
  rw [scaleLoop, List.range_succ_eq_map, List.map_cons, List.map_map]
  congr 1
  refine List.map_congr_left fun j _ => ?_
  simp only [Function.comp_apply]
  congr 1
  omega

/-- Puts the results of a butterfly on two places of a row in their stead. -/
def updatePair (butterfly : Nat → Nat → Checked (Nat × Nat)) (left right : Nat)
    (row : List Nat) : Checked (List Nat) := do
  let (x, y) ← butterfly (← entry row.toArray left) (← entry row.toArray right)
  return (row.set left x).set right y

namespace Plan

/-- All steps of the forward transform. -/
def forwardSteps (plan : Plan) : List Step := forwardLoop plan.depth 1 1

/-- All steps of the backward transform. -/
def backwardSteps (plan : Plan) : List Step :=
  backwardLoop plan.depth 1 0 ++ scaleLoop plan.size 0

/-- What a step does to the row it works in. -/
def step (plan : Plan) (row : List Nat) : Step → Checked (List Nat)
  | .split left right power => do
      updatePair (plan.splitStep (← entry plan.rootPowers power)) left right row
  | .merge left right power => do
      updatePair (plan.mergeStep (← entry plan.inversePowers power)) left right row
  | .scale place => do
      return row.set place (← plan.sizeInverse.apply plan.modulus (← entry row.toArray place))

def run (plan : Plan) (steps : List Step) (row : List Nat) : Checked (List Nat) :=
  steps.foldlM plan.step row

theorem run_nil (plan : Plan) (row : List Nat) : plan.run [] row = .ok row := rfl

theorem run_cons (plan : Plan) (step : Step) (steps : List Step) (row : List Nat) :
    plan.run (step :: steps) row = plan.step row step >>= plan.run steps := rfl

theorem run_append (plan : Plan) (steps steps' : List Step) (row : List Nat) :
    plan.run (steps ++ steps') row = plan.run steps row >>= plan.run steps' :=
  List.foldlM_append

end Plan

/-! ## One step -/

theorem entry_toArray {row : List Nat} {i x : Nat} (h : row[i]? = some x) :
    entry row.toArray i = .ok x := by
  simp [entry, h]

section Steps

variable {m : Modulus} {ψ : (ZMod m.value)ˣ} {plan : Plan}

/-- The power of the inverse root in entry `i` of its table. -/
def inverseEntry (ψ : (ZMod m.value)ˣ) (depth i : Nat) : ZMod m.value :=
  (ψ⁻¹ ^ (bitReverse depth i + 1) : (ZMod m.value)ˣ)

/-- A step on two places of a row does to their classes what `f` and `g` do. -/
def Acts (plan : Plan) (m : Modulus) (op : Nat → Nat → Step)
    (f g : ZMod m.value → ZMod m.value → ZMod m.value) : Prop :=
  ∀ ⦃row : List Nat⦄ ⦃left right x y : Nat⦄ ⦃a b : ZMod m.value⦄,
    row[left]? = some x → row[right]? = some y → m.Represents x a → m.Represents y b →
      Gives (plan.step row (op left right)) fun result =>
        ∃ x' y', result = (row.set left x').set right y' ∧
          m.Represents x' (f a b) ∧ m.Represents y' (g a b)

theorem gives_updatePair {butterfly : Nat → Nat → Checked (Nat × Nat)} {row : List Nat}
    {left right x y : Nat} {u v : ZMod m.value} (hleft : row[left]? = some x)
    (hright : row[right]? = some y)
    (hbutterfly : Gives (butterfly x y) fun r => m.Represents r.1 u ∧ m.Represents r.2 v) :
    Gives (updatePair butterfly left right row) fun result =>
      ∃ x' y', result = (row.set left x').set right y' ∧ m.Represents x' u ∧ m.Represents y' v := by
  rw [updatePair, entry_toArray hleft, entry_toArray hright]
  exact hbutterfly.bind fun r hr => ⟨_, rfl, r.1, r.2, rfl, hr⟩

theorem acts_split (hm : m.Valid) (hplan : plan.HasRoot m ψ) {power : Nat}
    (hpower : power < plan.size) :
    Acts plan m (fun left right => .split left right power)
      (fun a b => a + rootPower ψ plan.depth power * b)
      (fun a b => a - rootPower ψ plan.depth power * b) := by
  intro row left right x y a b hleft hright hx hy
  refine (hplan.rootPowers power hpower).bind fun w hw => ?_
  exact gives_updatePair hleft hright (gives_splitStep hm hplan hw hx hy)

theorem acts_merge (hm : m.Valid) (hplan : plan.HasRoot m ψ) {power : Nat}
    (hpower : power < plan.size) :
    Acts plan m (fun left right => .merge left right power) (fun a b => a + b)
      (fun a b => inverseEntry ψ plan.depth power * (a - b)) := by
  intro row left right x y a b hleft hright hx hy
  refine (hplan.inversePowers power hpower).bind fun z hz => ?_
  exact gives_updatePair hleft hright (gives_mergeStep hm hplan hz hx hy)

theorem gives_step_scale (hm : m.Valid) (hplan : plan.HasRoot m ψ) {v : ZMod m.value}
    (hv : plan.sizeInverse.Represents m v) {row : List Nat} {place x : Nat} {a : ZMod m.value}
    (hplace : row[place]? = some x) (hx : m.Represents x a) :
    Gives (plan.step row (.scale place)) fun result =>
      ∃ x', result = row.set place x' ∧ m.Represents x' (v * a) := by
  rw [Plan.step, entry_toArray hplace, hplan.modulus_eq]
  exact (gives_apply_residue hm hv hx).bind fun x' hx' => ⟨_, rfl, x', rfl, hx'⟩

/-! ## The values at the end of a loop -/

theorem set_set_append (before between after : List Nat) (x y x' y' : Nat) :
    ((before ++ x :: (between ++ y :: after)).set before.length x').set
        (before.length + (between.length + 1)) y' =
      before ++ x' :: (between ++ y' :: after) := by
  simp

/-- The steps on the pairs of two stretches of a row, of which the second begins after
`between`. -/
theorem gives_run_pairsLoop {op : Nat → Nat → Step}
    {f g : ZMod m.value → ZMod m.value → ZMod m.value} (hop : Acts plan m op f g)
    (before between after : List Nat) {xs ys : List Nat} {as bs : List (ZMod m.value)}
    (hxs : List.Forall₂ m.Represents xs as) (hys : List.Forall₂ m.Represents ys bs)
    (hlength : xs.length = ys.length) :
    Gives (plan.run (pairsLoop op xs.length before.length
        (before.length + (xs.length + between.length)))
      (before ++ (xs ++ (between ++ (ys ++ after))))) fun row =>
        ∃ xs' ys', row = before ++ (xs' ++ (between ++ (ys' ++ after))) ∧
          List.Forall₂ m.Represents xs' (List.zipWith f as bs) ∧
          List.Forall₂ m.Represents ys' (List.zipWith g as bs) := by
  -- The pair that is done first leaves both stretches and counts to `before` and `between`.
  induction hxs generalizing before between ys bs with
  | nil =>
      cases hys with
      | nil => exact ⟨_, rfl, [], [], rfl, .nil, .nil⟩
      | cons hy hys => simp at hlength
  | @cons x a xs as hx hxs ih =>
      cases hys with
      | nil => simp at hlength
      | @cons y b ys bs hy hys =>
          have hright : before.length + ((x :: xs).length + between.length) =
              before.length + ((xs ++ between).length + 1) := by
            simp only [List.length_cons, List.length_append]
            omega
          have hrow : before ++ (x :: xs ++ (between ++ (y :: ys ++ after))) =
              before ++ x :: ((xs ++ between) ++ y :: (ys ++ after)) := by simp
          rw [hright, hrow, List.length_cons, pairsLoop_succ, Plan.run_cons]
          refine (hop (by simp) (by simp) hx hy).bind fun row hstep => ?_
          obtain ⟨x', y', rfl, hx', hy'⟩ := hstep
          rw [set_set_append]
          have hrest := ih (before ++ [x']) (between ++ [y']) hys (by simpa using hlength)
          have hplaces : (before ++ [x']).length + (xs.length + (between ++ [y']).length) =
              before.length + ((xs ++ between).length + 1) + 1 := by
            simp only [List.length_append, List.length_singleton]
            omega
          rw [hplaces, List.length_append, List.length_singleton] at hrest
          simp only [List.append_assoc, List.cons_append, List.nil_append] at hrest ⊢
          refine hrest.imp fun row hrow => ?_
          obtain ⟨xs', ys', rfl, hxs', hys'⟩ := hrow
          exact ⟨x' :: xs', y' :: ys', by simp, .cons hx' hxs', .cons hy' hys'⟩

theorem exists_append_of_forall₂ {row : List Nat} {as bs : List (ZMod m.value)}
    (h : List.Forall₂ m.Represents row (as ++ bs)) :
    ∃ xs ys, row = xs ++ ys ∧ List.Forall₂ m.Represents xs as ∧ List.Forall₂ m.Represents ys bs :=
  ⟨_, _, (List.take_append_drop as.length row).symm, List.forall₂_take_append _ _ _ h,
    List.forall₂_drop_append _ _ _ h⟩

/-- The loop of a stage does the stage. -/
theorem gives_run_stageLoop (op : Nat → Nat → Nat → Step)
    (f g : Nat → ZMod m.value → ZMod m.value → ZMod m.value) {half : Nat} (power : Nat)
    {pairs : List (List (ZMod m.value) × List (ZMod m.value))} (hpairs : AllHalves half pairs)
    (hop : ∀ i < pairs.length, Acts plan m (fun left right => op left right (power + i))
      (f (power + i)) (g (power + i)))
    (before : List Nat) {row : List Nat}
    (hrow : List.Forall₂ m.Represents row (blocksOf pairs).flatten) :
    Gives (plan.run (stageLoop op half before.length power pairs.length) (before ++ row))
      fun result => ∃ row', result = before ++ row' ∧
        List.Forall₂ m.Represents row' (blocksOf (stage f g power pairs)).flatten := by
  -- A block that is done counts to `before`, and the index goes on by one.
  induction pairs generalizing before row power with
  | nil =>
      obtain rfl : row = [] := List.forall₂_nil_right_iff.1 hrow
      exact ⟨_, rfl, [], rfl, .nil⟩
  | cons pair pairs ih =>
      obtain ⟨⟨hleft, hright⟩, hrest⟩ := List.forall_mem_cons.1 hpairs
      rw [blocksOf_cons, List.flatten_cons, List.flatten_cons] at hrow
      obtain ⟨xs, tail, rfl, hxs, htail⟩ := exists_append_of_forall₂ hrow
      obtain ⟨ys, blocks, rfl, hys, hblocks⟩ := exists_append_of_forall₂ htail
      have hxsLength : xs.length = half := hxs.length_eq.trans hleft
      have hysLength : ys.length = half := hys.length_eq.trans hright
      have hpair := gives_run_pairsLoop (hop 0 (by simp)) before [] blocks hxs hys
        (hxsLength.trans hysLength.symm)
      rw [hxsLength, List.length_nil, Nat.add_zero, Nat.add_zero, List.nil_append] at hpair
      rw [List.length_cons, stageLoop_succ, Plan.run_append]
      refine hpair.bind fun result hresult => ?_
      obtain ⟨xs', ys', rfl, hxs', hys'⟩ := hresult
      have hdone : (before ++ (xs' ++ ys')).length = before.length + 2 * half := by
        simp only [List.length_append, hxs'.length_eq, hys'.length_eq, List.length_zipWith, hleft,
          hright]
        omega
      have hentries : ∀ i < pairs.length,
          Acts plan m (fun left right => op left right (power + 1 + i)) (f (power + 1 + i))
            (g (power + 1 + i)) := by
        intro i hi
        have hentry := hop (i + 1) (by simpa using hi)
        rwa [← Nat.add_assoc, Nat.add_right_comm] at hentry
      have hnext := ih (power + 1) hrest hentries (before ++ (xs' ++ ys')) hblocks
      rw [hdone] at hnext
      simp only [List.append_assoc, List.nil_append] at hnext ⊢
      refine hnext.imp fun result hresult => ?_
      obtain ⟨row', rfl, hrow'⟩ := hresult
      refine ⟨xs' ++ (ys' ++ row'), by simp, ?_⟩
      rw [stage, blocksOf_cons, List.flatten_cons, List.flatten_cons]
      exact List.rel_append hxs' (List.rel_append hys' hrow')

theorem gives_run_splitLoop (hm : m.Valid) (hplan : plan.HasRoot m ψ) {half : Nat} (power : Nat)
    {pairs : List (List (ZMod m.value) × List (ZMod m.value))} (hpairs : AllHalves half pairs)
    (hpower : power + pairs.length ≤ plan.size) {row : List Nat}
    (hrow : List.Forall₂ m.Represents row (blocksOf pairs).flatten) :
    Gives (plan.run (stageLoop .split half 0 power pairs.length) row) fun result =>
      List.Forall₂ m.Represents result
        (blocksOf (splitStage (rootPower ψ plan.depth) power pairs)).flatten := by
  refine (gives_run_stageLoop .split (fun k a b => a + rootPower ψ plan.depth k * b)
    (fun k a b => a - rootPower ψ plan.depth k * b) power hpairs
    (fun i hi => acts_split hm hplan (by omega)) [] hrow).imp fun result hresult => ?_
  obtain ⟨row', rfl, hrow'⟩ := hresult
  exact hrow'

theorem gives_run_mergeLoop (hm : m.Valid) (hplan : plan.HasRoot m ψ) {half : Nat} (power : Nat)
    {pairs : List (List (ZMod m.value) × List (ZMod m.value))} (hpairs : AllHalves half pairs)
    (hpower : power + pairs.length ≤ plan.size) {row : List Nat}
    (hrow : List.Forall₂ m.Represents row (blocksOf pairs).flatten) :
    Gives (plan.run (stageLoop .merge half 0 power pairs.length) row) fun result =>
      List.Forall₂ m.Represents result
        (blocksOf (mergeStage (inverseEntry ψ plan.depth) power pairs)).flatten := by
  refine (gives_run_stageLoop .merge (fun _ a b => a + b)
    (fun k a b => inverseEntry ψ plan.depth k * (a - b)) power hpairs
    (fun i hi => acts_merge hm hplan (by omega)) [] hrow).imp fun result hresult => ?_
  obtain ⟨row', rfl, hrow'⟩ := hresult
  exact hrow'

theorem two_pow_le_size (hplan : plan.HasRoot m ψ) {level : Nat} (hlevel : level ≤ plan.depth) :
    2 ^ level ≤ plan.size := by
  rw [hplan.size_eq]
  exact Nat.pow_le_pow_right (by decide) hlevel

/-- The forward loops, begun at a level of the tree, end with its leaves. -/
theorem gives_run_forwardLoop (hm : m.Valid) (hplan : plan.HasRoot m ψ) {as : List (ZMod m.value)}
    (has : as.length = 2 ^ plan.depth) {depth level : Nat} (hdepth : depth + level = plan.depth)
    {row : List Nat} (hrow : List.Forall₂ m.Represents row
      (levelBlocks (rootPower ψ plan.depth) as depth level).flatten) :
    Gives (plan.run (forwardLoop depth (2 ^ level) (2 ^ level)) row) fun result =>
      List.Forall₂ m.Represents result (forwardTree (rootPower ψ plan.depth) plan.depth 1 as) := by
  induction depth generalizing level row with
  | zero =>
      rw [flatten_levelBlocks_zero, ← Nat.zero_add level, hdepth] at hrow
      exact ⟨row, rfl, hrow⟩
  | succ depth ih =>
      have hbelow : depth + (level + 1) = plan.depth := by omega
      have hblocks : 2 ^ level + 2 ^ level = 2 ^ (level + 1) := by rw [pow_succ, mul_two]
      have hlevel : 2 ^ (level + 1) ≤ plan.size := two_pow_le_size hplan (by omega)
      have hcount : (levelPairs (rootPower ψ plan.depth) as depth level).length = 2 ^ level :=
        length_levelPairs depth level
      have hpairs : AllHalves (2 ^ depth) (levelPairs (rootPower ψ plan.depth) as depth level) :=
        allHalves_levelPairs (has.trans (by rw [hbelow]))
      rw [← flatten_levelPairs] at hrow
      have hstage := gives_run_splitLoop hm hplan (2 ^ level) hpairs (by omega) hrow
      rw [hcount] at hstage
      rw [forwardLoop, ← pow_succ', hblocks, Plan.run_append]
      exact hstage.bind fun row' hrow' => ih hbelow hrow'

/-- The entries of the two tables that the butterflies of a block use are inverse to one
another. -/
theorem rootPower_mul_inverseEntry {depth level t : Nat} (hlevel : level < depth)
    (ht : t < 2 ^ level) :
    rootPower ψ depth (2 ^ level + t) * inverseEntry ψ depth (2 ^ depth - 2 ^ (level + 1) + t) =
      1 := by
  rw [rootPower, inverseEntry, Nat.pow_succ', ← bitReverse_inverse_entry hlevel ht,
    ← Units.val_mul, inv_pow, mul_inv_cancel, Units.val_one]

/-- The backward loops, begun at a level of the tree, end with its root, times the number
of blocks of the level. -/
theorem gives_run_backwardLoop (hm : m.Valid) (hplan : plan.HasRoot m ψ) {as : List (ZMod m.value)}
    (has : as.length = 2 ^ plan.depth) {depth level : Nat} (hdepth : depth + level = plan.depth)
    (v : ZMod m.value) {row : List Nat} (hrow : List.Forall₂ m.Represents row
      ((levelBlocks (rootPower ψ plan.depth) as depth level).flatten.map (v * ·))) :
    Gives (plan.run (backwardLoop level (2 ^ depth) (plan.size - 2 ^ level)) row) fun result =>
      List.Forall₂ m.Represents result (as.map (v * 2 ^ level * ·)) := by
  induction level generalizing depth v row with
  | zero => simpa [backwardLoop, Plan.run_nil, levelBlocks] using hrow
  | succ level ih =>
      have habove : depth + 1 + level = plan.depth := by omega
      have hblocks : 2 ^ level + 2 ^ level = 2 ^ (level + 1) := by rw [pow_succ, mul_two]
      have hlevel : 2 ^ (level + 1) ≤ plan.size := two_pow_le_size hplan (by omega)
      have hcount : (levelPairs (rootPower ψ plan.depth) as depth level).length = 2 ^ level :=
        length_levelPairs depth level
      have hpairs : AllHalves (2 ^ depth) (levelPairs (rootPower ψ plan.depth) as depth level) :=
        allHalves_levelPairs (has.trans (by rw [hdepth]))
      have hback : mergeStage (inverseEntry ψ plan.depth) (plan.size - 2 ^ (level + 1))
          (scalePairs v (splitStage (rootPower ψ plan.depth) (2 ^ level)
            (levelPairs (rootPower ψ plan.depth) as depth level))) =
          scalePairs (v * 2) (levelPairs (rootPower ψ plan.depth) as depth level) := by
        refine mergeStage_splitStage hpairs (fun t ht => ?_) v
        rw [hcount] at ht
        rw [hplan.size_eq]
        exact rootPower_mul_inverseEntry (by omega) ht
      rw [levelBlocks_succ, ← flatten_blocksOf_scalePairs] at hrow
      have hscaled : (scalePairs v (splitStage (rootPower ψ plan.depth) (2 ^ level)
          (levelPairs (rootPower ψ plan.depth) as depth level))).length = 2 ^ level := by
        rw [length_scalePairs, length_splitStage, hcount]
      have hstage := gives_run_mergeLoop hm hplan (plan.size - 2 ^ (level + 1))
        ((hpairs.splitStage _ _).scalePairs v) (by omega) hrow
      rw [hscaled, hback, flatten_blocksOf_scalePairs, flatten_levelPairs] at hstage
      have hnext : plan.size - 2 ^ (level + 1) + 2 ^ level = plan.size - 2 ^ level := by omega
      have hfactor : v * 2 ^ (level + 1) = v * 2 * 2 ^ level := by rw [pow_succ', mul_assoc]
      rw [backwardLoop, Plan.run_append, hnext, ← pow_succ', hfactor]
      exact hstage.bind fun row' hrow' => ih habove (v * 2) hrow'

theorem gives_run_scaleLoop (hm : m.Valid) (hplan : plan.HasRoot m ψ) {v : ZMod m.value}
    (hv : plan.sizeInverse.Represents m v) (before : List Nat) {row : List Nat}
    {as : List (ZMod m.value)} (hrow : List.Forall₂ m.Represents row as) :
    Gives (plan.run (scaleLoop row.length before.length) (before ++ row)) fun result =>
      ∃ row', result = before ++ row' ∧ List.Forall₂ m.Represents row' (as.map (v * ·)) := by
  induction hrow generalizing before with
  | nil => exact ⟨_, rfl, [], rfl, .nil⟩
  | @cons x a row as hx hrow ih =>
      rw [List.length_cons, scaleLoop_succ, Plan.run_cons]
      refine (gives_step_scale hm hplan hv (by simp) hx).bind fun result hresult => ?_
      obtain ⟨x', rfl, hx'⟩ := hresult
      have hrest := ih (before ++ [x'])
      rw [List.length_append, List.length_singleton] at hrest
      simp only [List.append_assoc, List.singleton_append] at hrest
      simp only [List.set_append_right _ _ (Nat.le_refl _), Nat.sub_self, List.set_cons_zero]
      refine hrest.imp fun result hresult => ?_
      obtain ⟨row', rfl, hrow'⟩ := hresult
      exact ⟨x' :: row', by simp, .cons hx' hrow'⟩

/-! ## The whole loops -/

namespace Plan

/-- The forward loops leave what the forward transform gives. -/
theorem run_forwardSteps (hm : m.Valid) (hplan : plan.HasRoot m ψ) {row : List Nat}
    (hrow : Modulus.IsRow m.value plan.size row) :
    plan.run plan.forwardSteps row = plan.forward row := by
  let u : Fin plan.size → ZMod m.value := fun t => (row.getD t 0 : ZMod m.value)
  have hlength : (List.ofFn u).length = 2 ^ plan.depth := List.length_ofFn.trans hplan.size_eq
  have hu : m.RowRepresents row u := hrow.represents
  obtain ⟨ys, hforward, hys⟩ := gives_forward hm hplan rfl hu
  -- The whole row is the level of the root.
  have hroot : List.Forall₂ m.Represents row
      (levelBlocks (rootPower ψ plan.depth) (List.ofFn u) plan.depth 0).flatten := by
    simpa [levelBlocks] using rowRepresents_iff_forall₂.1 hu
  obtain ⟨zs, hloop, hzs⟩ :=
    gives_run_forwardLoop hm hplan hlength (Nat.add_zero plan.depth) hroot
  rw [← ofFn_evaluations hplan.size_eq hplan.pow_size, ← rowRepresents_iff_forall₂] at hzs
  rw [hforward, ← hzs.unique hys]
  exact hloop

/-- The backward loops leave what the backward transform gives. -/
theorem run_backwardSteps (hm : m.Valid) (hplan : plan.HasRoot m ψ) {row : List Nat}
    (hrow : Modulus.IsRow m.value plan.size row) :
    plan.run plan.backwardSteps row = plan.backward row := by
  obtain ⟨v, hv, hunit⟩ := hplan.sizeInverse
  -- The row holds the values of the coefficients `u` at the leaves, the lowest level.
  let u : Fin plan.size → ZMod m.value :=
    interpolation ψ plan.depth v fun t => (row.getD t 0 : ZMod m.value)
  have hlength : (List.ofFn u).length = 2 ^ plan.depth := List.length_ofFn.trans hplan.size_eq
  have hvalues : m.RowRepresents row (evaluations ψ plan.depth u) := by
    rw [evaluations_interpolation hplan.size_eq hplan.pow_size hunit]
    exact hrow.represents
  obtain ⟨ys, hbackward, hys⟩ := gives_backward hm hplan rfl hvalues
  have hleaves : List.Forall₂ m.Represents row
      ((levelBlocks (rootPower ψ plan.depth) (List.ofFn u) 0 plan.depth).flatten.map (1 * ·)) := by
    have hone : ((1 : ZMod m.value) * ·) = id := funext one_mul
    rw [flatten_levelBlocks_zero, ← ofFn_evaluations hplan.size_eq hplan.pow_size, hone,
      List.map_id]
    exact rowRepresents_iff_forall₂.1 hvalues
  obtain ⟨merged, hloop, hmerged⟩ :=
    gives_run_backwardLoop hm hplan hlength (Nat.zero_add plan.depth) 1 hleaves
  have hsize : merged.length = plan.size := by
    rw [hmerged.length_eq, List.length_map, List.length_ofFn]
  obtain ⟨_, hscale, zs, rfl, hzs⟩ := gives_run_scaleLoop hm hplan hv [] hmerged
  rw [one_mul, map_inverse_map_size hplan.size_eq hunit, ← rowRepresents_iff_forall₂] at hzs
  rw [pow_zero, hplan.size_eq, Nat.sub_self] at hloop
  rw [hsize] at hscale
  rw [hbackward, ← hzs.unique hys, backwardSteps, run_append, hloop]
  exact hscale

end Plan

/-! ## The values on the way -/

/-- The step works at places of the row, with an entry of the table. -/
def Step.Fits (size : Nat) : Step → Prop
  | .split left right power | .merge left right power =>
      left < size ∧ right < size ∧ power < size
  | .scale place => place < size

theorem Acts.gives_isRow {op : Nat → Nat → Step}
    {f g : ZMod m.value → ZMod m.value → ZMod m.value} (hop : Acts plan m op f g) {n : Nat}
    {row : List Nat} (hrow : Modulus.IsRow m.value n row) {left right : Nat} (hleft : left < n)
    (hright : right < n) :
    Gives (plan.step row (op left right)) (Modulus.IsRow m.value n) := by
  rw [← hrow.1] at hleft hright
  have hx := Modulus.represents_self (hrow.2 _ (List.getElem_mem hleft))
  have hy := Modulus.represents_self (hrow.2 _ (List.getElem_mem hright))
  refine (hop (List.getElem?_eq_getElem hleft) (List.getElem?_eq_getElem hright) hx hy).imp
    fun result hresult => ?_
  obtain ⟨x', y', rfl, hx', hy'⟩ := hresult
  exact (hrow.set hx'.1).set hy'.1

/-- A step at places of a reduced row leaves a reduced row. -/
theorem gives_step_isRow (hm : m.Valid) (hplan : plan.HasRoot m ψ) {step : Step}
    (hfits : step.Fits plan.size) {row : List Nat}
    (hrow : Modulus.IsRow m.value plan.size row) :
    Gives (plan.step row step) (Modulus.IsRow m.value plan.size) := by
  cases step with
  | split left right power =>
      obtain ⟨hleft, hright, hpower⟩ := hfits
      exact (acts_split hm hplan hpower).gives_isRow hrow hleft hright
  | merge left right power =>
      obtain ⟨hleft, hright, hpower⟩ := hfits
      exact (acts_merge hm hplan hpower).gives_isRow hrow hleft hright
  | scale place =>
      obtain ⟨v, hv, _⟩ := hplan.sizeInverse
      have hplace : place < row.length := hrow.1.symm ▸ hfits
      have hx := Modulus.represents_self (hrow.2 _ (List.getElem_mem hplace))
      refine (gives_step_scale hm hplan hv (List.getElem?_eq_getElem hplace) hx).imp
        fun result hresult => ?_
      obtain ⟨x', rfl, hx'⟩ := hresult
      exact hrow.set hx'.1

theorem gives_run_isRow (hm : m.Valid) (hplan : plan.HasRoot m ψ) {steps : List Step}
    (hfits : ∀ step ∈ steps, step.Fits plan.size) {row : List Nat}
    (hrow : Modulus.IsRow m.value plan.size row) :
    Gives (plan.run steps row) (Modulus.IsRow m.value plan.size) := by
  induction steps generalizing row with
  | nil => exact ⟨row, rfl, hrow⟩
  | cons step steps ih =>
      obtain ⟨hstep, hsteps⟩ := List.forall_mem_cons.1 hfits
      rw [Plan.run_cons]
      exact (gives_step_isRow hm hplan hstep hrow).bind fun row' hrow' => ih hsteps hrow'

theorem fits_of_mem_stageLoop (op : Nat → Nat → Nat → Step) {size half power blocks : Nat}
    (hop : ∀ left right power, left < size → right < size → power < size →
      (op left right power).Fits size)
    (hplaces : 2 * blocks * half ≤ size) (hpower : power + blocks ≤ size) {step : Step}
    (hstep : step ∈ stageLoop op half 0 power blocks) : step.Fits size := by
  obtain ⟨i, hi, hpair⟩ := List.mem_flatMap.1 hstep
  obtain ⟨j, hj, rfl⟩ := List.mem_map.1 hpair
  rw [List.mem_range] at hi hj
  -- The pairs of block `i` stand before the end of the block.
  have hend : 2 * i * half + 2 * half ≤ 2 * blocks * half := by
    have hnext : 2 * i * half + 2 * half = 2 * (i + 1) * half := by ring
    rw [hnext]
    exact Nat.mul_le_mul_right half (by omega)
  exact hop _ _ _ (by omega) (by omega) (by omega)

theorem fits_of_mem_forwardLoop {size depth blocks : Nat} (hsize : blocks * 2 ^ depth = size)
    {step : Step} (hstep : step ∈ forwardLoop depth blocks blocks) : step.Fits size := by
  induction depth generalizing blocks with
  | zero => simp [forwardLoop] at hstep
  | succ depth ih =>
      have hbelow : 2 * blocks * 2 ^ depth = size := by
        rw [← hsize]
        ring
      have hblocks : blocks + blocks ≤ size := by
        have hle := Nat.le_mul_of_pos_right (2 * blocks) (Nat.two_pow_pos depth)
        omega
      rw [forwardLoop, ← two_mul, List.mem_append] at hstep
      rcases hstep with hstage | hrest
      · exact fits_of_mem_stageLoop .split
          (fun _ _ _ hleft hright hpower => ⟨hleft, hright, hpower⟩) (by omega) hblocks hstage
      · exact ih hbelow hrest

theorem fits_of_mem_backwardLoop {size levels half power : Nat} (hsize : 2 ^ levels * half = size)
    (hpower : power + 2 ^ levels = size) {step : Step}
    (hstep : step ∈ backwardLoop levels half power) : step.Fits size := by
  induction levels generalizing half power with
  | zero => simp [backwardLoop] at hstep
  | succ levels ih =>
      rw [pow_succ'] at hsize hpower
      rw [backwardLoop, List.mem_append] at hstep
      rcases hstep with hstage | hrest
      · exact fits_of_mem_stageLoop .merge
          (fun _ _ _ hleft hright hpower => ⟨hleft, hright, hpower⟩) (by omega) (by omega) hstage
      · exact ih (by rw [← hsize]; ring) (by omega) hrest

namespace Plan

theorem fits_of_mem_forwardSteps (hplan : plan.HasRoot m ψ) {step : Step}
    (hstep : step ∈ plan.forwardSteps) : step.Fits plan.size :=
  fits_of_mem_forwardLoop (by rw [hplan.size_eq, one_mul]) hstep

theorem fits_of_mem_backwardSteps (hplan : plan.HasRoot m ψ) {step : Step}
    (hstep : step ∈ plan.backwardSteps) : step.Fits plan.size := by
  rcases List.mem_append.1 hstep with hmerge | hscale
  · exact fits_of_mem_backwardLoop (by rw [hplan.size_eq, mul_one])
      (by rw [hplan.size_eq, zero_add]) hmerge
  · obtain ⟨j, hj, rfl⟩ := List.mem_map.1 hscale
    simpa [Step.Fits] using hj

end Plan
end Steps
end Transform
end RelinCeremony
