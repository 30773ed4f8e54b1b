import Mathlib.Algebra.BigOperators.Fin
import Mathlib.Data.List.GetD
import RelinCeremony.Proofs.Transform.BitReversal
import RelinCeremony.Proofs.Transform.Plan
import RelinCeremony.Proofs.Transform.Tree
import RelinCeremony.Transform.Apply

namespace RelinCeremony
namespace Transform

/-!
# The transform evaluates

The forward transform of a plan takes coefficients to the values of their polynomial
at the points of the leaves, and the backward transform takes the values back.
Each point has the power `-1` at the size, so products of values are values of
negacyclic products.

The program is compared block by block with the trees of `Proofs.Transform.Tree`.
-/

/-! ## The points -/

section Points

variable {K : Type} [CommRing K]

/-- The power of the root that block `k` works with. -/
def rootPower (ψ : Kˣ) (depth k : Nat) : K := (ψ ^ bitReverse depth k : Kˣ)

/-- The class of block `k`: `-1` for the whole tree, and both signs of the power of the
block above for the others. -/
def blockClass (ψ : Kˣ) (depth k : Nat) : K :=
  if k = 1 then -1
  else if k % 2 = 0 then rootPower ψ depth (k / 2) else -rootPower ψ depth (k / 2)

theorem rootPower_mul_inverse (ψ : Kˣ) (depth k : Nat) :
    rootPower ψ depth k * rootPower ψ⁻¹ depth k = 1 := by
  rw [rootPower, rootPower, ← Units.val_mul, inv_pow, mul_inv_cancel, Units.val_one]

/-- The powers of a root of the size fit the tree. -/
theorem fitsTree_rootPower {ψ : Kˣ} {depth : Nat} (hpow : ψ ^ 2 ^ depth = -1) :
    FitsTree (rootPower ψ depth) (blockClass ψ depth) (2 ^ depth) where
  square := by
    intro k hpos hk
    cases depth with
    | zero => omega
    | succ depth =>
        have hsquare : ∀ i, rootPower ψ (depth + 1) i ^ 2 =
            ((ψ ^ (2 * bitReverse (depth + 1) i) : Kˣ) : K) := by
          intro i
          rw [rootPower, ← Units.val_pow_eq_pow_val, ← pow_mul, mul_comm]
        rw [hsquare, blockClass]
        split
        case isTrue hone =>
          -- Block 1 holds the power of order four.
          subst hone
          have hfirst := two_mul_bitReverse_odd (k := 0) (Nat.two_pow_pos depth)
          rw [bitReverse_zeros] at hfirst
          rw [hfirst, Nat.add_zero, hpow, Units.val_neg, Units.val_one]
        case isFalse hone =>
          have hhalf : k / 2 < 2 ^ depth := by
            rw [Nat.pow_succ] at hk
            omega
          split
          case isTrue heven =>
            have hk' : k = 2 * (k / 2) := by omega
            conv_lhs => rw [hk']
            rw [two_mul_bitReverse_even hhalf, rootPower]
          case isFalse hodd =>
            have hk' : k = 2 * (k / 2) + 1 := by omega
            conv_lhs => rw [hk']
            rw [two_mul_bitReverse_odd hhalf, pow_add, hpow, rootPower, neg_one_mul, Units.val_neg]
  left := by
    intro k hpos _
    have hne : 2 * k ≠ 1 := by omega
    have heven : 2 * k % 2 = 0 := by omega
    rw [blockClass, if_neg hne, if_pos heven, Nat.mul_div_cancel_left k (by decide)]
  right := by
    intro k hpos _
    have hne : 2 * k + 1 ≠ 1 := by omega
    have hodd : ¬ (2 * k + 1) % 2 = 0 := by omega
    have hhalf : (2 * k + 1) / 2 = k := by omega
    rw [blockClass, if_neg hne, if_neg hodd, hhalf]

/-- The point of leaf `t`. -/
def leaf (ψ : Kˣ) (depth t : Nat) : K := (leafPoints (blockClass ψ depth) depth 1).getD t 0

theorem leaf_pow {ψ : Kˣ} {depth t : Nat} (hpow : ψ ^ 2 ^ depth = -1) (ht : t < 2 ^ depth) :
    leaf ψ depth t ^ 2 ^ depth = -1 := by
  have hlength : t < (leafPoints (blockClass ψ depth) depth 1).length := by
    rw [length_leafPoints]
    exact ht
  rw [leaf, List.getD_eq_getElem _ _ hlength, pow_leafPoint (fitsTree_rootPower hpow) (by decide)
    (by omega) (List.getElem_mem hlength), blockClass, if_pos rfl]

/-- The value at a point of the polynomial with the given coefficients. -/
def evaluate {n : Nat} (z : K) (v : Fin n → K) : K := ∑ s, v s * z ^ (s : Nat)

theorem evaluate_eq_evalAt {n : Nat} (z : K) (v : Fin n → K) :
    evaluate z v = evalAt z (List.ofFn v) := by
  unfold evaluate
  induction n with
  | zero => rfl
  | succ n ih =>
      rw [List.ofFn_succ, evalAt, ← ih, Fin.sum_univ_succ, Finset.mul_sum]
      simp only [Fin.val_zero, pow_zero, mul_one, Fin.val_succ, pow_succ]
      congr 1
      refine Finset.sum_congr rfl fun s _ => ?_
      ring

def evaluations (ψ : Kˣ) (depth : Nat) {n : Nat} (v : Fin n → K) : Fin n → K :=
  fun t => evaluate (leaf ψ depth t) v

/-- The forward tree of a family of coefficients lists its values at the leaves. -/
theorem ofFn_evaluations {ψ : Kˣ} {depth n : Nat} (hn : n = 2 ^ depth) (hpow : ψ ^ n = -1)
    (v : Fin n → K) :
    List.ofFn (evaluations ψ depth v) = forwardTree (rootPower ψ depth) depth 1 (List.ofFn v) := by
  subst hn
  rw [forwardTree_eq_map_evalAt (fitsTree_rootPower hpow) (by decide) (by omega) (by simp)]
  refine List.ext_getElem (by simp [length_leafPoints]) fun t ht ht' => ?_
  rw [List.length_map] at ht'
  rw [List.getElem_ofFn, List.getElem_map, evaluations, evaluate_eq_evalAt, leaf,
    List.getD_eq_getElem _ _ ht']

/-- The coefficients with given values at the leaves, where `c` is the inverse of the
size. -/
def interpolation (ψ : Kˣ) (depth : Nat) (c : K) {n : Nat} (v : Fin n → K) : Fin n → K :=
  fun t => (backwardTree (rootPower ψ⁻¹ depth) depth 1 (List.ofFn v)).getD t 0 * c

variable {ψ : Kˣ} {depth n : Nat} {c : K}

/-- The backward tree of a family of values lists the coefficients, divided by the size. -/
theorem ofFn_interpolation (hn : n = 2 ^ depth) (v : Fin n → K) :
    List.ofFn (interpolation ψ depth c v) =
      (backwardTree (rootPower ψ⁻¹ depth) depth 1 (List.ofFn v)).map (c * ·) := by
  subst hn
  have hlength := length_backwardTree (rootPower ψ⁻¹ depth) (k := 1) (List.length_ofFn (f := v))
  refine List.ext_getElem (by simp [hlength]) fun t ht ht' => ?_
  rw [List.length_map] at ht'
  rw [List.getElem_ofFn, List.getElem_map, interpolation, List.getD_eq_getElem _ _ ht', mul_comm]

theorem map_inverse_map_size (hn : n = 2 ^ depth) (hc : c * n = 1) (xs : List K) :
    (xs.map ((2 : K) ^ depth * ·)).map (c * ·) = xs := by
  rw [List.map_map]
  refine (List.map_congr_left fun x _ => ?_).trans (List.map_id _)
  rw [hn, Nat.cast_pow, Nat.cast_ofNat] at hc
  show c * (2 ^ depth * x) = x
  linear_combination x * hc

theorem interpolation_evaluations (hn : n = 2 ^ depth) (hpow : ψ ^ n = -1) (hc : c * n = 1)
    (v : Fin n → K) : interpolation ψ depth c (evaluations ψ depth v) = v := by
  have hlength : (List.ofFn v).length = 2 ^ depth := (List.length_ofFn (f := v)).trans hn
  apply List.ofFn_injective
  rw [ofFn_interpolation hn, ofFn_evaluations hn hpow,
    backwardTree_forwardTree (rootPower_mul_inverse ψ depth) hlength, map_inverse_map_size hn hc]

theorem evaluations_interpolation (hn : n = 2 ^ depth) (hpow : ψ ^ n = -1) (hc : c * n = 1)
    (v : Fin n → K) : evaluations ψ depth (interpolation ψ depth c v) = v := by
  have hlength : (List.ofFn v).length = 2 ^ depth := (List.length_ofFn (f := v)).trans hn
  apply List.ofFn_injective
  rw [ofFn_evaluations hn hpow, ofFn_interpolation hn, forwardTree_map_mul,
    forwardTree_backwardTree (rootPower_mul_inverse ψ depth) hlength, map_inverse_map_size hn hc]

end Points

/-! ## The program on blocks -/

section Blocks

variable {m : Modulus} {ψ : (ZMod m.value)ˣ} {plan : Plan}

/-- Butterflies on two halves do to the classes what the step does to them. -/
theorem gives_butterflies {step : Nat → Nat → Checked (Nat × Nat)}
    {f g : ZMod m.value → ZMod m.value → ZMod m.value}
    (hstep : ∀ x y a b, m.Represents x a → m.Represents y b →
      Gives (step x y) fun r => m.Represents r.1 (f a b) ∧ m.Represents r.2 (g a b))
    {xs ys : List Nat} {as bs : List (ZMod m.value)} (hxs : List.Forall₂ m.Represents xs as)
    (hys : List.Forall₂ m.Represents ys bs) :
    Gives (butterflies step xs ys) fun r =>
      List.Forall₂ m.Represents r.1 (List.zipWith f as bs) ∧
        List.Forall₂ m.Represents r.2 (List.zipWith g as bs) := by
  -- The lists of residues and of classes are taken apart together.
  induction hxs generalizing ys bs with
  | nil => cases hys <;> exact ⟨_, rfl, .nil, .nil⟩
  | cons hx hxs ih =>
      cases hys with
      | nil => exact ⟨_, rfl, .nil, .nil⟩
      | cons hy hys =>
          refine (hstep _ _ _ _ hx hy).bind fun r hr => ?_
          exact (ih hys).bind fun rest hrest =>
            ⟨_, rfl, .cons hr.1 hrest.1, .cons hr.2 hrest.2⟩

theorem gives_apply_residue (hm : m.Valid) {multiplier : Multiplier} {w a : ZMod m.value}
    (hw : multiplier.Represents m w) {x : Nat} (hx : m.Represents x a) :
    Gives (multiplier.apply m x) fun r => m.Represents r (w * a) := by
  have hword : x < 2 ^ 64 := by
    have hlt := hm.lt
    have hxlt := hx.1
    omega
  have happly := Multiplier.gives_apply hm hw hword
  rw [hx.2, mul_comm] at happly
  exact happly

theorem gives_mapM_apply (hm : m.Valid) {multiplier : Multiplier} {c : ZMod m.value}
    (hc : multiplier.Represents m c) {xs : List Nat} {as : List (ZMod m.value)}
    (hxs : List.Forall₂ m.Represents xs as) :
    Gives (xs.mapM (multiplier.apply m)) fun r =>
      List.Forall₂ m.Represents r (as.map (c * ·)) := by
  induction hxs with
  | nil => exact ⟨[], rfl, .nil⟩
  | cons hx _ ih =>
      rw [List.mapM_cons]
      refine (gives_apply_residue hm hc hx).bind fun y hy => ?_
      exact ih.bind fun ys hys => ⟨_, rfl, .cons hy hys⟩

theorem gives_splitStep (hm : m.Valid) (hplan : plan.HasRoot m ψ) {multiplier : Multiplier}
    {w : ZMod m.value} (hw : multiplier.Represents m w) {x y : Nat} {a b : ZMod m.value}
    (hx : m.Represents x a) (hy : m.Represents y b) :
    Gives (plan.splitStep multiplier x y) fun r =>
      m.Represents r.1 (a + w * b) ∧ m.Represents r.2 (a - w * b) := by
  rw [Plan.splitStep, hplan.modulus_eq, require_bind ⟨hx.1, hy.1⟩]
  refine (gives_apply_residue hm hw hy).bind fun t ht => ?_
  refine (Modulus.gives_add hm hx ht).bind fun sum hsum => ?_
  exact (Modulus.gives_sub hm hx ht).bind fun difference hdifference =>
    ⟨_, rfl, hsum, hdifference⟩

theorem gives_mergeStep (hm : m.Valid) (hplan : plan.HasRoot m ψ) {multiplier : Multiplier}
    {z : ZMod m.value} (hz : multiplier.Represents m z) {x y : Nat} {a b : ZMod m.value}
    (hx : m.Represents x a) (hy : m.Represents y b) :
    Gives (plan.mergeStep multiplier x y) fun r =>
      m.Represents r.1 (a + b) ∧ m.Represents r.2 (z * (a - b)) := by
  rw [Plan.mergeStep, hplan.modulus_eq, require_bind ⟨hx.1, hy.1⟩]
  refine (Modulus.gives_add hm hx hy).bind fun sum hsum => ?_
  refine (Modulus.gives_sub hm hx hy).bind fun difference hdifference => ?_
  exact (gives_apply_residue hm hz hdifference).bind fun product hproduct =>
    ⟨_, rfl, hsum, hproduct⟩

/-- The forward transform of a block is the forward tree on the classes. -/
theorem gives_forwardBlock (hm : m.Valid) (hplan : plan.HasRoot m ψ) {depth k : Nat}
    (hk : (k + 1) * 2 ^ depth ≤ 2 * plan.size) {xs : List Nat} {as : List (ZMod m.value)}
    (hxs : List.Forall₂ m.Represents xs as) :
    Gives (plan.forwardBlock depth k xs) fun r =>
      List.Forall₂ m.Represents r (forwardTree (rootPower ψ plan.depth) depth k as) := by
  -- The recursion of the program is that of the tree; the halves are the blocks `2 * k` and
  -- `2 * k + 1`.
  induction depth generalizing k xs as with
  | zero => exact ⟨xs, rfl, hxs⟩
  | succ depth ih =>
      obtain ⟨hsize, hleft, hright⟩ := below_size hk
      rw [Plan.forwardBlock]
      refine (hplan.rootPowers k hsize).bind fun multiplier hmultiplier => ?_
      refine (gives_butterflies (fun _ _ _ _ => gives_splitStep hm hplan hmultiplier)
        (List.forall₂_take (2 ^ depth) hxs) (List.forall₂_drop (2 ^ depth) hxs)).bind
        fun halves hhalves => ?_
      refine (ih hleft hhalves.1).bind fun left hleftBlock => ?_
      refine (ih hright hhalves.2).bind fun right hrightBlock => ⟨_, rfl, ?_⟩
      exact List.rel_append hleftBlock hrightBlock

/-- The backward transform of block `i` of a level is the backward tree on the classes. -/
theorem gives_backwardBlock (hm : m.Valid) (hplan : plan.HasRoot m ψ) {depth level i : Nat}
    (hlevel : level + depth = plan.depth) (hi : i < 2 ^ level) {xs : List Nat}
    {as : List (ZMod m.value)} (hxs : List.Forall₂ m.Represents xs as) :
    Gives (plan.backwardBlock depth (2 ^ level) i xs) fun r =>
      List.Forall₂ m.Represents r
        (backwardTree (rootPower ψ⁻¹ plan.depth) depth (2 ^ level + i) as) := by
  induction depth generalizing level i xs as with
  | zero => exact ⟨xs, rfl, hxs⟩
  | succ depth ih =>
      have hbelow : level < plan.depth := by omega
      have hblocks : 2 * 2 ^ level = 2 ^ (level + 1) := by rw [Nat.pow_succ, Nat.mul_comm]
      have hle : 2 * 2 ^ level ≤ 2 ^ plan.depth := by
        rw [hblocks]
        exact Nat.pow_le_pow_right (by decide) hbelow
      -- The table of the inverse is read from its end, so its entry is found by a reversal.
      have hentry := hplan.inversePowers (plan.size - 2 * 2 ^ level + i) (by
        rw [hplan.size_eq]
        omega)
      rw [hplan.size_eq, ← bitReverse_inverse_entry hbelow hi, ← hplan.size_eq, hblocks] at hentry
      have hleft : 2 * (2 ^ level + i) = 2 ^ (level + 1) + 2 * i := by omega
      have hright : 2 * (2 ^ level + i) + 1 = 2 ^ (level + 1) + (2 * i + 1) := by omega
      rw [Plan.backwardBlock, backwardTree, hleft, hblocks]
      refine (ih (by omega) (by omega) (List.forall₂_take (2 ^ depth) hxs)).bind
        fun left hleftBlock => ?_
      refine (ih (by omega) (by omega) (List.forall₂_drop (2 ^ depth) hxs)).bind
        fun right hrightBlock => ?_
      refine hentry.bind fun multiplier hmultiplier => ?_
      refine (gives_butterflies (fun _ _ _ _ => gives_mergeStep hm hplan hmultiplier)
        hleftBlock hrightBlock).bind fun halves hhalves => ⟨_, rfl, ?_⟩
      exact List.rel_append hhalves.1 hhalves.2

/-! ## The program on vectors -/

theorem rowRepresents_iff_forall₂ {n : Nat} {row : List Nat} {v : Fin n → ZMod m.value} :
    m.RowRepresents row v ↔ List.Forall₂ m.Represents row (List.ofFn v) := by
  constructor
  · rintro ⟨hlength, hrow⟩
    refine List.forall₂_iff_get.2 ⟨by simpa using hlength, fun t ht ht' => ?_⟩
    have hcell := hrow ⟨t, by simpa using ht'⟩
    rw [List.getD_eq_getElem _ _ ht] at hcell
    simpa using hcell
  · intro h
    have hlength : row.length = n := by simpa using h.length_eq
    refine ⟨hlength, fun t => ?_⟩
    have ht : (t : Nat) < row.length := by
      rw [hlength]
      exact t.isLt
    have hcell := h.get ht (by simp)
    rw [List.getD_eq_getElem _ _ ht]
    simpa using hcell

namespace Plan

theorem gives_forward (hm : m.Valid) (hplan : plan.HasRoot m ψ) {n : Nat} (hn : plan.size = n)
    {row : List Nat} {v : Fin n → ZMod m.value} (hrow : m.RowRepresents row v) :
    Gives (plan.forward row) fun r => m.RowRepresents r (evaluations ψ plan.depth v) := by
  subst hn
  rw [forward, require_bind hrow.1]
  have hwhole : (1 + 1) * 2 ^ plan.depth ≤ 2 * plan.size := by rw [hplan.size_eq]
  have hblock := gives_forwardBlock hm hplan hwhole (rowRepresents_iff_forall₂.1 hrow)
  refine hblock.imp fun r hr => rowRepresents_iff_forall₂.2 ?_
  rw [ofFn_evaluations hplan.size_eq hplan.pow_size]
  exact hr

theorem gives_backward (hm : m.Valid) (hplan : plan.HasRoot m ψ) {n : Nat} (hn : plan.size = n)
    {row : List Nat} {v : Fin n → ZMod m.value}
    (hrow : m.RowRepresents row (evaluations ψ plan.depth v)) :
    Gives (plan.backward row) fun r => m.RowRepresents r v := by
  subst hn
  rw [backward, require_bind hrow.1, hplan.modulus_eq]
  obtain ⟨c, hc, hunit⟩ := hplan.sizeInverse
  have hfirst : 0 < 2 ^ 0 := by decide
  have hblock := gives_backwardBlock hm hplan (Nat.zero_add plan.depth) hfirst
    (rowRepresents_iff_forall₂.1 hrow)
  refine hblock.bind fun merged hmerged => ?_
  have hmap := gives_mapM_apply hm hc hmerged
  refine hmap.imp fun r hr => rowRepresents_iff_forall₂.2 ?_
  -- The backward tree leaves a factor of the size, which the last product takes away.
  rw [← interpolation_evaluations hplan.size_eq hplan.pow_size hunit v,
    ofFn_interpolation hplan.size_eq]
  exact hr

end Plan
end Blocks
end Transform
end RelinCeremony
