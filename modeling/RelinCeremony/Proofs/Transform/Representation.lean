import Mathlib.GroupTheory.OrderOfElement
import RelinCeremony.Proofs.Transform.Evaluation
import RelinCeremony.Proofs.Transform.RunningIndex

namespace RelinCeremony
namespace Transform

/-!
# The tables of a plan as numbers

Whichever candidates the search for a root has drawn, a plan that is built belongs to the
root that was found, a number of order `2 * size` modulo the prime.  Its tables hold powers
of this number and of its inverse, in the order of the reversed words, and every entry has
the quotient that belongs to its factor.

The loops in place read the tables by a running index.  It leads to the entry `blocks + i`
for block `i` of a forward stage of `blocks` blocks, and what the backward loops read for
this block is the inverse of that entry.
-/

variable {m : Modulus}

/-! ## The size and the order -/

/-- No size fills the word: twice the size would be zero as a word. -/
theorem lt_of_mod_low_eq_one (hm : m.Valid) {depth : Nat}
    (h : m.value % Word.low (2 * 2 ^ depth) = 1) : depth < 63 := by
  by_contra hge
  have hdvd : 2 ^ 64 ∣ 2 * 2 ^ depth := by
    rw [← pow_succ']
    exact pow_dvd_pow 2 (by omega)
  have hlow : Word.low (2 * 2 ^ depth) = 0 := Nat.mod_eq_zero_of_dvd hdvd
  have hthree := hm.three_le
  rw [hlow, Nat.mod_zero] at h
  omega

/-- A class with the power `-1` at `2 ^ depth` has the double as its order, since the order
divides the double and not `2 ^ depth` itself. -/
theorem orderOf_eq_of_pow_eq_neg_one (hm : m.Valid) {x : ZMod m.value} {depth : Nat}
    (h : x ^ 2 ^ depth = -1) : orderOf x = 2 * 2 ^ depth := by
  have : Fact (2 < m.value) := ⟨hm.three_le⟩
  have hnotOne : ¬x ^ 2 ^ depth = 1 := by
    rw [h]
    exact ZMod.neg_one_ne_one
  have hone : x ^ 2 ^ (depth + 1) = 1 := by
    rw [pow_succ, pow_mul, h]
    exact neg_one_sq
  rw [orderOf_eq_prime_pow hnotOne hone, pow_succ']

/-! ## The entries -/

theorem size_reversedMultipliers {depth : Nat} {terms : List Nat} {table : Array Multiplier}
    (h : reversedMultipliers m depth terms = .ok table) : table.size = 2 ^ depth := by
  unfold reversedMultipliers at h
  obtain ⟨multipliers, hmultipliers, h⟩ := bind_eq_ok_iff.1 h
  cases h
  have hlength := (mapM_eq_ok_iff.1 hmultipliers).length_eq
  rw [List.length_range] at hlength
  exact hlength.symm

/-- The multiplier of the power `exponent` of a number. -/
def IsPower (m : Modulus) (ψ exponent : Nat) (w : Multiplier) : Prop :=
  w.IsExact m ∧ w.factor = ψ ^ exponent % m.value

/-- The multiplier of the inverse of the power `exponent` of a number. -/
def IsInversePower (m : Modulus) (ψ exponent : Nat) (w : Multiplier) : Prop :=
  w.IsExact m ∧ w.factor * ψ ^ exponent % m.value = 1

section Entries

variable {ψ : (ZMod m.value)ˣ} {root exponent : Nat} {w : Multiplier}

theorem isPower_of_represents (hm : m.Valid) (hroot : (ψ : ZMod m.value) = root)
    (h : w.Represents m (ψ ^ exponent : (ZMod m.value)ˣ)) : IsPower m root exponent w := by
  refine ⟨h.isExact hm, h.1.unique ?_⟩
  rw [Units.val_pow_eq_pow_val, hroot, ← Nat.cast_pow]
  exact Modulus.represents_mod hm _

theorem isInversePower_of_represents (hm : m.Valid) (hroot : (ψ : ZMod m.value) = root)
    (h : w.Represents m (ψ⁻¹ ^ exponent : (ZMod m.value)ˣ)) :
    IsInversePower m root exponent w := by
  refine ⟨h.isExact hm, ?_⟩
  rw [← Modulus.cast_eq_one_iff hm, Nat.cast_mul, Nat.cast_pow, h.1.2, ← hroot,
    ← Units.val_pow_eq_pow_val, ← Units.val_mul, inv_pow, inv_mul_cancel, Units.val_one]

end Entries

/-! ## Plans -/

namespace Plan

variable {plan : Plan} {size root : Nat}

/-- The tables of the plan are those of a size, a modulus and a number `root`: entry `i`
holds the power with the reversal of `i` as exponent, and the inverse of the power with the
exponent one more. -/
structure HoldsPowers (plan : Plan) (m : Modulus) (size root : Nat) : Prop where
  modulus_eq : plan.modulus = m
  size_eq : plan.size = size
  rootPowers_size : plan.rootPowers.size = size
  inversePowers_size : plan.inversePowers.size = size
  rootPowers : ∀ i < size, Gives (entry plan.rootPowers i)
    (IsPower m root (wordReversal size i))
  inversePowers : ∀ i < size, Gives (entry plan.inversePowers i)
    (IsInversePower m root (1 + wordReversal size i))
  sizeInverse : plan.sizeInverse.IsExact m ∧ plan.sizeInverse.factor * size % m.value = 1

/-- The two directions are loops over stages, each with a running index into its table that
leads, for block `i` of a stage of `blocks` blocks, to entry `blocks + i` in the one
direction and to entry `size - 2 * blocks + i` in the other.  The entries are the power with
the reversal of `blocks + i` as exponent and its inverse. -/
structure ReadsPowers (plan : Plan) (m : Modulus) (size root : Nat) : Prop where
  forward_eq : ∀ row, Modulus.IsRow m.value size row →
    plan.forward row = plan.run (visitSteps .split size 1 (stagesOf size.log2)) row
  forward_index : (visits (stagesOf size.log2)).zipIdx 1 =
    (visits (stagesOf size.log2)).map fun (blocks, i) => ((blocks, i), blocks + i)
  forward_entry : ∀ blocks i, (blocks, i) ∈ visits (stagesOf size.log2) →
    Gives (entry plan.rootPowers (blocks + i)) (IsPower m root (wordReversal size (blocks + i)))
  backward_eq : ∀ row, Modulus.IsRow m.value size row →
    plan.backward row =
      plan.run (visitSteps .merge size 0 (stagesOf size.log2).reverse ++ scaleLoop size 0) row
  backward_index : (visits (stagesOf size.log2).reverse).zipIdx 0 =
    (visits (stagesOf size.log2).reverse).map fun (blocks, i) =>
      ((blocks, i), size - 2 * blocks + i)
  backward_entry : ∀ blocks i, (blocks, i) ∈ visits (stagesOf size.log2).reverse →
    Gives (entry plan.inversePowers (size - 2 * blocks + i))
      (IsInversePower m root (wordReversal size (blocks + i)))

theorem sizes_of_ofRoot {inverseRoot sizeInverse : Nat}
    (h : ofRoot m size root inverseRoot sizeInverse = .ok plan) :
    plan.rootPowers.size = 2 ^ size.log2 ∧ plan.inversePowers.size = 2 ^ size.log2 := by
  unfold ofRoot at h
  obtain ⟨rootPowers, hrootPowers, h⟩ := bind_eq_ok_iff.1 h
  obtain ⟨inversePowers, hinversePowers, h⟩ := bind_eq_ok_iff.1 h
  obtain ⟨_, _, h⟩ := bind_eq_ok_iff.1 h
  cases h
  exact ⟨size_reversedMultipliers hrootPowers, size_reversedMultipliers hinversePowers⟩

section HasRoot

variable {ψ : (ZMod m.value)ˣ}

theorem HasRoot.wordReversal_eq (hplan : plan.HasRoot m ψ) (hdepth : plan.depth < 63) (i : Nat) :
    wordReversal plan.size i = bitReverse plan.depth i := by
  rw [hplan.size_eq]
  exact wordReversal_two_pow (by omega) i

theorem HasRoot.log2_size (hplan : plan.HasRoot m ψ) : plan.size.log2 = plan.depth := by
  rw [hplan.size_eq, Nat.log2_two_pow]

/-- The blocks of the stages are those of the levels above the leaves. -/
theorem HasRoot.of_mem_visits (hplan : plan.HasRoot m ψ) {blocks i : Nat}
    (h : (blocks, i) ∈ visits (stagesOf plan.size.log2)) :
    ∃ level < plan.depth, 2 ^ level = blocks ∧ i < blocks ∧ 2 * blocks ≤ plan.size := by
  obtain ⟨hblocks, hi⟩ := mem_visits.1 h
  rw [hplan.log2_size] at hblocks
  obtain ⟨level, hlevel, rfl⟩ := mem_stagesOf.1 hblocks
  have hbelow := two_pow_le_size hplan (Nat.succ_le_of_lt hlevel)
  rw [Nat.succ_eq_add_one, pow_succ'] at hbelow
  exact ⟨level, hlevel, rfl, hi, hbelow⟩

theorem HasRoot.holdsPowers (hm : m.Valid) (hplan : plan.HasRoot m ψ) (hdepth : plan.depth < 63)
    (hroot : (ψ : ZMod m.value) = root) (hrootPowers : plan.rootPowers.size = plan.size)
    (hinversePowers : plan.inversePowers.size = plan.size) :
    plan.HoldsPowers m plan.size root := by
  refine ⟨hplan.modulus_eq, rfl, hrootPowers, hinversePowers, fun i hi => ?_, fun i hi => ?_, ?_⟩
  · rw [hplan.wordReversal_eq hdepth]
    exact (hplan.rootPowers i hi).imp fun _ hw => isPower_of_represents hm hroot hw
  · rw [hplan.wordReversal_eq hdepth, Nat.add_comm 1]
    exact (hplan.inversePowers i hi).imp fun _ hw => isInversePower_of_represents hm hroot hw
  · obtain ⟨v, hv, hunit⟩ := hplan.sizeInverse
    refine ⟨hv.isExact hm, ?_⟩
    rw [← Modulus.cast_eq_one_iff hm, Nat.cast_mul, hv.1.2]
    exact hunit

theorem HasRoot.readsPowers (hm : m.Valid) (hplan : plan.HasRoot m ψ) (hdepth : plan.depth < 63)
    (hroot : (ψ : ZMod m.value) = root) : plan.ReadsPowers m plan.size root := by
  have hsize := hplan.size_eq
  refine ⟨fun row hrow => ?_, zipIdx_visits_forward _, fun blocks i hvisit => ?_,
    fun row hrow => ?_, ?_, fun blocks i hvisit => ?_⟩
  · rw [← run_forwardSteps hm hplan hrow, forwardSteps_eq_visitSteps hsize, hplan.log2_size]
  · obtain ⟨_, _, _, hi, hle⟩ := hplan.of_mem_visits hvisit
    rw [hplan.wordReversal_eq hdepth]
    exact (hplan.rootPowers _ (by omega)).imp fun _ hw => isPower_of_represents hm hroot hw
  · rw [← run_backwardSteps hm hplan hrow, backwardSteps_eq_visitSteps hsize, hplan.log2_size]
  · have hindex := zipIdx_visits_backward hsize.symm.le
    rw [← hsize, Nat.sub_self] at hindex
    rw [hplan.log2_size]
    exact hindex
  · -- The exponent of the entry is one more than its reversal, which is that of the block.
    obtain ⟨level, hlevel, rfl, hi, hle⟩ := hplan.of_mem_visits (mem_visits_reverse.1 hvisit)
    have hexponent := bitReverse_inverse_entry hlevel hi
    rw [← hsize] at hexponent
    rw [hplan.wordReversal_eq hdepth, hexponent]
    exact (hplan.inversePowers _ (by omega)).imp fun _ hw =>
      isInversePower_of_represents hm hroot hw

end HasRoot

/-- The construction is a search with a fixed generator, but whatever a generator draws, a
plan that is built represents the root that was found.  The root has order `2 * size` and
the power `-1` at `size`; the indices are permuted by the reversal within words, which
undoes itself; the tables hold the powers in this order; and the loops read them by their
running index. -/
theorem buildFrom_represents {p : Nat} (hm : Modulus.build p = .ok (some m)) (size : Nat) :
    build m size = buildFrom rootGenerator m size ∧
    ∀ g plan, buildFrom g m size = .ok (some plan) →
      (∀ i < size, wordReversal size (wordReversal size i) = i) ∧
      Set.BijOn (wordReversal size) (Set.Iio size) (Set.Iio size) ∧
      ∃ root < p, findRootFrom g m size = .ok (some root) ∧
        orderOf (root : ZMod p) = 2 * size ∧ root ^ size % p = p - 1 ∧
        plan.HoldsPowers m size root ∧ plan.ReadsPowers m size root := by
  obtain ⟨hvalid, rfl⟩ := Modulus.valid_of_build hm
  refine ⟨build_eq_buildFrom m size, fun g plan hbuild => ?_⟩
  obtain ⟨-, hcongruent, ⟨root, ψ, hfind, hlt, hψ, hplan⟩, rfl⟩ :=
    hasRoot_of_buildFrom hvalid hbuild
  obtain ⟨-, _, _, _, _, _, _, hparts⟩ := ofRoot_of_buildFrom hbuild
  obtain ⟨hrootPowers, hinversePowers⟩ := sizes_of_ofRoot hparts
  rw [hplan.log2_size, ← hplan.size_eq] at hrootPowers hinversePowers
  have hdepth : plan.depth < 63 := by
    rw [hplan.size_eq] at hcongruent
    exact lt_of_mod_low_eq_one hvalid hcongruent
  have hreversal : wordReversal plan.size = bitReverse plan.depth :=
    funext (hplan.wordReversal_eq hdepth)
  have hpow : (root : ZMod m.value) ^ plan.size = -1 := by
    rw [← hψ, ← Units.val_pow_eq_pow_val, hplan.pow_size, Units.val_neg, Units.val_one]
  refine ⟨fun i hi => ?_, ?_, root, hlt, hfind, ?_, ?_,
    hplan.holdsPowers hvalid hdepth hψ hrootPowers hinversePowers,
    hplan.readsPowers hvalid hdepth hψ⟩
  · rw [hreversal]
    exact bitReverse_bitReverse (hplan.size_eq ▸ hi)
  · rw [hreversal, hplan.size_eq]
    exact bijOn_bitReverse plan.depth
  · have horder := hpow
    rw [hplan.size_eq] at horder ⊢
    exact orderOf_eq_of_pow_eq_neg_one hvalid horder
  · -- Both sides are the reduced residue of `-1`.
    have hmod := Modulus.represents_mod hvalid (root ^ plan.size)
    rw [Nat.cast_pow, hpow] at hmod
    exact hmod.unique (Modulus.represents_pred hvalid)

/-- Modulo 97 and for size 8, with a script whose first candidate is 0, so that the second
one gives the root.  Entry 1 holds its fourth power, since 4 is 1 with three digits
reversed.  For block 1 of the stage of two blocks, entry 3 is read forwards and entry 5
backwards. -/
theorem buildFrom_represents_small : ∃ m plan root, Modulus.build 97 = .ok (some m) ∧
    buildFrom (.ofScript [0, 950863096582966579]) m 8 = .ok (some plan) ∧
    findRootFrom (.ofScript [0, 950863096582966579]) m 8 = .ok (some root) ∧
    orderOf (root : ZMod 97) = 16 ∧ root ^ 8 % 97 = 96 ∧
    wordReversal 8 1 = 4 ∧ wordReversal 8 (wordReversal 8 1) = 1 ∧
    Gives (entry plan.rootPowers 1) (IsPower m root 4) ∧
    Gives (entry plan.rootPowers 3) (IsPower m root 6) ∧
    Gives (entry plan.inversePowers 5) (IsInversePower m root 6) := by
  obtain ⟨m, plan, hm, hplan⟩ : ∃ m plan, Modulus.build 97 = .ok (some m) ∧
      buildFrom (.ofScript [0, 950863096582966579]) m 8 = .ok (some plan) :=
    exists_buildFrom (by decide +kernel)
  obtain ⟨-, hrepresents⟩ := buildFrom_represents hm 8
  obtain ⟨hinvolutive, -, root, -, hfind, horder, hpow, hholds, hreads⟩ :=
    hrepresents _ plan hplan
  have hone : wordReversal 8 1 = 4 := by decide +kernel
  have hthree : wordReversal 8 (2 + 1) = 6 := by decide +kernel
  have hentry := hholds.rootPowers 1 (by decide)
  have hforward := hreads.forward_entry 2 1 (by decide)
  have hbackward := hreads.backward_entry 2 1 (by decide)
  rw [hone] at hentry
  rw [hthree] at hforward hbackward
  exact ⟨m, plan, root, hm, hplan, hfind, horder, hpow, hone, hinvolutive 1 (by decide), hentry,
    hforward, hbackward⟩

end Plan
end Transform
end RelinCeremony
