import RelinCeremony.Proofs.Transform.Apply

namespace RelinCeremony
namespace Transform

/-!
# The values of the forward transform

Leaf `t` of the tree stands for the power of the root whose exponent is the odd
number `2 * r + 1`, where `r` is `t` with its binary digits in reverse order.  So
entry `t` of the forward transform is the value of the polynomial at that power.

The result is stated on numbers, without classes, and with the reversal of bit
vectors of the core library.
-/

/-! ## The leaves -/

theorem getElem_leafPoints {K : Type} (c : Nat → K) (depth k : Nat) {t : Nat}
    (ht : t < (leafPoints c depth k).length) :
    (leafPoints c depth k)[t] = c (2 ^ depth * k + t) := by
  induction depth generalizing k t with
  | zero =>
      obtain rfl : t = 0 := by simpa [leafPoints] using ht
      simp [leafPoints]
  | succ depth ih =>
      have hlength := length_leafPoints c depth (2 * k)
      simp only [leafPoints, List.getElem_append]
      split
      case isTrue hleft =>
        rw [ih]
        congr 1
        ring
      case isFalse hright =>
        rw [ih]
        congr 1
        rw [hlength] at hright ⊢
        have hwhole : 2 ^ (depth + 1) * k = 2 ^ depth * (2 * k) := by ring
        have hbelow : 2 ^ depth * (2 * k + 1) = 2 ^ depth * (2 * k) + 2 ^ depth := by ring
        omega

section Leaves

variable {K : Type} [CommRing K] {ψ : Kˣ} {depth t : Nat}

theorem leaf_eq_blockClass (ht : t < 2 ^ depth) :
    leaf ψ depth t = blockClass ψ depth (2 ^ depth + t) := by
  have hlength : t < (leafPoints (blockClass ψ depth) depth 1).length := by
    rw [length_leafPoints]
    exact ht
  rw [leaf, List.getD_eq_getElem _ _ hlength, getElem_leafPoints, Nat.mul_one]

/-- The points of the leaves are the odd powers of the root, in reversed order. -/
theorem leaf_eq_pow (hpow : ψ ^ 2 ^ depth = -1) (ht : t < 2 ^ depth) :
    leaf ψ depth t = ((ψ ^ (2 * bitReverse depth t + 1) : Kˣ) : K) := by
  rw [leaf_eq_blockClass ht, blockClass]
  cases depth with
  | zero =>
      obtain rfl : t = 0 := by omega
      rw [if_pos rfl, bitReverse_zero, Nat.mul_zero, Nat.zero_add, ← Nat.pow_zero 2, hpow,
        Units.val_neg, Units.val_one]
  | succ depth =>
      -- The leaf stands below the block `2 ^ depth + t / 2`, on the left or on the right.
      have hpowSucc : 2 ^ (depth + 1) = 2 * 2 ^ depth := by ring
      have hhalf : t / 2 < 2 ^ depth := by omega
      have hne : 2 ^ (depth + 1) + t ≠ 1 := by
        have hpos := Nat.two_pow_pos depth
        omega
      have hparent : (2 ^ (depth + 1) + t) / 2 = 2 ^ depth + t / 2 := by omega
      have hreversed := bitReverse_inverse_entry (Nat.lt_succ_self depth) hhalf
      rw [hpowSucc, Nat.sub_self, Nat.zero_add] at hreversed
      rw [if_neg hne, hparent, rootPower, hreversed]
      split
      case isTrue heven =>
        have hleft : t = 2 * (t / 2) := by omega
        conv_rhs => rw [hleft]
        rw [two_mul_bitReverse_even hhalf]
      case isFalse hodd =>
        have hright : t = 2 * (t / 2) + 1 := by omega
        conv_rhs => rw [hright]
        rw [two_mul_bitReverse_odd hhalf, Nat.add_assoc, pow_add ψ (2 ^ (depth + 1)), hpow,
          neg_one_mul, Units.val_neg]

/-- Entry `i` of the values of the coefficients `v`. -/
theorem evaluations_eq_sum {n : Nat} (hn : n = 2 ^ depth) (hpow : ψ ^ n = -1) (v : Fin n → K)
    (i : Fin n) : evaluations ψ depth v i =
      ∑ j : Fin n, v j * (ψ : K) ^ ((j : Nat) * (2 * bitReverse depth i + 1)) := by
  subst hn
  rw [evaluations, evaluate, leaf_eq_pow hpow i.isLt]
  refine Finset.sum_congr rfl fun j _ => ?_
  rw [pow_mul', Units.val_pow_eq_pow_val]

end Leaves

/-! ## Numbers -/

namespace Plan

/-- The forward transform of reduced numbers gives the values of their polynomial at
the odd powers of a root of order `2 * size`, in bit-reversed order. -/
theorem forward_evaluates {p size : Nat} {m : Modulus} {plan : Plan}
    (hm : Modulus.build p = .ok (some m)) (hplan : build m size = .ok (some plan)) :
    ∃ ψ < p, ψ ^ size % p = p - 1 ∧
      ∀ xs, Modulus.IsRow p size xs → Gives (plan.forward xs) fun ys =>
        Modulus.IsRow p size ys ∧ ∀ i < size, ys.getD i 0 =
          (∑ j ∈ Finset.range size, xs.getD j 0 *
            ψ ^ (j * (2 * (BitVec.ofNat size.log2 i).reverse.toNat + 1))) % p := by
  obtain ⟨hvalid, rfl⟩ := Modulus.valid_of_build hm
  obtain ⟨hprime, -, ⟨ψ, hroot⟩, rfl⟩ := hasRoot_of_build hvalid hplan
  have : NeZero m.value := ⟨hprime.ne_zero⟩
  have hψ : (((ψ : ZMod m.value).val : Nat) : ZMod m.value) = ψ := ZMod.natCast_zmod_val _
  have hdepth : plan.size.log2 = plan.depth := by
    rw [hroot.size_eq, Nat.log2_two_pow]
  refine ⟨(ψ : ZMod m.value).val, ZMod.val_lt _, ?_, fun xs hxs => ?_⟩
  · -- Both sides are the reduced residue of `-1`.
    have hpow := Modulus.represents_mod hvalid ((ψ : ZMod m.value).val ^ plan.size)
    rw [Nat.cast_pow, hψ, ← Units.val_pow_eq_pow_val, hroot.pow_size, Units.val_neg,
      Units.val_one] at hpow
    refine hpow.unique ⟨Nat.sub_lt hvalid.pos Nat.one_pos, ?_⟩
    rw [Nat.cast_sub hvalid.pos, ZMod.natCast_self, Nat.cast_one, zero_sub]
  · refine (gives_forward hvalid hroot rfl hxs.represents).imp fun ys hys =>
      ⟨hys.isRow, fun i hi => ?_⟩
    -- The number on the right is the reduced residue of the value at the leaf.
    have hvalue : ((∑ j ∈ Finset.range plan.size, xs.getD j 0 * (ψ : ZMod m.value).val ^
          (j * (2 * bitReverse plan.depth i + 1)) : Nat) : ZMod m.value) =
        evaluations ψ plan.depth (fun t : Fin plan.size => (xs.getD t 0 : ZMod m.value))
          ⟨i, hi⟩ := by
      rw [Nat.cast_sum, Finset.sum_range, evaluations_eq_sum hroot.size_eq hroot.pow_size]
      simp only [Nat.cast_mul, Nat.cast_pow, hψ]
    rw [hdepth, ← bitReverse_eq_reverse]
    refine (hys.2 ⟨i, hi⟩).unique ?_
    rw [← hvalue]
    exact Modulus.represents_mod hvalid _

/-- Whether a generator leads to a plan for a prime and a size can be computed. -/
theorem exists_buildFrom {g : Random.Generator} {p size : Nat}
    (h : Gives (Modulus.build p) fun m? =>
      ∃ m ∈ m?, Gives (buildFrom g m size) fun plan? => plan?.isSome) :
    ∃ m plan, Modulus.build p = .ok (some m) ∧ buildFrom g m size = .ok (some plan) := by
  obtain ⟨_, hm, m, rfl, plan?, hplan, hsome⟩ := h
  obtain ⟨plan, rfl⟩ := Option.isSome_iff_exists.1 hsome
  exact ⟨m, plan, hm, hplan⟩

theorem exists_build {p size : Nat} (h : Gives (Modulus.build p) fun m? =>
      ∃ m ∈ m?, Gives (build m size) fun plan? => plan?.isSome) :
    ∃ m plan, Modulus.build p = .ok (some m) ∧ build m size = .ok (some plan) :=
  exists_buildFrom h

/-- Modulo 97 and for size 8, the values of the polynomial `x` are the points: entry 1 is the
ninth power of the root, since 4 is 1 with three digits reversed. -/
theorem forward_evaluates_small : ∃ m plan, Modulus.build 97 = .ok (some m) ∧
    build m 8 = .ok (some plan) ∧ ∃ ψ < 97, ψ ^ 8 % 97 = 96 ∧
      Gives (plan.forward [0, 1, 0, 0, 0, 0, 0, 0]) fun ys =>
        ys.getD 0 0 = ψ ^ 1 % 97 ∧ ys.getD 1 0 = ψ ^ 9 % 97 ∧ ys.getD 6 0 = ψ ^ 7 % 97 := by
  obtain ⟨m, plan, hm, hplan⟩ : ∃ m plan, Modulus.build 97 = .ok (some m) ∧
      build m 8 = .ok (some plan) := exists_build (by decide +kernel)
  obtain ⟨ψ, hψ, hpow, hforward⟩ := forward_evaluates hm hplan
  have hpoint : ∀ i e, 2 * (BitVec.ofNat (Nat.log2 8) i).reverse.toNat + 1 = e →
      (∑ j ∈ Finset.range 8, [0, 1, 0, 0, 0, 0, 0, 0].getD j 0 *
        ψ ^ (j * (2 * (BitVec.ofNat (Nat.log2 8) i).reverse.toNat + 1))) % 97 = ψ ^ e % 97 := by
    rintro i e rfl
    simp [Finset.sum_range_succ]
  refine ⟨m, plan, hm, hplan, ψ, hψ, hpow, (hforward _ (by decide)).imp fun ys hys => ?_⟩
  exact ⟨(hys.2 0 (by decide)).trans (hpoint 0 1 (by decide)),
    (hys.2 1 (by decide)).trans (hpoint 1 9 (by decide)),
    (hys.2 6 (by decide)).trans (hpoint 6 7 (by decide))⟩

end Plan
end Transform
end RelinCeremony
