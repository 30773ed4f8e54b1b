import RelinCeremony.Proofs.Modulus.Construction
import RelinCeremony.Proofs.Modulus.Montgomery

namespace RelinCeremony
namespace Modulus

/-!
# Montgomery form on numbers

The Montgomery operations as equations between numbers, for every odd modulus of at
most 62 bits, prime or not.  A reduction gives the one residue whose product by the
radix `2^64` is the number reduced, up to multiples of the modulus.  So the two
conversions undo each other, a product with a factor in Montgomery form is the plain
product, and a digit shift is the product by a power of two.

Each equation says that two reduced residues of one class are equal; the classes come
from `Proofs.Modulus.Montgomery`.
-/

variable {m : Modulus} {a b : Nat}

/-! ## Values of classes -/

/-- A computation that gives the reduced residue of a class gives any other one. -/
theorem eq_ok_of_gives_represents {x : Checked Nat} {c : ZMod m.value}
    (h : Gives x fun r => m.Represents r c) (ha : m.Represents a c) : x = .ok a := by
  obtain ⟨r, rfl, hr⟩ := h
  rw [hr.unique ha]

theorem represents_mul (hm : m.Valid) (a b : Nat) : m.Represents (m.mul a b) (a * b) := by
  rw [← Nat.cast_mul]
  exact represents_mod hm (a * b)

/-- The quotients by the radix are the residues whose product by the radix is the
dividend. -/
theorem represents_mul_radixInverse_iff (hm : m.Valid) {r x : Nat} :
    m.Represents r (x * m.radixInverse) ↔ r < m.value ∧ r * 2 ^ 64 % m.value = x % m.value := by
  refine and_congr_right fun _ => ?_
  have hradix := radix_mul_radixInverse hm
  rw [← ZMod.natCast_eq_natCast_iff', Nat.cast_mul, Nat.cast_pow, Nat.cast_ofNat]
  constructor
  · intro hr
    linear_combination (2 ^ 64 : ZMod m.value) * hr + (x : ZMod m.value) * hradix
  · intro hr
    linear_combination m.radixInverse * hr - (r : ZMod m.value) * hradix

/-- The reduction of a number below the radix times the modulus gives its only quotient
by the radix. -/
theorem gives_montgomeryReduce_iff (hm : m.Valid) {x : DoubleWord}
    (hx : x.toNat < m.value * 2 ^ 64) :
    Gives (m.montgomeryReduce x) fun r =>
      ∀ s, s < m.value ∧ s * 2 ^ 64 % m.value = x.toNat % m.value ↔ s = r := by
  refine (gives_montgomeryReduce hm hx).imp fun r hr s => ?_
  rw [← represents_mul_radixInverse_iff hm]
  constructor
  · exact fun hs => hs.unique hr
  · rintro rfl
    exact hr

/-! ## The constants -/

theorem Valid.value_mul_negInverse (hm : m.Valid) :
    m.value * m.negInverse.toNat % 2 ^ 64 = 2 ^ 64 - 1 := by
  have hproduct := congrArg UInt64.toNat hm.negInverse
  rw [UInt64.toNat_mul, hm.toNat_word] at hproduct
  exact hproduct

/-! ## The operations -/

theorem ofMontgomery_toMontgomery (hm : m.Valid) (ha : a < m.value) :
    (do m.ofMontgomery (← m.toMontgomery a)) = .ok a := by
  refine eq_ok_of_gives_represents ((gives_toMontgomery hm (represents_self ha)).bind
    fun form hform => gives_ofMontgomery hm hform) ?_
  rw [mul_assoc, radix_mul_radixInverse hm, mul_one]
  exact represents_self ha

theorem toMontgomery_ofMontgomery (hm : m.Valid) (ha : a < m.value) :
    (do m.toMontgomery (← m.ofMontgomery a)) = .ok a := by
  refine eq_ok_of_gives_represents ((gives_ofMontgomery hm (represents_self ha)).bind
    fun form hform => gives_toMontgomery hm hform) ?_
  rw [mul_right_comm, mul_assoc, radix_mul_radixInverse hm, mul_one]
  exact represents_self ha

/-- The Montgomery product with one factor in Montgomery form is the plain product. -/
theorem montgomeryMul_toMontgomery (hm : m.Valid) (ha : a < m.value) (hb : b < m.value) :
    (do m.montgomeryMul (← m.toMontgomery a) b) = .ok (m.mul a b) := by
  refine eq_ok_of_gives_represents ((gives_toMontgomery hm (represents_self ha)).bind
    fun form hform => gives_montgomeryMul hm hform (represents_self hb)) ?_
  have hclass : (a * 2 ^ 64 * b * m.radixInverse : ZMod m.value) = a * b := by
    linear_combination (a * b : ZMod m.value) * radix_mul_radixInverse hm
  rw [hclass]
  exact represents_mul hm a b

/-- The Montgomery product of two Montgomery forms is the Montgomery form of the
product. -/
theorem gives_montgomeryMul_toMontgomery (hm : m.Valid) (ha : a < m.value) (hb : b < m.value) :
    Gives (m.toMontgomery (m.mul a b)) fun r =>
      (do m.montgomeryMul (← m.toMontgomery a) (← m.toMontgomery b)) = .ok r := by
  refine (gives_toMontgomery hm (represents_mul hm a b)).imp fun r hr => ?_
  refine eq_ok_of_gives_represents ((gives_toMontgomery hm (represents_self ha)).bind
    fun left hleft => (gives_toMontgomery hm (represents_self hb)).bind
      fun right hright => gives_montgomeryMul hm hleft hright) ?_
  have hclass : (a * 2 ^ 64 * (b * 2 ^ 64) * m.radixInverse : ZMod m.value) = a * b * 2 ^ 64 := by
    linear_combination (a * b * 2 ^ 64 : ZMod m.value) * radix_mul_radixInverse hm
  rwa [hclass]

theorem shiftDigits_toMontgomery (hm : m.Valid) (ha : a < m.value) {bits : Nat}
    (hbits : bits < 64) :
    (do m.shiftDigits (← m.toMontgomery a) bits) = .ok (a * 2 ^ bits % m.value) := by
  refine eq_ok_of_gives_represents ((gives_toMontgomery hm (represents_self ha)).bind
    fun form hform => gives_shiftDigits hm hform hbits) ?_
  have hclass : (a * 2 ^ 64 * 2 ^ bits * m.radixInverse : ZMod m.value) =
      (a * 2 ^ bits : Nat) := by
    push_cast
    linear_combination (a * 2 ^ bits : ZMod m.value) * radix_mul_radixInverse hm
  rw [hclass]
  exact represents_mod hm _

/-- Every odd number from 3 to `2^62 - 1` becomes a modulus with the negated inverse of
the number modulo `2^64` and the square of the radix.  Modulo it, every number below the
radix times the modulus is reduced to its only quotient by the radix; the conversions to
and from Montgomery form are inverse; and products and digit shifts of Montgomery forms
are those of the plain residues. -/
theorem montgomery_exact {p : Nat} (hodd : p % 2 = 1) (hthree : 3 ≤ p) (hlt : p < 2 ^ 62) :
    ∃ m, build p = .ok (some m) ∧ m.value = p ∧
      p * m.negInverse.toNat % 2 ^ 64 = 2 ^ 64 - 1 ∧ m.radixSquared = 2 ^ 128 % p ∧
      (∀ x : DoubleWord, x.toNat < p * 2 ^ 64 → Gives (m.montgomeryReduce x) fun r =>
        ∀ s, s < p ∧ s * 2 ^ 64 % p = x.toNat % p ↔ s = r) ∧
      ∀ a < p, ∀ b < p,
        (do m.ofMontgomery (← m.toMontgomery a)) = .ok a ∧
        (do m.toMontgomery (← m.ofMontgomery a)) = .ok a ∧
        (do m.montgomeryMul (← m.toMontgomery a) b) = .ok (m.mul a b) ∧
        (Gives (m.toMontgomery (m.mul a b)) fun r =>
          (do m.montgomeryMul (← m.toMontgomery a) (← m.toMontgomery b)) = .ok r) ∧
        ∀ bits < 64, (do m.shiftDigits (← m.toMontgomery a) bits) = .ok (a * 2 ^ bits % p) := by
  obtain ⟨_, hbuild, m, rfl, hm, rfl⟩ :=
    gives_build_of_isAdmissible (isAdmissible_iff.2 ⟨hthree, hlt, hodd⟩)
  refine ⟨m, hbuild, rfl, hm.value_mul_negInverse, hm.radixSquared,
    fun x hx => gives_montgomeryReduce_iff hm hx, fun a ha b hb => ?_⟩
  exact ⟨ofMontgomery_toMontgomery hm ha, toMontgomery_ofMontgomery hm ha,
    montgomeryMul_toMontgomery hm ha hb, gives_montgomeryMul_toMontgomery hm ha hb,
    fun bits hbits => shiftDigits_toMontgomery hm ha hbits⟩

/-- The greatest modulus, `2^62 - 1`, is not a prime.  Even the greatest number that is
reduced modulo it has a quotient. -/
theorem montgomery_exact_greatest : ∃ m, build (2 ^ 62 - 1) = .ok (some m) ∧
    m.value = 2 ^ 62 - 1 ∧
    (Gives (m.montgomeryReduce ⟨.ofNat (2 ^ 62 - 2), .ofNat (2 ^ 64 - 1)⟩) fun r =>
      r * 2 ^ 64 % (2 ^ 62 - 1) = ((2 ^ 62 - 1) * 2 ^ 64 - 1) % (2 ^ 62 - 1)) ∧
    (do m.ofMontgomery (← m.toMontgomery (2 ^ 62 - 2))) = .ok (2 ^ 62 - 2) ∧
    (do m.montgomeryMul (← m.toMontgomery (2 ^ 62 - 2)) (2 ^ 62 - 3)) = .ok 2 ∧
    (do m.shiftDigits (← m.toMontgomery (2 ^ 62 - 2)) 63) = .ok (2 ^ 62 - 3) := by
  obtain ⟨m, hbuild, hvalue, _, _, hreduce, hforms⟩ :=
    montgomery_exact (p := 2 ^ 62 - 1) (by decide) (by decide) (by decide)
  obtain ⟨hround, _, hproduct, _, hshift⟩ :=
    hforms (2 ^ 62 - 2) (by decide) (2 ^ 62 - 3) (by decide)
  refine ⟨m, hbuild, hvalue, ?_, hround, ?_, hshift 63 (by decide)⟩
  · exact (hreduce _ (by decide)).imp fun r hr => ((hr r).2 rfl).2
  · rw [hproduct, Modulus.mul, hvalue]

end Modulus
end RelinCeremony
