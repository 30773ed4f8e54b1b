import Mathlib.Data.Nat.ChineseRemainder
import Mathlib.RingTheory.AdjoinRoot
import RelinCeremony.Proofs.Ring.Residues
import RelinCeremony.Proofs.Ring.Transform

namespace RelinCeremony
namespace Ring
namespace NegacyclicRing

/-!
# The quotient ring

The ring `Z_Q[x] / (x^n + 1)` itself, apart from residues and transforms.  For a valid
ring it is isomorphic to the ring of families of values, so an identity between
families is an identity between polynomials modulo `x^n + 1`.  Decoding a transformed
element gives the coefficients of the polynomial with its values.
-/

open Polynomial

variable {ring : NegacyclicRing}

noncomputable abbrev divisor (ring : NegacyclicRing) : (ZMod ring.modulus)[X] :=
  X ^ ring.degree + 1

/-- The ring `Z_Q[x] / (x^n + 1)`. -/
abbrev Quotient (ring : NegacyclicRing) : Type := AdjoinRoot ring.divisor

/-- The class of the polynomial with the given coefficients, the lowest first. -/
noncomputable def polynomial (ring : NegacyclicRing) (coefficients : List Nat) : ring.Quotient :=
  ∑ t : Fin ring.degree,
    (coefficients.getD t 0 : ring.Quotient) * AdjoinRoot.root ring.divisor ^ (t : Nat)

/-- The class of the polynomial with the given integers as coefficients. -/
noncomputable def integerPolynomial (ring : NegacyclicRing) (coefficients : List Int) :
    ring.Quotient :=
  ∑ t : Fin ring.degree,
    (coefficients.getD t 0 : ring.Quotient) * AdjoinRoot.root ring.divisor ^ (t : Nat)

theorem getD_map_ofNat (coefficients : List Nat) (t : Nat) :
    (coefficients.map Int.ofNat).getD t 0 = (coefficients.getD t 0 : Nat) :=
  List.getD_map (l := coefficients) (d := 0) (n := t) Int.ofNat

theorem polynomial_eq_integerPolynomial (ring : NegacyclicRing) (coefficients : List Nat) :
    ring.polynomial coefficients = ring.integerPolynomial (coefficients.map Int.ofNat) := by
  simp only [polynomial, integerPolynomial, getD_map_ofNat, Int.cast_natCast]

theorem classes_map_ofNat (ring : NegacyclicRing) (coefficients : List Nat) :
    ring.classes (coefficients.map Int.ofNat) =
      (fun _ t => (coefficients.getD t 0 : Nat) : ring.Values) := by
  funext j t
  rw [classes, getD_map_ofNat, Int.cast_natCast]

/-- The coefficients of a transformed element, from 0 to `Q - 1`. -/
def decode (ring : NegacyclicRing) (a : Element) : Checked (List Nat) := do
  ring.toNats (← ring.backward a)

namespace Valid

noncomputable def reductions (hring : ring.Valid) : ZMod ring.modulus →+* ring.Values :=
  RingHom.pi fun j => RingHom.pi fun _ =>
    ZMod.castHom (hring.channel j).dvd (ZMod (ring.channel j).modulus.value)

/-- The values of a polynomial at the points of every channel. -/
noncomputable def valuesHom (hring : ring.Valid) : ring.Quotient →+* ring.Values :=
  AdjoinRoot.lift hring.reductions hring.point (by
    rw [eval₂_add, eval₂_pow, eval₂_X, eval₂_one, hring.point_pow, neg_add_cancel])

theorem valuesHom_integerPolynomial (hring : ring.Valid) (coefficients : List Int) :
    hring.valuesHom (ring.integerPolynomial coefficients) =
      hring.evaluations (ring.classes coefficients) := by
  rw [integerPolynomial, map_sum]
  funext j t
  rw [evaluations_apply, Transform.evaluate, Finset.sum_apply, Finset.sum_apply]
  refine Finset.sum_congr rfl fun s _ => ?_
  rw [map_mul, map_intCast, map_pow, valuesHom, AdjoinRoot.lift_root]
  rfl

theorem valuesHom_polynomial (hring : ring.Valid) (coefficients : List Nat) :
    hring.valuesHom (ring.polynomial coefficients) =
      hring.evaluations fun _ t => (coefficients.getD t 0 : Nat) := by
  rw [polynomial_eq_integerPolynomial, valuesHom_integerPolynomial, classes_map_ofNat]

/-! ## The embedding -/

/-- Every class is that of a polynomial of lower degree. -/
theorem exists_polynomial_eq (hring : ring.Valid) (p : ring.Quotient) :
    ∃ coefficients, ring.polynomial coefficients = p := by
  have hdegree : ring.degree ≠ 0 := by
    have hle := hring.degree_le
    omega
  have hmodulus : NeZero ring.modulus := ⟨hring.modulus_pos.ne'⟩
  -- Division by the monic `x^n + 1` needs that 1 is not 0; the trivial ring has one class only.
  rcases subsingleton_or_nontrivial (ZMod ring.modulus) with htrivial | hnontrivial
  · have hquotient : Subsingleton ring.Quotient := (AdjoinRoot.of _).codomain_trivial
    exact ⟨[], Subsingleton.elim _ _⟩
  · have hmonic := monic_X_pow_add_C (1 : ZMod ring.modulus) hdegree
    have hnatDegree := natDegree_X_pow_add_C (n := ring.degree) (r := (1 : ZMod ring.modulus))
    rw [map_one] at hmonic hnatDegree
    obtain ⟨f, rfl⟩ := AdjoinRoot.mk_surjective p
    have hrest : AdjoinRoot.mk ring.divisor (f %ₘ ring.divisor) = AdjoinRoot.mk ring.divisor f := by
      rw [← AdjoinRoot.modByMonicHom_mk hmonic, AdjoinRoot.mk_leftInverse hmonic]
    have hlt : (f %ₘ ring.divisor).natDegree < ring.degree := by
      refine (natDegree_modByMonic_lt f hmonic fun hone => ?_).trans_eq hnatDegree
      rw [hone, natDegree_one] at hnatDegree
      exact hdegree hnatDegree.symm
    generalize f %ₘ ring.divisor = rest at hrest hlt
    refine ⟨List.ofFn fun t : Fin ring.degree => (rest.coeff t).val, ?_⟩
    rw [← hrest]
    conv_rhs => rw [rest.as_sum_range' ring.degree hlt]
    rw [polynomial, map_sum, Finset.sum_range]
    refine Finset.sum_congr rfl fun t _ => ?_
    rw [List.getD_eq_getElem _ _ (by simp), List.getElem_ofFn, ← C_mul_X_pow_eq_monomial, map_mul,
      map_pow, AdjoinRoot.mk_X, AdjoinRoot.mk_C, ← map_natCast (AdjoinRoot.of _),
      ZMod.natCast_zmod_val]

/-- Numbers that agree in every channel agree modulo the product. -/
theorem cast_eq_cast_of_forall (hring : ring.Valid) {a b : Nat}
    (h : ∀ j, (a : ZMod (ring.channel j).modulus.value) = b) : (a : ZMod ring.modulus) = b := by
  -- The moduli are distinct primes, so the remainders determine the number.
  have hcoprime : ring.moduli.Pairwise Nat.Coprime := by
    refine hring.nodup.pairwise_of_forall_ne fun p hp q hq hne => ?_
    obtain ⟨i, rfl⟩ := mem_moduli_iff.1 hp
    obtain ⟨j, rfl⟩ := mem_moduli_iff.1 hq
    exact (Nat.coprime_primes (hring.channel i).prime (hring.channel j).prime).2 hne
  rw [ZMod.natCast_eq_natCast_iff, hring.modulus_eq, Nat.modEq_list_prod_iff hcoprime]
  intro i
  obtain ⟨j, hj⟩ := mem_moduli_iff.1 (List.get_mem ring.moduli i)
  rw [← hj]
  exact (ZMod.natCast_eq_natCast_iff _ _ _).1 (h j)

theorem valuesHom_injective (hring : ring.Valid) : Function.Injective hring.valuesHom := by
  intro p q h
  obtain ⟨a, rfl⟩ := hring.exists_polynomial_eq p
  obtain ⟨b, rfl⟩ := hring.exists_polynomial_eq q
  rw [valuesHom_polynomial, valuesHom_polynomial] at h
  have hclasses := hring.evaluations_injective h
  refine Finset.sum_congr rfl fun t _ => ?_
  have hcoefficient := hring.cast_eq_cast_of_forall fun j => congrFun (congrFun hclasses j) t
  rw [← map_natCast (AdjoinRoot.of _), hcoefficient, map_natCast]

/-! ## Polynomials with given values -/

/-- Classes in every channel are those of one list of natural numbers: the sums of the idempotents
of the channels times the classes. -/
theorem exists_coefficients (hring : ring.Valid) (v : ring.Values) :
    ∃ coefficients : List Nat, ∀ j (t : Fin ring.degree),
      ((coefficients.getD t 0 : Nat) : ZMod (ring.channel j).modulus.value) = v j t := by
  refine ⟨List.ofFn fun t => ∑ i, (ring.channel i).idempotent * (v i t).val, fun j t => ?_⟩
  have hpos : NeZero (ring.channel j).modulus.value := ⟨(hring.channel j).modulus.pos.ne'⟩
  rw [List.getD_eq_getElem _ _ (by simp), List.getElem_ofFn, hring.cast_sum_idempotent]
  exact ZMod.natCast_zmod_val _

theorem valuesHom_surjective (hring : ring.Valid) : Function.Surjective hring.valuesHom := by
  intro x
  obtain ⟨v, rfl⟩ := hring.evaluations_surjective x
  obtain ⟨coefficients, hclasses⟩ := hring.exists_coefficients v
  refine ⟨ring.polynomial coefficients, ?_⟩
  rw [valuesHom_polynomial]
  congr 1
  funext j t
  exact hclasses j t

/-- The polynomial with the given values: families of values are the polynomials modulo
`x^n + 1` in another form. -/
noncomputable def polynomialOf (hring : ring.Valid) : ring.Values ≃+* ring.Quotient :=
  (RingEquiv.ofBijective hring.valuesHom
    ⟨hring.valuesHom_injective, hring.valuesHom_surjective⟩).symm

theorem polynomialOf_valuesHom (hring : ring.Valid) (p : ring.Quotient) :
    hring.polynomialOf (hring.valuesHom p) = p :=
  (RingEquiv.ofBijective hring.valuesHom _).symm_apply_apply p

/-- Integer coefficients in all channels have the values of their polynomial. -/
theorem polynomialOf_evaluations (hring : ring.Valid) (coefficients : List Int) :
    hring.polynomialOf (hring.evaluations (ring.classes coefficients)) =
      ring.integerPolynomial coefficients := by
  rw [← valuesHom_integerPolynomial, polynomialOf_valuesHom]

/-! ## Decoding -/

/-- A transformed element decodes to the coefficients of the polynomial with its values. -/
theorem gives_decode (hring : ring.Valid) {a : Element} {x : ring.Values}
    (ha : ring.Represents a x) :
    Gives (ring.decode a) fun coefficients =>
      coefficients.length = ring.degree ∧ (∀ c ∈ coefficients, c < ring.modulus) ∧
        hring.valuesHom (ring.polynomial coefficients) = x := by
  obtain ⟨v, rfl⟩ := hring.evaluations_surjective x
  refine (hring.gives_backward ha).bind fun b hb => ?_
  refine (gives_toNats hring hb).imp fun coefficients hcoefficients => ?_
  refine ⟨hcoefficients.1, hcoefficients.2.1, ?_⟩
  rw [valuesHom_polynomial]
  congr 1
  funext j t
  exact hcoefficients.2.2 j t

end Valid
end NegacyclicRing
end Ring
end RelinCeremony
