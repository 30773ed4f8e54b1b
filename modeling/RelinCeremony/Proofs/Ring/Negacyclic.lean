import Mathlib.Algebra.Order.BigOperators.Ring.Finset
import RelinCeremony.Proofs.Ring.Sampler

namespace RelinCeremony
namespace Ring

/-!
# Negacyclic products of integer polynomials

Integer polynomials are multiplied modulo `x^n + 1`, and the coefficients of the product
are bounded by those of the factors.  At an `n`-th root of -1 the product has the product
of the values, whatever the ring of the root is.

A family of values is short if it comes from one integer polynomial with small coefficients
in all channels at once.  Short families are closed under sums and products, with bounds.
-/

section Products

variable {n : Nat}

/-- The coefficients of the product modulo `x^n + 1`: what runs over the end comes back at
the start with the sign changed. -/
def negacyclicProduct (a b : Fin n → Int) (t : Fin n) : Int :=
  ∑ s, a s * if s ≤ t then b (t - s) else -b (t - s)

/-- A term of the product at a root of -1: the sign makes up for the power that is cut off. -/
theorem shifted_term {K : Type} [CommRing K] {z : K} (hz : z ^ n = -1) (b : Fin n → Int)
    (s r : Fin n) :
    (((if s ≤ r + s then b (r + s - s) else -b (r + s - s)) : Int) : K) *
        z ^ ((r + s : Fin n) : Nat) = (b r : K) * z ^ (r : Nat) * z ^ (s : Nat) := by
  have hpos : NeZero n := ⟨Nat.ne_of_gt r.pos⟩
  have hval := Fin.val_add_eq_ite r s
  rw [add_sub_cancel_right]
  -- Past the end the index loses `n`, and the power loses the factor `z ^ n = -1`.
  by_cases hover : n ≤ (r : Nat) + s
  · rw [if_pos hover] at hval
    have hless : ¬ s ≤ r + s := by
      rw [Fin.le_def, hval]
      omega
    have hpow : z ^ (r : Nat) * z ^ (s : Nat) = -z ^ ((r : Nat) + s - n) := by
      rw [← pow_add, ← Nat.sub_add_cancel hover, pow_add, hz, Nat.sub_add_cancel hover]
      ring
    rw [if_neg hless, hval, mul_assoc, hpow, Int.cast_neg]
    ring
  · rw [if_neg hover] at hval
    have hle : s ≤ r + s := by
      rw [Fin.le_def, hval]
      exact Nat.le_add_left _ _
    rw [if_pos hle, hval, pow_add, mul_assoc]

theorem evaluate_negacyclicProduct {K : Type} [CommRing K] {z : K} (hz : z ^ n = -1)
    (a b : Fin n → Int) :
    Transform.evaluate z (fun t => (negacyclicProduct a b t : K)) =
      Transform.evaluate z (fun t => (a t : K)) * Transform.evaluate z (fun t => (b t : K)) := by
  unfold Transform.evaluate negacyclicProduct
  push_cast
  simp only [Finset.sum_mul]
  rw [Finset.sum_comm]
  refine Finset.sum_congr rfl fun s _ => ?_
  have hpos : NeZero n := ⟨Nat.ne_of_gt s.pos⟩
  -- For a fixed `s` the index `t` runs through all `r + s`.
  rw [Finset.mul_sum, ← Equiv.sum_comp (Equiv.addRight s)]
  refine Finset.sum_congr rfl fun r _ => ?_
  have hterm := shifted_term hz b s r
  push_cast at hterm
  rw [Equiv.coe_addRight, mul_assoc, hterm]
  ring

/-- Every coefficient of the product is a sum of `n` products. -/
theorem abs_negacyclicProduct_le {a b : Fin n → Int} {A B : Nat} (ha : ∀ t, |a t| ≤ A)
    (hb : ∀ t, |b t| ≤ B) (t : Fin n) : |negacyclicProduct a b t| ≤ (n * A * B : Nat) := by
  have hterm : ∀ s, |a s * if s ≤ t then b (t - s) else -b (t - s)| ≤ (A * B : Int) := by
    intro s
    have hfactor : |if s ≤ t then b (t - s) else -b (t - s)| ≤ (B : Int) := by
      split
      · exact hb _
      · rw [abs_neg]
        exact hb _
    rw [abs_mul]
    exact mul_le_mul (ha s) hfactor (abs_nonneg _) (Nat.cast_nonneg A)
  calc |negacyclicProduct a b t|
      ≤ ∑ s, |a s * if s ≤ t then b (t - s) else -b (t - s)| := Finset.abs_sum_le_sum_abs _ _
    _ ≤ ∑ _s : Fin n, (A * B : Int) := Finset.sum_le_sum fun s _ => hterm s
    _ = (n * A * B : Nat) := by
      rw [Finset.sum_const, Finset.card_univ, Fintype.card_fin, nsmul_eq_mul]
      push_cast
      ring

end Products

/-! ## Short families -/

namespace NegacyclicRing

theorem getD_mem {n : Nat} {coefficients : List Int} (hlength : coefficients.length = n)
    (t : Fin n) : coefficients.getD t 0 ∈ coefficients := by
  have ht : (t : Nat) < coefficients.length := by
    rw [hlength]
    exact t.isLt
  rw [List.getD_eq_getElem _ _ ht]
  exact List.getElem_mem ht

namespace Valid

variable {ring : NegacyclicRing} {x y : ring.Values} {A B : Nat}

noncomputable def integerValues (hring : ring.Valid) (v : Fin ring.degree → Int) : ring.Values :=
  hring.evaluations fun _ t => v t

theorem integerValues_add (hring : ring.Valid) (v w : Fin ring.degree → Int) :
    hring.integerValues (v + w) = hring.integerValues v + hring.integerValues w := by
  funext j t
  simp only [integerValues, Pi.add_apply, evaluations_apply, Transform.evaluate, Int.cast_add,
    add_mul, Finset.sum_add_distrib]

theorem integerValues_sub (hring : ring.Valid) (v w : Fin ring.degree → Int) :
    hring.integerValues (v - w) = hring.integerValues v - hring.integerValues w := by
  rw [eq_sub_iff_add_eq, ← integerValues_add, sub_add_cancel]

theorem integerValues_negacyclicProduct (hring : ring.Valid) (v w : Fin ring.degree → Int) :
    hring.integerValues (negacyclicProduct v w) =
      hring.integerValues v * hring.integerValues w := by
  funext j t
  exact evaluate_negacyclicProduct (congrFun (congrFun hring.point_pow j) t) v w

/-- The family has the values of one integer polynomial with coefficients of absolute value
at most `bound`. -/
def IsShort (hring : ring.Valid) (bound : Nat) (x : ring.Values) : Prop :=
  ∃ v : Fin ring.degree → Int, (∀ t, |v t| ≤ (bound : Int)) ∧ hring.integerValues v = x

namespace IsShort

variable {hring : ring.Valid}

theorem zero : hring.IsShort 0 0 := by
  refine ⟨0, fun t => le_of_eq (abs_zero.trans Nat.cast_zero.symm), ?_⟩
  funext j t
  simp [integerValues, evaluations_apply, Transform.evaluate]

theorem add (hx : hring.IsShort A x) (hy : hring.IsShort B y) : hring.IsShort (A + B) (x + y) := by
  obtain ⟨v, hv, rfl⟩ := hx
  obtain ⟨w, hw, rfl⟩ := hy
  refine ⟨v + w, fun t => ?_, hring.integerValues_add v w⟩
  rw [Nat.cast_add]
  exact (abs_add_le _ _).trans (add_le_add (hv t) (hw t))

theorem mul (hx : hring.IsShort A x) (hy : hring.IsShort B y) :
    hring.IsShort (ring.degree * A * B) (x * y) := by
  obtain ⟨v, hv, rfl⟩ := hx
  obtain ⟨w, hw, rfl⟩ := hy
  exact ⟨negacyclicProduct v w, abs_negacyclicProduct_le hv hw,
    hring.integerValues_negacyclicProduct v w⟩

theorem sum_map {γ : Type} {xs : List γ} {f : γ → ring.Values}
    (h : ∀ c ∈ xs, hring.IsShort A (f c)) : hring.IsShort (xs.length * A) (xs.map f).sum := by
  induction xs with
  | nil => simpa using zero
  | cons c xs ih =>
      have hrest := ih fun d hd => h d (List.mem_cons_of_mem c hd)
      have hsum := (h c List.mem_cons_self).add hrest
      rwa [List.length_cons, Nat.succ_mul, Nat.add_comm, List.map_cons, List.sum_cons]

end IsShort

theorem isShort_classes (hring : ring.Valid) {coefficients : List Int} {bound : Nat}
    (hlength : coefficients.length = ring.degree)
    (hbound : ∀ c ∈ coefficients, |c| ≤ (bound : Int)) :
    hring.IsShort bound (hring.evaluations (ring.classes coefficients)) := by
  refine ⟨fun t => coefficients.getD t 0, fun t => ?_, rfl⟩
  exact hbound _ (getD_mem hlength t)

/-- Short values come from coefficients within the bound. -/
theorem exists_classes_of_isShort (hring : ring.Valid) {bound : Nat} (h : hring.IsShort bound x) :
    ∃ coefficients : List Int, coefficients.length = ring.degree ∧
      (∀ c ∈ coefficients, |c| ≤ (bound : Int)) ∧
      x = hring.evaluations (ring.classes coefficients) := by
  obtain ⟨v, hv, rfl⟩ := h
  refine ⟨List.ofFn v, List.length_ofFn, fun c hc => ?_, congrArg hring.evaluations ?_⟩
  · obtain ⟨t, rfl⟩ := (List.mem_ofFn' _ _).1 hc
    exact hv t
  · funext j t
    simp [classes]

end Valid
end NegacyclicRing
end Ring
end RelinCeremony
