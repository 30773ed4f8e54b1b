import Mathlib.Tactic.Ring
import Mathlib.Tactic.Linarith
import RelinCeremony.Modulus.Shoup
import RelinCeremony.Proofs.Modulus.Valid

namespace RelinCeremony

/-!
# Fixed factors on classes

With the right Shoup quotient the lazy product of a word by a factor stays below
twice the modulus, because the two truncations of the estimated quotient cost
less than one unit each.  This holds for every word, reduced or not.
-/

namespace Modulus

/-- The estimate by the quotient of the factor misses the product by less than twice
the modulus, and never exceeds it. -/
theorem shoup_estimate {p a : Nat} (factor : Nat) (hp : 0 < p) (ha : a < 2 ^ 64) :
    a * (factor * 2 ^ 64 / p) / 2 ^ 64 * p ≤ a * factor ∧
      a * factor < a * (factor * 2 ^ 64 / p) / 2 ^ 64 * p + 2 * p := by
  generalize hW : factor * 2 ^ 64 / p = W
  generalize hq : a * W / 2 ^ 64 = q
  have hfactor : p * W + factor * 2 ^ 64 % p = factor * 2 ^ 64 := by
    rw [← hW]
    exact Nat.div_add_mod _ _
  have hrest : factor * 2 ^ 64 % p < p := Nat.mod_lt _ hp
  have hproduct : 2 ^ 64 * q + a * W % 2 ^ 64 = a * W := by
    rw [← hq]
    exact Nat.div_add_mod _ _
  have hlow : a * W % 2 ^ 64 < 2 ^ 64 := Nat.mod_lt _ (by decide)
  generalize factor * 2 ^ 64 % p = ρ at hfactor hrest
  generalize a * W % 2 ^ 64 = σ at hproduct hlow
  -- The product by the radix is the estimate by the radix and two small rests.
  have hsplit : a * factor * 2 ^ 64 = q * p * 2 ^ 64 + (σ * p + a * ρ) := by
    calc
      a * factor * 2 ^ 64 = a * (p * W + ρ) := by rw [hfactor]; ring
      _ = a * W * p + a * ρ := by ring
      _ = (2 ^ 64 * q + σ) * p + a * ρ := by rw [hproduct]
      _ = q * p * 2 ^ 64 + (σ * p + a * ρ) := by ring
  have hσ : σ * p < 2 ^ 64 * p := Nat.mul_lt_mul_of_pos_right hlow hp
  have hρ : a * ρ ≤ 2 ^ 64 * p := Nat.mul_le_mul ha.le hrest.le
  constructor
  · refine Nat.le_of_mul_le_mul_right (c := 2 ^ 64) ?_ (by decide)
    omega
  · refine Nat.lt_of_mul_lt_mul_right (a := 2 ^ 64) ?_
    rw [Nat.add_mul]
    omega

variable {m : Modulus}

theorem gives_shoupQuotient (hm : m.Valid) {a : Nat} (ha : a < m.value) :
    Gives (m.shoupQuotient a) fun quotient => quotient.toNat = a * 2 ^ 64 / m.value := by
  have hlt : a * 2 ^ 64 / m.value < 2 ^ 64 := by
    rw [Nat.div_lt_iff_lt_mul hm.pos, Nat.mul_comm]
    exact Nat.mul_lt_mul_of_pos_left ha (by decide)
  refine ⟨.ofNat (a * 2 ^ 64 / m.value), ?_, ?_⟩
  · rw [shoupQuotient, require_bind ha]
    rfl
  · show (UInt64.ofNat (a * 2 ^ 64 / m.value)).toNat = _
    rw [UInt64.toNat_ofNat', Nat.mod_eq_of_lt hlt]

/-- With any quotient the lazy product is what a word keeps of the product less the
multiple of the modulus that the quotient estimates. -/
theorem gives_lazyShoupMul (hm : m.Valid) {a factor : Nat} (quotient : UInt64) (ha : a < 2 ^ 64)
    (hfactor : factor < m.value) :
    Gives (m.lazyShoupMul a factor quotient) fun r =>
      (r : Int) = ((a * factor : Nat) - (a * quotient.toNat / 2 ^ 64 * m.value : Nat)) %
        2 ^ 64 := by
  have hmlt := hm.lt
  have hword : (UInt64.ofNat a).toNat = a := by
    rw [UInt64.toNat_ofNat', Nat.mod_eq_of_lt ha]
  have hfactorWord : (UInt64.ofNat factor).toNat = factor := by
    rw [UInt64.toNat_ofNat', Nat.mod_eq_of_lt (by omega)]
  refine ⟨_, by rw [lazyShoupMul, require_bind hfactor]; rfl, ?_⟩
  rw [UInt64.toNat_sub, UInt64.toNat_mul, UInt64.toNat_mul, Word.toNat_highProduct, hword,
    hfactorWord, hm.toNat_word]
  generalize a * quotient.toNat / 2 ^ 64 * m.value = estimate
  generalize a * factor = product
  omega

/-- With the right quotient nothing is lost in the word. -/
theorem lazyShoupMul_eq (hm : m.Valid) {a factor : Nat} {quotient : UInt64} (ha : a < 2 ^ 64)
    (hfactor : factor < m.value) (hquotient : quotient.toNat = factor * 2 ^ 64 / m.value) :
    m.lazyShoupMul a factor quotient =
      .ok (a * factor - a * (factor * 2 ^ 64 / m.value) / 2 ^ 64 * m.value) := by
  obtain ⟨hle, hlt⟩ := shoup_estimate factor hm.pos ha
  obtain ⟨r, hr, hvalue⟩ := gives_lazyShoupMul hm quotient ha hfactor
  rw [hquotient] at hvalue
  have hmlt := hm.lt
  rw [hr]
  apply congrArg Except.ok
  generalize a * (factor * 2 ^ 64 / m.value) / 2 ^ 64 * m.value = estimate at *
  generalize a * factor = product at *
  omega

end Modulus

namespace Multiplier

open Modulus

variable {m : Modulus} {multiplier : Multiplier} {w : ZMod m.value}

/-- The factor represents the class, and the quotient belongs to the factor. -/
def Represents (multiplier : Multiplier) (m : Modulus) (w : ZMod m.value) : Prop :=
  m.Represents multiplier.factor w ∧
    multiplier.quotient.toNat = multiplier.factor * 2 ^ 64 / m.value

theorem gives_ofResidue (hm : m.Valid) {a : Nat} (ha : m.Represents a w) :
    Gives (ofResidue m a) fun multiplier => multiplier.Represents m w :=
  (gives_shoupQuotient hm ha.1).bind fun quotient hquotient => ⟨⟨a, quotient⟩, rfl, ha, hquotient⟩

/-- The multiplier is what its factor, a reduced number, is turned into: the quotient is
`⌊factor * 2^64 / p⌋`. -/
structure IsExact (multiplier : Multiplier) (m : Modulus) : Prop where
  factor_lt : multiplier.factor < m.value
  quotient_eq : multiplier.quotient.toNat = multiplier.factor * 2 ^ 64 / m.value
  ofResidue_eq : ofResidue m multiplier.factor = .ok multiplier

theorem Represents.isExact (hm : m.Valid) (h : multiplier.Represents m w) :
    multiplier.IsExact m := by
  obtain ⟨quotient, hquotient, hvalue⟩ := gives_shoupQuotient hm h.1.1
  have heq : quotient = multiplier.quotient := UInt64.toNat_inj.1 (hvalue.trans h.2.symm)
  refine ⟨h.1.1, h.2, ?_⟩
  rw [ofResidue, hquotient, heq]
  rfl

/-- The product of any word by a multiplier is the reduced residue of the product of
the classes. -/
theorem gives_apply (hm : m.Valid) (h : multiplier.Represents m w) {a : Nat} (ha : a < 2 ^ 64) :
    Gives (multiplier.apply m a) fun r => m.Represents r (a * w) := by
  obtain ⟨hle, hlt⟩ := shoup_estimate multiplier.factor hm.pos ha
  have hlazy := lazyShoupMul_eq hm ha h.1.1 h.2
  generalize hestimate : a * (multiplier.factor * 2 ^ 64 / m.value) / 2 ^ 64 = estimate at *
  have hreduce := reduceOnce_eq (p := m.value) (x := a * multiplier.factor - estimate * m.value)
    hm.lt_word (by omega)
  refine ⟨(a * multiplier.factor - estimate * m.value) % m.value, ?_, ?_⟩
  · rw [apply, shoupMul, hlazy]
    exact hreduce
  · have hclass : ((a * multiplier.factor - estimate * m.value : Nat) : ZMod m.value) = a * w := by
      rw [Nat.cast_sub hle, Nat.cast_mul, Nat.cast_mul, ZMod.natCast_self, mul_zero, sub_zero,
        h.1.2]
    rw [← hclass]
    exact represents_mod hm _

end Multiplier
end RelinCeremony
