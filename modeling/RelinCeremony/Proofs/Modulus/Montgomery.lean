import Mathlib.Tactic.LinearCombination
import RelinCeremony.Modulus.Montgomery
import RelinCeremony.Proofs.Modulus.Valid

namespace RelinCeremony
namespace Modulus

/-!
# Montgomery operations on classes

The radix `2^64` is invertible modulo an odd number, and a Montgomery reduction
multiplies by its inverse.  All other operations are reductions of a product, so
what they compute follows from the one lemma on the reduction.
-/

variable {m : Modulus}

/-- The inverse of the radix. -/
def radixInverse (m : Modulus) : ZMod m.value := (2 ^ 64 : ZMod m.value)⁻¹

theorem radix_mul_radixInverse (hm : m.Valid) : (2 ^ 64 : ZMod m.value) * m.radixInverse = 1 := by
  have hcoprime : Nat.Coprime (2 ^ 64) m.value := hm.coprime_two.pow_left 64
  have hunit := ZMod.coe_mul_inv_eq_one (2 ^ 64) hcoprime
  rw [Nat.cast_pow, Nat.cast_ofNat] at hunit
  exact hunit

/-! ## The reduction -/

/-- The multiple of the modulus that a reduction adds clears the low word. -/
theorem dvd_reduction_total (hm : m.Valid) (x : DoubleWord) :
    2 ^ 64 ∣ x.toNat + (x.low * m.negInverse).toNat * m.value := by
  have hword : x.low + x.low * m.negInverse * m.word = 0 := by
    have hneg := hm.negInverse
    calc
      x.low + x.low * m.negInverse * m.word = x.low + x.low * (m.word * m.negInverse) := by
        rw [UInt64.mul_assoc, UInt64.mul_comm m.negInverse]
      _ = x.low + x.low * -1 := by rw [hneg]
      _ = 0 := by rw [UInt64.mul_neg, UInt64.mul_one, UInt64.add_neg_eq_sub, UInt64.sub_self]
  have hnat := congrArg UInt64.toNat hword
  rw [UInt64.toNat_add, UInt64.toNat_mul, hm.toNat_word, DoubleWord.toNat_low] at hnat
  have hzero : (0 : UInt64).toNat = 0 := rfl
  rw [hzero] at hnat
  apply Nat.dvd_of_mod_eq_zero
  omega

/-- The reduction of a number below the radix times the modulus gives the class of
the number, divided by the radix. -/
theorem gives_montgomeryReduce (hm : m.Valid) {x : DoubleWord} (hx : x.toNat < m.value * 2 ^ 64) :
    Gives (m.montgomeryReduce x) fun r => m.Represents r (x.toNat * m.radixInverse) := by
  have hlt := hm.lt
  have hhigh : x.high.toNat < m.value := by
    rw [DoubleWord.toNat_high]
    omega
  have hfactor := (x.low * m.negInverse).toNat_lt
  have hmultiple : (DoubleWord.ofProduct (x.low * m.negInverse) m.word).toNat =
      (x.low * m.negInverse).toNat * m.value := by
    rw [DoubleWord.toNat_ofProduct, hm.toNat_word]
  have hbound : (x.low * m.negInverse).toNat * m.value < 2 ^ 64 * m.value :=
    Nat.mul_lt_mul_of_pos_right hfactor hm.pos
  obtain ⟨total, htotal, hvalue⟩ := DoubleWord.checkedAdd_of_lt
    (x := x) (y := .ofProduct (x.low * m.negInverse) m.word) (by rw [hmultiple]; omega)
  rw [hmultiple] at hvalue
  obtain ⟨quotient, hquotient⟩ := dvd_reduction_total hm x
  have hquotientHigh : total.high.toNat = quotient := by
    rw [DoubleWord.toNat_high, hvalue, hquotient]
    omega
  have hreduced : reduceOnce m.value total.high.toNat = .ok (quotient % m.value) := by
    rw [hquotientHigh]
    exact reduceOnce_eq hm.lt_word (by omega)
  refine ⟨quotient % m.value, ?_, ?_⟩
  · rw [montgomeryReduce, require_bind hhigh, htotal]
    exact hreduced
  · have hclass : (quotient : ZMod m.value) = x.toNat * m.radixInverse := by
      have hcast := congrArg (Nat.cast : Nat → ZMod m.value) hquotient
      push_cast at hcast
      rw [ZMod.natCast_self, mul_zero, add_zero] at hcast
      have hradix := radix_mul_radixInverse hm
      linear_combination (-m.radixInverse) * hcast - (quotient : ZMod m.value) * hradix
    rw [← hclass]
    exact represents_mod hm quotient

/-! ## Products and conversions -/

theorem toNat_ofNat_of_lt (hm : m.Valid) {a : Nat} (ha : a < m.value) :
    (UInt64.ofNat a).toNat = a := by
  have hlt := hm.lt
  rw [UInt64.toNat_ofNat', Nat.mod_eq_of_lt (by omega)]

variable {a b : Nat} {x y : ZMod m.value}

theorem gives_montgomeryMul (hm : m.Valid) (ha : m.Represents a x) (hb : m.Represents b y) :
    Gives (m.montgomeryMul a b) fun r => m.Represents r (x * y * m.radixInverse) := by
  have hlt := hm.lt
  have hproduct : (DoubleWord.ofProduct (.ofNat a) (.ofNat b)).toNat = a * b := by
    rw [DoubleWord.toNat_ofProduct, toNat_ofNat_of_lt hm ha.1, toNat_ofNat_of_lt hm hb.1]
  have hbound : a * b < m.value * 2 ^ 64 := by
    have hle : a * b ≤ m.value * b := Nat.mul_le_mul_right b ha.1.le
    have hlt' : m.value * b < m.value * 2 ^ 64 :=
      Nat.mul_lt_mul_of_pos_left (by have hb' := hb.1; omega) hm.pos
    omega
  rw [montgomeryMul, require_bind ⟨ha.1, hb.1⟩]
  refine (gives_montgomeryReduce hm (by rw [hproduct]; exact hbound)).imp fun r hr => ?_
  rw [hproduct, Nat.cast_mul, ha.2, hb.2] at hr
  exact hr

theorem gives_toMontgomery (hm : m.Valid) (ha : m.Represents a x) :
    Gives (m.toMontgomery a) fun r => m.Represents r (x * 2 ^ 64) := by
  have hsquare : m.Represents m.radixSquared (2 ^ 128) := by
    rw [hm.radixSquared]
    exact_mod_cast represents_mod hm (2 ^ 128)
  refine (gives_montgomeryMul hm ha hsquare).imp fun r hr => ?_
  have hclass : x * 2 ^ 128 * m.radixInverse = x * 2 ^ 64 := by
    linear_combination x * 2 ^ 64 * radix_mul_radixInverse hm
  rwa [hclass] at hr

theorem gives_ofMontgomery (hm : m.Valid) (ha : m.Represents a x) :
    Gives (m.ofMontgomery a) fun r => m.Represents r (x * m.radixInverse) := by
  have hvalue : (DoubleWord.ofWord (.ofNat a)).toNat = a := by
    rw [DoubleWord.toNat_ofWord, toNat_ofNat_of_lt hm ha.1]
  have hbound : a < m.value * 2 ^ 64 := by
    have ha' := ha.1
    omega
  refine (gives_montgomeryReduce hm (by rw [hvalue]; exact hbound)).imp fun r hr => ?_
  rwa [hvalue, ha.2] at hr

/-- A digit shift by fewer than 64 bits is the product by the power of two, divided
by the radix. -/
theorem gives_shiftDigits (hm : m.Valid) (ha : m.Represents a x) {bits : Nat} (hbits : bits < 64) :
    Gives (m.shiftDigits a bits) fun r => m.Represents r (x * 2 ^ bits * m.radixInverse) := by
  have hpower : ((1 : UInt64) <<< UInt64.ofNat bits).toNat = 2 ^ bits := by
    have hcount : (UInt64.ofNat bits).toNat = bits := by
      rw [UInt64.toNat_ofNat', Nat.mod_eq_of_lt (by omega)]
    have hpow : 2 ^ bits < 2 ^ 64 := Nat.pow_lt_pow_right (by decide) hbits
    rw [UInt64.toNat_shiftLeft, hcount, Nat.mod_eq_of_lt hbits, Nat.shiftLeft_eq]
    simpa using Nat.mod_eq_of_lt hpow
  have hproduct :
      (DoubleWord.ofProduct (.ofNat a) (1 <<< UInt64.ofNat bits)).toNat = a * 2 ^ bits := by
    rw [DoubleWord.toNat_ofProduct, toNat_ofNat_of_lt hm ha.1, hpower]
  have hbound : a * 2 ^ bits < m.value * 2 ^ 64 := by
    have hpow : 2 ^ bits ≤ 2 ^ 64 := Nat.pow_le_pow_right (by decide) hbits.le
    exact Nat.mul_lt_mul_of_lt_of_le ha.1 hpow (by decide)
  rw [shiftDigits, require_bind hbits, require_bind ha.1]
  refine (gives_montgomeryReduce hm (by rw [hproduct]; exact hbound)).imp fun r hr => ?_
  rw [hproduct, Nat.cast_mul, ha.2] at hr
  simpa using hr

end Modulus
end RelinCeremony
