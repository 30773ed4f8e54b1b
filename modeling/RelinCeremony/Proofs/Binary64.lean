import Mathlib.Data.Nat.Log
import RelinCeremony.Binary64.Basic

namespace RelinCeremony
namespace Binary64

/-!
# Floats and their exact values

The exact value of a float is read off its bits.  Here the reading is compared with the way in
which the logical model of floats unpacks them, as far as it takes to multiply a finite float
by zero; and the float next to an integer is shown to have the sign of the integer.
-/

open Float.Model Float.Model.UnpackedFloat

/-! ## Integers as floats see them -/

theorem nearestNat_pos {n : Nat} (hn : 0 < n) : 0 < nearestNat n := by
  have hunit : 0 < 2 ^ (n.log2 - 52) := Nat.two_pow_pos _
  have hle : 2 ^ (n.log2 - 52) ≤ n :=
    (Nat.pow_le_pow_right (by decide) (Nat.sub_le _ _)).trans (Nat.log2_self_le hn.ne')
  have hquotient : 0 < n / 2 ^ (n.log2 - 52) := Nat.div_pos hle hunit
  unfold nearestNat
  dsimp only
  split
  · exact Nat.mul_pos hquotient hunit
  · exact Nat.mul_pos (Nat.succ_pos _) hunit

/-- Rounding to a float does not change the sign of an integer. -/
theorem nearestInt_neg_iff {x : Int} : nearestInt x < 0 ↔ x < 0 := by
  unfold nearestInt signed
  by_cases hx : x < 0
  · have hpos := nearestNat_pos (Int.natAbs_pos.2 hx.ne)
    simp only [hx, decide_true, if_true, iff_true]
    omega
  · simp only [hx, decide_false, Bool.false_eq_true, if_false, iff_false]
    omega

/-! ## Unpacking -/

theorem isFinite_of_isPositive {x : Binary64} (h : x.isPositive = true) : x.isFinite = true := by
  cases x with
  | nan => cases h
  | infinite negative => cases h
  | finite negative significand exponent => rfl

theorem toNat_unpackExponent (b : BitVec Format.binary64.numBits) :
    (unpackExponent b).toNat = b.toNat / 2 ^ 52 % 2 ^ 11 := by
  simp [unpackExponent, Nat.shiftRight_eq_div_pow]

/-- What has a finite value is unpacked to a zero or to a finite number. -/
theorem isFinite_unpack {d : Float} (h : (ofFloat d).isFinite = true) :
    d.toModel.unpack.isFinite = true := by
  have hexponent : @unpackExponent Format.binary64 d.toModel.toBits.toBitVec ≠ -1#_ := by
    intro heq
    have hbiased : d.toBits.toNat / 2 ^ 52 % 2 ^ 11 = 2 ^ 11 - 1 := by
      have hvalue := toNat_unpackExponent d.toModel.toBits.toBitVec
      rw [heq] at hvalue
      exact hvalue.symm
    unfold ofFloat ofBits at h
    dsimp only at h
    rw [if_pos hbiased] at h
    split at h <;> cases h
  show UnpackedFloat.isFinite (if _ = -1#_ then _ else _) = true
  rw [if_neg hexponent]
  by_cases hleast : @unpackExponent Format.binary64 d.toModel.toBits.toBitVec = 0#_
  · rw [if_pos hleast]
    by_cases hzero : @unpackMantissa Format.binary64 d.toModel.toBits.toBitVec = 0#_
    · rw [dif_pos hzero]
      rfl
    · rw [dif_neg hzero]
      rfl
  · rw [if_neg hleast]
    rfl

/-! ## Products with zero -/

theorem unpack_zero : (0.0 : Float).toModel.unpack = .zero .positive := rfl

/-- A finite number times zero is a zero of either sign. -/
theorem exists_mul_zero {d : Float} (h : (ofFloat d).isFinite = true) :
    ∃ sign, UnpackedFloat.mul Format.binary64 d.toModel.unpack (0.0 : Float).toModel.unpack =
      .zero sign := by
  have hfinite := isFinite_unpack h
  rw [unpack_zero]
  cases hd : d.toModel.unpack with
  | notANumber =>
      rw [hd] at hfinite
      cases hfinite
  | infinity sign =>
      rw [hd] at hfinite
      cases hfinite
  | zero sign => exact ⟨sign * .positive, rfl⟩
  | finite sign mantissa exponent hpos => exact ⟨sign * .positive, rfl⟩

/-- The sum of zero and a zero of either sign is zero. -/
theorem zero_add_mul_zero {d : Float} (h : (ofFloat d).isFinite = true) :
    (0.0 : Float) + d * 0.0 = 0.0 := by
  obtain ⟨sign, hproduct⟩ := exists_mul_zero h
  have hmul : d * 0.0 = Float.ofModel (Float.Model.pack (.zero sign)) := by
    rw [← hproduct]
    rfl
  rw [hmul]
  cases sign with
  | negative => decide +kernel
  | positive => decide +kernel

theorem isFinite_zero : (ofFloat 0.0).isFinite = true := by decide +kernel

theorem round?_zero : (ofFloat 0.0).round? = some 0 := by decide +kernel

end Binary64
end RelinCeremony
