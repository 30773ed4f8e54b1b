import RelinCeremony.Power

namespace RelinCeremony
namespace Transform

/-!
# Bit reversal

The order in which the transform reads its roots and leaves its values.
-/

/-- Appends the low `bits` binary digits of `i`, the lowest first, to the binary
digits of `onto`. -/
def appendReversed : (bits i onto : Nat) → Nat
  | 0, _, onto => onto
  | bits + 1, i, onto => appendReversed bits (i / 2) (onto + onto + i % 2)

/-- The number whose binary digits are the low `bits` digits of `i` in reverse
order. -/
def bitReverse (bits i : Nat) : Nat := appendReversed bits i 0

theorem appendReversed_eq (bits i onto : Nat) :
    appendReversed bits i onto = onto * 2 ^ bits + bitReverse bits i := by
  unfold bitReverse
  induction bits generalizing i onto with
  | zero => simp [appendReversed]
  | succ bits ih =>
      simp only [appendReversed]
      rw [ih, ih (i / 2) (0 + 0 + i % 2), Nat.pow_succ]
      grind

theorem bitReverse_zero (i : Nat) : bitReverse 0 i = 0 := rfl

/-- The lowest digit becomes the highest. -/
theorem bitReverse_succ (bits i : Nat) :
    bitReverse (bits + 1) i = i % 2 * 2 ^ bits + bitReverse bits (i / 2) := by
  rw [bitReverse, appendReversed, appendReversed_eq]
  simp

theorem bitReverse_lt (bits i : Nat) : bitReverse bits i < 2 ^ bits := by
  induction bits generalizing i with
  | zero => simp [bitReverse_zero]
  | succ bits ih =>
      have hrest := ih (i / 2)
      have hbit : i % 2 < 2 := Nat.mod_lt _ (by decide)
      have hlead : i % 2 * 2 ^ bits ≤ 1 * 2 ^ bits := Nat.mul_le_mul_right _ (by omega)
      rw [bitReverse_succ, Nat.pow_succ]
      omega

end Transform
end RelinCeremony
