import Mathlib.FieldTheory.Finite.Basic
import RelinCeremony.Proofs.Modulus.Valid

namespace RelinCeremony
namespace Modulus

/-!
# Powers and inverses of classes

A power is the reduced residue of the power of the class, and the inverse modulo a
prime is the inverse of the class.
-/

variable {m : Modulus}

theorem cast_pow (m : Modulus) (a n : Nat) :
    (m.pow a n : ZMod m.value) = (a : ZMod m.value) ^ n := by
  rw [pow_eq, ZMod.natCast_mod, Nat.cast_pow]

theorem pow_lt (hm : m.Valid) (a n : Nat) : m.pow a n < m.value := by
  rw [pow_eq]
  exact Nat.mod_lt _ hm.pos

theorem cast_eq_one_iff (hm : m.Valid) {n : Nat} :
    (n : ZMod m.value) = 1 ↔ n % m.value = 1 := by
  have hone : 1 % m.value = 1 := by
    have hthree := hm.three_le
    exact Nat.mod_eq_of_lt (by omega)
  rw [← Nat.cast_one (R := ZMod m.value), ZMod.natCast_eq_natCast_iff', hone]

theorem pow_eq_one_iff (hm : m.Valid) {a n : Nat} :
    m.pow a n = 1 ↔ (a : ZMod m.value) ^ n = 1 := by
  rw [pow_eq, ← cast_eq_one_iff hm, Nat.cast_pow]

theorem inverse?_eq_none_iff {a : Nat} : m.inverse? a = none ↔ (a : ZMod m.value) = 0 := by
  unfold inverse?
  rw [ZMod.natCast_eq_zero_iff, Nat.dvd_iff_mod_eq_zero]
  split <;> simp_all

/-- The inverse modulo a prime is the reduced residue of the inverse of the class. -/
theorem represents_inverse (hm : m.Valid) (hprime : m.value.Prime) {a r : Nat}
    (h : m.inverse? a = some r) : r < m.value ∧ (a : ZMod m.value) * r = 1 := by
  have hnonzero : (a : ZMod m.value) ≠ 0 := by
    intro hzero
    rw [inverse?_eq_none_iff.2 hzero] at h
    cases h
  have : Fact m.value.Prime := ⟨hprime⟩
  unfold inverse? at h
  split at h
  case isTrue => cases h
  case isFalse =>
    cases h
    refine ⟨pow_lt hm _ _, ?_⟩
    have hexponent : m.value - 2 + 1 = m.value - 1 := by
      have hthree := hm.three_le
      omega
    rw [cast_pow, ← pow_succ', hexponent]
    exact ZMod.pow_card_sub_one_eq_one hnonzero

end Modulus
end RelinCeremony
