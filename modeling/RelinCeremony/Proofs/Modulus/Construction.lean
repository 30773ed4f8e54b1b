import RelinCeremony.Proofs.Modulus.Valid

namespace RelinCeremony

/-!
# Construction of a modulus

A Newton step squares the error of an inverse, and an odd word is its own inverse
modulo 8.  Five steps bring the error to a multiple of `8 ^ 32`, which is zero in a
word, so the check of the inverse never fails: every admissible number becomes a
modulus, and no number makes the construction fault.
-/

namespace Word

/-- What is missing of the product of a word by its inverse is squared by a step. -/
theorem error_refineInverse (n x : UInt64) :
    1 - n * refineInverse n x = (1 - n * x) * (1 - n * x) := by
  unfold refineInverse
  grind

theorem error_repeat_refineInverse {n x c : UInt64} (hstart : 1 - n * x = 8 * c) (steps : Nat) :
    ∃ d, 1 - n * Nat.repeat (refineInverse n) steps x = .ofNat (8 ^ 2 ^ steps) * d := by
  induction steps with
  | zero => exact ⟨c, hstart⟩
  | succ steps ih =>
      obtain ⟨d, hd⟩ := ih
      have hpow : 8 ^ 2 ^ (steps + 1) = 8 ^ 2 ^ steps * 8 ^ 2 ^ steps := by
        rw [Nat.pow_succ, Nat.mul_two, Nat.pow_add]
      refine ⟨d * d, ?_⟩
      rw [Nat.repeat, error_refineInverse, hd, hpow, UInt64.ofNat_mul]
      grind

/-- An odd number is its own inverse modulo 8. -/
theorem error_self {n : Nat} (hodd : n % 2 = 1) :
    ∃ c, 1 - UInt64.ofNat n * UInt64.ofNat n = 8 * c := by
  obtain ⟨half, rfl⟩ : ∃ half, n = 2 * half + 1 := ⟨n / 2, by omega⟩
  -- One of two consecutive numbers is even.
  obtain ⟨t, ht⟩ : 2 ∣ half * (half + 1) := (Nat.even_mul_succ_self half).two_dvd
  have hsquare : (2 * half + 1) * (2 * half + 1) = 8 * t + 1 := by
    calc
      (2 * half + 1) * (2 * half + 1) = 4 * (half * (half + 1)) + 1 := by ring
      _ = 8 * t + 1 := by rw [ht]; ring
  refine ⟨- .ofNat t, ?_⟩
  rw [← UInt64.ofNat_mul, hsquare, UInt64.ofNat_add, UInt64.ofNat_mul]
  grind

/-- The inverse of an odd word is one. -/
theorem mul_inverse {n : Nat} (hodd : n % 2 = 1) :
    UInt64.ofNat n * inverse (.ofNat n) = 1 := by
  obtain ⟨c, hc⟩ := error_self hodd
  obtain ⟨d, hd⟩ := error_repeat_refineInverse hc 5
  have hvanishes : UInt64.ofNat (8 ^ 2 ^ 5) = 0 := by decide
  have herror : 1 - UInt64.ofNat n * inverse (.ofNat n) = 0 := by
    rw [inverse, hd, hvanishes, UInt64.zero_mul]
  grind

end Word

namespace Modulus

theorem isAdmissible_iff {p : Nat} : isAdmissible p = true ↔ 3 ≤ p ∧ p < 2 ^ 62 ∧ p % 2 = 1 := by
  simp [isAdmissible, and_assoc]

/-- An admissible number becomes a modulus with the right constants. -/
theorem gives_build_of_isAdmissible {p : Nat} (h : isAdmissible p = true) :
    Gives (build p) fun m? => ∃ m, m? = some m ∧ m.Valid ∧ m.value = p := by
  have hinverse := Word.mul_inverse (isAdmissible_iff.1 h).2.2
  have hbuild : ∃ m, build p = .ok (some m) := by
    unfold build
    rw [if_pos h, require_bind hinverse]
    exact ⟨_, rfl⟩
  obtain ⟨m, hm⟩ := hbuild
  exact ⟨some m, hm, m, rfl, valid_of_build hm⟩

theorem build_eq_none {p : Nat} (h : isAdmissible p ≠ true) : build p = .ok none := by
  unfold build
  rw [if_neg h]
  rfl

end Modulus
end RelinCeremony
