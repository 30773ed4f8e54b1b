import RelinCeremony.Power

namespace RelinCeremony

/-!
# Powers modulo a number

Repeated squaring from the highest bit of the exponent downwards.  The
recursion is structural on the number of bits, so that closed powers compute in
proofs as well.
-/

/-- The power of `base` whose exponent is the low `bits` bits of `exponent`,
modulo `modulus`. -/
def powerModBits (base modulus : Nat) : (bits exponent : Nat) → Nat
  | 0, _ => 1 % modulus
  | bits + 1, exponent =>
      let half := powerModBits base modulus bits (exponent / 2)
      let square := half * half % modulus
      if exponent % 2 = 1 then square * base % modulus else square

/-- The power `base ^ exponent` modulo `modulus`; an exponent of zero gives
`1 % modulus`, whatever the base. -/
def powerMod (base exponent modulus : Nat) : Nat :=
  powerModBits (base % modulus) modulus (exponent.log2 + 1) exponent

/-! ## The value of a power -/

/-- Bits of the exponent above the ones looked at do not matter. -/
theorem powerModBits_eq (base modulus bits exponent : Nat) :
    powerModBits base modulus bits exponent = base ^ (exponent % 2 ^ bits) % modulus := by
  induction bits generalizing exponent with
  | zero => simp [powerModBits, Nat.mod_one]
  | succ bits ih =>
      have hsplit : exponent % 2 ^ (bits + 1) =
          exponent / 2 % 2 ^ bits + exponent / 2 % 2 ^ bits + exponent % 2 := by
        rw [Nat.pow_succ, Nat.mul_comm, Nat.mod_mul]
        omega
      simp only [powerModBits, ih]
      rw [hsplit]
      split
      case isTrue hodd =>
        rw [hodd, Nat.pow_succ, Nat.pow_add]
        simp [Nat.mul_mod]
      case isFalse heven =>
        have hzero : exponent % 2 = 0 := by omega
        rw [hzero, Nat.add_zero, Nat.pow_add]
        simp [Nat.mul_mod]

theorem powerMod_eq (base exponent modulus : Nat) :
    powerMod base exponent modulus = base ^ exponent % modulus := by
  have hlt : exponent < 2 ^ (exponent.log2 + 1) := Nat.lt_log2_self
  rw [powerMod, powerModBits_eq, Nat.mod_eq_of_lt hlt, ← Nat.pow_mod]

end RelinCeremony
