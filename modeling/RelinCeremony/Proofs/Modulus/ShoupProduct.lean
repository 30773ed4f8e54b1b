import RelinCeremony.Proofs.Modulus.Construction
import RelinCeremony.Proofs.Modulus.Shoup

namespace RelinCeremony
namespace Modulus

/-!
# Products by a factor with the right and with a wrong quotient

With the quotient of its factor the product is exact for every word, also for words above
the modulus, and for every odd modulus of at most 62 bits, prime or not.

The multiplications take the quotient on trust.  With a wrong one the lazy product is the
rest that the word keeps of the product less an estimated multiple of the modulus.  The
reduction refuses that rest if it is not below twice the modulus; a smaller one is reduced
and given out.  It is congruent to the product exactly if the rest was not wrapped around,
so a wrong quotient can be refused, harmless, or the cause of a wrong residue.
-/

variable {m : Modulus} {a b : Nat} {quotient : UInt64}

/-! ## The right quotient -/

theorem gives_lazyShoupMul_right (hm : m.Valid) (ha : a < 2 ^ 64) (hb : b < m.value)
    (hquotient : quotient.toNat = b * 2 ^ 64 / m.value) :
    Gives (m.lazyShoupMul a b quotient) fun r =>
      r < 2 * m.value ∧ r % m.value = a * b % m.value := by
  obtain ⟨hle, hlt⟩ := shoup_estimate b hm.pos ha
  refine ⟨_, lazyShoupMul_eq hm ha hb hquotient, by omega, ?_⟩
  rw [Nat.mul_comm _ m.value, Nat.sub_mul_mod (by rwa [Nat.mul_comm m.value])]

/-- Every odd number from 3 to `2^62 - 1` becomes a modulus by which every word is
multiplied rightly: the quotient of a factor fits in a word, the lazy product by it is
congruent to the product and below twice the modulus, and so the reduction accepts it. -/
theorem shoupMul_exact {p : Nat} (hodd : p % 2 = 1) (hthree : 3 ≤ p) (hlt : p < 2 ^ 62) :
    ∃ m, build p = .ok (some m) ∧ m.value = p ∧ ∀ a < 2 ^ 64, ∀ b < p,
      Gives (m.shoupQuotient b) fun quotient =>
        quotient.toNat = b * 2 ^ 64 / p ∧
        (Gives (m.lazyShoupMul a b quotient) fun r => r < 2 * p ∧ r % p = a * b % p) ∧
        m.shoupMul a b quotient = .ok (m.mul a b) := by
  obtain ⟨_, hbuild, m, rfl, hm, rfl⟩ :=
    gives_build_of_isAdmissible (isAdmissible_iff.2 ⟨hthree, hlt, hodd⟩)
  refine ⟨m, hbuild, rfl, fun a ha b hb => ?_⟩
  refine (gives_shoupQuotient hm hb).imp fun quotient hquotient => ?_
  have hlazy := gives_lazyShoupMul_right hm ha hb hquotient
  refine ⟨hquotient, hlazy, ?_⟩
  obtain ⟨r, hr, hrange, hclass⟩ := hlazy
  calc
    m.shoupMul a b quotient = reduceOnce m.value r := by
      rw [shoupMul, hr]
      rfl
    _ = .ok (r % m.value) := reduceOnce_eq hm.lt_word hrange
    _ = .ok (m.mul a b) := by rw [hclass, mul]

/-- The greatest modulus, `2^62 - 1`, is not a prime, and the greatest word is above it. -/
theorem shoupMul_exact_greatest : ∃ m, build (2 ^ 62 - 1) = .ok (some m) ∧
    m.value = 2 ^ 62 - 1 ∧
    Gives (m.shoupQuotient (2 ^ 62 - 2)) fun quotient =>
      m.shoupMul (2 ^ 64 - 1) (2 ^ 62 - 2) quotient = .ok (2 ^ 62 - 4) := by
  obtain ⟨m, hbuild, hvalue, hproducts⟩ :=
    shoupMul_exact (p := 2 ^ 62 - 1) (by decide) (by decide) (by decide)
  refine ⟨m, hbuild, hvalue, ?_⟩
  refine (hproducts (2 ^ 64 - 1) (by decide) (2 ^ 62 - 2) (by decide)).imp
    fun quotient hquotient => ?_
  rw [hquotient.2.2, mul, hvalue]

/-! ## Any quotient -/

theorem reduceOnce_eq_error {p x : Nat} (hx : 2 * p ≤ x) :
    reduceOnce p x = .error .operandOutOfRange := by
  by_cases hp : p >>> 63 = 0
  · rw [reduceOnce, require_bind hp, require_bind_of_not (by omega)]
  · rw [reduceOnce, require_bind_of_not hp]

theorem reduceOnce_eq_ok_iff {p x r : Nat} (hp : p < 2 ^ 63) :
    reduceOnce p x = .ok r ↔ x < 2 * p ∧ x % p = r := by
  by_cases hx : x < 2 * p
  · simp [reduceOnce_eq hp hx, hx]
  · simp [reduceOnce_eq_error (Nat.le_of_not_lt hx), hx]

/-- A rest below twice the modulus is congruent to the product exactly if the word has not
wrapped it around: the radix is prime to the modulus, and the number of turns is too small
to be a multiple of the modulus. -/
theorem rest_mod_eq_iff (hm : m.Valid) {estimate r : Nat} (ha : a < 2 ^ 64) (hb : b < m.value)
    (hestimate : estimate ≤ 2 ^ 64 - 2)
    (hr : (r : Int) = ((a * b : Nat) - (estimate * m.value : Nat)) % 2 ^ 64)
    (hrange : r < 2 * m.value) :
    r % m.value = a * b % m.value ↔
      estimate * m.value ≤ a * b ∧ a * b < estimate * m.value + 2 * m.value := by
  have hmlt := hm.lt
  have hproduct : a * b < 2 ^ 64 * m.value := Nat.mul_lt_mul_of_lt_of_le ha hb.le hm.pos
  have hmultiple : estimate * m.value ≤ (2 ^ 64 - 2) * m.value :=
    Nat.mul_le_mul_right _ hestimate
  -- The number of turns.
  obtain ⟨k, hk⟩ : ∃ k : Int, ((a * b : Nat) : Int) - (estimate * m.value : Nat) =
      r + 2 ^ 64 * k := ⟨_, by rw [hr]; exact (Int.emod_add_mul_ediv _ _).symm⟩
  have hupper : k < m.value := by omega
  have hlower : -(m.value : Int) < k := by omega
  have hcoprime : IsCoprime (m.value : Int) (2 ^ 64) := by
    have hpow : Nat.Coprime m.value (2 ^ 64) := hm.coprime_two.symm.pow_right 64
    exact_mod_cast hpow.isCoprime
  have hsplit : ((a * b : Nat) : Int) - r = 2 ^ 64 * k + m.value * estimate := by
    push_cast at hk ⊢
    linarith
  have hcongruent : r % m.value = a * b % m.value ↔ (m.value : Int) ∣ k := by
    calc
      r % m.value = a * b % m.value ↔ (m.value : Int) ∣ (a * b : Nat) - r := Nat.modEq_iff_dvd
      _ ↔ (m.value : Int) ∣ 2 ^ 64 * k := by rw [hsplit, dvd_add_left (dvd_mul_right _ _)]
      _ ↔ (m.value : Int) ∣ k := ⟨hcoprime.dvd_of_dvd_mul_left, fun h => h.mul_left _⟩
  rw [hcongruent]
  constructor
  · intro hdvd
    obtain rfl : k = 0 := Int.eq_zero_of_abs_lt_dvd hdvd (abs_lt.2 ⟨hlower, hupper⟩)
    omega
  · rintro ⟨hle, hlt⟩
    obtain rfl : k = 0 := by omega
    exact dvd_zero _

/-- A factor that is not reduced is refused, whatever the quotient.  For a reduced factor
the quotient is not checked: every quotient gives a lazy product, the reduction refuses
only a rest from twice the modulus on, and what it gives out is right exactly if the
estimated multiple of the modulus misses the product by less than twice the modulus. -/
theorem shoupMul_trusts_quotient {p : Nat} (hbuild : build p = .ok (some m)) (ha : a < 2 ^ 64)
    (b : Nat) (quotient : UInt64) :
    (p ≤ b → m.lazyShoupMul a b quotient = .error .operandOutOfRange ∧
      m.shoupMul a b quotient = .error .operandOutOfRange) ∧
    (b < p → Gives (m.lazyShoupMul a b quotient) fun r =>
      (r : Int) = ((a * b : Nat) - (a * quotient.toNat / 2 ^ 64 * p : Nat)) % 2 ^ 64 ∧
      m.shoupMul a b quotient =
        (if r < 2 * p then .ok (r % p) else .error .operandOutOfRange) ∧
      (m.shoupMul a b quotient = .ok (m.mul a b) ↔
        a * quotient.toNat / 2 ^ 64 * p ≤ a * b ∧
          a * b < a * quotient.toNat / 2 ^ 64 * p + 2 * p)) := by
  obtain ⟨hm, rfl⟩ := valid_of_build hbuild
  constructor
  · intro hb
    have hlazy : m.lazyShoupMul a b quotient = .error .operandOutOfRange := by
      rw [lazyShoupMul, require_bind_of_not (Nat.not_lt.2 hb)]
    refine ⟨hlazy, ?_⟩
    rw [shoupMul, hlazy]
    rfl
  · intro hb
    obtain ⟨r, hlazy, hr⟩ := gives_lazyShoupMul hm quotient ha hb
    have hreduce : m.shoupMul a b quotient = reduceOnce m.value r := by
      rw [shoupMul, hlazy]
      rfl
    have hestimate : a * quotient.toNat / 2 ^ 64 ≤ 2 ^ 64 - 2 := by
      have hword := quotient.toNat_lt
      have hle : a * quotient.toNat ≤ (2 ^ 64 - 1) * (2 ^ 64 - 1) :=
        Nat.mul_le_mul (by omega) (by omega)
      omega
    refine ⟨r, hlazy, hr, ?_, ?_⟩
    · rw [hreduce]
      split
      case isTrue hrange => exact reduceOnce_eq hm.lt_word hrange
      case isFalse hrange => exact reduceOnce_eq_error (Nat.not_lt.1 hrange)
    · rw [hreduce, reduceOnce_eq_ok_iff hm.lt_word, mul]
      constructor
      · rintro ⟨hrange, hclass⟩
        exact (rest_mod_eq_iff hm ha hb hestimate hr hrange).1 hclass
      · rintro ⟨hle, hlt⟩
        have hmlt := hm.lt
        have hrange : r < 2 * m.value := by omega
        exact ⟨hrange, (rest_mod_eq_iff hm ha hb hestimate hr hrange).2 ⟨hle, hlt⟩⟩

/-- Modulo 97 the quotient of 5 is 950863096582966578.  The quotient below it is as good
for the word 96. -/
theorem shoupMul_trusts_quotient_small : ∃ m, build 97 = .ok (some m) ∧
    m.shoupQuotient 5 = .ok 950863096582966578 ∧
    m.shoupMul 96 5 950863096582966577 = .ok (96 * 5 % 97) := by
  obtain ⟨_, hbuild, m, rfl, hm, hvalue⟩ := gives_build_of_isAdmissible (p := 97) (by decide)
  refine ⟨m, hbuild, ?_, ?_⟩
  · rw [shoupQuotient, require_bind (by omega), hvalue]
    rfl
  · obtain ⟨_, hreduced⟩ :=
      shoupMul_trusts_quotient hbuild (a := 96) (by decide) 5 950863096582966577
    obtain ⟨r, _, _, _, hright⟩ := hreduced (by decide)
    rw [hright.2 (by decide), mul, hvalue]

/-- Modulo 3 the products of `2 ^ 63` by 2 are 1.  With the quotient 0, which is not that
of 2, the product is taken without a fault and is 0. -/
theorem shoupMul_wrong_quotient : ∃ m, build 3 = .ok (some m) ∧
    m.shoupQuotient 2 = .ok 12297829382473034410 ∧
    m.lazyShoupMul (2 ^ 63) 2 0 = .ok 0 ∧ m.shoupMul (2 ^ 63) 2 0 = .ok 0 ∧
    m.mul (2 ^ 63) 2 = 1 := by
  refine ⟨_, rfl, ?_, ?_, ?_, ?_⟩ <;> decide

end Modulus
end RelinCeremony
