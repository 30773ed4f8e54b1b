import Mathlib.FieldTheory.Finite.Basic
import RelinCeremony.Proofs.Prime.Sound

namespace RelinCeremony
namespace Prime

/-!
# The test of primality is exact

No prime is refused.  Trial division meets no divisor of a prime, and towards every base
that it does not divide a prime behaves as primes do: the squares of a power of the base
come to 1 by the little theorem of Fermat, and the last one before is `-1`.  So whatever the
search for a certificate comes to, a prime is accepted in the end.
-/

/-! ## Trial division -/

theorem hasNoDivisorFrom_of_prime {n steps divisor : Nat} (hn : n.Prime) (hdivisor : 2 ≤ divisor) :
    hasNoDivisorFrom n steps divisor = true := by
  induction steps generalizing divisor with
  | zero => rfl
  | succ steps ih =>
      unfold hasNoDivisorFrom
      split
      case isTrue => rfl
      case isFalse hsquare =>
        have hndvd : n % divisor ≠ 0 := by
          intro hzero
          -- A divisor of a prime from 2 on is the prime, whose square is too large.
          rcases (Nat.dvd_prime hn).1 (Nat.dvd_of_mod_eq_zero hzero) with hone | hself
          · omega
          · have hlt : divisor * 1 < divisor * divisor :=
              Nat.mul_lt_mul_of_pos_left (by omega) (by omega)
            omega
        rw [if_neg hndvd]
        exact ih (by omega)

theorem passesTrialDivision_iff {n : Nat} : passesTrialDivision n = true ↔ n.Prime := by
  refine ⟨prime_of_passesTrialDivision, fun hn => ?_⟩
  unfold passesTrialDivision
  rw [Bool.and_eq_true, decide_eq_true_eq]
  exact ⟨hn.two_le, hasNoDivisorFrom_of_prime hn (by decide)⟩

/-! ## The strong test -/

theorem two_pow_twos_dvd (depth n : Nat) : 2 ^ twos depth n ∣ n := by
  induction depth generalizing n with
  | zero => exact Nat.one_dvd n
  | succ depth ih =>
      unfold twos
      split
      case isTrue heven =>
        have hhalf : n / 2 * 2 = n := Nat.div_mul_cancel (Nat.dvd_of_mod_eq_zero heven)
        have hdouble := Nat.mul_dvd_mul_right (ih (n / 2)) 2
        rwa [hhalf, ← Nat.pow_succ] at hdouble
      case isFalse => exact Nat.one_dvd n

/-- A reduced residue whose class is the class of 1 is 1, and one whose class is `-1` is
`n - 1`. -/
theorem eq_of_cast_eq {n x y : Nat} (hx : x < n) (hy : y < n) (h : (x : ZMod n) = y) : x = y :=
  ((ZMod.natCast_eq_natCast_iff x y n).1 h).eq_of_lt_of_lt hx hy

/-- Modulo a prime, a residue whose squares come to 1 is 1, or `-1` is among them. -/
theorem reachesMinusOne_of_pow_eq_one {n count x : Nat} (hn : n.Prime) (hx : x < n)
    (hpow : (x : ZMod n) ^ 2 ^ count = 1) : x = 1 ∨ reachesMinusOne n count x = true := by
  have : Fact n.Prime := ⟨hn⟩
  have hone : 1 < n := hn.one_lt
  -- The induction is on the squarings that are left.
  induction count generalizing x with
  | zero =>
      left
      refine eq_of_cast_eq hx hone ?_
      rwa [Nat.cast_one, ← pow_one (x : ZMod n)]
  | succ count ih =>
      have hsquare : ((x * x % n : Nat) : ZMod n) = x * x := by
        rw [ZMod.natCast_mod, Nat.cast_mul]
      have hrest : ((x * x % n : Nat) : ZMod n) ^ 2 ^ count = 1 := by
        rw [hsquare, ← pow_two, ← pow_mul, ← pow_succ', hpow]
      unfold reachesMinusOne
      rcases ih (Nat.mod_lt _ hn.pos) hrest with hlast | hlater
      · have hroot : (x : ZMod n) * x = 1 := by rw [← hsquare, hlast, Nat.cast_one]
        rcases mul_self_eq_one_iff.1 hroot with hpos | hneg
        · left
          refine eq_of_cast_eq hx hone ?_
          rw [hpos, Nat.cast_one]
        · right
          have hminus : x = n - 1 := by
            refine eq_of_cast_eq hx (by omega) ?_
            rw [hneg, Nat.cast_pred hn.pos, ZMod.natCast_self, zero_sub]
          rw [Bool.or_eq_true, beq_iff_eq]
          exact .inl hminus
      · right
        rw [hlater, Bool.or_true]

/-- A prime behaves like one towards every base that it does not divide. -/
theorem passesStrongTest_of_prime {n a : Nat} (hn : n.Prime) (ha : ¬ n ∣ a) :
    passesStrongTest n a = true := by
  have : Fact n.Prime := ⟨hn⟩
  have hclass : (a : ZMod n) ≠ 0 := by rwa [Ne, ZMod.natCast_eq_zero_iff]
  unfold passesStrongTest
  dsimp only
  have hpow : ((powerMod a ((n - 1) / 2 ^ twos 64 (n - 1)) n : Nat) : ZMod n) ^
      2 ^ twos 64 (n - 1) = 1 := by
    rw [powerMod_eq, ZMod.natCast_mod, Nat.cast_pow, ← pow_mul,
      Nat.div_mul_cancel (two_pow_twos_dvd 64 (n - 1))]
    exact ZMod.pow_card_sub_one_eq_one hclass
  have hlt : powerMod a ((n - 1) / 2 ^ twos 64 (n - 1)) n < n := by
    rw [powerMod_eq]
    exact Nat.mod_lt _ hn.pos
  rw [Bool.or_eq_true, beq_iff_eq]
  exact reachesMinusOne_of_pow_eq_one hn hlt hpow

/-! ## Primality -/

theorem looksPrime_of_prime {n : Nat} (hn : n.Prime) : looksPrime n = true := by
  unfold looksPrime
  split
  case isTrue => exact passesTrialDivision_iff.2 hn
  case isFalse hlimit =>
    rw [List.all_eq_true]
    intro a ha
    have hbase : 0 < a ∧ a ≤ 37 := by
      revert a
      decide
    refine passesStrongTest_of_prime hn fun hdvd => ?_
    have hle := Nat.le_of_dvd hbase.1 hdvd
    have htrial : trialLimit = 2 ^ 16 := rfl
    omega

/-- The test accepts the primes and nothing else. -/
theorem isPrime_iff {n : Nat} : isPrime n = true ↔ n.Prime := by
  refine ⟨prime_of_isPrime, fun hn => ?_⟩
  unfold isPrime
  split
  case isTrue => exact passesTrialDivision_iff.2 hn
  case isFalse =>
    rw [looksPrime_of_prime hn, passesTrialDivision_iff.2 hn, Bool.or_true, Bool.and_true]

end Prime
end RelinCeremony
