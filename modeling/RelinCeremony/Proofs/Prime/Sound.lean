import Mathlib.NumberTheory.LucasPrimality
import RelinCeremony.Prime.Basic

namespace RelinCeremony
namespace Prime

/-!
# Numbers accepted as primes are prime

Below the trial limit this is trial division.  Above it a number is accepted for
a certificate of Lucas, whose prime factors are certified in turn, or after all
for trial division.  The searches for divisors and bases play no part: a
certificate is checked by the product of its factors.
-/

/-! ## Trial division -/

/-- A divisor with a small square is met by the trial, if there are steps enough. -/
theorem not_dvd_of_hasNoDivisorFrom {n steps divisor k : Nat}
    (h : hasNoDivisorFrom n steps divisor = true)
    (hsteps : n < (divisor + steps) * (divisor + steps)) (hk : divisor ≤ k) (hsquare : k * k ≤ n) :
    ¬ k ∣ n := by
  -- Each step rules out one divisor; past the square root of `n` there is no need to go on.
  induction steps generalizing divisor with
  | zero =>
      have hle : divisor * divisor ≤ k * k := Nat.mul_le_mul hk hk
      simp only [Nat.add_zero] at hsteps
      omega
  | succ steps ih =>
      unfold hasNoDivisorFrom at h
      split at h
      case isTrue hlarge =>
        have hle : divisor * divisor ≤ k * k := Nat.mul_le_mul hk hk
        omega
      case isFalse =>
        split at h
        case isTrue => cases h
        case isFalse hndvd =>
          rcases Nat.eq_or_lt_of_le hk with rfl | hlt
          · exact fun hdvd => hndvd (Nat.mod_eq_zero_of_dvd hdvd)
          · exact ih h (by rwa [show divisor + 1 + steps = divisor + (steps + 1) by omega]) hlt

theorem prime_of_passesTrialDivision {n : Nat} (h : passesTrialDivision n = true) : n.Prime := by
  unfold passesTrialDivision at h
  simp only [Bool.and_eq_true, decide_eq_true_eq] at h
  obtain ⟨htwo, htrial⟩ := h
  by_contra hcomposite
  have hsquare : n.minFac * n.minFac ≤ n := by
    have hle := Nat.minFac_sq_le_self (by omega) hcomposite
    rwa [pow_two] at hle
  have hfactor : 2 ≤ n.minFac := (Nat.minFac_prime (by omega)).two_le
  have hsteps : n < (2 + n) * (2 + n) := by nlinarith
  exact not_dvd_of_hasNoDivisorFrom htrial hsteps hfactor hsquare n.minFac_dvd

/-! ## Certificates -/

theorem powerMod_eq_one_iff {n a e : Nat} (hn : 1 < n) :
    powerMod a e n = 1 ↔ (a : ZMod n) ^ e = 1 := by
  rw [powerMod_eq]
  constructor
  · intro h
    have hcast := congrArg (Nat.cast : Nat → ZMod n) h
    rwa [ZMod.natCast_mod, Nat.cast_pow, Nat.cast_one] at hcast
  · intro h
    have hcast : ((a ^ e : Nat) : ZMod n) = ((1 : Nat) : ZMod n) := by
      rw [Nat.cast_pow, h, Nat.cast_one]
    have hmod := (ZMod.natCast_eq_natCast_iff (a ^ e) 1 n).1 hcast
    rwa [Nat.ModEq, Nat.mod_eq_of_lt hn] at hmod

/-- A number of full order is among those that are looked through. -/
theorem exists_hasFullOrder {n count base : Nat} {factors : List Nat}
    (h : hasFullOrderFrom n factors count base = true) :
    ∃ a, hasFullOrder n factors a = true := by
  induction count generalizing base with
  | zero => cases h
  | succ count ih =>
      unfold hasFullOrderFrom at h
      rcases Bool.or_eq_true_iff.1 h with hbase | hrest
      · exact ⟨base, hbase⟩
      · exact ih hrest

theorem mem_of_prime_dvd_prod {factors : List Nat} (hprimes : ∀ r ∈ factors, r.Prime) {q : Nat}
    (hq : q.Prime) (hdvd : q ∣ factors.prod) : q ∈ factors := by
  obtain ⟨r, hr, hqr⟩ := (Prime.dvd_prod_iff hq.prime).1 hdvd
  rwa [(Nat.prime_dvd_prime_iff_eq hq (hprimes r hr)).1 hqr]

/-- A number of full order for the prime factors of `n - 1` shows that `n` is prime. -/
theorem prime_of_hasFullOrder {n a : Nat} {factors distinct : List Nat} (hn : 1 < n)
    (hproduct : factors.prod = n - 1) (hsub : ∀ q ∈ factors, q ∈ distinct)
    (hprimes : ∀ q ∈ distinct, q.Prime) (h : hasFullOrder n distinct a = true) : n.Prime := by
  unfold hasFullOrder at h
  simp only [Bool.and_eq_true, beq_iff_eq, List.all_eq_true, bne_iff_ne] at h
  obtain ⟨hone, hother⟩ := h
  refine lucas_primality n a ((powerMod_eq_one_iff hn).1 hone) fun q hq hdvd hpower => ?_
  rw [← hproduct] at hdvd
  have hmem := mem_of_prime_dvd_prod (fun r hr => hprimes r (hsub r hr)) hq hdvd
  exact hother q (hsub q hmem) ((powerMod_eq_one_iff hn).2 hpower)

theorem prime_of_isCertified {depth n : Nat} (h : isCertified depth n = true) : n.Prime := by
  -- A certificate rests on certificates for smaller numbers, one level deeper.
  induction depth generalizing n with
  | zero =>
      unfold isCertified at h
      exact prime_of_passesTrialDivision (Bool.and_eq_true_iff.1 h).2
  | succ depth ih =>
      unfold isCertified at h
      split at h
      case isTrue => exact prime_of_passesTrialDivision h
      case isFalse hlarge =>
        simp only [Bool.and_eq_true, beq_iff_eq, List.all_eq_true] at h
        obtain ⟨⟨hproduct, hcertified⟩, horder⟩ := h
        obtain ⟨a, ha⟩ := exists_hasFullOrder horder
        have hn : 1 < n := by
          have hlimit : trialLimit = 2 ^ 16 := rfl
          omega
        exact prime_of_hasFullOrder hn hproduct (fun q hq => List.mem_eraseDups.2 hq)
          (fun q hq => ih (hcertified q hq)) ha

theorem prime_of_isPrime {n : Nat} (h : isPrime n = true) : n.Prime := by
  unfold isPrime at h
  split at h
  case isTrue => exact prime_of_passesTrialDivision h
  case isFalse =>
    rcases Bool.or_eq_true_iff.1 (Bool.and_eq_true_iff.1 h).2 with hcertified | htrial
    · exact prime_of_isCertified hcertified
    · exact prime_of_passesTrialDivision htrial

end Prime
end RelinCeremony
