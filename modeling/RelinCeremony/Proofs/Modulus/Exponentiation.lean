import Mathlib.Tactic.NormNum.Prime
import RelinCeremony.Proofs.Loop
import RelinCeremony.Proofs.Modulus.Construction
import RelinCeremony.Proofs.Modulus.Inverse

namespace RelinCeremony
namespace Modulus

/-!
# Powers by squaring, and inverses as powers

A power is also computed by a loop that reads the exponent from its lowest bit upwards.
An accumulator collects the squares of the base that belong to the bits that are set.
The accumulator times the power that is still to come does not change from round to round,
so the loop ends with the same residue as `Modulus.pow`, for every base and exponent.

Modulo a prime the inverse of `a` is the power `a ^ (p - 2)`.  It is characterised by its
product with `a`, and its other laws follow from that.
-/

/-! ## The squaring loop -/

/-- What the squaring loop keeps from round to round. -/
structure PowerState where
  accumulator : Nat
  base : Nat
  exponent : Nat
deriving DecidableEq

/-- The power that the loop has still to give, not reduced. -/
def PowerState.value (s : PowerState) : Nat := s.accumulator * s.base ^ s.exponent

/-- One round of the squaring loop: the lowest bit of the exponent is used and taken off. -/
def squaringRound (m : Modulus) (s : PowerState) : Checked (Nat ⊕ PowerState) := do
  if s.exponent = 0 then return .inl s.accumulator
  else
    return .inr {
      accumulator :=
        if s.exponent % 2 = 1 then m.mul s.accumulator s.base else s.accumulator
      base := m.mul s.base s.base
      exponent := s.exponent / 2 }

variable {m : Modulus} {a b r : Nat} {s s' : PowerState}

/-- A round that is not the last one halves the exponent and keeps the value up to multiples
of the modulus. -/
theorem of_squaringRound (h : m.squaringRound s = .ok (.inr s')) :
    s'.exponent < s.exponent ∧ s'.value ≡ s.value [MOD m.value] ∧
      (s.accumulator < m.value → s'.accumulator < m.value) := by
  unfold squaringRound at h
  split at h
  case isTrue hzero => cases h
  case isFalse hpos =>
    have hsquare : m.mul s.base s.base ^ (s.exponent / 2) ≡ s.base ^ (2 * (s.exponent / 2))
        [MOD m.value] := by
      rw [pow_mul, pow_two]
      exact (Nat.mod_modEq _ _).pow _
    cases h
    refine ⟨by dsimp only; omega, ?_, ?_⟩
    · unfold PowerState.value
      dsimp only
      split
      case isTrue hodd =>
        have hexponent : s.exponent = 1 + 2 * (s.exponent / 2) := by omega
        calc
          m.mul s.accumulator s.base * m.mul s.base s.base ^ (s.exponent / 2)
            ≡ s.accumulator * s.base * s.base ^ (2 * (s.exponent / 2)) [MOD m.value] :=
              (Nat.mod_modEq _ _).mul hsquare
          _ = s.accumulator * s.base ^ (1 + 2 * (s.exponent / 2)) := by
              rw [pow_add, pow_one, mul_assoc]
          _ = s.accumulator * s.base ^ s.exponent := by rw [← hexponent]
      case isFalse heven =>
        have hexponent : s.exponent = 2 * (s.exponent / 2) := by omega
        calc
          s.accumulator * m.mul s.base s.base ^ (s.exponent / 2)
            ≡ s.accumulator * s.base ^ (2 * (s.exponent / 2)) [MOD m.value] :=
              hsquare.mul_left _
          _ = s.accumulator * s.base ^ s.exponent := by rw [← hexponent]
    · intro hlt
      dsimp only
      split
      case isTrue => exact Nat.mod_lt _ (by omega)
      case isFalse => exact hlt

/-- From a reduced accumulator the loop ends with the reduced value of its state. -/
theorem loopEnds_squaringRound (s : PowerState) (hs : s.accumulator < m.value) :
    LoopEnds m.squaringRound s (s.value % m.value) := by
  -- The induction is on the exponent, which gets smaller in every round.
  induction hexponent : s.exponent using Nat.strong_induction_on generalizing s with
  | _ exponent ih =>
      by_cases hzero : s.exponent = 0
      · refine .done ?_
        rw [squaringRound, if_pos hzero, PowerState.value, hzero, pow_zero, mul_one,
          Nat.mod_eq_of_lt hs]
        rfl
      · obtain ⟨s', hround⟩ : ∃ s', m.squaringRound s = .ok (.inr s') := by
          rw [squaringRound, if_neg hzero]
          exact ⟨_, rfl⟩
        obtain ⟨hless, hvalue, hlt⟩ := of_squaringRound hround
        have hrest := ih s'.exponent (hexponent ▸ hless) s' (hlt hs) rfl
        rw [show s'.value % m.value = s.value % m.value from hvalue] at hrest
        exact .next hround hrest

/-- Begun with 1 and the reduced base, the loop ends with the power. -/
theorem loopEnds_pow (hm : m.Valid) (a n : Nat) :
    LoopEnds m.squaringRound ⟨1 % m.value, a % m.value, n⟩ (m.pow a n) := by
  have hloop := loopEnds_squaringRound (m := m) ⟨1 % m.value, a % m.value, n⟩
    (Nat.mod_lt _ hm.pos)
  have hvalue : (1 % m.value) * (a % m.value) ^ n ≡ 1 * a ^ n [MOD m.value] :=
    (Nat.mod_modEq _ _).mul ((Nat.mod_modEq _ _).pow n)
  rw [one_mul] at hvalue
  rw [pow_eq, ← show PowerState.value ⟨1 % m.value, a % m.value, n⟩ % m.value =
    a ^ n % m.value from hvalue]
  exact hloop

/-! ## Inverses -/

theorem inverse?_eq_none_iff_dvd : m.inverse? a = none ↔ m.value ∣ a := by
  rw [inverse?_eq_none_iff, ZMod.natCast_eq_zero_iff]

/-- The inverse is the one residue whose product with the number is 1. -/
theorem inverse?_eq_some_iff (hm : m.Valid) (hprime : m.value.Prime) :
    m.inverse? a = some r ↔ r < m.value ∧ a * r % m.value = 1 := by
  have hclass : ∀ s : Nat, (a : ZMod m.value) * s = 1 ↔ a * s % m.value = 1 := by
    intro s
    rw [← cast_eq_one_iff hm, Nat.cast_mul]
  have hinverse : ∀ s, m.inverse? a = some s → s < m.value ∧ a * s % m.value = 1 :=
    fun s hs => by rw [← hclass]; exact represents_inverse hm hprime hs
  constructor
  · exact hinverse r
  · rintro ⟨hlt, hproduct⟩
    cases hs : m.inverse? a with
    | none =>
        rw [(Nat.dvd_iff_mod_eq_zero).1 ((inverse?_eq_none_iff_dvd.1 hs).mul_right r)] at hproduct
        cases hproduct
    | some s =>
        obtain ⟨hsLt, hsProduct⟩ := hinverse s hs
        -- Two inverses of one class are equal, and reduced residues of one class as well.
        have hunique : (r : ZMod m.value) = s := by
          have hr := (hclass r).2 hproduct
          have hs := (hclass s).2 hsProduct
          calc
            (r : ZMod m.value) = a * s * r := by rw [hs, one_mul]
            _ = a * r * s := by ring
            _ = s := by rw [hr, one_mul]
        rw [Represents.unique ⟨hlt, hunique⟩ (represents_self hsLt)]

theorem exists_inverse (ha : ¬ m.value ∣ a) : ∃ r, m.inverse? a = some r := by
  rw [← inverse?_eq_none_iff_dvd] at ha
  exact Option.ne_none_iff_exists'.1 ha

theorem inverse?_inverse (hm : m.Valid) (hprime : m.value.Prime) (h : m.inverse? a = some r) :
    m.inverse? r = some (a % m.value) := by
  rw [inverse?_eq_some_iff hm hprime] at h ⊢
  refine ⟨Nat.mod_lt _ hm.pos, ?_⟩
  rw [Nat.mul_mod_mod, mul_comm]
  exact h.2

theorem inverse?_mul (hm : m.Valid) (hprime : m.value.Prime) {s : Nat}
    (hr : m.inverse? a = some r) (hs : m.inverse? b = some s) :
    m.inverse? (m.mul a b) = some (m.mul r s) := by
  have hone : 1 % m.value = 1 := Nat.mod_eq_of_lt hprime.one_lt
  rw [inverse?_eq_some_iff hm hprime] at hr hs ⊢
  refine ⟨Nat.mod_lt _ hm.pos, ?_⟩
  have hproduct : a * r * (b * s) ≡ 1 [MOD m.value] :=
    Nat.ModEq.mul (hr.2.trans hone.symm) (hs.2.trans hone.symm)
  calc
    m.mul a b * m.mul r s % m.value = a * b * (r * s) % m.value := (Nat.mul_mod _ _ _).symm
    _ = a * r * (b * s) % m.value := by rw [mul_mul_mul_comm]
    _ = 1 := Eq.trans hproduct hone

/-- Every odd number from 3 to `2^62 - 1` becomes a modulus with exact powers: for every base
and exponent the squaring loop ends, and it ends with the reduced power, where the power
with the exponent 0 is 1.  If the number is a prime, the multiples of it are the numbers
without an inverse; the inverse of another number is the one positive residue whose product
with it is 1; and inverting undoes itself and respects products. -/
theorem pow_inverse_exact {p : Nat} (hodd : p % 2 = 1) (hthree : 3 ≤ p) (hlt : p < 2 ^ 62) :
    ∃ m, build p = .ok (some m) ∧ m.value = p ∧ m.pow 0 0 = 1 ∧
      (∀ a n, LoopEnds m.squaringRound ⟨1 % p, a % p, n⟩ (m.pow a n) ∧
        m.pow a n = a ^ n % p) ∧
      (p.Prime →
        (∀ a, (m.inverse? a = none ↔ p ∣ a) ∧
          ∀ r, m.inverse? a = some r ↔ 0 < r ∧ r < p ∧ a * r % p = 1) ∧
        (∀ a, ¬ p ∣ a → (do m.inverse? (← m.inverse? a)) = some (a % p)) ∧
        ∀ a b, ¬ p ∣ a → ¬ p ∣ b → ∃ r s, m.inverse? a = some r ∧ m.inverse? b = some s ∧
          m.inverse? (m.mul a b) = some (m.mul r s)) := by
  obtain ⟨_, hbuild, m, rfl, hm, rfl⟩ :=
    gives_build_of_isAdmissible (isAdmissible_iff.2 ⟨hthree, hlt, hodd⟩)
  refine ⟨m, hbuild, rfl, ?_, fun a n => ⟨loopEnds_pow hm a n, pow_eq m a n⟩,
    fun hprime => ⟨fun a => ⟨inverse?_eq_none_iff_dvd, fun r => ?_⟩, fun a ha => ?_,
      fun a b ha hb => ?_⟩⟩
  · rw [pow_eq, pow_zero]
    exact Nat.mod_eq_of_lt (by omega)
  · rw [inverse?_eq_some_iff hm hprime]
    constructor
    · rintro ⟨hr, hproduct⟩
      have hpos : 0 < r := Nat.pos_of_ne_zero fun hzero => by simp [hzero] at hproduct
      exact ⟨hpos, hr, hproduct⟩
    · exact fun h => h.2
  · obtain ⟨r, hr⟩ := exists_inverse ha
    rw [hr]
    exact inverse?_inverse hm hprime hr
  · obtain ⟨r, hr⟩ := exists_inverse ha
    obtain ⟨s, hs⟩ := exists_inverse hb
    exact ⟨r, s, hr, hs, inverse?_mul hm hprime hr hs⟩

/-- Modulo 97, for the greatest word as base and as exponent: the word is 60 modulo 97, and
the inverse of 60 is 76. -/
theorem pow_inverse_exact_small : ∃ m, build 97 = .ok (some m) ∧ m.value = 97 ∧
    LoopEnds m.squaringRound ⟨1, 60, 2 ^ 64 - 1⟩ (m.pow (2 ^ 64 - 1) (2 ^ 64 - 1)) ∧
    Nat.Prime 97 ∧ m.inverse? (2 ^ 64 - 1) = some 76 ∧ m.inverse? (97 * 5) = none ∧
    ¬ 97 ∣ 2 ^ 64 - 1 ∧ (do m.inverse? (← m.inverse? (2 ^ 64 - 1))) = some 60 := by
  obtain ⟨m, hbuild, hvalue, _, hpow, hinverse⟩ :=
    pow_inverse_exact (p := 97) (by decide) (by decide) (by decide)
  have hprime : Nat.Prime 97 := by norm_num
  obtain ⟨hexact, hundo, _⟩ := hinverse hprime
  exact ⟨m, hbuild, hvalue, (hpow (2 ^ 64 - 1) (2 ^ 64 - 1)).1, hprime,
    ((hexact (2 ^ 64 - 1)).2 76).2 (by decide), (hexact (97 * 5)).1.2 (by decide), by decide,
    hundo (2 ^ 64 - 1) (by decide)⟩

end Modulus
end RelinCeremony
