import Mathlib.Algebra.BigOperators.Group.List.Lemmas
import Mathlib.Data.List.Nodup
import RelinCeremony.Proofs.Ring.Arithmetic
import RelinCeremony.Proofs.Transform.Plan

namespace RelinCeremony
namespace Ring
/-!
# What a ring holds

A ring that is built has distinct prime moduli, each 1 modulo twice the degree and
with a transform of the degree, and idempotents that are 1 in their own channel and
0 in the others.  This is `NegacyclicRing.Valid`, and all that the later modules use
of the construction.
-/

/-- The invariant of a channel of a ring with the given degree and product of the
moduli.  The idempotent vanishes modulo every divisor of the cofactor. -/
structure Channel.Valid (channel : Channel) (degree product : Nat) : Prop where
  modulus : channel.modulus.Valid
  prime : channel.modulus.value.Prime
  dvd : channel.modulus.value ∣ product
  congruent : channel.modulus.value % Word.low (2 * degree) = 1
  hasRoot : ∃ ψ, channel.transform.HasRoot channel.modulus ψ
  size_eq : channel.transform.size = degree
  not_dvd_cofactor : ¬ channel.modulus.value ∣ product / channel.modulus.value
  idempotent_self : (channel.idempotent : ZMod channel.modulus.value) = 1
  idempotent_other : ∀ p, p ∣ product → p ∣ product / channel.modulus.value →
    (channel.idempotent : ZMod p) = 0

namespace NegacyclicRing

/-- The invariant of a ring. -/
structure Valid (ring : NegacyclicRing) : Prop where
  degree_eq : 2 ^ ring.degree.log2 = ring.degree
  degree_le : 8 ≤ ring.degree
  modulus_eq : ring.modulus = ring.moduli.prod
  channel_valid : ∀ channel ∈ ring.channels, channel.Valid ring.degree ring.modulus

/-! ## Products of moduli -/

/-- Numbers that do not divide their cofactors in the product are distinct. -/
theorem nodup_of_not_dvd_cofactor {moduli : List Nat}
    (h : ∀ p ∈ moduli, ¬ p ∣ moduli.prod / p) : moduli.Nodup := by
  rw [List.nodup_iff_sublist]
  intro p hsub
  have hmem : p ∈ moduli := hsub.subset (by simp)
  have hdvd : p * p ∣ moduli.prod := by
    have hprod := hsub.prod_dvd_prod
    simpa using hprod
  exact h p hmem ((Nat.dvd_div_iff_mul_dvd (dvd_of_mul_right_dvd hdvd)).2 hdvd)

theorem dvd_cofactor {p q product : Nat} (hp : p.Prime) (hq : q.Prime) (hpdvd : p ∣ product)
    (hqdvd : q ∣ product) (hne : p ≠ q) : p ∣ product / q := by
  have hcoprime : Nat.Coprime p q := (Nat.coprime_primes hp hq).2 hne
  refine hcoprime.dvd_of_dvd_mul_left ?_
  rw [Nat.mul_div_cancel' hqdvd]
  exact hpdvd

theorem cast_mod_of_dvd {p n : Nat} (h : p ∣ n) (x : Nat) : ((x % n : Nat) : ZMod p) = x := by
  rw [ZMod.natCast_eq_natCast_iff]
  exact Nat.ModEq.of_dvd h (Nat.mod_modEq x n)

/-! ## The construction -/

theorem valid_of_admitChannel {degree value : Nat} {m : Modulus} {transform : Transform.Plan}
    (h : admitChannel degree value = .ok (m, transform)) :
    m.value = value ∧ m.Valid ∧ m.value.Prime ∧ m.value % Word.low (2 * degree) = 1 ∧
      (∃ ψ, transform.HasRoot m ψ) ∧ transform.size = degree := by
  unfold admitChannel at h
  obtain ⟨m', hmodulus, h⟩ := bind_eq_ok_iff.1 h
  obtain ⟨transform?, htransform, h⟩ := bind_eq_ok_iff.1 h
  rw [lift_eq_ok_iff] at htransform
  cases transform? with
  | none => cases h
  | some transform' =>
      cases h
      unfold admitModulus at hmodulus
      obtain ⟨m?, hbuild, hmodulus⟩ := bind_eq_ok_iff.1 hmodulus
      rw [lift_eq_ok_iff] at hbuild
      cases m? with
      | none => cases hmodulus
      | some m'' =>
          cases hmodulus
          obtain ⟨hm, hvalue⟩ := Modulus.valid_of_build hbuild
          obtain ⟨hprime, hcongruent, hroot, hsize⟩ := Transform.Plan.hasRoot_of_build hm htransform
          exact ⟨hvalue, hm, hprime, hcongruent, hroot, hsize⟩

theorem valid_of_completeChannel {degree product : Nat} {m : Modulus}
    {transform : Transform.Plan} {channel : Channel} (hm : m.Valid) (hprime : m.value.Prime)
    (hcongruent : m.value % Word.low (2 * degree) = 1) (hroot : ∃ ψ, transform.HasRoot m ψ)
    (hsize : transform.size = degree) (hdvd : m.value ∣ product)
    (h : completeChannel product m transform = .ok channel) :
    channel.Valid degree product ∧ channel.modulus = m := by
  unfold completeChannel at h
  dsimp only at h
  split at h
  case h_2 => cases h
  case h_1 inverse hinverse =>
    cases h
    obtain ⟨_, hunit⟩ := Modulus.represents_inverse hm hprime hinverse
    rw [ZMod.natCast_mod] at hunit
    refine ⟨⟨hm, hprime, hdvd, hcongruent, hroot, hsize, ?_, ?_, ?_⟩, rfl⟩
    · intro hcofactor
      have : Fact m.value.Prime := ⟨hprime⟩
      rw [(ZMod.natCast_eq_zero_iff _ _).2 hcofactor, zero_mul] at hunit
      exact zero_ne_one hunit
    · rw [cast_mod_of_dvd hdvd, Nat.cast_mul]
      exact hunit
    · intro p hproduct hcofactor
      rw [cast_mod_of_dvd hproduct, Nat.cast_mul, (ZMod.natCast_eq_zero_iff _ _).2 hcofactor,
        zero_mul]

/-- A ring that is built has the degree and the moduli asked for, and is valid. -/
theorem valid_of_build {moduli : List Nat} {degree : Nat} {ring : NegacyclicRing}
    (h : build moduli degree = .ok ring) :
    ring.Valid ∧ ring.degree = degree ∧ ring.moduli = moduli := by
  unfold build at h
  split at h
  case isTrue => cases h
  case isFalse hdegree =>
    split at h
    case isTrue => cases h
    case isFalse =>
      obtain ⟨admitted, hadmitted, h⟩ := bind_eq_ok_iff.1 h
      obtain ⟨channels, hchannels, h⟩ := bind_eq_ok_iff.1 h
      cases h
      have hadmits := mapM_eq_ok_iff.1 hadmitted
      have hcomplete := mapM_eq_ok_iff.1 hchannels
      have hcount : channels.length = moduli.length :=
        hcomplete.length_eq.symm.trans hadmits.length_eq.symm
      -- Channel by channel: what was admitted, and what was completed.
      have hchannel : ∀ j (hj : j < channels.length) (hjm : j < moduli.length),
          channels[j].Valid degree moduli.prod ∧ channels[j].modulus.value = moduli[j] := by
        intro j hj hjm
        have hja : j < admitted.length := by
          rw [hcomplete.length_eq]
          exact hj
        obtain ⟨hvalue, hm, hprime, hcongruent, hroot, hsize⟩ :=
          valid_of_admitChannel (hadmits.get hjm hja)
        have hdvd : admitted[j].1.value ∣ moduli.prod := by
          rw [List.get_eq_getElem, List.get_eq_getElem] at hvalue
          rw [hvalue]
          exact List.dvd_prod (List.getElem_mem hjm)
        obtain ⟨hvalid, hmodulus⟩ := valid_of_completeChannel hm hprime hcongruent hroot hsize hdvd
          (hcomplete.get hja hj)
        simp only [List.get_eq_getElem] at hvalid hmodulus hvalue
        exact ⟨hvalid, by rw [hmodulus, hvalue]⟩
      have hmoduli : (⟨degree, channels, moduli.prod⟩ : NegacyclicRing).moduli = moduli := by
        refine List.ext_getElem (by simpa [NegacyclicRing.moduli] using hcount) fun j hj hjm => ?_
        simp only [NegacyclicRing.moduli, List.getElem_map]
        exact (hchannel j (by simpa [NegacyclicRing.moduli] using hj) hjm).2
      have hdegree' : Word.isPowerOfTwo degree = true ∧ 8 ≤ degree := by
        simpa [isDegree] using hdegree
      have hmodulus := (congrArg List.prod hmoduli).symm
      refine ⟨⟨Transform.two_pow_log2 hdegree'.1, hdegree'.2, hmodulus, ?_⟩, rfl, hmoduli⟩
      intro channel hmem
      obtain ⟨j, hj, rfl⟩ := List.getElem_of_mem hmem
      exact (hchannel j hj (by rw [← hcount]; exact hj)).1

/-! ## Channels of a valid ring -/

variable {ring : NegacyclicRing}

theorem mem_moduli_iff {p : Nat} :
    p ∈ ring.moduli ↔ ∃ j, (ring.channel j).modulus.value = p := by
  constructor
  · intro hp
    obtain ⟨channel, hmem, rfl⟩ := List.mem_map.1 hp
    obtain ⟨j, hj, rfl⟩ := List.getElem_of_mem hmem
    exact ⟨⟨j, hj⟩, rfl⟩
  · rintro ⟨j, rfl⟩
    exact List.mem_map.2 ⟨_, List.getElem_mem j.isLt, rfl⟩

namespace Valid

theorem channel (hring : ring.Valid) (j : Fin ring.channels.length) :
    (ring.channel j).Valid ring.degree ring.modulus :=
  hring.channel_valid _ (List.getElem_mem j.isLt)

theorem validModuli (hring : ring.Valid) : ring.ValidModuli := fun j => (hring.channel j).modulus

theorem nodup (hring : ring.Valid) : ring.moduli.Nodup := by
  refine nodup_of_not_dvd_cofactor fun p hp => ?_
  obtain ⟨j, rfl⟩ := mem_moduli_iff.1 hp
  rw [← hring.modulus_eq]
  exact (hring.channel j).not_dvd_cofactor

theorem value_ne (hring : ring.Valid) {i j : Fin ring.channels.length} (hne : i ≠ j) :
    (ring.channel i).modulus.value ≠ (ring.channel j).modulus.value := by
  have hinjective := List.nodup_iff_injective_getElem.1 hring.nodup
  intro hvalue
  apply hne
  have hij := @hinjective ⟨i, by simp [moduli]⟩ ⟨j, by simp [moduli]⟩
    (by simpa [moduli, NegacyclicRing.channel] using hvalue)
  exact Fin.ext (by simpa using hij)

/-- The idempotent of a channel is 1 in it and 0 in the others. -/
theorem cast_idempotent (hring : ring.Valid) (i j : Fin ring.channels.length) :
    ((ring.channel i).idempotent : ZMod (ring.channel j).modulus.value) =
      if i = j then 1 else 0 := by
  split
  case isTrue hij =>
    subst hij
    exact (hring.channel i).idempotent_self
  case isFalse hij =>
    exact (hring.channel i).idempotent_other _ (hring.channel j).dvd
      (dvd_cofactor (hring.channel j).prime (hring.channel i).prime (hring.channel j).dvd
        (hring.channel i).dvd (Ne.symm (hring.value_ne hij)))

theorem modulus_pos (hring : ring.Valid) : 0 < ring.modulus := by
  rw [hring.modulus_eq]
  refine List.prod_pos fun p hp => ?_
  obtain ⟨j, rfl⟩ := mem_moduli_iff.1 hp
  exact (hring.channel j).modulus.pos

/-- The moduli are 1 modulo 16, as the degree is a multiple of 8. -/
theorem value_mod_sixteen (hring : ring.Valid) (j : Fin ring.channels.length) :
    (ring.channel j).modulus.value % 16 = 1 := by
  have hcongruent := (hring.channel j).congruent
  have hthree := (hring.channel j).modulus.three_le
  have hdepth : 3 ≤ ring.degree.log2 := by
    by_contra hlt
    have hpow : 2 ^ ring.degree.log2 ≤ 2 ^ 2 := Nat.pow_le_pow_right (by decide) (by omega)
    have hle := hring.degree_le
    rw [hring.degree_eq] at hpow
    omega
  have hsixteen : 16 ∣ Word.low (2 * ring.degree) := by
    have hdegree : 16 ∣ 2 * ring.degree := by
      rw [← hring.degree_eq, ← pow_succ']
      exact pow_dvd_pow 2 (m := 4) (by omega)
    exact (Nat.dvd_mod_iff (by decide)).2 hdegree
  rw [← Nat.mod_mod_of_dvd _ hsixteen, hcongruent]

/-- There are at most as many channels as numbers below `2 ^ 62` that are 1 modulo 16. -/
theorem length_channels_le (hring : ring.Valid) : ring.channels.length ≤ 2 ^ 58 := by
  have hnodup : (ring.moduli.map (· / 16)).Nodup := by
    refine hring.nodup.map_on fun p hp q hq hpq => ?_
    obtain ⟨i, rfl⟩ := mem_moduli_iff.1 hp
    obtain ⟨j, rfl⟩ := mem_moduli_iff.1 hq
    have hi := hring.value_mod_sixteen i
    have hj := hring.value_mod_sixteen j
    omega
  have hsub : (ring.moduli.map (· / 16)) ⊆ List.range (2 ^ 58) := by
    intro x hx
    obtain ⟨p, hp, rfl⟩ := List.mem_map.1 hx
    obtain ⟨j, rfl⟩ := mem_moduli_iff.1 hp
    have hlt := (hring.channel j).modulus.lt
    rw [List.mem_range]
    omega
  have hle := hnodup.length_le_of_subset hsub
  simpa [moduli] using hle

end Valid
end NegacyclicRing
end Ring
end RelinCeremony
