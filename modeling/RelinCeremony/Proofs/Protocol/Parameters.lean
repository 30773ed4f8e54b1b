import RelinCeremony.Proofs.Protocol.Engine

namespace RelinCeremony
namespace Protocol
namespace Parameters

/-!
# What parameters hold

Parameters that are built have a valid ring, whose moduli are below `2 ^ 60` whichever way
they were asked for, and a digit size between 1 and 60.
-/

theorem lt_two_pow_of_bitLength_le {n bits : Nat} (h : Word.bitLength n ≤ bits) : n < 2 ^ bits := by
  unfold Word.bitLength at h
  split at h
  case isTrue hzero =>
    rw [hzero]
    exact Nat.two_pow_pos bits
  case isFalse hne => exact (Nat.log2_lt hne).1 (by omega)

theorem le_of_checkSizes {sizes : List Nat} (h : checkSizes sizes = .ok ()) :
    ∀ bits ∈ sizes, bits ≤ coveredBits := by
  unfold checkSizes at h
  split at h
  case h_1 => cases h
  case h_2 hnone =>
    intro bits hbits
    have hnot := List.find?_eq_none.1 hnone bits hbits
    simpa using hnot

theorem mapError_eq_ok_iff {ε δ α : Type} {embed : ε → δ} {x : Fallible ε α} {a : α} :
    Fallible.mapError embed x = .ok a ↔ x = .ok a := by
  cases x with
  | ok b => exact ⟨fun h => by cases h; rfl, fun h => by cases h; rfl⟩
  | error failure =>
      constructor
      · intro h
        cases failure <;> cases h
      · intro h
        cases h

/-- The last step of the construction, with the moduli at hand. -/
theorem valid_of_moduli {moduli : List Nat} {degree digitBits : Nat} {sampler : Ring.NormalSampler}
    {par : Parameters} (hdigit : 0 < digitBits ∧ digitBits ≤ coveredBits)
    (h : (do
      checkSizes (moduli.map Word.bitLength)
      let ring ← Fallible.mapError Error.ring (Ring.NegacyclicRing.build moduli degree)
      return ⟨ring, moduli.map Word.bitLength, digitBits, sampler⟩ : Outcome Parameters) =
        .ok par) :
    par.ring.Valid ∧ (∀ q ∈ par.ring.moduli, q < 2 ^ coveredBits) ∧
      0 < par.digitBits ∧ par.digitBits ≤ coveredBits := by
  obtain ⟨_, hsizes, h⟩ := bind_eq_ok_iff.1 h
  obtain ⟨ring, hring, h⟩ := bind_eq_ok_iff.1 h
  cases h
  obtain ⟨hvalid, _, hmoduli⟩ := Ring.NegacyclicRing.valid_of_build (mapError_eq_ok_iff.1 hring)
  refine ⟨hvalid, fun q hq => ?_, hdigit⟩
  rw [hmoduli] at hq
  exact lt_two_pow_of_bitLength_le (le_of_checkSizes hsizes _ (List.mem_map_of_mem hq))

/-- What is known of parameters that are built. -/
theorem valid_of_build {request : Request} {par : Parameters} (h : build request = .ok par) :
    par.ring.Valid ∧ (∀ q ∈ par.ring.moduli, q < 2 ^ coveredBits) ∧
      0 < par.digitBits ∧ par.digitBits ≤ coveredBits := by
  unfold build at h
  split at h
  case isTrue => cases h
  case isFalse =>
    split at h
    case isTrue => cases h
    case isFalse hdigit =>
      have hdigit' : 0 < request.digitBits ∧ request.digitBits ≤ coveredBits := by
        simpa [not_or, Nat.pos_iff_ne_zero] using hdigit
      split at h
      case h_1 => cases h
      case h_2 sampler =>
        split at h
        case isTrue => cases h
        case isFalse =>
          split at h
          case isTrue => cases h
          case isFalse =>
            -- The moduli are given or chosen; the rest is the same.
            dsimp only at h
            split at h
            · exact valid_of_moduli hdigit' h
            · obtain ⟨moduli, _, h⟩ := bind_eq_ok_iff.1 h
              exact valid_of_moduli hdigit' h

end Parameters
end Protocol
end RelinCeremony
