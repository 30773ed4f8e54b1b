import RelinCeremony.Proofs.Protocol.Engine
import RelinCeremony.Proofs.Ring.Quotient
import RelinCeremony.Protocol.Key

namespace RelinCeremony
namespace Protocol

/-!
# Decomposition into digits

The digit `w` of a coefficient in channel `i` is cut out of its residue.  The levels cover 60
bits, so a residue below `2 ^ 60` is the sum of its digits times the powers of two of
their levels.  Since the gadget of channel `i` lives in this channel only, the digits of
all channels times the gadgets add up to the polynomial itself.
-/

open RelinCeremony.Ring (NegacyclicRing)
open RelinCeremony.Ring.NegacyclicRing (gadget polynomial)

theorem getD_digits (q digitBits w : Nat) (coefficients : List Nat) (s : Nat) :
    (digits q digitBits w coefficients).getD s 0 =
      coefficients.getD s 0 % q / 2 ^ (w * digitBits) % 2 ^ digitBits := by
  have hmap := List.getD_map (l := coefficients) (d := 0) (n := s)
    fun c => c % q / 2 ^ (w * digitBits) % 2 ^ digitBits
  simpa [digits] using hmap

/-- The digits of the levels from the first on make up the low bits. -/
theorem sum_digits (x digitBits levels : Nat) :
    ∑ w ∈ Finset.range levels, x / 2 ^ (w * digitBits) % 2 ^ digitBits * 2 ^ (w * digitBits) =
      x % 2 ^ (levels * digitBits) := by
  -- A further level adds the next digit, and the remainder grows by it.
  induction levels with
  | zero => simp [Nat.mod_one]
  | succ levels ih =>
      rw [Finset.sum_range_succ, ih, Nat.succ_mul, pow_add, Nat.mod_mul]
      ring

variable {ring : NegacyclicRing} {digitBits levels : Nat}

/-- Enough levels give back a coefficient in its channel. -/
theorem sum_cast_digits {q : Nat} (hq : q < 2 ^ coveredBits) (hpos : 0 < q)
    (hlevels : coveredBits ≤ levels * digitBits) (c : Nat) :
    ∑ w ∈ Finset.range levels,
      ((c % q / 2 ^ (w * digitBits) % 2 ^ digitBits : Nat) : ZMod q) * 2 ^ (w * digitBits) = c := by
  have hsum := sum_digits (c % q) digitBits levels
  have hlt : c % q < 2 ^ (levels * digitBits) :=
    ((Nat.mod_lt c hpos).trans hq).trans_le (Nat.pow_le_pow_right (by decide) hlevels)
  rw [Nat.mod_eq_of_lt hlt] at hsum
  have hcast := congrArg (Nat.cast : Nat → ZMod q) hsum
  rw [ZMod.natCast_mod] at hcast
  rw [← hcast]
  push_cast
  rfl

/-- The digits times the gadgets add up to the polynomial, channel by channel. -/
theorem sum_digits_gadget (hring : ring.Valid) (hmoduli : ∀ q ∈ ring.moduli, q < 2 ^ coveredBits)
    (hlevels : coveredBits ≤ levels * digitBits) (coefficients : List Nat) :
    ∑ i ∈ Finset.range ring.channels.length, ∑ w ∈ Finset.range levels,
      hring.valuesHom (ring.polynomial (digits (ring.moduli.getD i 0) digitBits w coefficients)) *
        ring.gadget i (w * digitBits) = hring.valuesHom (ring.polynomial coefficients) := by
  funext j t
  have hq : (ring.channel j).modulus.value < 2 ^ coveredBits :=
    hmoduli _ (NegacyclicRing.mem_moduli_iff.2 ⟨j, rfl⟩)
  have hmodulus : ring.moduli.getD j 0 = (ring.channel j).modulus.value := by
    rw [List.getD_eq_getElem _ _ (by simp [NegacyclicRing.moduli])]
    simp [NegacyclicRing.moduli, NegacyclicRing.channel]
  simp only [Finset.sum_apply, Pi.mul_apply, gadget]
  -- Only the gadgets of channel `j` are not zero in it.
  rw [Finset.sum_eq_single (j : Nat)]
  · simp only [if_pos, hmodulus, hring.valuesHom_polynomial,
      NegacyclicRing.Valid.evaluations_apply, Transform.evaluate, Finset.sum_mul]
    rw [Finset.sum_comm]
    refine Finset.sum_congr rfl fun s _ => ?_
    rw [← sum_cast_digits hq (hring.channel j).modulus.pos hlevels (coefficients.getD s 0),
      Finset.sum_mul]
    refine Finset.sum_congr rfl fun w _ => ?_
    rw [getD_digits, Nat.cast_pow, Nat.cast_ofNat]
    ring
  · intro i _ hij
    refine Finset.sum_eq_zero fun w _ => ?_
    rw [if_neg (Ne.symm hij), mul_zero]
  · intro hj
    exact absurd (Finset.mem_range.2 j.isLt) hj

end Protocol
end RelinCeremony
