import Mathlib.Data.Nat.Bitwise
import Mathlib.Data.Set.Function
import Mathlib.Order.Interval.Set.Defs
import Mathlib.Tactic.Ring
import RelinCeremony.Transform.BitReversal

namespace RelinCeremony
namespace Transform

/-!
# Bit reversal along the tree of blocks

Block `k` of the tree has the blocks `2 * k` and `2 * k + 1` below it, and block
`blocks + i` of a level reads the entry `size - 2 * blocks + i` of the inverse
table.  The laws here say what both steps do to the reversed numbers.

Reversing the 64 digits of a word and shifting out those beyond the size gives the same
number as reversing digit by digit, and either way is a permutation that undoes itself.
-/

/-- The highest digit becomes the lowest. -/
theorem bitReverse_succ_high (bits i : Nat) :
    bitReverse (bits + 1) i = 2 * bitReverse bits i + i / 2 ^ bits % 2 := by
  -- The lowest digit is taken off on both sides; the middle is the shorter reversal.
  induction bits generalizing i with
  | zero => simp [bitReverse_succ, bitReverse_zero]
  | succ bits ih =>
      have hdigit : i / 2 / 2 ^ bits = i / 2 ^ (bits + 1) := by
        rw [Nat.div_div_eq_div_mul, Nat.pow_succ, Nat.mul_comm]
      rw [bitReverse_succ (bits + 1), ih, hdigit, bitReverse_succ bits]
      ring

/-- The left block below: the reversed number is halved. -/
theorem two_mul_bitReverse_even {bits k : Nat} (hk : k < 2 ^ bits) :
    2 * bitReverse (bits + 1) (2 * k) = bitReverse (bits + 1) k := by
  rw [bitReverse_succ bits (2 * k), bitReverse_succ_high bits k, Nat.div_eq_of_lt hk]
  simp

/-- The right block below: the reversed number is halved, and the highest digit set. -/
theorem two_mul_bitReverse_odd {bits k : Nat} (hk : k < 2 ^ bits) :
    2 * bitReverse (bits + 1) (2 * k + 1) = 2 ^ (bits + 1) + bitReverse (bits + 1) k := by
  have hhalf : (2 * k + 1) / 2 = k := by omega
  have hdigit : (2 * k + 1) % 2 = 1 := by omega
  rw [bitReverse_succ bits (2 * k + 1), bitReverse_succ_high bits k, Nat.div_eq_of_lt hk, hhalf,
    hdigit]
  ring

theorem testBit_bitReverse {bits k : Nat} (hk : k < bits) (i : Nat) :
    (bitReverse bits i).testBit k = i.testBit (bits - 1 - k) := by
  induction bits generalizing k with
  | zero => omega
  | succ bits ih =>
      rw [bitReverse_succ_high]
      cases k with
      | zero =>
          rw [Nat.testBit_zero, Nat.mul_add_mod, Nat.mod_mod, Nat.testBit_eq_decide_div_mod_eq]
          simp
      | succ k =>
          have hdigit : i / 2 ^ bits % 2 < 2 := Nat.mod_lt _ (by decide)
          have hhalf : (2 * bitReverse bits i + i / 2 ^ bits % 2) / 2 = bitReverse bits i := by
            omega
          rw [Nat.testBit_succ, hhalf, ih (by omega)]
          congr 1
          omega

/-- The reversal undoes itself on the numbers with the given digits. -/
theorem bitReverse_bitReverse {bits i : Nat} (hi : i < 2 ^ bits) :
    bitReverse bits (bitReverse bits i) = i := by
  apply Nat.eq_of_testBit_eq
  intro k
  by_cases hk : k < bits
  · have hmirror : bits - 1 - k < bits := by omega
    have hback : bits - 1 - (bits - 1 - k) = k := by omega
    rw [testBit_bitReverse hk, testBit_bitReverse hmirror, hback]
  · have hle : 2 ^ bits ≤ 2 ^ k := Nat.pow_le_pow_right (by decide) (by omega)
    rw [Nat.testBit_lt_two_pow ((bitReverse_lt bits _).trans_le hle),
      Nat.testBit_lt_two_pow (hi.trans_le hle)]

/-- The reversal permutes the numbers with the given digits. -/
theorem bijOn_bitReverse (bits : Nat) :
    Set.BijOn (bitReverse bits) (Set.Iio (2 ^ bits)) (Set.Iio (2 ^ bits)) := by
  have hmaps : Set.MapsTo (bitReverse bits) (Set.Iio (2 ^ bits)) (Set.Iio (2 ^ bits)) :=
    fun i _ => bitReverse_lt bits i
  have hinverse : Set.LeftInvOn (bitReverse bits) (bitReverse bits) (Set.Iio (2 ^ bits)) :=
    fun _ hi => bitReverse_bitReverse hi
  exact Set.InvOn.bijOn ⟨hinverse, hinverse⟩ hmaps hmaps

/-- The reversal of a number is that of its bit vector. -/
theorem bitReverse_eq_reverse (bits i : Nat) :
    bitReverse bits i = (BitVec.ofNat bits i).reverse.toNat := by
  refine Nat.eq_of_testBit_eq fun k => ?_
  rw [BitVec.testBit_toNat, BitVec.getLsbD_reverse, BitVec.getMsbD]
  by_cases hk : k < bits
  · have hmirror : bits - 1 - k < bits := by omega
    rw [testBit_bitReverse hk, BitVec.getLsbD_ofNat]
    simp [hk, hmirror]
  · have hlt : bitReverse bits i < 2 ^ k :=
      (bitReverse_lt bits i).trans_le (Nat.pow_le_pow_right (by decide) (by omega))
    rw [Nat.testBit_lt_two_pow hlt]
    simp [hk]

/-! ## Reversal within a word -/

/-- The reversal of an index within a word: all 64 digits are reversed, and those beyond the
digits of the size are shifted out. -/
def wordReversal (size i : Nat) : Nat :=
  ((BitVec.ofNat 64 i).reverse >>> ((BitVec.ofNat 64 size).clz.toNat + 1)).toNat

theorem toNat_clz_two_pow {bits : Nat} (h : bits < 64) :
    (BitVec.ofNat 64 (2 ^ bits)).clz.toNat = 63 - bits := by
  have hlt : 2 ^ bits < 2 ^ 64 := Nat.pow_lt_pow_right (by decide) h
  have hvalue : (BitVec.ofNat 64 (2 ^ bits)).toNat = 2 ^ bits := by
    rw [BitVec.toNat_ofNat, Nat.mod_eq_of_lt hlt]
  have hne : BitVec.ofNat 64 (2 ^ bits) ≠ 0#64 := by
    intro hzero
    have hpos := Nat.two_pow_pos bits
    rw [hzero, BitVec.toNat_zero] at hvalue
    omega
  have hle := BitVec.two_pow_sub_clz_le_toNat_of_ne_zero (by decide) hne
  have hgt := BitVec.toNat_lt_two_pow_sub_clz (x := BitVec.ofNat 64 (2 ^ bits))
  rw [hvalue] at hle hgt
  have hlow := (Nat.pow_le_pow_iff_right (by decide : 1 < 2)).1 hle
  have hhigh := (Nat.pow_lt_pow_iff_right (by decide : 1 < 2)).1 hgt
  omega

/-- For a power of two it is the reversal of the digits below its highest one. -/
theorem wordReversal_two_pow {bits : Nat} (hbits : bits < 64) (i : Nat) :
    wordReversal (2 ^ bits) i = bitReverse bits i := by
  unfold wordReversal
  rw [toNat_clz_two_pow hbits]
  apply Nat.eq_of_testBit_eq
  intro k
  rw [BitVec.testBit_toNat, BitVec.getLsbD_ushiftRight, BitVec.getLsbD_reverse, BitVec.getMsbD]
  by_cases hk : k < bits
  · have hplace : 64 - 1 - (63 - bits + 1 + k) = bits - 1 - k := by omega
    have hword : 63 - bits + 1 + k < 64 := by omega
    have hmirror : bits - 1 - k < 64 := by omega
    rw [testBit_bitReverse hk, hplace, BitVec.getLsbD_ofNat]
    simp [hword, hmirror]
  · have hword : ¬ 63 - bits + 1 + k < 64 := by omega
    have hlt : bitReverse bits i < 2 ^ k :=
      (bitReverse_lt bits i).trans_le (Nat.pow_le_pow_right (by decide) (by omega))
    rw [Nat.testBit_lt_two_pow hlt]
    simp [hword]

/-! ## The entries of the inverse table -/

theorem bitReverse_zeros (bits : Nat) : bitReverse bits 0 = 0 := by
  induction bits with
  | zero => rfl
  | succ bits ih =>
      rw [bitReverse_succ, Nat.zero_div, ih]
      simp

theorem bitReverse_ones (bits : Nat) : bitReverse bits (2 ^ bits - 1) = 2 ^ bits - 1 := by
  induction bits with
  | zero => rfl
  | succ bits ih =>
      have hpos : 0 < 2 ^ bits := Nat.two_pow_pos bits
      have hdigit : (2 ^ (bits + 1) - 1) % 2 = 1 := by
        rw [Nat.pow_succ]
        omega
      have hhalf : (2 ^ (bits + 1) - 1) / 2 = 2 ^ bits - 1 := by
        rw [Nat.pow_succ]
        omega
      rw [bitReverse_succ, hdigit, hhalf, ih, Nat.pow_succ]
      omega

/-- The inverse table is read in its own order: the block `2 ^ level + i` of the tree
has a reversed number that is one more than that of the entry read for it. -/
theorem bitReverse_inverse_entry {bits level i : Nat} (hlevel : level < bits)
    (hi : i < 2 ^ level) :
    bitReverse bits (2 ^ level + i) =
      bitReverse bits (2 ^ bits - 2 * 2 ^ level + i) + 1 := by
  -- One bit less: the level goes down until the block is the first one.
  induction bits generalizing level i with
  | zero => omega
  | succ bits ih =>
      have hpow : 2 ^ (bits + 1) = 2 * 2 ^ bits := by ring
      have hpos : 0 < 2 ^ bits := Nat.two_pow_pos bits
      cases level with
      | zero =>
          obtain rfl : i = 0 := by omega
          have hhalf : (2 ^ (bits + 1) - 2 * 2 ^ 0 + 0) / 2 = 2 ^ bits - 1 := by omega
          have hdigit : (2 ^ (bits + 1) - 2 * 2 ^ 0 + 0) % 2 = 0 := by omega
          rw [bitReverse_succ, bitReverse_succ, hhalf, hdigit, bitReverse_ones]
          have hrest : bitReverse bits ((2 ^ 0 + 0) / 2) = 0 := bitReverse_zeros bits
          rw [hrest]
          omega
      | succ level =>
          have hstep : 2 ^ (level + 1) = 2 * 2 ^ level := by ring
          have hle : 2 * 2 ^ level ≤ 2 ^ bits := by
            rw [← hstep]
            exact Nat.pow_le_pow_right (by decide) (by omega)
          have hihalf : (2 ^ (level + 1) + i) / 2 = 2 ^ level + i / 2 := by omega
          have hidigit : (2 ^ (level + 1) + i) % 2 = i % 2 := by omega
          have hentryHalf : (2 ^ (bits + 1) - 2 * 2 ^ (level + 1) + i) / 2 =
              2 ^ bits - 2 * 2 ^ level + i / 2 := by omega
          have hentryDigit : (2 ^ (bits + 1) - 2 * 2 ^ (level + 1) + i) % 2 = i % 2 := by omega
          rw [bitReverse_succ, bitReverse_succ, hihalf, hidigit, hentryHalf, hentryDigit,
            ih (by omega) (by omega)]
          ring

end Transform
end RelinCeremony
