import RelinCeremony.Fault
import RelinCeremony.Power

namespace RelinCeremony
namespace Word

/-!
# Words of 64 bits

Residues and counters are natural numbers that fit in a word of 64 bits.  Where
a computation is meant modulo `2^64` it runs on `UInt64`; where leaving the word
is a fault, the check is here.

`highProduct` is the high word of a product of words, and `inverse` the inverse
of an odd word modulo `2^64`.
-/

/-- The number of values of a word. -/
def size : Nat := 2 ^ 64

def low (n : Nat) : Nat := n % size

/-- Product that has to fit in a word. -/
def checkedMul (a b : Nat) : Checked Nat := do
  require (a * b < size) .overflow
  return a * b

def checkedMod (a b : Nat) : Checked Nat := do
  require (b ≠ 0) .divisionByZero
  return a % b

theorem checkedMul_eq {a b : Nat} (h : a * b < size) : checkedMul a b = .ok (a * b) := by
  rw [checkedMul, require_bind h]
  rfl

theorem checkedMod_eq {a b : Nat} (h : b ≠ 0) : checkedMod a b = .ok (a % b) := by
  rw [checkedMod, require_bind h]
  rfl

/-- The number of bits of a number: the position after its highest bit. -/
def bitLength (n : Nat) : Nat := if n = 0 then 0 else n.log2 + 1

def isPowerOfTwo (n : Nat) : Bool := n ≠ 0 && 2 ^ n.log2 == n

/-! ## Products modulo `2^64` and beyond -/

/-- One Newton step towards the inverse of a word: it doubles the number of low
bits that are right. -/
def refineInverse (n inverse : UInt64) : UInt64 := inverse * (2 - n * inverse)

/-- The inverse of an odd word modulo `2^64`.  An odd word is its own inverse
modulo 8, and five steps take these 3 bits past 64. -/
def inverse (n : UInt64) : UInt64 := Nat.repeat (refineInverse n) 5 n

/-- The high word of the product of two words, from the products of their
halves. -/
@[inline] def highProduct (a b : UInt64) : UInt64 :=
  let (a₁, a₀) := (a >>> 32, a &&& 0xffffffff)
  let (b₁, b₀) := (b >>> 32, b &&& 0xffffffff)
  let (p, q, r) := (a₀ * b₀, a₀ * b₁, a₁ * b₀)
  let middle := (p >>> 32) + (q &&& 0xffffffff) + (r &&& 0xffffffff)
  a₁ * b₁ + (q >>> 32) + (r >>> 32) + (middle >>> 32)

theorem toNat_shiftRight_32 (x : UInt64) : (x >>> 32).toNat = x.toNat / 2 ^ 32 := by
  simp [UInt64.toNat_shiftRight, Nat.shiftRight_eq_div_pow]

theorem toNat_and_half (x : UInt64) : (x &&& 0xffffffff).toNat = x.toNat % 2 ^ 32 := by
  rw [UInt64.toNat_and]
  exact Nat.and_two_pow_sub_one_eq_mod x.toNat 32

theorem toNat_mul_of_lt {x y : UInt64} (hx : x.toNat < 2 ^ 32) (hy : y.toNat < 2 ^ 32) :
    (x * y).toNat = x.toNat * y.toNat ∧ x.toNat * y.toNat ≤ (2 ^ 32 - 1) * (2 ^ 32 - 1) := by
  have hle : x.toNat * y.toNat ≤ (2 ^ 32 - 1) * (2 ^ 32 - 1) :=
    Nat.mul_le_mul (by omega) (by omega)
  exact ⟨by rw [UInt64.toNat_mul, Nat.mod_eq_of_lt (by omega)], hle⟩

theorem mul_eq_halves (a b : Nat) :
    a * b = a / 2 ^ 32 * (b / 2 ^ 32) * 2 ^ 64 +
      (a % 2 ^ 32 * (b / 2 ^ 32) + a / 2 ^ 32 * (b % 2 ^ 32)) * 2 ^ 32 +
      a % 2 ^ 32 * (b % 2 ^ 32) := by
  have ha : a = a / 2 ^ 32 * 2 ^ 32 + a % 2 ^ 32 := by omega
  have hb : b = b / 2 ^ 32 * 2 ^ 32 + b % 2 ^ 32 := by omega
  generalize a / 2 ^ 32 = a₁ at *
  generalize a % 2 ^ 32 = a₀ at *
  generalize b / 2 ^ 32 = b₁ at *
  generalize b % 2 ^ 32 = b₀ at *
  subst ha hb
  grind

theorem toNat_highProduct (a b : UInt64) :
    (highProduct a b).toNat = a.toNat * b.toNat / 2 ^ 64 := by
  have ha := a.toNat_lt
  have hb := b.toNat_lt
  have ha₁ := toNat_shiftRight_32 a
  have ha₀ := toNat_and_half a
  have hb₁ := toNat_shiftRight_32 b
  have hb₀ := toNat_and_half b
  have hp := toNat_mul_of_lt (x := a &&& 0xffffffff) (y := b &&& 0xffffffff) (by omega) (by omega)
  have hq := toNat_mul_of_lt (x := a &&& 0xffffffff) (y := b >>> 32) (by omega) (by omega)
  have hr := toNat_mul_of_lt (x := a >>> 32) (y := b &&& 0xffffffff) (by omega) (by omega)
  have hs := toNat_mul_of_lt (x := a >>> 32) (y := b >>> 32) (by omega) (by omega)
  have hproduct := mul_eq_halves a.toNat b.toNat
  have hlt : a.toNat * b.toNat ≤ (2 ^ 64 - 1) * (2 ^ 64 - 1) :=
    Nat.mul_le_mul (by omega) (by omega)
  rw [← ha₁, ← ha₀, ← hb₁, ← hb₀] at hproduct
  simp only [highProduct, UInt64.toNat_add, toNat_shiftRight_32, toNat_and_half]
  omega

end Word
end RelinCeremony
