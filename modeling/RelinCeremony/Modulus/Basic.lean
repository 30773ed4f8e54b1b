import RelinCeremony.PowerMod
import RelinCeremony.Word

namespace RelinCeremony

/-!
# Moduli of at most 62 bits

A `Modulus` is an odd number from 3 to `2^62 - 1`, kept with the two constants
of Montgomery multiplication with radix `R = 2^64`.  This module supplies its
construction and the arithmetic on single residues.  Sums, differences and
negations fault on an operand that is not reduced; products, powers and
reductions take any word.

The Montgomery and the Shoup products have modules of their own.
-/

/-- An odd modulus with its Montgomery constants. -/
structure Modulus where
  value : Nat
  /-- The negated inverse of the modulus modulo `2^64`. -/
  negInverse : UInt64
  /-- The square of the radix, modulo the modulus. -/
  radixSquared : Nat
deriving DecidableEq

namespace Modulus

/-! ## Construction -/

/-- Whether a number is odd and lies between 3 and `2^62 - 1`. -/
def isAdmissible (p : Nat) : Bool :=
  3 ≤ p && p < 2 ^ 62 && p % 2 == 1

/-- The modulus `p` with its constants, or nothing if `p` is not admissible. -/
def build (p : Nat) : Checked (Option Modulus) := do
  if isAdmissible p then
    let inverse := Word.inverse (.ofNat p)
    require (.ofNat p * inverse = 1) .operandOutOfRange
    let radix := Word.size % p
    return some {
      value := p
      negInverse := -inverse
      radixSquared := radix * radix % p }
  else
    return none

/-! ## Residues -/

@[inline] def word (m : Modulus) : UInt64 := .ofNat m.value

/-- Brings a number below `2p` under `p` by at most one subtraction.  The
number `p` has to be below `2^63`. -/
@[inline] def reduceOnce (p x : Nat) : Checked Nat := do
  require (p >>> 63 = 0) .operandOutOfRange
  require (x < p + p) .operandOutOfRange
  return if x < p then x else x - p

@[inline] def add (m : Modulus) (a b : Nat) : Checked Nat := do
  require (a < m.value ∧ b < m.value) .operandOutOfRange
  reduceOnce m.value (a + b)

@[inline] def sub (m : Modulus) (a b : Nat) : Checked Nat := do
  require (a < m.value ∧ b < m.value) .operandOutOfRange
  reduceOnce m.value (a + m.value - b)

def neg (m : Modulus) (a : Nat) : Checked Nat := do
  require (a < m.value) .operandOutOfRange
  reduceOnce m.value (m.value - a)

def mul (m : Modulus) (a b : Nat) : Nat := a * b % m.value

def reduce (m : Modulus) (a : Nat) : Nat := a % m.value

/-- The residue of a signed integer: the least non-negative representative. -/
def reduceInt (m : Modulus) (x : Int) : Nat := (x % (m.value : Int)).toNat

/-- The centred representative of a residue: what lies above half the modulus
becomes negative. -/
def center (m : Modulus) (a : Nat) : Checked Int := do
  require (a < m.value) .operandOutOfRange
  return if a > m.value / 2 then (a : Int) - (m.value : Int) else (a : Int)

/-! ## What the operations on reduced operands give -/

theorem reduceOnce_eq {p x : Nat} (hp : p < 2 ^ 63) (hx : x < 2 * p) :
    reduceOnce p x = .ok (x % p) := by
  have hshift : p >>> 63 = 0 := by
    rw [Nat.shiftRight_eq_div_pow]
    omega
  rw [reduceOnce, require_bind hshift, require_bind (show x < p + p by omega)]
  by_cases hlt : x < p
  · rw [if_pos hlt, Nat.mod_eq_of_lt hlt]
    rfl
  · rw [if_neg hlt, Nat.mod_eq_sub_mod (by omega), Nat.mod_eq_of_lt (by omega)]
    rfl

theorem add_eq {m : Modulus} {a b : Nat} (hm : m.value < 2 ^ 63) (ha : a < m.value)
    (hb : b < m.value) : m.add a b = .ok ((a + b) % m.value) := by
  rw [add, require_bind ⟨ha, hb⟩, reduceOnce_eq hm (by omega)]

theorem sub_eq {m : Modulus} {a b : Nat} (hm : m.value < 2 ^ 63) (ha : a < m.value)
    (hb : b < m.value) : m.sub a b = .ok ((a + m.value - b) % m.value) := by
  rw [sub, require_bind ⟨ha, hb⟩, reduceOnce_eq hm (by omega)]

theorem neg_eq {m : Modulus} {a : Nat} (hm : m.value < 2 ^ 63) (ha : a < m.value) :
    m.neg a = .ok ((m.value - a) % m.value) := by
  rw [neg, require_bind ha, reduceOnce_eq hm (by omega)]

/-! ## Powers and inverses -/

/-- The power `a ^ n` of a word, reduced. -/
def pow (m : Modulus) (a n : Nat) : Nat := powerMod a n m.value

/-- The inverse of a word modulo a prime modulus, by the little theorem of
Fermat; there is none exactly for the multiples of the modulus. -/
def inverse? (m : Modulus) (a : Nat) : Option Nat :=
  if a % m.value = 0 then none else some (m.pow a (m.value - 2))

theorem pow_eq (m : Modulus) (a n : Nat) : m.pow a n = a ^ n % m.value :=
  powerMod_eq a n m.value

end Modulus
end RelinCeremony
