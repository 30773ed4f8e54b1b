import RelinCeremony.Power

namespace RelinCeremony

/-!
# Floating-point numbers as exact values

A `Binary64` is what the bits of a floating-point number stand for: no number,
an infinity, or a sign with an exact value `significand * 2 ^ exponent`.  The
tests and roundings of this library work on these values, in integers.
-/

/-- The value of a floating-point number. -/
inductive Binary64 where
  | nan
  | infinite (negative : Bool)
  | finite (negative : Bool) (significand : Nat) (exponent : Int)
deriving DecidableEq

namespace Binary64

/-- The value that 64 bits stand for. -/
def ofBits (bits : Nat) : Binary64 :=
  let negative := decide (bits / 2 ^ 63 % 2 = 1)
  let biased : Nat := bits / 2 ^ 52 % 2 ^ 11
  let fraction : Nat := bits % 2 ^ 52
  if biased = 2 ^ 11 - 1 then
    if fraction = 0 then .infinite negative else .nan
  else if biased = 0 then .finite negative fraction (-1074)
  else .finite negative (2 ^ 52 + fraction) ((biased : Int) - 1075)

def ofFloat (x : Float) : Binary64 := ofBits x.toBits.toNat

def isFinite : Binary64 → Bool
  | .finite _ _ _ => true
  | _ => false

def isPositive : Binary64 → Bool
  | .finite false significand _ => significand ≠ 0
  | _ => false

def isAtMostOne : Binary64 → Bool
  | .nan => false
  | .infinite negative => negative
  | .finite negative significand exponent =>
      negative || significand * 2 ^ exponent.toNat ≤ 2 ^ (-exponent).toNat

/-! ## Roundings to integers -/

def scaledFloor (significand : Nat) (exponent : Int) : Nat :=
  significand * 2 ^ exponent.toNat / 2 ^ (-exponent).toNat

def scaledCeil (significand : Nat) (exponent : Int) : Nat :=
  (significand * 2 ^ exponent.toNat + (2 ^ (-exponent).toNat - 1)) / 2 ^ (-exponent).toNat

/-- The magnitude rounded to the nearest integer, halves upwards. -/
def scaledRound (significand : Nat) (exponent : Int) : Nat :=
  (2 * (significand * 2 ^ exponent.toNat) + 2 ^ (-exponent).toNat) /
    (2 * 2 ^ (-exponent).toNat)

def signed (negative : Bool) (magnitude : Nat) : Int :=
  if negative then -(magnitude : Int) else magnitude

/-- The nearest integer, halves away from zero; none for what is not finite. -/
def round? : Binary64 → Option Int
  | .finite negative significand exponent =>
      some (signed negative (scaledRound significand exponent))
  | _ => none

/-- The least and the greatest integer of a signed word. -/
def leastInt : Int := -2 ^ 63

def greatestInt : Int := 2 ^ 63 - 1

def clamp (x : Int) : Int := max leastInt (min greatestInt x)

/-- The value rounded down and brought into a signed word; what is no number
becomes zero. -/
def floorClamped : Binary64 → Int
  | .nan => 0
  | .infinite negative => if negative then leastInt else greatestInt
  | .finite false significand exponent => clamp (scaledFloor significand exponent)
  | .finite true significand exponent => clamp (-(scaledCeil significand exponent : Int))

/-- An integer as a floating-point number sees it: rounded to 53 significant
bits, halves to the even neighbour. -/
def nearestNat (n : Nat) : Nat :=
  let unit := 2 ^ (n.log2 - 52)
  let quotient := n / unit
  let twiceRest := 2 * (n % unit)
  if twiceRest < unit || (twiceRest == unit && quotient % 2 == 0) then quotient * unit
  else (quotient + 1) * unit

/-- The floating-point number next to a signed integer, as an integer. -/
def nearestInt (x : Int) : Int := signed (x < 0) (nearestNat x.natAbs)

end Binary64
end RelinCeremony
