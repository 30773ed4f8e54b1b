import RelinCeremony.Word

namespace RelinCeremony
namespace Prime

/-!
# Divisors

Trial division is the plain test: a number from 2 on is prime if no number from 2
to its square root divides it.  It settles small numbers, and it is the last resort
of the test for words.

A proper divisor of a composite number is searched among the small numbers first,
then by Pollard's walks.  The answer is checked before it is given, so what is
proved of `properDivisor?` needs nothing of the walks.

The walks run on words of 64 bits.  Their products carry a factor `2^-64`, which
a walk need not undo: it is a quadratic map all the same.
-/

/-! ## Trial division -/

/-- Whether no number from `divisor` on, whose square is at most `n`, divides
`n`.  At most `steps` divisors are tried. -/
def hasNoDivisorFrom (n : Nat) : (steps divisor : Nat) → Bool
  | 0, _ => true
  | steps + 1, divisor =>
      if n < divisor * divisor then true
      else if n % divisor = 0 then false
      else hasNoDivisorFrom n steps (divisor + 1)

def passesTrialDivision (n : Nat) : Bool :=
  2 ≤ n && hasNoDivisorFrom n n 2

/-! ## Scaled products -/

/-- The product of two words below `n`, divided by `2^64` modulo `n`. -/
@[inline] def scaledProduct (n inverse a b : UInt64) : UInt64 :=
  let high := Word.highProduct a b
  let excess := Word.highProduct (a * b * inverse) n
  if high < excess then high - excess + n else high - excess

/-! ## Walks -/

/-- One step of a walk: the scaled square of `x`, plus `c`. -/
@[inline] def walk (n inverse c x : UInt64) : UInt64 :=
  let next := scaledProduct n inverse x x + c
  if next < n then next else next - n

@[inline] def distance (x y : UInt64) : UInt64 := if x < y then y - x else x - y

/-- Moves a slow and a fast walker `steps` times and multiplies their distances
into `product`. -/
def walkTogether (n inverse c : UInt64) :
    (steps : Nat) → (slow fast product : UInt64) → UInt64 × UInt64 × UInt64
  | 0, slow, fast, product => (slow, fast, product)
  | steps + 1, slow, fast, product =>
      let slow' := walk n inverse c slow
      let fast' := walk n inverse c (walk n inverse c fast)
      walkTogether n inverse c steps slow' fast'
        (scaledProduct n inverse product (distance slow' fast'))

def wordGcd (a b : UInt64) : Nat := Nat.gcd a.toNat b.toNat

/-- The first greatest common divisor other than 1 of `n` and a distance of the
walkers, looked for one step at a time. -/
def meetStepwise (n inverse c : UInt64) : (steps : Nat) → (slow fast : UInt64) → Option Nat
  | 0, _, _ => none
  | steps + 1, slow, fast =>
      let slow' := walk n inverse c slow
      let fast' := walk n inverse c (walk n inverse c fast)
      let d := wordGcd (distance slow' fast') n
      if d = 1 then meetStepwise n inverse c steps slow' fast' else some d

/-- The number of steps between two looks at the collected distances. -/
def stride : Nat := 128

/-- Like `meetStepwise`, `stride` steps at a time. -/
def meet (n inverse c : UInt64) : (strides : Nat) → (slow fast : UInt64) → Option Nat
  | 0, _, _ => none
  | strides + 1, slow, fast =>
      let (slow', fast', product) := walkTogether n inverse c stride slow fast 1
      let d := wordGcd product n
      if d = 1 then meet n inverse c strides slow' fast'
      else if d < n.toNat then some d
      else meetStepwise n inverse c stride slow fast

/-! ## The search -/

/-- The first of the numbers that `d` runs through that divides `n`. -/
def smallDivisor? (n : Nat) : (steps d : Nat) → Option Nat
  | 0, _ => none
  | steps + 1, d => if n % d = 0 then some d else smallDivisor? n steps (d + 1)

/-- Where the walks of an odd word meet, for one constant after the other, as
far as the meeting is accepted. -/
def meeting? (n : UInt64) (accept : Nat → Bool) : Option Nat :=
  let inverse := Word.inverse n
  [1, 2, 3, 5, 7, 11, 13, 17].findSome? fun c =>
    (meet n inverse c (2 ^ 13) 2 2).filter accept

/-- A divisor of `n` other than 1 and `n`, if the search finds one. -/
def properDivisor? (n : Nat) : Option Nat :=
  let accept := fun d => 1 < d && d < n && n % d == 0
  ((smallDivisor? n 254 2).filter accept).or (meeting? (.ofNat n) accept)

end Prime
end RelinCeremony
