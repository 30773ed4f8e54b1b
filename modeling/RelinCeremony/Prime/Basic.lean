import RelinCeremony.PowerMod
import RelinCeremony.Prime.Divisor

namespace RelinCeremony
namespace Prime

/-!
# Primality of words

`isPrime` decides primality.  A composite number is recognised by a base to
which it does not behave like a prime, a prime one by a certificate of Lucas: a
number whose order is `n - 1`, shown by the prime divisors of `n - 1`, which are
certified in turn.  Both answers are right for themselves, and trial division
remains where neither is found, so the test is exact; how fast it is rests on
the searches only.
-/

/-- Below this number trial division decides. -/
def trialLimit : Nat := 2 ^ 16

/-- The exponent of two in a number, at most `depth`. -/
def twos : (depth n : Nat) → Nat
  | 0, _ => 0
  | depth + 1, n => if n % 2 = 0 then twos depth (n / 2) + 1 else 0

/-- Whether one of the first `count` terms of the sequence of squares from `x` on
is `n - 1` modulo `n`. -/
def reachesMinusOne (n : Nat) : (count x : Nat) → Bool
  | 0, _ => false
  | count + 1, x => x == n - 1 || reachesMinusOne n count (x * x % n)

/-- Whether `n` behaves like a prime towards the base `a`: the power of `a` with
the odd part of `n - 1` as exponent is 1, or its squares come to `-1`. -/
def passesStrongTest (n a : Nat) : Bool :=
  let exponent := twos 64 (n - 1)
  let x := powerMod a ((n - 1) / 2 ^ exponent) n
  x == 1 || reachesMinusOne n exponent x

/-- Whether `n` is prime below the trial limit, or behaves like a prime towards
some small bases above it. -/
def looksPrime (n : Nat) : Bool :=
  if n < trialLimit then passesTrialDivision n
  else [2, 3, 5, 7, 11, 13, 17, 19, 23, 29, 31, 37].all (passesStrongTest n)

/-- A list of factors of `n` whose product is `n`, split as far as divisors are
found and at most `depth` times in a row. -/
def split : (depth n : Nat) → List Nat
  | 0, n => [n]
  | depth + 1, n =>
      if n < 2 then []
      else if looksPrime n then [n]
      else
        match properDivisor? n with
        | some d => split depth d ++ split depth (n / d)
        | none => [n]

/-- Whether the power `a ^ (n - 1)` is 1 modulo `n`, and no power
`a ^ ((n - 1) / q)` is, for the listed `q`. -/
def hasFullOrder (n : Nat) (factors : List Nat) (a : Nat) : Bool :=
  powerMod a (n - 1) n == 1 &&
    factors.all fun q => powerMod a ((n - 1) / q) n != 1

/-- Whether one of the `count` numbers from `base` on has full order. -/
def hasFullOrderFrom (n : Nat) (factors : List Nat) : (count base : Nat) → Bool
  | 0, _ => false
  | count + 1, base =>
      hasFullOrder n factors base || hasFullOrderFrom n factors count (base + 1)

/-- The number of bases that are tried in a certificate.  The least number of
full order can be some hundreds for a word, so the bound is generous; the
search ends at the first one. -/
def certificateBases : Nat := 2 ^ 16

/-- Whether a certificate of Lucas for `n` is found, with at most `depth`
certificates nested in one another. -/
def isCertified : (depth n : Nat) → Bool
  | 0, n => n < trialLimit && passesTrialDivision n
  | depth + 1, n =>
      if n < trialLimit then passesTrialDivision n
      else
        let factors := split 64 (n - 1)
        let distinct := factors.eraseDups
        factors.foldr (· * ·) 1 == n - 1 &&
          distinct.all (isCertified depth) &&
          hasFullOrderFrom n distinct certificateBases 2

def isPrime (n : Nat) : Bool :=
  if n < trialLimit then passesTrialDivision n
  else looksPrime n && (isCertified 64 n || passesTrialDivision n)

end Prime
end RelinCeremony
