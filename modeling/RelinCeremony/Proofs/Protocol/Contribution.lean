import Mathlib.Algebra.BigOperators.Group.List.Basic
import Mathlib.Algebra.Ring.Hom.Defs
import Mathlib.Tactic.Ring

namespace RelinCeremony
namespace Protocol

/-!
# The protocol in a commutative ring

What a party puts into one slot, as six members of a commutative ring, and what the
three rounds and the key make of it.  Each round is additive over the parties, so
the aggregates of a run are the rounds of the total contribution.

Residues, Montgomery form and randomness play no part here.
-/

/-- What a party puts into one slot: its secret, its ephemeral key, and its noise in the
first, the second and the third round. -/
structure Contribution (K : Type) where
  secret : K
  ephemeral : K
  one : K
  twoFirst : K
  twoSecond : K
  three : K

namespace Contribution

variable {K : Type} [CommRing K]

/-- The share of the first round, with gadget `g` and common element `a`. -/
def roundOne (g a : K) (c : Contribution K) : K := c.one + g * c.secret - c.ephemeral * a

/-- The share of the second round on the aggregate `h` of the first. -/
def roundTwo (a h : K) (c : Contribution K) : K × K :=
  (h * c.secret + c.twoFirst, c.twoSecond + c.secret * a)

/-- The share of the third round on the aggregate `h` of the second. -/
def roundThree (h : K × K) (c : Contribution K) : K :=
  c.three + (c.ephemeral - c.secret) * h.2

/-- The contributions of all parties together. -/
def total (cs : List (Contribution K)) : Contribution K where
  secret := (cs.map secret).sum
  ephemeral := (cs.map ephemeral).sum
  one := (cs.map one).sum
  twoFirst := (cs.map twoFirst).sum
  twoSecond := (cs.map twoSecond).sum
  three := (cs.map three).sum

def map {L : Type} (f : K → L) (c : Contribution K) : Contribution L where
  secret := f c.secret
  ephemeral := f c.ephemeral
  one := f c.one
  twoFirst := f c.twoFirst
  twoSecond := f c.twoSecond
  three := f c.three

/-! ## Aggregates -/

theorem sum_roundOne (g a : K) (cs : List (Contribution K)) :
    (cs.map (roundOne g a)).sum = roundOne g a (total cs) := by
  induction cs with
  | nil => simp [roundOne, total]
  | cons c cs ih =>
      rw [List.map_cons, List.sum_cons, ih]
      simp only [roundOne, total, List.map_cons, List.sum_cons]
      ring

theorem sum_roundTwo (a h : K) (cs : List (Contribution K)) :
    (cs.map (roundTwo a h)).sum = roundTwo a h (total cs) := by
  induction cs with
  | nil => simp [roundTwo, total, Prod.ext_iff]
  | cons c cs ih =>
      rw [List.map_cons, List.sum_cons, ih]
      simp only [roundTwo, total, List.map_cons, List.sum_cons, Prod.mk_add_mk]
      congr 1 <;> ring

theorem sum_roundThree (h : K × K) (cs : List (Contribution K)) :
    (cs.map (roundThree h)).sum = roundThree h (total cs) := by
  induction cs with
  | nil => simp [roundThree, total]
  | cons c cs ih =>
      rw [List.map_cons, List.sum_cons, ih]
      simp only [roundThree, total, List.map_cons, List.sum_cons]
      ring

/-! ## The key -/

/-- The aggregate of the first two rounds of a total contribution. -/
def aggregateTwo (g a : K) (c : Contribution K) : K × K := c.roundTwo a (c.roundOne g a)

/-- The key of a total contribution. -/
def key (g a : K) (c : Contribution K) : K × K :=
  ((c.aggregateTwo g a).1 + c.roundThree (c.aggregateTwo g a), (c.aggregateTwo g a).2)

/-- The noise of the key: what its phase has besides the square of the secret. -/
def keyNoise (c : Contribution K) : K :=
  c.secret * c.one + c.twoFirst + c.ephemeral * c.twoSecond + c.three

theorem key_snd (g a : K) (c : Contribution K) :
    (c.key g a).2 = c.secret * a + c.twoSecond :=
  add_comm _ _

/-- The phase of the key is the square of the secret times the gadget, up to noise. -/
theorem key_phase (g a : K) (c : Contribution K) :
    (c.key g a).1 + c.secret * (c.key g a).2 = g * c.secret ^ 2 + c.keyNoise := by
  simp only [key, aggregateTwo, roundOne, roundTwo, roundThree, keyNoise]
  ring

theorem keyNoise_map {L F : Type} [CommRing L] [FunLike F K L] [RingHomClass F K L] (f : F)
    (c : Contribution K) : (c.map f).keyNoise = f c.keyNoise := by
  simp only [map, keyNoise, map_add, map_mul]

end Contribution
end Protocol
end RelinCeremony
