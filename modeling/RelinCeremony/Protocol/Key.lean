import RelinCeremony.Protocol.Engine

namespace RelinCeremony
namespace Protocol

/-!
# The relinearization key

The key is assembled from the aggregates of the second and the third round: with
`(h0, h1)` and `h` in a slot, the slot of the key is `(h0 + h, h1)` in
Montgomery form.

It is used on the digits of a polynomial: each slot is multiplied by the digits of
its channel and level, and the products are added up.
-/

/-! ## Assembly -/

namespace Engine

/-- A slot of the key, written over `old`. -/
def keySlot (e : Engine) (pair : Ring.Element × Ring.Element) (h : Ring.Element)
    (old : Ring.Element × Ring.Element) : Checked (Ring.Element × Ring.Element) := do
  let sum ← e.ring.add pair.1 h old.1
  return (← e.ring.toMontgomery sum, ← e.ring.toMontgomery pair.2)

/-- The relinearization key of the aggregates, written over a key. -/
def relinearizationKey (e : Engine) (two : RoundTwoShare) (three : RoundThreeShare)
    (out : RelinearizationKey) : Outcome RelinearizationKey := do
  e.requireShape two
  e.requireShape three
  e.requireShape out
  let slots ← ((out.slots.zip (two.slots.zip three.slots)).mapM
    fun (old, pair, h) => e.keySlot pair h old : Checked _)
  return ⟨out.shape, slots⟩

end Engine

/-! ## Use -/

/-- The digits at level `w` of the residues of coefficients modulo `q`. -/
def digits (q digitBits w : Nat) (coefficients : List Nat) : List Nat :=
  coefficients.map fun c => c % q / 2 ^ (w * digitBits) % 2 ^ digitBits

/-- Adds the products of a digit by the two elements of a slot. -/
def addProducts (ring : Ring.NegacyclicRing) (d : Ring.Element)
    (slot sums : Ring.Element × Ring.Element) : Checked (Ring.Element × Ring.Element) := do
  return (← ring.mulMontgomeryAdd slot.1 d sums.1, ← ring.mulMontgomeryAdd slot.2 d sums.2)

/-- The sums of the products of the digits of a polynomial by the slots of a key. -/
def relinearize (ring : Ring.NegacyclicRing) (digitBits : Nat) (key : RelinearizationKey)
    (coefficients : List Nat) : Ring.RingResult (Ring.Element × Ring.Element) := do
  let entries ← (key.entries : Checked _)
  entries.foldlM
    (fun sums ((i, w), slot) => do
      let d ← ring.transformOf
        ((digits (ring.moduli.getD i 0) digitBits w coefficients).map Int.ofNat)
      (addProducts ring d slot sums : Checked _))
    (ring.zero, ring.zero)

end Protocol
end RelinCeremony
