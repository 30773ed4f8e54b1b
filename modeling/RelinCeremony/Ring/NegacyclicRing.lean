import RelinCeremony.Modulus.Montgomery
import RelinCeremony.Ring.Error
import RelinCeremony.Transform.Apply

namespace RelinCeremony
namespace Ring

/-!
# Rings in residue representation

A `NegacyclicRing` describes the ring `Z_Q[x] / (x^n + 1)` for a product `Q` of
distinct primes.  Each prime has a channel: its modulus, its transform and the
integer that is 1 in this channel and 0 in the others.

An element of the ring is kept by its residues: one row of `n` residues for each
prime factor of `Q`.  A row may stand for coefficients or for values of the
transform, in Montgomery form or not; the element does not say which.

This module supplies the elements and the construction of rings with its checks.
Arithmetic, conversions and sampling are modules of their own.
-/

/-! ## Elements -/

/-- A ring element by its rows. -/
structure Element where
  rows : List (List Nat)
deriving DecidableEq

namespace Element

def zero (rows columns : Nat) : Element := ⟨List.replicate rows (List.replicate columns 0)⟩

def erase (a : Element) : Element := ⟨a.rows.map fun row => row.map fun _ => 0⟩

def rowCount (a : Element) : Nat := a.rows.length

def columnCount (a : Element) : Nat := (a.rows.head?.map List.length).getD 0

def residues (a : Element) : List Nat := a.rows.flatten

end Element

/-! ## Rings -/

/-- One prime factor of the ring. -/
structure Channel where
  modulus : Modulus
  transform : Transform.Plan
  /-- The integer below `Q` that is 1 modulo this prime and 0 modulo the others. -/
  idempotent : Nat
deriving DecidableEq

/-- A ring in residue representation. -/
structure NegacyclicRing where
  degree : Nat
  channels : List Channel
  modulus : Nat
deriving DecidableEq

/-- Results of the ring layer. -/
abbrev RingResult (α : Type) : Type := Fallible Error α

/-- The modulus with its constants. -/
def admitModulus (value : Nat) : RingResult Modulus := do
  match ← Modulus.build value with
  | some m => return m
  | none => Fallible.refuse (.inadmissibleModulus value)

namespace NegacyclicRing

def isDegree (degree : Nat) : Bool := Word.isPowerOfTwo degree && 8 ≤ degree

/-- The modulus and the transform of one channel. -/
def admitChannel (degree value : Nat) : RingResult (Modulus × Transform.Plan) := do
  let m ← admitModulus value
  match ← (Transform.Plan.build m degree : Checked _) with
  | some transform => return (m, transform)
  | none => Fallible.refuse .noTransform

/-- Completes a channel of the ring with modulus `product`: the cofactor of the
prime times the inverse of the cofactor. -/
def completeChannel (product : Nat) (m : Modulus) (transform : Transform.Plan) :
    RingResult Channel := do
  let cofactor := product / m.value
  match m.inverse? (cofactor % m.value) with
  | some inverse => return ⟨m, transform, cofactor * inverse % product⟩
  | none => Fallible.refuse .repeatedModulus

/-- The ring of the given prime moduli and degree.  The degree is checked first,
then the moduli in order, and at last that they are distinct. -/
def build (moduli : List Nat) (degree : Nat) : RingResult NegacyclicRing := do
  if !isDegree degree then
    Fallible.refuse .degree
  else if moduli.isEmpty then
    Fallible.refuse .noModulus
  else
    let admitted ← moduli.mapM (admitChannel degree)
    let product := moduli.foldr (· * ·) 1
    let channels ← admitted.mapM fun (m, transform) => completeChannel product m transform
    return ⟨degree, channels, product⟩

def moduli (ring : NegacyclicRing) : List Nat :=
  ring.channels.map fun channel => channel.modulus.value

def zero (ring : NegacyclicRing) : Element := Element.zero ring.channels.length ring.degree

end NegacyclicRing
end Ring
end RelinCeremony
