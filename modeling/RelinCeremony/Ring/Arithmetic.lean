import RelinCeremony.Lockstep
import RelinCeremony.Ring.NegacyclicRing

namespace RelinCeremony
namespace Ring
namespace NegacyclicRing

/-!
# Arithmetic of elements

The operations take the output element along and give the updated output.  They
walk the rows and the columns of the output, of the operands and of the channels
in lockstep, so operands of another ring change only the common part.  A residue
that is not below its modulus faults where the operation on residues does.

The transforms and the Montgomery conversions want a row for every channel.
-/

/-! ## Binary operations -/

/-- Updates an output from two operands, residue by residue. -/
def updateFrom2 (ring : NegacyclicRing) (f : Modulus → Nat → Nat → Nat → Checked Nat)
    (a b out : Element) : Checked Element := do
  let operands := a.rows.zip (b.rows.zip ring.channels)
  let rows ← Lockstep.update
    (fun outRow (aRow, bRow, channel) =>
      Lockstep.update (fun o (x, y) => f channel.modulus x y o) outRow (aRow.zip bRow))
    out.rows operands
  return ⟨rows⟩

def updateFrom (ring : NegacyclicRing) (f : Modulus → Nat → Nat → Checked Nat)
    (a out : Element) : Checked Element := do
  let rows ← Lockstep.update
    (fun outRow (aRow, channel) =>
      Lockstep.update (fun o x => f channel.modulus x o) outRow aRow)
    out.rows (a.rows.zip ring.channels)
  return ⟨rows⟩

def add (ring : NegacyclicRing) (a b out : Element) : Checked Element :=
  ring.updateFrom2 (fun m x y _ => m.add x y) a b out

def addAssign (ring : NegacyclicRing) (b out : Element) : Checked Element :=
  ring.updateFrom (fun m x o => m.add o x) b out

def sub (ring : NegacyclicRing) (a b out : Element) : Checked Element :=
  ring.updateFrom2 (fun m x y _ => m.sub x y) a b out

/-- The Montgomery product of `a` and `b`. -/
def mulMontgomery (ring : NegacyclicRing) (a b out : Element) : Checked Element :=
  ring.updateFrom2 (fun m x y _ => m.montgomeryMul x y) a b out

def mulMontgomeryAdd (ring : NegacyclicRing) (a b out : Element) : Checked Element :=
  ring.updateFrom2 (fun m x y o => do m.add o (← m.montgomeryMul x y)) a b out

def mulMontgomerySub (ring : NegacyclicRing) (a b out : Element) : Checked Element :=
  ring.updateFrom2 (fun m x y o => do m.sub o (← m.montgomeryMul x y)) a b out

/-! ## Digit shifts -/

/-- The digit shift of a residue in channel `i`. -/
def shiftDigits (ring : NegacyclicRing) (x bits i : Nat) : Checked Nat := do
  let channel ← Lockstep.read ring.channels i
  channel.modulus.shiftDigits x bits

/-- Adds the digit shifts of row `i` of `a` to row `i` of the output. -/
def addShiftedDigits (ring : NegacyclicRing) (a : Element) (bits i : Nat) (out : Element) :
    Checked Element := do
  let channel ← Lockstep.read ring.channels i
  let operands ← Lockstep.read a.rows i
  let rows ← Lockstep.updateAt
    (fun outRow => Lockstep.update
      (fun o x => do channel.modulus.add o (← channel.modulus.shiftDigits x bits))
      outRow operands)
    i out.rows
  return ⟨rows⟩

/-! ## Conversions in place -/

/-- Converts the row of every channel. -/
def convertRows (ring : NegacyclicRing) (f : Channel → List Nat → Checked (List Nat))
    (a : Element) : Checked Element := do
  return ⟨← Lockstep.convert (fun row channel => f channel row) a.rows ring.channels⟩

def forward (ring : NegacyclicRing) (a : Element) : Checked Element :=
  ring.convertRows (fun channel row => channel.transform.forward row) a

def backward (ring : NegacyclicRing) (a : Element) : Checked Element :=
  ring.convertRows (fun channel row => channel.transform.backward row) a

def toMontgomery (ring : NegacyclicRing) (a : Element) : Checked Element :=
  ring.convertRows (fun channel row => row.mapM channel.modulus.toMontgomery) a

def ofMontgomery (ring : NegacyclicRing) (a : Element) : Checked Element :=
  ring.convertRows (fun channel row => row.mapM channel.modulus.ofMontgomery) a

end NegacyclicRing
end Ring
end RelinCeremony
