import RelinCeremony.Protocol.Engine

namespace RelinCeremony
namespace Protocol

/-!
# Sums of shares

Shares are added slot by slot, in three ways: the sum of two shares is written
over a third, a share is added to another, or a list of shares is summed up.  All
three work alike for shares of single elements and of pairs.
-/

/-- Slots that can be added in a ring. -/
class Summand (α : Type) where
  /-- The sum of two slots, written over a third. -/
  add : Ring.NegacyclicRing → α → α → α → Checked α
  /-- The slot with another one added: first the one added, then the one changed. -/
  addAssign : Ring.NegacyclicRing → α → α → Checked α

instance : Summand Ring.Element where
  add ring := ring.add
  addAssign ring := ring.addAssign

instance : Summand (Ring.Element × Ring.Element) where
  add ring a b out := do return (← ring.add a.1 b.1 out.1, ← ring.add a.2 b.2 out.2)
  addAssign ring b out := do return (← ring.addAssign b.1 out.1, ← ring.addAssign b.2 out.2)

namespace Engine

/-- The sum of two shares, written over a share. -/
def addShares {α : Type} [Summand α] (e : Engine) (a b out : Grid α) : Outcome (Grid α) := do
  e.requireShape a
  e.requireShape b
  e.requireShape out
  let slots ← ((out.slots.zip (a.slots.zip b.slots)).mapM
    fun (old, x, y) => Summand.add e.ring x y old : Checked _)
  return ⟨out.shape, slots⟩

/-- A share with another share added to it. -/
def accumulate {α : Type} [Summand α] (e : Engine) (total share : Grid α) :
    Outcome (Grid α) := do
  e.requireShape total
  e.requireShape share
  let slots ← ((total.slots.zip share.slots).mapM
    fun (x, y) => Summand.addAssign e.ring y x : Checked _)
  return ⟨total.shape, slots⟩

def sumShares {α : Type} [Summand α] (e : Engine) : List (Grid α) → Outcome (Grid α)
  | [] => Fallible.refuse (.tooFewValues 0 1)
  | first :: rest => do
      e.requireShape first
      rest.foldlM e.accumulate first

end Engine
end Protocol
end RelinCeremony
