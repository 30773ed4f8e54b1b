import RelinCeremony.Word

namespace RelinCeremony

/-!
# Grids

A grid has one slot for each modulus index and each decomposition level.  It keeps
its slots in a list, numbered row by row, and it is made by a function that is
asked for every slot once, in the order of the list, and that may carry a state
from slot to slot.
-/

/-! ## Shapes -/

/-- The dimensions of a grid. -/
structure Shape where
  moduli : Nat
  levels : Nat
deriving DecidableEq

namespace Shape

/-- The number of slots, which has to fit in a word. -/
def size (shape : Shape) : Checked Nat := Word.checkedMul shape.moduli shape.levels

def isEmpty (shape : Shape) : Checked Bool := do return (← shape.size) == 0

/-- The coordinates of the slot with the given number. -/
def coordinates (shape : Shape) (index : Nat) : Checked (Nat × Nat) := do
  require (shape.levels ≠ 0) .divisionByZero
  return (index / shape.levels, index % shape.levels)

def text (shape : Shape) : String := s!"{shape.moduli} moduli x {shape.levels} levels"

end Shape

/-! ## Grids -/

/-- A dense grid of slots. -/
structure Grid (α : Type) where
  shape : Shape
  slots : List α
deriving DecidableEq

namespace Grid

/-! ### Construction -/

/-- The slots with the given numbers, in order. -/
def tabulateSlots {σ α : Type} (shape : Shape) (f : Nat → Nat → StateT σ Checked α) :
    List Nat → StateT σ Checked (List α)
  | [] => return []
  | index :: rest => do
      let (i, w) ← (shape.coordinates index : Checked _)
      let slot ← f i w
      return slot :: (← tabulateSlots shape f rest)

/-- The grid whose slot `(i, w)` is what the function gives for `i` and `w`. -/
def tabulate {σ α : Type} (shape : Shape) (f : Nat → Nat → StateT σ Checked α) :
    StateT σ Checked (Grid α) := do
  let size ← (shape.size : Checked _)
  return ⟨shape, ← tabulateSlots shape f (List.range size)⟩

def ofFn {α : Type} (shape : Shape) (f : Nat → Nat → Checked α) : Checked (Grid α) := do
  let (grid, _) ← (tabulate shape fun i w (_ : Unit) => do return (← f i w, ())) ()
  return grid

/-! ### Reading -/

/-- The slot `(i, w)`, if there is one. -/
def get? {α : Type} (grid : Grid α) (i w : Nat) : Option α :=
  if i < grid.shape.moduli && w < grid.shape.levels then
    grid.slots[i * grid.shape.levels + w]?
  else none

/-- The slot `(i, w)`, which has to exist. -/
def read {α : Type} (grid : Grid α) (i w : Nat) : Checked α :=
  match grid.get? i w with
  | some slot => .ok slot
  | none => .error (.slotOutOfBounds i w grid.shape.moduli grid.shape.levels)

/-- The slots with their coordinates, in order. -/
def entries {α : Type} (grid : Grid α) : Checked (List ((Nat × Nat) × α)) :=
  grid.slots.zipIdx.mapM fun (slot, index) => do
    return (← grid.shape.coordinates index, slot)

end Grid
end RelinCeremony
