namespace RelinCeremony

/-!
# Faults and failures

Two things can keep a computation of this library from giving a value.

* A *fault* is a broken precondition of an arithmetic or container operation:
  an operand outside its range, a word that overflows, an entry that does not
  exist.  No caller is expected to recover from one.
* An *error* is an answer: the request was understood and is refused, and the
  refusal says why.  Each layer has its own type of errors.

`Checked` is the result of an operation that can only fault, `Fallible` the
result of one that can also refuse.  Nothing here decides when a fault arises;
that is stated beside each operation.
-/

/-- A broken precondition. -/
inductive Fault where
  /-- An operand is outside the range that the operation admits. -/
  | operandOutOfRange
  /-- A result does not fit the word it is kept in. -/
  | overflow
  /-- A remainder by zero was asked for. -/
  | divisionByZero
  /-- Two lengths that have to agree differ. -/
  | sizeMismatch
  /-- A row, a table entry or a list position does not exist. -/
  | missingEntry
  /-- A transform was asked for a size other than a power of two from 8 on. -/
  | unsupportedSize
  /-- A decomposition into digits of no bits was asked for. -/
  | zeroDigitSize
  /-- The slot `(i, w)` was read in a grid with fewer rows or levels. -/
  | slotOutOfBounds (i w moduli levels : Nat)
  /-- Default parameters were asked for an unsupported degree. -/
  | unsupportedDegree
  /-- Default parameters could not be built, for the given reason. -/
  | rejectedDefaults (reason : String)
  /-- A rejection loop used up all the draws it is given. -/
  | endlessRejection
deriving DecidableEq

/-- The words that go with a fault.  Only the faults that a user of the grids
and of the parameters can meet by a wrong request carry words. -/
def Fault.text? : Fault → Option String
  | .zeroDigitSize => some "the digit size must be positive"
  | .slotOutOfBounds i w moduli levels =>
      some s!"slot ({i}, {w}) out of bounds for {moduli} moduli x {levels} levels"
  | .unsupportedDegree => some "Invalid degree"
  | .rejectedDefaults reason => some s!"Invalid default parameters: {reason}"
  | _ => none

/-- The result of an operation that gives a value or faults. -/
abbrev Checked (α : Type) : Type := Except Fault α

/-- Goes on if the condition holds and faults otherwise. -/
@[inline] def require (condition : Prop) [Decidable condition] (fault : Fault) : Checked Unit :=
  if condition then .ok () else .error fault

theorem require_bind {α : Type} {condition : Prop} [Decidable condition] (holds : condition)
    (fault : Fault) (next : Unit → Checked α) :
    (require condition fault >>= next) = next () := by
  simp [require, holds, bind, Except.bind]

theorem require_bind_of_not {α : Type} {condition : Prop} [Decidable condition]
    (fails : ¬ condition) (fault : Fault) (next : Unit → Checked α) :
    (require condition fault >>= next) = .error fault := by
  simp [require, fails, bind, Except.bind]

/-- Why there is no value: a fault, or an error of the layer at hand. -/
inductive Failure (ε : Type) where
  | fault (fault : Fault)
  | error (error : ε)
deriving DecidableEq

/-- The result of an operation that gives a value, refuses, or faults. -/
abbrev Fallible (ε α : Type) : Type := Except (Failure ε) α

namespace Fallible

/-- A checked operation as a fallible one: its faults stay faults. -/
def ofChecked {ε α : Type} : Checked α → Fallible ε α
  | .ok value => .ok value
  | .error fault => .error (.fault fault)

/-- The refusal of a request. -/
def refuse {ε α : Type} (error : ε) : Fallible ε α := .error (.error error)

/-- Carries the errors of one layer into those of another. -/
def mapError {ε δ α : Type} (embed : ε → δ) : Fallible ε α → Fallible δ α
  | .ok value => .ok value
  | .error (.fault fault) => .error (.fault fault)
  | .error (.error error) => .error (.error (embed error))

instance {ε : Type} : MonadLift Checked (Fallible ε) where
  monadLift := ofChecked

end Fallible

end RelinCeremony
