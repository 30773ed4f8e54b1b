import RelinCeremony.Fault

namespace RelinCeremony
namespace Lockstep

/-!
# Updates in lockstep

An update walks an output and its operands in step and stops where the shortest
of them ends.  What lies beyond in the output stays as it was.
-/

/-- Replaces the entries of a list by a function of the entry and of the operand
at the same place, as far as there are operands. -/
@[specialize] def update {α β : Type} (f : α → β → Checked α) : List α → List β → Checked (List α)
  | [], _ => return []
  | outs, [] => return outs
  | out :: outs, operand :: operands => do
      let out ← f out operand
      return out :: (← update f outs operands)

theorem update_length {α β : Type} {f : α → β → Checked α} {outs : List α}
    {operands : List β} {result : List α} (h : update f outs operands = .ok result) :
    result.length = outs.length := by
  induction outs generalizing operands result with
  | nil =>
      simp only [update, pure, Except.pure, Except.ok.injEq] at h
      simp [← h]
  | cons out outs ih =>
      cases operands with
      | nil =>
          simp only [update, pure, Except.pure, Except.ok.injEq] at h
          simp [← h]
      | cons operand operands =>
          simp only [update, bind, Except.bind] at h
          split at h
          · simp at h
          split at h
          · simp at h
          · rename_i hrest
            simp only [pure, Except.pure, Except.ok.injEq] at h
            simp [← h, ih hrest]

/-- Applies a conversion to the entry of a list at the place of each operand;
there has to be one. -/
@[specialize] def convert {α β : Type} (f : α → β → Checked α) : List α → List β → Checked (List α)
  | outs, [] => return outs
  | [], _ :: _ => .error .missingEntry
  | out :: outs, operand :: operands => do
      let out ← f out operand
      return out :: (← convert f outs operands)

/-- Replaces the entry of a list at a position that has to exist. -/
def updateAt {α : Type} (f : α → Checked α) (i : Nat) (outs : List α) : Checked (List α) := do
  match outs[i]? with
  | some out => return outs.set i (← f out)
  | none => .error .missingEntry

/-- The entry of a list at a position that has to exist. -/
def read {α : Type} (outs : List α) (i : Nat) : Checked α :=
  match outs[i]? with
  | some out => .ok out
  | none => .error .missingEntry

end Lockstep
end RelinCeremony
