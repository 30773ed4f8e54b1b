import RelinCeremony.Fault

namespace RelinCeremony

/-!
# Loops that end

A recursion of this library that searches for something is bounded by a number of rounds.
`LoopEnds` describes the loop without the bound: a round ends the loop with a result, or
leads to the state of the next round.  A proof that a loop ends is a list of its rounds, so
it says that there are finitely many of them and that none of them faults.
-/

/-- The loop with the given round ends with the result `r` when it starts in the state `s`. -/
inductive LoopEnds {σ ρ : Type} (round : σ → Checked (ρ ⊕ σ)) : σ → ρ → Prop where
  | done {s : σ} {r : ρ} (h : round s = .ok (.inl r)) : LoopEnds round s r
  | next {s s' : σ} {r : ρ} (h : round s = .ok (.inr s')) (rest : LoopEnds round s' r) :
      LoopEnds round s r

namespace LoopEnds

variable {σ ρ : Type} {round : σ → Checked (ρ ⊕ σ)} {s : σ} {r r' : ρ}

/-- A loop ends with one result only. -/
theorem unique (h : LoopEnds round s r) (h' : LoopEnds round s r') : r = r' := by
  induction h with
  | done hround =>
      cases h' with
      | done hround' =>
          rw [hround] at hround'
          cases hround'
          rfl
      | next hround' _ =>
          rw [hround] at hround'
          cases hround'
  | next hround _ ih =>
      cases h' with
      | done hround' =>
          rw [hround] at hround'
          cases hround'
      | next hround' rest' =>
          rw [hround] at hround'
          cases hround'
          exact ih rest'

end LoopEnds
end RelinCeremony
