import RelinCeremony.Prime.Search
import RelinCeremony.Proofs.Gives

namespace RelinCeremony
namespace Prime

/-!
# The search for primes does not fault

The bounds that a search is started with are the only thing that can go wrong in
it.  A prime that is found lies strictly between them, so it can be the upper bound
of the next search.  The differences that the search takes are never cut off at
zero: a search that checks them is the same.
-/

/-- The walk stops above the lower bound, and not above the number it starts from. -/
theorem bounds_of_firstPrimeDownwards {lower step candidates candidate p : Nat}
    (h : firstPrimeDownwards lower step candidates candidate = some p) :
    lower < p ∧ p ≤ candidate := by
  induction candidates generalizing candidate with
  | zero => cases h
  | succ candidates ih =>
      unfold firstPrimeDownwards at h
      split at h
      case isTrue => cases h
      case isFalse hlower =>
        split at h
        case isTrue =>
          cases h
          omega
        case isFalse =>
          split at h
          case isTrue => cases h
          case isFalse =>
            have hrest := ih h
            omega

/-- Between admissible bounds and for an even step the search gives an answer, and a
prime that it finds is below the upper bound. -/
theorem gives_largestBelow {bits step upper : Nat}
    (hupper : upper ≤ 2 ^ bits ∧ 2 ^ (bits - 1) < upper) (hstep : step % 2 = 0) :
    Gives (largestBelow bits step upper) fun p? =>
      ∀ p, p? = some p → 2 ^ (bits - 1) < p ∧ p < upper := by
  unfold largestBelow
  split
  case isTrue => simp
  case isFalse =>
    rw [require_bind hupper, require_bind hstep]
    split
    case isTrue => simp
    case isFalse =>
      rw [Gives.pure_iff]
      intro p hp
      have hbounds := bounds_of_firstPrimeDownwards hp
      omega

/-! ## Differences -/

/-- A difference that must not be negative. -/
def checkedSub (a b : Nat) : Checked Nat := do
  require (b ≤ a) .overflow
  return a - b

theorem checkedSub_eq {a b : Nat} (h : b ≤ a) : checkedSub a b = .ok (a - b) := by
  rw [checkedSub, require_bind h]
  rfl

/-- The walk with its differences checked. -/
def checkedWalk (lower step : Nat) : (candidates candidate : Nat) → Checked (Option Nat)
  | 0, _ => return none
  | candidates + 1, candidate => do
      if candidate ≤ lower then return none
      else if isPrime candidate then return some candidate
      else if candidate ≤ step then return none
      else checkedWalk lower step candidates (← checkedSub candidate step)

/-- The search with its differences checked. -/
def checkedLargestBelow (bits step upper : Nat) : Checked (Option Nat) := do
  if !isSearchable bits || step == 0 then
    return none
  require (upper ≤ 2 ^ bits ∧ 2 ^ (bits - 1) < upper) .operandOutOfRange
  require (step % 2 = 0) .operandOutOfRange
  if upper ≤ step then
    return none
  let highest ← checkedSub (← checkedSub upper 1) ((← checkedSub upper 2) % step)
  checkedWalk (2 ^ (bits - 1)) step highest highest

theorem checkedWalk_eq (lower step candidates candidate : Nat) :
    checkedWalk lower step candidates candidate =
      .ok (firstPrimeDownwards lower step candidates candidate) := by
  induction candidates generalizing candidate with
  | zero => rfl
  | succ candidates ih =>
      unfold checkedWalk firstPrimeDownwards
      by_cases hlower : candidate ≤ lower
      · rw [if_pos hlower, if_pos hlower]
        rfl
      by_cases hprime : isPrime candidate = true
      · rw [if_neg hlower, if_neg hlower, if_pos hprime, if_pos hprime]
        rfl
      by_cases hstep : candidate ≤ step
      · rw [if_neg hlower, if_neg hlower, if_neg hprime, if_neg hprime, if_pos hstep,
          if_pos hstep]
        rfl
      · rw [if_neg hlower, if_neg hlower, if_neg hprime, if_neg hprime, if_neg hstep,
          if_neg hstep, checkedSub_eq (by omega), ok_bind, ih]

theorem checkedLargestBelow_eq (bits step upper : Nat) :
    checkedLargestBelow bits step upper = largestBelow bits step upper := by
  unfold checkedLargestBelow largestBelow
  by_cases hsearch : (!isSearchable bits || step == 0) = true
  · rw [if_pos hsearch, if_pos hsearch]
  rw [if_neg hsearch, if_neg hsearch]
  refine bind_congr_ok fun _ hbounds => bind_congr_ok fun _ _ => ?_
  by_cases hstep : upper ≤ step
  · rw [if_pos hstep, if_pos hstep]
  -- The lower bound is a power of two, and a size that can be searched is at least 10.
  have htwo : 2 ≤ upper := by
    have hbounds' := (require_eq_ok_iff.1 hbounds).2
    have hpos : 0 < 2 ^ (bits - 1) := Nat.two_pow_pos _
    omega
  have hrest : (upper - 2) % step ≤ upper - 1 := by
    have hle := Nat.mod_le (upper - 2) step
    omega
  rw [if_neg hstep, if_neg hstep, checkedSub_eq (by omega), ok_bind, checkedSub_eq htwo, ok_bind,
    checkedSub_eq hrest, ok_bind, checkedWalk_eq]
  rfl

end Prime
end RelinCeremony
