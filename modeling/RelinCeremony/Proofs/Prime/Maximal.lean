import Mathlib.Data.Nat.ModEq
import Mathlib.Order.Bounds.Basic
import RelinCeremony.Proofs.Loop
import RelinCeremony.Proofs.Prime.Exact
import RelinCeremony.Proofs.Prime.Search

namespace RelinCeremony
namespace Prime

/-!
# The search for primes finds the greatest one

The walk starts at the greatest number of the residue class below the upper bound and goes
down from one number of the class to the next.  It ends at the greatest prime of the class
between the bounds, or below the lower bound if there is none.  Searching again below each
prime that is found lists all of them in descending order.
-/

/-- The primes between two bounds that are 1 modulo `step`. -/
def primesBetween (step lower upper : Nat) : Set Nat :=
  {p | p.Prime ∧ p % step = 1 ∧ lower < p ∧ p < upper}

/-- The answer names the greatest number of the set, and is `none` if the set is empty. -/
def IsMaximum (s : Set Nat) : Option Nat → Prop
  | none => s = ∅
  | some p => IsGreatest s p

theorem IsMaximum.eq_some_iff {s : Set Nat} {p? : Option Nat} (h : IsMaximum s p?) {p : Nat} :
    p? = some p ↔ IsGreatest s p := by
  cases p? with
  | none =>
      have hempty : s = ∅ := h
      simp [hempty, IsGreatest]
  | some q =>
      have hgreatest : IsGreatest s q := h
      constructor
      · rintro ⟨⟩
        exact hgreatest
      · intro hp
        rw [hgreatest.unique hp]

theorem IsMaximum.eq_none_iff {s : Set Nat} {p? : Option Nat} (h : IsMaximum s p?) :
    p? = none ↔ s = ∅ := by
  cases p? with
  | none => exact iff_of_true rfl h
  | some q =>
      have hgreatest : IsGreatest s q := h
      simpa using hgreatest.nonempty.ne_empty

/-! ## The walk -/

/-- One round of the walk, with its difference checked. -/
def walkRound (lower step candidate : Nat) : Checked (Option Nat ⊕ Nat) := do
  if candidate ≤ lower then return .inl none
  else if isPrime candidate then return .inl (some candidate)
  else if candidate ≤ step then return .inl none
  else return .inr (← checkedSub candidate step)

/-- The bounded walk is the walk without a bound, if it may visit as many numbers as there
are below the first one. -/
theorem loopEnds_firstPrimeDownwards (lower : Nat) {step candidates candidate : Nat}
    (hstep : 0 < step) (hcandidates : candidate ≤ candidates) :
    LoopEnds (walkRound lower step) candidate
      (firstPrimeDownwards lower step candidates candidate) := by
  induction candidates generalizing candidate with
  | zero =>
      refine .done ?_
      rw [walkRound, if_pos (by omega), firstPrimeDownwards]
      rfl
  | succ candidates ih =>
      unfold firstPrimeDownwards
      by_cases hlower : candidate ≤ lower
      · rw [if_pos hlower]
        refine .done ?_
        rw [walkRound, if_pos hlower]
        rfl
      rw [if_neg hlower]
      by_cases hprime : isPrime candidate = true
      · rw [if_pos hprime]
        refine .done ?_
        rw [walkRound, if_neg hlower, if_pos hprime]
        rfl
      rw [if_neg hprime]
      by_cases hend : candidate ≤ step
      · rw [if_pos hend]
        refine .done ?_
        rw [walkRound, if_neg hlower, if_neg hprime, if_pos hend]
        rfl
      rw [if_neg hend]
      have hrest : candidate - step ≤ candidates := by omega
      refine .next ?_ (ih hrest)
      rw [walkRound, if_neg hlower, if_neg hprime, if_neg hend, checkedSub_eq (by omega)]
      rfl

/-- Of two numbers of the class the lower one is lower by a step at least. -/
theorem add_step_le {step p candidate : Nat} (hp : p % step = 1) (hclass : candidate % step = 1)
    (hlt : p < candidate) : p + step ≤ candidate :=
  Nat.ModEq.add_le_of_lt (hp.trans hclass.symm) hlt

/-- A number of the class that is not prime can be passed by. -/
theorem primesBetween_sub_step {lower step candidate : Nat} (hclass : candidate % step = 1)
    (hprime : ¬ candidate.Prime) (hstep : step < candidate) :
    primesBetween step lower (candidate + 1) = primesBetween step lower (candidate - step + 1) := by
  ext p
  constructor
  · rintro ⟨hp, hpclass, hlower, hupper⟩
    have hne : p ≠ candidate := fun h => hprime (h ▸ hp)
    have hle := add_step_le hpclass hclass (by omega)
    exact ⟨hp, hpclass, hlower, by omega⟩
  · rintro ⟨hp, hpclass, hlower, hupper⟩
    exact ⟨hp, hpclass, hlower, by omega⟩

/-- The walk from a number of the class on ends at the greatest prime of the class. -/
theorem isMaximum_of_loopEnds {lower step candidate : Nat} {p? : Option Nat}
    (hclass : candidate % step = 1) (h : LoopEnds (walkRound lower step) candidate p?) :
    IsMaximum (primesBetween step lower (candidate + 1)) p? := by
  -- The induction is on the rounds; the set is the same for the number of the next round.
  induction h with
  | @done candidate p? hround =>
      unfold walkRound at hround
      split at hround
      case isTrue hlower =>
        cases hround
        refine Set.eq_empty_of_forall_notMem fun p hp => ?_
        have hbounds := hp.2.2
        omega
      case isFalse hlower =>
        split at hround
        case isTrue hprime =>
          cases hround
          refine ⟨⟨isPrime_iff.1 hprime, hclass, by omega, by omega⟩, fun p hp => ?_⟩
          exact Nat.le_of_lt_succ hp.2.2.2
        case isFalse hprime =>
          split at hround
          case isTrue hend =>
            cases hround
            refine Set.eq_empty_of_forall_notMem fun p hp => ?_
            -- A prime of the class would be the number itself, or lower than zero.
            have hne : p ≠ candidate := fun h => hprime (isPrime_iff.2 (h ▸ hp.1))
            have hupper := hp.2.2.2
            have hle := add_step_le hp.2.1 hclass (by omega)
            have hpos := hp.1.pos
            omega
          case isFalse =>
            obtain ⟨_, _, hround⟩ := bind_eq_ok_iff.1 hround
            cases hround
  | @next candidate candidate' p? hround _ ih =>
      unfold walkRound at hround
      split at hround
      case isTrue => cases hround
      case isFalse =>
        split at hround
        case isTrue => cases hround
        case isFalse hprime =>
          split at hround
          case isTrue => cases hround
          case isFalse hstep =>
            rw [checkedSub_eq (by omega)] at hround
            cases hround
            have hclass' : (candidate - step) % step = 1 := by
              rw [← Nat.mod_eq_sub_mod (by omega)]
              exact hclass
            rw [primesBetween_sub_step hclass (fun h => hprime (isPrime_iff.2 h)) (by omega)]
            exact ih hclass'

/-! ## The search -/

/-- The greatest number below `upper` that is 1 modulo `step`. -/
def highestCandidate (step upper : Nat) : Nat := (upper - 1) - (upper - 2) % step

theorem highestCandidate_mod {step upper : Nat} (hstep : 1 < step) (hupper : 2 ≤ upper) :
    highestCandidate step upper % step = 1 := by
  have hdiv := Nat.div_add_mod (upper - 2) step
  have heq : highestCandidate step upper = 1 + step * ((upper - 2) / step) := by
    unfold highestCandidate
    omega
  rw [heq, Nat.add_mul_mod_self_left, Nat.mod_eq_of_lt hstep]

/-- No number of the class lies between the first candidate and the upper bound. -/
theorem primesBetween_highestCandidate {lower step upper : Nat} (hstep : 1 < step)
    (hupper : 2 ≤ upper) :
    primesBetween step lower (highestCandidate step upper + 1) =
      primesBetween step lower upper := by
  have hrest : (upper - 2) % step < step := Nat.mod_lt _ (by omega)
  have hhighest : highestCandidate step upper = (upper - 1) - (upper - 2) % step := rfl
  have hle := Nat.mod_le (upper - 2) step
  ext p
  constructor
  · rintro ⟨hp, hclass, hlower, hlt⟩
    exact ⟨hp, hclass, hlower, by omega⟩
  · rintro ⟨hp, hclass, hlower, hlt⟩
    refine ⟨hp, hclass, hlower, Nat.lt_succ_of_le ?_⟩
    by_contra hgt
    have hstepUp := add_step_le (highestCandidate_mod hstep hupper) hclass (Nat.not_le.1 hgt)
    omega

/-- There is no prime in the class below the step. -/
theorem primesBetween_eq_empty {lower step upper : Nat} (h : upper ≤ step) :
    primesBetween step lower upper = ∅ := by
  refine Set.eq_empty_of_forall_notMem fun p hp => ?_
  have hlt := hp.2.2.2
  have hclass := hp.2.1
  rw [Nat.mod_eq_of_lt (by omega)] at hclass
  exact Nat.not_prime_one (hclass ▸ hp.1)

/-- The bounds that a search for primes of `bits` bits admits. -/
structure Searchable (bits step upper : Nat) : Prop where
  bits_ge : 10 ≤ bits
  bits_le : bits ≤ 62
  step_pos : 0 < step
  step_even : step % 2 = 0
  lower_lt : 2 ^ (bits - 1) < upper
  upper_le : upper ≤ 2 ^ bits

namespace Searchable

variable {bits step upper : Nat}

theorem two_le (h : Searchable bits step upper) : 2 ≤ upper := by
  have hpos : 0 < 2 ^ (bits - 1) := Nat.two_pow_pos _
  have hlower := h.lower_lt
  omega

/-- A prime that is found can be the upper bound of the next search. -/
theorem of_mem (h : Searchable bits step upper) {p : Nat}
    (hp : p ∈ primesBetween step (2 ^ (bits - 1)) upper) : Searchable bits step p :=
  ⟨h.bits_ge, h.bits_le, h.step_pos, h.step_even, hp.2.2.1, hp.2.2.2.le.trans h.upper_le⟩

/-- The search gives the greatest prime, if there is one, and its walk ends by itself. -/
theorem gives_largestBelow (h : Searchable bits step upper) :
    Gives (largestBelow bits step upper) fun p? =>
      (step < upper →
        LoopEnds (walkRound (2 ^ (bits - 1)) step) (highestCandidate step upper) p?) ∧
      IsMaximum (primesBetween step (2 ^ (bits - 1)) upper) p? := by
  have hsearch : ¬ (!isSearchable bits || step == 0) = true := by
    have hbits : isSearchable bits = true := by
      simp [isSearchable, h.bits_ge, h.bits_le]
    have hstep := h.step_pos
    simp only [hbits, Bool.not_true, Bool.false_or, beq_iff_eq]
    omega
  have hstep : 1 < step := by
    have hpos := h.step_pos
    have heven := h.step_even
    omega
  unfold largestBelow
  rw [if_neg hsearch, require_bind ⟨h.upper_le, h.lower_lt⟩, require_bind h.step_even]
  split
  case isTrue hle =>
    rw [Gives.pure_iff]
    refine ⟨fun hlt => absurd hlt (by omega), ?_⟩
    exact primesBetween_eq_empty hle
  case isFalse =>
    rw [Gives.pure_iff]
    have hends := loopEnds_firstPrimeDownwards (2 ^ (bits - 1)) h.step_pos
      (Nat.le_refl (highestCandidate step upper))
    refine ⟨fun _ => hends, ?_⟩
    have hmaximum := isMaximum_of_loopEnds (highestCandidate_mod hstep h.two_le) hends
    rwa [primesBetween_highestCandidate hstep h.two_le] at hmaximum

end Searchable

/-! ## All primes in turn -/

/-- One round of a search for all primes below `upper`, which collects them in `found`. -/
def collectRound (bits step : Nat) : Nat × List Nat → Checked (List Nat ⊕ Nat × List Nat)
  | (upper, found) => do
      match ← largestBelow bits step upper with
      | none => return .inl found
      | some p => return .inr (p, found ++ [p])

theorem collectRound_of_none {bits step upper : Nat} (h : largestBelow bits step upper = .ok none)
    (found : List Nat) : collectRound bits step (upper, found) = .ok (.inl found) := by
  rw [collectRound, h]
  rfl

theorem collectRound_of_some {bits step upper p : Nat}
    (h : largestBelow bits step upper = .ok (some p)) (found : List Nat) :
    collectRound bits step (upper, found) = .ok (.inr (p, found ++ [p])) := by
  rw [collectRound, h]
  rfl

/-- The primes of a set in descending order, each of them once. -/
def IsDescending (s : Set Nat) (ps : List Nat) : Prop :=
  ps.Pairwise (· > ·) ∧ ∀ p, p ∈ ps ↔ p ∈ s

/-- The primes below the greatest one, with the greatest one in front. -/
theorem IsDescending.cons {step lower upper p : Nat} {ps : List Nat}
    (hp : IsGreatest (primesBetween step lower upper) p)
    (hps : IsDescending (primesBetween step lower p) ps) :
    IsDescending (primesBetween step lower upper) (p :: ps) := by
  refine ⟨List.pairwise_cons.2 ⟨fun q hq => ((hps.2 q).1 hq).2.2.2, hps.1⟩, fun q => ?_⟩
  rw [List.mem_cons, hps.2]
  constructor
  · rintro (rfl | ⟨hq, hclass, hlower, hlt⟩)
    · exact hp.1
    · exact ⟨hq, hclass, hlower, hlt.trans hp.1.2.2.2⟩
  · rintro ⟨hq, hclass, hlower, hlt⟩
    rcases Nat.lt_or_eq_of_le (hp.2 ⟨hq, hclass, hlower, hlt⟩) with hbelow | heq
    · exact .inr ⟨hq, hclass, hlower, hbelow⟩
    · exact .inl heq

/-- Searching below each prime that is found collects all primes in descending order. -/
theorem exists_loopEnds_collectRound {bits step upper : Nat} (h : Searchable bits step upper)
    (found : List Nat) :
    ∃ ps, LoopEnds (collectRound bits step) (upper, found) (found ++ ps) ∧
      IsDescending (primesBetween step (2 ^ (bits - 1)) upper) ps := by
  -- The upper bound goes down with each prime.
  induction upper using Nat.strong_induction_on generalizing found with
  | _ upper ih =>
      obtain ⟨p?, hsearch, _, hmaximum⟩ := h.gives_largestBelow
      cases p? with
      | none =>
          have hempty : primesBetween step (2 ^ (bits - 1)) upper = ∅ := hmaximum
          refine ⟨[], ?_, List.Pairwise.nil, fun p => by simp [hempty]⟩
          rw [List.append_nil]
          exact .done (collectRound_of_none hsearch found)
      | some p =>
          have hp : p ∈ primesBetween step (2 ^ (bits - 1)) upper := hmaximum.1
          obtain ⟨ps, hends, hdescending⟩ := ih p hp.2.2.2 (h.of_mem hp) (found ++ [p])
          rw [List.append_assoc, List.singleton_append] at hends
          exact ⟨p :: ps, .next (collectRound_of_some hsearch found) hends,
            .cons hmaximum hdescending⟩

/-- Between admitted bounds the search and its checked form agree, its walk ends, and the
answer is the greatest prime of the class between the bounds, or `none` exactly if there is
no prime.  A search below each prime that is found lists all primes of the class in
descending order. -/
theorem largestBelow_exact {bits step upper : Nat} (h : Searchable bits step upper) :
    checkedLargestBelow bits step upper = largestBelow bits step upper ∧
    (Gives (largestBelow bits step upper) fun p? =>
      (step < upper →
        LoopEnds (walkRound (2 ^ (bits - 1)) step) (highestCandidate step upper) p?) ∧
      (∀ p, p? = some p ↔ IsGreatest (primesBetween step (2 ^ (bits - 1)) upper) p) ∧
      (p? = none ↔ primesBetween step (2 ^ (bits - 1)) upper = ∅)) ∧
    ∃ ps, LoopEnds (collectRound bits step) (upper, []) ps ∧
      IsDescending (primesBetween step (2 ^ (bits - 1)) upper) ps := by
  refine ⟨checkedLargestBelow_eq bits step upper, ?_, ?_⟩
  · refine h.gives_largestBelow.imp fun p? hp => ⟨hp.1, fun p => hp.2.eq_some_iff, ?_⟩
    exact hp.2.eq_none_iff
  · obtain ⟨ps, hends, hdescending⟩ := exists_loopEnds_collectRound h []
    exact ⟨ps, hends, hdescending⟩

/-- Of 10 bits and 1 modulo 128 there are the primes 769 and 641, in this order; 897 is passed
by. -/
theorem largestBelow_exact_small : Searchable 10 128 1024 ∧
    largestBelow 10 128 1024 = .ok (some 769) ∧ IsGreatest (primesBetween 128 512 1024) 769 ∧
    LoopEnds (collectRound 10 128) (1024, []) [769, 641] ∧
    IsDescending (primesBetween 128 512 1024) [769, 641] := by
  have hsearchable : Searchable 10 128 1024 :=
    ⟨by decide, by decide, by decide, by decide, by decide, by decide⟩
  have hsearch : largestBelow 10 128 1024 = .ok (some 769) := by decide +kernel
  have hsecond : largestBelow 10 128 769 = .ok (some 641) := by decide +kernel
  have hlast : largestBelow 10 128 641 = .ok none := by decide +kernel
  obtain ⟨_, hgreatest, ps, hends, hdescending⟩ := largestBelow_exact hsearchable
  have hrounds : LoopEnds (collectRound 10 128) (1024, []) [769, 641] :=
    .next (collectRound_of_some hsearch []) (.next (collectRound_of_some hsecond [769])
      (.done (collectRound_of_none hlast [769, 641])))
  rw [hends.unique hrounds] at hdescending
  exact ⟨hsearchable, hsearch, ((hgreatest.value_unique hsearch).2.1 769).1 rfl, hrounds,
    hdescending⟩

end Prime
end RelinCeremony
