import RelinCeremony.Proofs.Binary64
import RelinCeremony.Proofs.Loop
import RelinCeremony.Proofs.Ring.SampledIntegers

namespace RelinCeremony

/-!
# When a discrete normal draw can end

A discrete normal number is drawn again until it lies within its bound.  Without the cap on
the attempts this is a loop from generator to generator.  For a bound from 0 on it can end:
the word in the middle of the lowest layer leads to zero, which every such bound admits,
whatever the deviation.  For a negative bound no attempt is ever accepted, so that no stream
of words ends the loop.

A sampler is refused for a bound below 1, a vector of discrete normal coefficients for none.
-/

namespace Random

namespace Draw

variable {α : Type} {attempt : Draw (Option α)} {g g' : Generator} {a : α}

/-! ## Rejection loops without a cap -/

/-- One round of a rejection loop: the attempt ends it with a value and the generator that is
left, or leaves a generator to the next round. -/
def acceptanceRound (attempt : Draw (Option α)) (g : Generator) :
    Checked ((α × Generator) ⊕ Generator) := do
  match ← attempt.run g with
  | (some a, g) => return .inl (a, g)
  | (none, g) => return .inr g

theorem acceptanceRound_some (h : attempt.run g = .ok (some a, g')) :
    acceptanceRound attempt g = .ok (.inl (a, g')) := by
  rw [acceptanceRound, h]
  rfl

theorem acceptanceRound_none (h : attempt.run g = .ok (none, g')) :
    acceptanceRound attempt g = .ok (.inr g') := by
  rw [acceptanceRound, h]
  rfl

/-- A loop with a cap that accepts something is a run of the loop without it. -/
theorem loopEnds_of_firstAccepted {n : Nat}
    (h : (firstAccepted attempt n).run g = .ok (some a, g')) :
    LoopEnds (acceptanceRound attempt) g (a, g') := by
  induction n generalizing g with
  | zero => cases h
  | succ n ih =>
      rw [firstAccepted, StateT.run_bind] at h
      obtain ⟨⟨value?, g₁⟩, hattempt, h⟩ := bind_eq_ok_iff.1 h
      cases value? with
      | some value =>
          cases h
          exact .done (acceptanceRound_some hattempt)
      | none => exact .next (acceptanceRound_none hattempt) (ih h)

theorem loopEnds_of_untilAccepted (h : (untilAccepted attempt).run g = .ok (a, g')) :
    LoopEnds (acceptanceRound attempt) g (a, g') := by
  rw [untilAccepted, StateT.run_bind] at h
  obtain ⟨⟨value?, g₁⟩, hfirst, h⟩ := bind_eq_ok_iff.1 h
  cases value? with
  | some value =>
      cases h
      exact loopEnds_of_firstAccepted hfirst
  | none => cases h

/-- A loop that ends has accepted its last attempt. -/
theorem exists_accepted_of_loopEnds {r : α × Generator}
    (h : LoopEnds (acceptanceRound attempt) g r) :
    ∃ g', attempt.run g' = .ok (some r.1, r.2) := by
  induction h with
  | @done g r hround =>
      obtain ⟨⟨value?, g₁⟩, hattempt, hround⟩ := bind_eq_ok_iff.1 hround
      cases value? with
      | some value =>
          cases hround
          exact ⟨g, hattempt⟩
      | none => cases hround
  | next _ _ ih => exact ih

/-- An attempt that is accepted at once. -/
theorem untilAccepted_of_accepted (h : attempt.run g = .ok (some a, g')) :
    (untilAccepted attempt).run g = .ok (a, g') := by
  obtain ⟨n, hn⟩ : ∃ n, attempts = n + 1 := Nat.exists_eq_succ_of_ne_zero (Nat.two_pow_pos 62).ne'
  have hfirst : (firstAccepted attempt attempts).run g = .ok (some a, g') := by
    rw [hn, firstAccepted, StateT.run_bind, h]
    rfl
  rw [untilAccepted, StateT.run_bind, hfirst]
  rfl

end Draw

/-! ## The test of acceptance -/

theorem acceptWithin_of_neg {bound : Int} (hbound : bound < 0) (x : Binary64) :
    acceptWithin bound x = none := by
  have hnearest := Binary64.nearestInt_neg_iff.2 hbound
  unfold acceptWithin
  split
  case h_1 n _ =>
    rw [if_neg]
    omega
  case h_2 => rfl

theorem acceptWithin_zero {bound : Int} (hbound : 0 ≤ bound) :
    acceptWithin bound (.ofFloat 0.0) = some 0 := by
  have hnearest : 0 ≤ Binary64.nearestInt bound := by
    rw [← Int.not_lt, Binary64.nearestInt_neg_iff]
    exact Int.not_lt.2 hbound
  unfold acceptWithin
  rw [Binary64.round?_zero]
  dsimp only
  rw [Int.natAbs_zero, Nat.cast_zero, if_pos hnearest]
  rfl

/-- There is a number that the test takes exactly if the bound is not negative, and then
zero is one. -/
theorem exists_acceptWithin_iff {bound : Int} :
    (∃ x, x.isFinite = true ∧ (acceptWithin bound x).isSome) ↔ 0 ≤ bound := by
  constructor
  · rintro ⟨x, _, hx⟩
    by_contra hneg
    rw [acceptWithin_of_neg (by omega)] at hx
    cases hx
  · intro hbound
    exact ⟨.ofFloat 0.0, Binary64.isFinite_zero, by rw [acceptWithin_zero hbound]; rfl⟩

/-! ## A stream of zeros -/

/-- The word whose point is the middle of the lowest layer. -/
def middleWord : UInt64 := 0x8000000000000000

namespace Draw

/-- One attempt at a discrete normal number. -/
def attemptBounded (mean deviation : Float) (bound : Int) : Draw (Option Int) := do
  return acceptWithin bound (.ofFloat (← normal mean deviation))

theorem boundedNormal_eq (mean deviation : Float) (bound : Int) :
    boundedNormal mean deviation bound = untilAccepted (attemptBounded mean deviation bound) := rfl

variable {deviation : Float} {bound : Int} {words : List UInt64} {state : UInt64}

theorem standard_middleWord :
    standard.run (.script (middleWord :: words) state) = .ok (0.0, .script words state) := by
  have hpoint : Float.ofBits ((middleWord >>> 12) + 0x4000000000000000) - 3.0 = 0.0 := by
    decide +kernel
  have hlayer : (middleWord % 256).toNat = 0 := by decide +kernel
  have hproduct : (0.0 : Float) * edge 0 = 0.0 := by decide +kernel
  have hinside : (0.0 : Float).abs < edge (0 + 1) := by decide +kernel
  have hword : word.run (.script (middleWord :: words) state) =
      .ok (middleWord, .script words state) := rfl
  apply untilAccepted_of_accepted
  rw [attemptStandard, StateT.run_bind, hword, ok_bind]
  dsimp only
  rw [hpoint, hlayer, hproduct, if_pos hinside]
  rfl

theorem boundedNormal_middleWord (hdeviation : (Binary64.ofFloat deviation).isFinite = true)
    (hbound : 0 ≤ bound) :
    (boundedNormal 0.0 deviation bound).run (.script (middleWord :: words) state) =
      .ok (0, .script words state) := by
  have hnormal : (normal 0.0 deviation).run (.script (middleWord :: words) state) =
      .ok (0.0, .script words state) := by
    rw [normal, StateT.run_bind, standard_middleWord, ok_bind,
      Binary64.zero_add_mul_zero hdeviation]
    rfl
  rw [boundedNormal_eq]
  apply untilAccepted_of_accepted
  rw [attemptBounded, StateT.run_bind, hnormal, ok_bind, acceptWithin_zero hbound]
  rfl

/-- As many words as there are coefficients lead to the zero vector. -/
theorem times_middleWord (hdeviation : (Binary64.ofFloat deviation).isFinite = true)
    (hbound : 0 ≤ bound) (size : Nat) :
    (times (boundedNormal 0.0 deviation bound) size).run
        (.script (List.replicate size middleWord ++ words) state) =
      .ok (List.replicate size 0, .script words state) := by
  induction size with
  | zero => rfl
  | succ size ih =>
      rw [times, StateT.run_bind, List.replicate_succ, List.cons_append,
        boundedNormal_middleWord hdeviation hbound, ok_bind, StateT.run_bind, ih]
      rfl

theorem exists_loopEnds (hdeviation : (Binary64.ofFloat deviation).isFinite = true)
    (hbound : 0 ≤ bound) :
    ∃ g r, LoopEnds (acceptanceRound (attemptBounded 0.0 deviation bound)) g r :=
  ⟨.ofScript [middleWord], (0, .ofScript []),
    loopEnds_of_untilAccepted (boundedNormal_middleWord hdeviation hbound)⟩

theorem exists_gives_times (hdeviation : (Binary64.ofFloat deviation).isFinite = true)
    (hbound : 0 ≤ bound) (size : Nat) :
    ∃ g, Gives ((times (boundedNormal 0.0 deviation bound) size).run g) fun _ => True :=
  ⟨.script (List.replicate size middleWord ++ []) 0, (List.replicate size 0, .script [] 0),
    times_middleWord hdeviation hbound size, trivial⟩

/-- With a negative bound no stream of words ends the loop. -/
theorem not_loopEnds_of_neg {mean : Float} (hbound : bound < 0) {g : Generator}
    {r : Int × Generator} :
    ¬ LoopEnds (acceptanceRound (attemptBounded mean deviation bound)) g r := by
  intro h
  obtain ⟨g', hattempt⟩ := exists_accepted_of_loopEnds h
  rw [attemptBounded, StateT.run_bind] at hattempt
  obtain ⟨⟨x, g₁⟩, _, hattempt⟩ := bind_eq_ok_iff.1 hattempt
  dsimp only at hattempt
  rw [acceptWithin_of_neg hbound] at hattempt
  cases hattempt

/-- Nor is there one that gives a vector with a coefficient. -/
theorem not_gives_times_of_neg {mean : Float} {size : Nat} (hsize : 1 ≤ size) (hbound : bound < 0)
    (g : Generator) :
    ¬ Gives ((times (boundedNormal mean deviation bound) size).run g) fun _ => True := by
  intro h
  obtain ⟨rest, rfl⟩ := Nat.exists_eq_add_of_le' hsize
  rw [times, StateT.run_bind] at h
  obtain ⟨r, hfirst, _⟩ := h.of_bind
  rw [boundedNormal_eq] at hfirst
  exact not_loopEnds_of_neg hbound (loopEnds_of_untilAccepted hfirst)

end Draw

/-! ## Vectors and samplers -/

theorem of_normalVector {size : Nat} {deviation : Float} {bound : Int} {draw : Draw (List Int)}
    (h : normalVector size deviation bound = .ok draw) :
    (Binary64.ofFloat deviation).isFinite = true ∧
      draw = Draw.times (Draw.boundedNormal 0.0 deviation bound) size := by
  unfold normalVector at h
  split at h
  case isTrue hdeviation =>
    cases h
    exact ⟨Binary64.isFinite_of_isPositive hdeviation, rfl⟩
  case isFalse => cases h

theorem of_withBound {deviation : Float} {bound : Int} {s : Ring.NormalSampler}
    (h : Ring.NormalSampler.withBound deviation bound = .ok s) :
    (Binary64.ofFloat s.deviation).isFinite = true ∧ 1 ≤ s.bound := by
  unfold Ring.NormalSampler.withBound at h
  split at h
  case isTrue => cases h
  case isFalse hdeviation =>
    split at h
    case isTrue => cases h
    case isFalse hbound =>
      cases h
      exact ⟨Binary64.isFinite_of_isPositive (by simpa using hdeviation), Int.not_lt.1 hbound⟩

/-- The draw of a vector of discrete normal coefficients that is not refused can end exactly
if the bound is not negative: only then the test of acceptance takes a finite number, the
rejection loop ends for some stream of words, and some stream leads to a vector.  For a
sampler that is not refused all this holds, since its bound is positive. -/
theorem normalVector_ends_iff {size : Nat} {deviation : Float} {bound : Int}
    {draw : Draw (List Int)} (hsize : 1 ≤ size)
    (hdraw : normalVector size deviation bound = .ok draw) :
    ((∃ x, x.isFinite = true ∧ (acceptWithin bound x).isSome) ↔ 0 ≤ bound) ∧
    ((∃ g r, LoopEnds (Draw.acceptanceRound (Draw.attemptBounded 0.0 deviation bound)) g r) ↔
      0 ≤ bound) ∧
    ((∃ g, Gives (draw.run g) fun _ => True) ↔ 0 ≤ bound) ∧
    ∀ s, Ring.NormalSampler.withBound deviation bound = .ok s →
      (∃ x, x.isFinite = true ∧ (acceptWithin s.bound x).isSome) ∧
      (∃ g r, LoopEnds (Draw.acceptanceRound (Draw.attemptBounded 0.0 s.deviation s.bound)) g r) ∧
      ∀ count, ∃ g, Gives ((s.coefficients count).run g) fun _ => True := by
  obtain ⟨hdeviation, rfl⟩ := of_normalVector hdraw
  refine ⟨exists_acceptWithin_iff, ⟨?_, Draw.exists_loopEnds hdeviation⟩,
    ⟨?_, fun hbound => Draw.exists_gives_times hdeviation hbound size⟩, fun s hs => ?_⟩
  · rintro ⟨g, r, hends⟩
    by_contra hneg
    exact Draw.not_loopEnds_of_neg (by omega) hends
  · rintro ⟨g, hgives⟩
    by_contra hneg
    exact Draw.not_gives_times_of_neg hsize (by omega) g hgives
  · obtain ⟨hfinite, hbound⟩ := of_withBound hs
    have hnonneg : 0 ≤ s.bound := by omega
    exact ⟨exists_acceptWithin_iff.2 hnonneg, Draw.exists_loopEnds hfinite hnonneg,
      Draw.exists_gives_times hfinite hnonneg⟩

/-- For the deviation 3.2 and the bound 19. -/
theorem normalVector_ends_iff_small : ∃ draw, 1 ≤ 2 ∧ normalVector 2 3.2 19 = .ok draw ∧
    (∃ x, x.isFinite = true ∧ (acceptWithin 19 x).isSome) ∧
    (∃ g, Gives (draw.run g) fun _ => True) ∧
    Ring.NormalSampler.withBound 3.2 19 = .ok ⟨3.2, 19⟩ ∧
    ∃ g, Gives ((Ring.NormalSampler.coefficients ⟨3.2, 19⟩ 8).run g) fun _ => True := by
  have hpositive : (Binary64.ofFloat 3.2).isPositive = true := by decide +kernel
  have hdraw : normalVector 2 3.2 19 =
      .ok (Draw.times (Draw.boundedNormal 0.0 3.2 19) 2) := if_pos hpositive
  have hsampler : Ring.NormalSampler.withBound 3.2 19 = .ok ⟨3.2, 19⟩ := by
    rw [Ring.NormalSampler.withBound, hpositive]
    rfl
  obtain ⟨haccept, _, hgives, hsamplers⟩ := normalVector_ends_iff (by decide) hdraw
  exact ⟨_, by decide, hdraw, haccept.2 (by decide), hgives.2 (by decide), hsampler,
    (hsamplers _ hsampler).2.2 8⟩

/-- With the bound -1 a vector of one coefficient is not refused, but no number is accepted
and no stream of words leads to an answer. -/
theorem normalVector_never_ends : ∃ draw, normalVector 1 3.2 (-1) = .ok draw ∧
    (∀ x, acceptWithin (-1) x = none) ∧
    (∀ g r, ¬ LoopEnds (Draw.acceptanceRound (Draw.attemptBounded 0.0 3.2 (-1))) g r) ∧
    ∀ g, ¬ Gives (draw.run g) fun _ => True := by
  have hpositive : (Binary64.ofFloat 3.2).isPositive = true := by decide +kernel
  exact ⟨_, if_pos hpositive, acceptWithin_of_neg (by decide),
    fun _ _ => Draw.not_loopEnds_of_neg (by decide),
    Draw.not_gives_times_of_neg (by decide) (by decide)⟩

end Random
end RelinCeremony
