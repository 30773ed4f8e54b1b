import RelinCeremony.Proofs.Gives
import RelinCeremony.Random.Vector

namespace RelinCeremony
namespace Random

/-!
# Draws whatever the generator gives

A draw is described for all generators at once.  A rejection loop ends with what an attempt
accepts, and the only thing that can go wrong in it is that all attempts are used up.  So
normal numbers are drawn without any other fault.
-/

namespace Draw

variable {α β : Type} {allowed : Fault → Prop}

/-- Whatever the generator, the draw gives a value with the property or an allowed fault. -/
def Yields (allowed : Fault → Prop) (draw : Draw α) (P : α → Prop) : Prop :=
  ∀ g, GivesUnless allowed (draw.run g) fun r => P r.1

namespace Yields

variable {draw : Draw α} {P : α → Prop}

theorem imp {Q : α → Prop} (h : Yields allowed draw P) (hpq : ∀ a, P a → Q a) :
    Yields allowed draw Q :=
  fun g => (h g).imp fun r hr => hpq r.1 hr

theorem bind {Q : β → Prop} {next : α → Draw β} (h : Yields allowed draw P)
    (hnext : ∀ a, P a → Yields allowed (next a) Q) : Yields allowed (draw >>= next) Q := by
  intro g
  rw [StateT.run_bind]
  exact (h g).bind fun r hr => hnext r.1 hr r.2

theorem pure {a : α} (h : P a) : Yields allowed (Pure.pure a) P := fun _ => h

/-- A computation that draws nothing. -/
theorem lift {x : Checked α} (h : GivesUnless allowed x P) : Yields allowed (liftM x) P := by
  intro g
  cases x with
  | ok a => exact h
  | error fault => exact h

end Yields

theorem yields_times {draw : Draw α} {P : α → Prop} (h : Yields allowed draw P) (n : Nat) :
    Yields allowed (times draw n) fun xs => xs.length = n ∧ ∀ x ∈ xs, P x := by
  induction n with
  | zero => exact Yields.pure ⟨rfl, by simp⟩
  | succ n ih =>
      rw [times]
      refine h.bind fun x hx => ih.bind fun xs hxs => Yields.pure ⟨by simp [hxs.1], ?_⟩
      intro y hy
      rcases List.mem_cons.1 hy with rfl | hy
      · exact hx
      · exact hxs.2 y hy

/-- Draws that give a value give a list of them. -/
theorem gives_times {draw : Draw α} (P : α → Prop)
    (h : ∀ g, Gives (draw.run g) fun r => P r.1) (n : Nat) (g : Generator) :
    Gives ((times draw n).run g) fun r => r.1.length = n ∧ ∀ x ∈ r.1, P x :=
  (yields_times (fun g => .of_gives (h g)) n g).gives

/-! ## Floats from words -/

theorem yields_word : Yields allowed word fun _ => True := fun _ => trivial

theorem yields_unit : Yields allowed unit fun _ => True :=
  yields_word.bind fun _ _ => Yields.pure trivial

theorem yields_openUnit : Yields allowed openUnit fun _ => True :=
  yields_word.bind fun _ _ => Yields.pure trivial

theorem yields_attemptTail : Yields allowed attemptTail fun _ => True :=
  yields_openUnit.bind fun _ _ => yields_openUnit.bind fun _ _ => Yields.pure trivial

/-! ## Ternary coefficients -/

theorem yields_word64 : Yields allowed word64 fun _ => True :=
  yields_word.bind fun _ _ => Yields.pure trivial

theorem yields_coin : Yields allowed coin fun _ => True := fun _ => trivial

theorem yields_event (threshold : Nat) : Yields allowed (event threshold) fun _ => True := by
  unfold event
  split
  · exact Yields.pure trivial
  · exact yields_word64.bind fun _ _ => Yields.pure trivial

theorem yields_ternary (threshold : Nat) :
    Yields allowed (ternary threshold) fun x => x = -1 ∨ x = 0 ∨ x = 1 := by
  refine (yields_event threshold).bind fun occurs _ => ?_
  split
  · refine yields_coin.bind fun positive _ => Yields.pure ?_
    cases positive
    · exact .inl rfl
    · exact .inr (.inr rfl)
  · exact Yields.pure (.inr (.inl rfl))

/-! ## Rejection loops -/

/-- A loop accepts what one of its attempts accepts. -/
theorem yields_firstAccepted {draw : Draw (Option α)} {P : α → Prop}
    (h : Yields allowed draw fun r => ∀ a, r = some a → P a) (n : Nat) :
    Yields allowed (firstAccepted draw n) fun r => ∀ a, r = some a → P a := by
  induction n with
  | zero =>
      refine Yields.pure ?_
      intro a ha
      cases ha
  | succ n ih =>
      rw [firstAccepted]
      refine h.bind fun r hr => ?_
      cases r with
      | some a => exact Yields.pure hr
      | none => exact ih

variable (hallowed : allowed .endlessRejection)
include hallowed

theorem yields_untilAccepted {draw : Draw (Option α)} {P : α → Prop}
    (h : Yields allowed draw fun r => ∀ a, r = some a → P a) :
    Yields allowed (untilAccepted draw) P := by
  unfold untilAccepted
  refine (yields_firstAccepted h attempts).bind fun r hr => ?_
  cases r with
  | some a => exact Yields.pure (hr a rfl)
  | none => exact fun _ => hallowed

/-- A loop over attempts of which nothing is asked. -/
theorem yields_untilAccepted_true {draw : Draw (Option α)} (h : Yields allowed draw fun _ => True) :
    Yields allowed (untilAccepted draw) fun _ => True :=
  yields_untilAccepted hallowed (h.imp fun _ _ _ _ => trivial)

/-! ## Normal numbers -/

theorem yields_tail (negative : Bool) : Yields allowed (tail negative) fun _ => True :=
  (yields_untilAccepted_true hallowed yields_attemptTail).bind fun _ _ => Yields.pure trivial

theorem yields_attemptStandard : Yields allowed attemptStandard fun _ => True := by
  unfold attemptStandard
  refine yields_word.bind fun word _ => ?_
  dsimp only
  split
  · exact Yields.pure trivial
  · split
    · exact (yields_tail hallowed _).bind fun _ _ => Yields.pure trivial
    · exact yields_unit.bind fun _ _ => Yields.pure trivial

theorem yields_normal (mean deviation : Float) :
    Yields allowed (normal mean deviation) fun _ => True :=
  (yields_untilAccepted_true hallowed (yields_attemptStandard hallowed)).bind
    fun _ _ => Yields.pure trivial

theorem yields_boundedNormal (mean deviation : Float) (bound : Int) :
    Yields allowed (boundedNormal mean deviation bound) fun _ => True := by
  unfold boundedNormal
  refine yields_untilAccepted_true hallowed ?_
  exact (yields_normal hallowed mean deviation).bind fun _ _ => Yields.pure trivial

end Draw
end Random
end RelinCeremony
