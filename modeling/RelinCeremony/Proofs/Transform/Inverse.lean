import RelinCeremony.Proofs.Transform.Evaluation
import RelinCeremony.Proofs.Transform.Loops

namespace RelinCeremony
namespace Transform

/-!
# The two transforms undo one another

Of the two directions, one takes coefficients to their values at the leaves and
the other takes the values back, so each undoes the other on rows of reduced
numbers.  Together with the loops in place this says that no step of either
direction ever meets or leaves a number that is not reduced.
-/

namespace Plan

variable {m : Modulus} {ψ : (ZMod m.value)ˣ} {plan : Plan} {row : List Nat}

theorem backward_of_forward (hm : m.Valid) (hplan : plan.HasRoot m ψ)
    (hrow : Modulus.IsRow m.value plan.size row) :
    Gives (plan.forward row) fun values =>
      Modulus.IsRow m.value plan.size values ∧ plan.backward values = .ok row := by
  refine (gives_forward hm hplan rfl hrow.represents).imp fun values hvalues =>
    ⟨hvalues.isRow, ?_⟩
  obtain ⟨coefficients, hbackward, hcoefficients⟩ := gives_backward hm hplan rfl hvalues
  rw [hbackward, hcoefficients.unique hrow.represents]

theorem forward_of_backward (hm : m.Valid) (hplan : plan.HasRoot m ψ)
    (hrow : Modulus.IsRow m.value plan.size row) :
    Gives (plan.backward row) fun coefficients =>
      Modulus.IsRow m.value plan.size coefficients ∧ plan.forward coefficients = .ok row := by
  obtain ⟨v, _, hunit⟩ := hplan.sizeInverse
  have hvalues := hrow.represents
  -- Any row holds the values of some coefficients.
  rw [← evaluations_interpolation hplan.size_eq hplan.pow_size hunit
    (fun t : Fin plan.size => (row.getD t 0 : ZMod m.value))] at hvalues
  refine (gives_backward hm hplan rfl hvalues).imp fun coefficients hcoefficients =>
    ⟨hcoefficients.isRow, ?_⟩
  obtain ⟨values, hforward, hvalues'⟩ := gives_forward hm hplan rfl hcoefficients
  rw [hforward, hvalues'.unique hvalues]

/-- For a plan that is built and a row of reduced numbers: backward after forward and
forward after backward give the row again.  In place, either direction is a list of
steps that leaves the same result, and after any number of its steps the row consists
of reduced numbers. -/
theorem transforms_inverse {p size : Nat} (hm : Modulus.build p = .ok (some m))
    (hplan : build m size = .ok (some plan)) (hrow : Modulus.IsRow p size row) :
    (Gives (plan.forward row) fun values =>
      Modulus.IsRow p size values ∧ plan.backward values = .ok row) ∧
    (Gives (plan.backward row) fun coefficients =>
      Modulus.IsRow p size coefficients ∧ plan.forward coefficients = .ok row) ∧
    plan.run plan.forwardSteps row = plan.forward row ∧
    plan.run plan.backwardSteps row = plan.backward row ∧
    ∀ done, done <+: plan.forwardSteps ∨ done <+: plan.backwardSteps →
      Gives (plan.run done row) (Modulus.IsRow p size) := by
  obtain ⟨hvalid, rfl⟩ := Modulus.valid_of_build hm
  obtain ⟨-, -, ⟨ψ, hroot⟩, rfl⟩ := hasRoot_of_build hvalid hplan
  refine ⟨backward_of_forward hvalid hroot hrow, forward_of_backward hvalid hroot hrow,
    run_forwardSteps hvalid hroot hrow, run_backwardSteps hvalid hroot hrow, fun done hdone => ?_⟩
  refine gives_run_isRow hvalid hroot (fun step hstep => ?_) hrow
  rcases hdone with hforward | hbackward
  · exact fits_of_mem_forwardSteps hroot (hforward.subset hstep)
  · exact fits_of_mem_backwardSteps hroot (hbackward.subset hstep)

/-- Modulo 97 and for size 8, with the first four butterflies of the forward loops done. -/
theorem transforms_inverse_small : ∃ m plan, Modulus.build 97 = .ok (some m) ∧
    build m 8 = .ok (some plan) ∧ Modulus.IsRow 97 8 [1, 2, 3, 4, 5, 6, 7, 96] ∧
      (Gives (plan.forward [1, 2, 3, 4, 5, 6, 7, 96]) fun values =>
        plan.backward values = .ok [1, 2, 3, 4, 5, 6, 7, 96]) ∧
      (Gives (plan.backward [1, 2, 3, 4, 5, 6, 7, 96]) fun coefficients =>
        plan.forward coefficients = .ok [1, 2, 3, 4, 5, 6, 7, 96]) ∧
      plan.forwardSteps.take 4 <+: plan.forwardSteps ∧
      Gives (plan.run (plan.forwardSteps.take 4) [1, 2, 3, 4, 5, 6, 7, 96])
        (Modulus.IsRow 97 8) := by
  obtain ⟨m, plan, hm, hplan⟩ : ∃ m plan, Modulus.build 97 = .ok (some m) ∧
      build m 8 = .ok (some plan) := exists_build (by decide +kernel)
  have hrow : Modulus.IsRow 97 8 [1, 2, 3, 4, 5, 6, 7, 96] := by decide
  obtain ⟨hforward, hbackward, _, _, hdone⟩ := transforms_inverse hm hplan hrow
  have hfour := List.take_prefix 4 plan.forwardSteps
  exact ⟨m, plan, hm, hplan, hrow, hforward.imp fun _ h => h.2, hbackward.imp fun _ h => h.2,
    hfour, hdone _ (.inl hfour)⟩

end Plan
end Transform
end RelinCeremony
