import RelinCeremony.Proofs.Ring.Construction
import RelinCeremony.Proofs.Transform.Apply

namespace RelinCeremony
namespace Ring
namespace NegacyclicRing
namespace Valid

/-!
# The transforms of a ring

In every channel of a valid ring the forward transform takes coefficients to values at
fixed points, and the backward transform takes them back.  The points are roots of
`x ^ degree + 1`.
-/

variable {ring : NegacyclicRing}

/-- A root that the transform of a channel belongs to. -/
noncomputable def root (hring : ring.Valid) (j : Fin ring.channels.length) :
    (ZMod (ring.channel j).modulus.value)ˣ :=
  (hring.channel j).hasRoot.choose

theorem hasRoot (hring : ring.Valid) (j : Fin ring.channels.length) :
    (ring.channel j).transform.HasRoot (ring.channel j).modulus (hring.root j) :=
  (hring.channel j).hasRoot.choose_spec

theorem degree_eq_two_pow (hring : ring.Valid) (j : Fin ring.channels.length) :
    ring.degree = 2 ^ (ring.channel j).transform.depth := by
  rw [← (hring.hasRoot j).size_eq, (hring.channel j).size_eq]

theorem root_pow (hring : ring.Valid) (j : Fin ring.channels.length) :
    hring.root j ^ ring.degree = -1 := by
  rw [← (hring.channel j).size_eq]
  exact (hring.hasRoot j).pow_size

/-- The point that column `t` of channel `j` belongs to after the forward transform. -/
noncomputable def point (hring : ring.Valid) : ring.Values :=
  fun j t => Transform.leaf (hring.root j) (ring.channel j).transform.depth t

theorem point_pow (hring : ring.Valid) : hring.point ^ ring.degree = -1 := by
  funext j t
  have hpow := hring.root_pow j
  have ht := Nat.lt_of_lt_of_eq t.isLt (hring.degree_eq_two_pow j)
  rw [hring.degree_eq_two_pow j] at hpow
  have hleaf := Transform.leaf_pow hpow ht
  rw [← hring.degree_eq_two_pow j] at hleaf
  exact hleaf

noncomputable def evaluations (hring : ring.Valid) (v : ring.Values) : ring.Values :=
  fun j => Transform.evaluations (hring.root j) (ring.channel j).transform.depth (v j)

theorem evaluations_apply (hring : ring.Valid) (v : ring.Values) (j : Fin ring.channels.length)
    (t : Fin ring.degree) :
    hring.evaluations v j t = Transform.evaluate (hring.point j t) (v j) := rfl

theorem exists_inverse_degree (hring : ring.Valid) (j : Fin ring.channels.length) :
    ∃ c : ZMod (ring.channel j).modulus.value, c * ring.degree = 1 := by
  obtain ⟨c, _, hunit⟩ := (hring.hasRoot j).sizeInverse
  rw [(hring.channel j).size_eq] at hunit
  exact ⟨c, hunit⟩

theorem evaluations_injective (hring : ring.Valid) :
    Function.Injective hring.evaluations := by
  intro v w h
  funext j
  obtain ⟨c, hunit⟩ := hring.exists_inverse_degree j
  have hinverse := Transform.interpolation_evaluations (hring.degree_eq_two_pow j)
    (hring.root_pow j) hunit
  have hj : Transform.evaluations (hring.root j) (ring.channel j).transform.depth (v j) =
      Transform.evaluations (hring.root j) (ring.channel j).transform.depth (w j) := congrFun h j
  rw [← hinverse (v j), hj, hinverse]

theorem evaluations_surjective (hring : ring.Valid) :
    Function.Surjective hring.evaluations := by
  intro x
  choose c hunit using hring.exists_inverse_degree
  refine ⟨fun j => Transform.interpolation (hring.root j) (ring.channel j).transform.depth (c j)
    (x j), ?_⟩
  funext j
  exact Transform.evaluations_interpolation (hring.degree_eq_two_pow j) (hring.root_pow j)
    (hunit j) (x j)

variable {a : Element} {v x : ring.Values}

theorem gives_forward (hring : ring.Valid) (ha : ring.Represents a v) :
    Gives (ring.forward a) fun c => ring.Represents c (hring.evaluations v) :=
  gives_convertRows ha fun j _ hrow =>
    Transform.Plan.gives_forward (hring.validModuli j) (hring.hasRoot j) (hring.channel j).size_eq
      hrow

theorem gives_backward (hring : ring.Valid) (ha : ring.Represents a (hring.evaluations v)) :
    Gives (ring.backward a) fun c => ring.Represents c v :=
  gives_convertRows ha fun j _ hrow =>
    Transform.Plan.gives_backward (hring.validModuli j) (hring.hasRoot j) (hring.channel j).size_eq
      hrow

end Valid
end NegacyclicRing
end Ring
end RelinCeremony
