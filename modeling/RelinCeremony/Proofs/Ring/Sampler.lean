import RelinCeremony.Proofs.Random.Rejection
import RelinCeremony.Proofs.Ring.Residues
import RelinCeremony.Proofs.Ring.Transform
import RelinCeremony.Ring.Sampler

namespace RelinCeremony
namespace Ring

/-!
# Keys and noise from integers

Keys and noise come from integer coefficients: noise by the forward transform, keys by
the Montgomery form on top of it.  A source is bounded in a ring if the noise that it writes
comes from coefficients within a bound; the uniform noise for tests is.

Less is asked of a source that writes reduced elements.  The one with normal noise does, as long
as its rejection loops end.
-/

namespace NegacyclicRing

variable {ring : NegacyclicRing} {coefficients : List Int}

theorem gives_transformOf (hring : ring.Valid) (hlength : coefficients.length = ring.degree) :
    Gives (ring.transformOf coefficients) fun a =>
      ring.Represents a (hring.evaluations (ring.classes coefficients)) :=
  (gives_ofInts hring.validModuli hlength).bind fun _ ha => (hring.gives_forward ha).lift

theorem gives_keyOf (hring : ring.Valid) (hlength : coefficients.length = ring.degree) :
    Gives (ring.keyOf coefficients) fun a =>
      ring.Represents a (hring.evaluations (ring.classes coefficients) * 2 ^ 64) :=
  (gives_transformOf hring hlength).bind fun _ ha => (gives_toMontgomery hring.validModuli ha).lift

end NegacyclicRing

/-! ## Bounded sources -/

/-- The element is noise with coefficients of absolute value at most `bound`. -/
def NegacyclicRing.IsNoise (ring : NegacyclicRing) (bound : Nat) (a : Element) : Prop :=
  ∃ coefficients, coefficients.length = ring.degree ∧ (∀ c ∈ coefficients, |c| ≤ (bound : Int)) ∧
    ring.transformOf coefficients = .ok a

theorem NegacyclicRing.IsNoise.reduced {ring : NegacyclicRing} {bound : Nat} {a : Element}
    (hring : ring.Valid) (h : ring.IsNoise bound a) : ring.Reduced a := by
  obtain ⟨coefficients, hlength, _, ha⟩ := h
  exact ((gives_transformOf hring hlength).value_unique ha).reduced

/-- What the source writes over an element of the ring is noise within the bound. -/
def NoiseSource.IsBounded (source : NoiseSource) (ring : NegacyclicRing) (bound : Nat) : Prop :=
  ∀ old g, ring.Fits old →
    Gives ((source.noise ring old).run g) fun r => ring.IsNoise bound r.1

/-! ## Reduced noise -/

/-- Over a reduced element the source writes a reduced one, or fails as allowed. -/
def NoiseSource.WritesReduced (allowed : Fault → Prop) (source : NoiseSource)
    (ring : NegacyclicRing) : Prop :=
  ∀ old, ring.Reduced old → Random.Draw.Yields allowed (source.noise ring old) ring.Reduced

/-- The only fault of the normal noise is a rejection loop that does not end. -/
theorem NormalSampler.yields_noise {allowed : Fault → Prop} (hallowed : allowed .endlessRejection)
    (s : NormalSampler) {ring : NegacyclicRing} (hring : ring.Valid) {old : Element}
    (hold : ring.Fits old) : Random.Draw.Yields allowed (s.noise ring old) ring.Reduced := by
  have hdraws := Random.Draw.yields_times
    (Random.Draw.yields_boundedNormal hallowed 0.0 s.deviation s.bound) ring.degree
  refine hdraws.bind fun coefficients hcoefficients => ?_
  have hwrite := NegacyclicRing.gives_writeInts hring.validModuli hcoefficients.1 hold
  refine (Random.Draw.Yields.lift (.of_gives hwrite)).bind fun a ha => ?_
  exact Random.Draw.Yields.lift (.of_gives ((hring.gives_forward ha).imp fun _ hb => hb.reduced))

theorem NormalSampler.writesReduced {allowed : Fault → Prop} (hallowed : allowed .endlessRejection)
    (s : NormalSampler) {ring : NegacyclicRing} (hring : ring.Valid) :
    s.source.WritesReduced allowed ring :=
  fun _ hold => s.yields_noise hallowed hring hold.1

/-! ## Noise that depends on the generator only -/

/-- Over elements of the dimensions of the ring the source draws the same noise, whatever they
hold, and the noise has these dimensions too. -/
structure NoiseSource.Overwrites (source : NoiseSource) (ring : NegacyclicRing) : Prop where
  run_eq : ∀ old old' g, ring.Fits old → ring.Fits old' →
    (source.noise ring old).run g = (source.noise ring old').run g
  fits : ∀ old g r, ring.Fits old → (source.noise ring old).run g = .ok r → ring.Fits r.1

/-- Integers are written over any element of the dimensions of the ring alike. -/
theorem NegacyclicRing.writeInts_eq {ring : NegacyclicRing} (hring : ring.ValidModuli)
    {coefficients : List Int} (hlength : coefficients.length = ring.degree) {out out' : Element}
    (hout : ring.Fits out) (hout' : ring.Fits out') :
    ring.writeInts coefficients out = ring.writeInts coefficients out' :=
  eq_of_gives_represents (gives_writeInts hring hlength hout) (gives_writeInts hring hlength hout')

/-- The normal noise depends on the generator only. -/
theorem NormalSampler.overwrites (s : NormalSampler) {ring : NegacyclicRing} (hring : ring.Valid) :
    s.source.Overwrites ring := by
  have hnormal : Random.Draw.Yields (fun _ => True)
      (Random.Draw.boundedNormal 0.0 s.deviation s.bound) fun _ => True :=
    Random.Draw.yields_boundedNormal trivial 0.0 s.deviation s.bound
  have hdraws := Random.Draw.yields_times hnormal ring.degree
  constructor
  · intro old old' g hold hold'
    show (s.noise ring old).run g = (s.noise ring old').run g
    have hrun := hdraws g
    unfold noise
    rw [StateT.run_bind, StateT.run_bind]
    cases hcase : (Random.Draw.times
        (Random.Draw.boundedNormal 0.0 s.deviation s.bound) ring.degree).run g with
    | error fault => rfl
    | ok r =>
        rw [hcase] at hrun
        simp only [ok_bind]
        rw [NegacyclicRing.writeInts_eq hring.validModuli hrun.1 hold hold']
  · intro old g r hold h
    have hnoise : Random.Draw.Yields (fun _ => True) (s.noise ring old) ring.Reduced :=
      s.yields_noise trivial hring hold
    have hrun := hnoise g
    rw [show (s.noise ring old).run g = .ok r from h] at hrun
    exact And.left hrun

/-! ## Uniform noise -/

namespace BoundedNoise

theorem gives_coefficient (s : BoundedNoise) (g : Random.Generator) :
    Gives (s.coefficient.run g) fun r => |r.1| ≤ (s.bound : Int) := by
  refine ⟨_, rfl, ?_⟩
  have hlt := Nat.mod_lt g.next64.1.toNat (show 0 < 2 * s.bound + 1 by omega)
  show |((g.next64.1.toNat % (2 * s.bound + 1) : Nat) : Int) - (s.bound : Int)| ≤ (s.bound : Int)
  rw [abs_le]
  omega

theorem isBounded_source (s : BoundedNoise) {ring : NegacyclicRing} (hring : ring.Valid) :
    s.source.IsBounded ring s.bound := by
  intro old g _
  show Gives ((s.noise ring old).run g) _
  unfold noise
  rw [StateT.run_bind]
  refine (Random.Draw.gives_times (fun c => |c| ≤ (s.bound : Int)) (gives_coefficient s)
    ring.degree g).bind fun r hr => ?_
  obtain ⟨a, hwrite, ha⟩ := NegacyclicRing.gives_writeInts hring.validModuli hr.1 ring.fits_zero
  obtain ⟨b, hforward, _⟩ := hring.gives_forward ha
  refine ⟨(b, r.2), ?_, r.1, hr.1, hr.2, ?_⟩
  · simp only [StateT.run_bind, hwrite, run_lift_ok, ok_bind, hforward]
  · rw [NegacyclicRing.transformOf, NegacyclicRing.ofInts, if_pos hr.1, hwrite]
    show (liftM (ring.forward a) : RingResult Element) = .ok b
    rw [hforward, lift_ok]

/-- The noise for tests does not look at what it replaces. -/
theorem overwrites (s : BoundedNoise) {ring : NegacyclicRing} (hring : ring.Valid) :
    s.source.Overwrites ring where
  run_eq _ _ _ _ _ := rfl
  fits old g _ hold h :=
    ((s.isBounded_source hring old g hold).imp fun _ ha => ha.reduced hring).value_unique h |>.1

end BoundedNoise
end Ring
end RelinCeremony
