import RelinCeremony.Proofs.Protocol.Ceremony

namespace RelinCeremony
namespace Protocol

/-!
# The key identity

The key of a run encrypts the square of the sum of the secrets.  With the sums `s`, `u` of
the keys and `e`, `e1`, `e2`, `e3` of the noise of the slot `(i, w)`, its components out
of Montgomery form are `k1 = s * a + e2` and `k0` with

  `k0 + s * k1 = g * s ^ 2 + s * e + e1 + u * e2 + e3`,

where the gadget `g` is `2 ^ (w * b)` in channel `i` and zero in the others.
-/

open RelinCeremony.Ring (Element NegacyclicRing NoiseSource)

/-- The pair of an element and its partner out of Montgomery form. -/
def plainPair (ring : NegacyclicRing) (slot : Element × Element) : Checked (Element × Element) := do
  return (← ring.ofMontgomery slot.1, ← ring.ofMontgomery slot.2)

theorem gives_plainPair {ring : NegacyclicRing} (hring : ring.ValidModuli)
    {slot : Element × Element} {x y : ring.Values} (hfirst : ring.Represents slot.1 (x * 2 ^ 64))
    (hsecond : ring.Represents slot.2 (y * 2 ^ 64)) :
    Gives (plainPair ring slot) fun k => ring.Represents k.1 x ∧ ring.Represents k.2 y := by
  refine (NegacyclicRing.gives_ofMontgomery_radix hring hfirst).bind fun k₀ hk₀ => ?_
  exact (NegacyclicRing.gives_ofMontgomery_radix hring hsecond).bind
    fun k₁ hk₁ => ⟨_, rfl, hk₀, hk₁⟩

/-- The slots of the key of a run, out of Montgomery form. -/
theorem Transcript.HasValues.gives_slot {e : Engine} (he : e.Valid) {a : CommonMatrix}
    {c : Nat → Nat → Contribution e.ring.Values} {t : Transcript} (ht : t.HasValues e a c)
    {i w : Nat} (hi : i < e.ring.channels.length) (hw : w < e.levels) :
    Gives (t.key.read i w) fun slot => Gives (plainPair e.ring slot) fun k =>
      e.ring.Represents k.1 ((c i w).key (e.ring.gadget i (w * e.digitBits))
        (e.ring.values (a.slot i w))).1 ∧
      e.ring.Represents k.2 ((c i w).key (e.ring.gadget i (w * e.digitBits))
        (e.ring.values (a.slot i w))).2 :=
  (ht.key.gives_read hi hw).imp fun _ hslot =>
    gives_plainPair he.ring.validModuli hslot.1 hslot.2

/-- Every run gives a key, and in every slot of it, channel by channel and column by
column, the second component hides the sum of the secrets and the phase is the square
of that sum times the gadget, up to the noise. -/
theorem key_identity {moduli : List Nat} {degree digitBits : Nat} {ring : NegacyclicRing}
    {source : NoiseSource} {e : Engine}
    (hring : NegacyclicRing.build moduli degree = .ok ring)
    (hengine : Engine.build ring source digitBits = .ok e) {a : CommonMatrix}
    {parties : List Party} {noises : List PartyNoise} {out : RelinearizationKey}
    (hrun : IsRun e a parties noises out) :
    Gives (e.ceremony a parties out) fun t =>
      ∀ i < ring.channels.length, ∀ w < e.levels,
        Gives (t.key.read i w) fun slot => Gives (plainPair ring slot) fun k =>
          let sum := sums ring parties noises i w
          ring.values k.2 = sum.secret * ring.values (a.slot i w) + sum.twoSecond ∧
            ring.values k.1 + sum.secret * ring.values k.2 =
              ring.gadget i (w * digitBits) * sum.secret ^ 2 + sum.secret * sum.one +
                sum.twoFirst + sum.ephemeral * sum.twoSecond + sum.three := by
  obtain ⟨he, rfl, rfl⟩ := Engine.valid_of_build (NegacyclicRing.valid_of_build hring).1 hengine
  refine (gives_ceremony he hrun).imp fun t ht i hi w hw => ?_
  refine (ht.gives_slot he hi hw).imp fun slot hslot => hslot.imp fun k hk => ?_
  rw [hk.1.values_eq, hk.2.values_eq]
  refine ⟨Contribution.key_snd _ _ _, ?_⟩
  rw [Contribution.key_phase, Contribution.keyNoise]
  ring

theorem key_identity_small :
    IsRun smallEngine smallMatrix smallParties smallNoises smallOut ∧
      Gives (smallEngine.ceremony smallMatrix smallParties smallOut) fun t =>
        ∀ i < smallRing.channels.length, ∀ w < 2,
          Gives (t.key.read i w) fun slot => Gives (plainPair smallRing slot) fun k =>
            let sum := sums smallRing smallParties smallNoises i w
            smallRing.values k.2 =
                sum.secret * smallRing.values (smallMatrix.slot i w) + sum.twoSecond ∧
              smallRing.values k.1 + sum.secret * smallRing.values k.2 =
                smallRing.gadget i (w * 30) * sum.secret ^ 2 + sum.secret * sum.one +
                  sum.twoFirst + sum.ephemeral * sum.twoSecond + sum.three :=
  ⟨isRun_small, key_identity build_smallRing build_smallEngine isRun_small⟩

end Protocol
end RelinCeremony
