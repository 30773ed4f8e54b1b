import RelinCeremony.Proofs.Protocol.KeyIdentity
import RelinCeremony.Proofs.Ring.Negacyclic

namespace RelinCeremony
namespace Protocol

/-!
# Growth of the noise

With ternary keys and bounded noise the noise of the key is small: it comes from one integer
polynomial, the same in all channels, whose coefficients are within a bound that is
quadratic in the number of parties.

What is left of the phase is said on the values of the key, with the gadget as a family of
values, and so are the assumptions on keys and noise.
-/

open RelinCeremony.Ring (Element NegacyclicRing NoiseSource)

/-- What is left of the phase `k0 + s * k1` without the square of the secret `s`, which is shifted
by `bits` in channel `i` and is zero in the others. -/
def residual (ring : NegacyclicRing) (s : ring.Values) (i bits : Nat) (k : Element × Element) :
    ring.Values :=
  ring.values k.1 + s * ring.values k.2 - ring.gadget i bits * s ^ 2

/-! ## Bounded keys and noise -/

/-- Out of Montgomery form the key has the values of an integer polynomial with coefficients
-1, 0 and 1. -/
def IsTernaryKey (ring : NegacyclicRing) (a : Element) : Prop :=
  ∃ (hring : ring.Valid) (v : Fin ring.degree → Int),
    (∀ t, v t = -1 ∨ v t = 0 ∨ v t = 1) ∧ hring.integerValues v = plain ring a

/-- The noise has the values of an integer polynomial with coefficients of absolute value at most
`bound`. -/
def IsShortNoise (ring : NegacyclicRing) (bound : Nat) (a : Element) : Prop :=
  ∃ hring : ring.Valid, hring.IsShort bound (ring.values a)

section Bounds

variable {ring : NegacyclicRing} {bound : Nat}

/-- Keys that are lifted from ternary coefficients are ternary. -/
theorem isTernaryKey_of_keyOf (hring : ring.Valid) {coefficients : List Int} {a : Element}
    (hlength : coefficients.length = ring.degree)
    (hternary : ∀ c ∈ coefficients, c = -1 ∨ c = 0 ∨ c = 1)
    (hkey : ring.keyOf coefficients = .ok a) : IsTernaryKey ring a := by
  refine ⟨hring, fun t => coefficients.getD t 0, fun t => ?_, ?_⟩
  · exact hternary _ (NegacyclicRing.getD_mem hlength t)
  · rw [plain_of_keyOf hring hlength hkey]
    rfl

/-- Noise that is lifted from coefficients within the bound is short. -/
theorem isShortNoise_of_isNoise (hring : ring.Valid) {a : Element} (h : ring.IsNoise bound a) :
    IsShortNoise ring bound a := by
  obtain ⟨coefficients, hlength, hbound, ha⟩ := h
  have hrepresents := (NegacyclicRing.gives_transformOf hring hlength).value_unique ha
  refine ⟨hring, ?_⟩
  rw [hrepresents.values_eq]
  exact hring.isShort_classes hlength hbound

theorem IsTernaryKey.isShort (hring : ring.Valid) {a : Element} (h : IsTernaryKey ring a) :
    hring.IsShort 1 (plain ring a) := by
  obtain ⟨_, v, hternary, hvalues⟩ := h
  refine ⟨v, fun t => ?_, hvalues⟩
  rcases hternary t with ht | ht | ht <;> rw [ht] <;> decide

theorem IsShortNoise.isShort (hring : ring.Valid) {a : Element} (h : IsShortNoise ring bound a) :
    hring.IsShort bound (ring.values a) := by
  obtain ⟨_, hshort⟩ := h
  exact hshort

theorem isShort_keyNoise (hring : ring.Valid) {shape : Shape} {parties : List Party}
    {noises : List PartyNoise} (hcount : noises.length = parties.length)
    (hternary : ∀ p ∈ parties, IsTernaryKey ring p.secret ∧ IsTernaryKey ring p.ephemeral)
    (hbounded : ∀ noise ∈ noises, noise.Fills shape (IsShortNoise ring bound)) {i w : Nat}
    (hi : i < shape.moduli) (hw : w < shape.levels) :
    hring.IsShort (2 * ring.degree * parties.length ^ 2 * bound + 2 * parties.length * bound)
      (sums ring parties noises i w).keyNoise := by
  have hsecret : hring.IsShort (parties.length * 1) (sums ring parties noises i w).secret :=
    .sum_map fun p hp => (hternary p hp).1.isShort hring
  have hephemeral : hring.IsShort (parties.length * 1) (sums ring parties noises i w).ephemeral :=
    .sum_map fun p hp => (hternary p hp).2.isShort hring
  have hone : hring.IsShort (noises.length * bound) (sums ring parties noises i w).one :=
    .sum_map fun noise hnoise =>
      ((hbounded noise hnoise).one.fillsAt.slot hi hw).1.isShort hring
  have htwoFirst : hring.IsShort (noises.length * bound) (sums ring parties noises i w).twoFirst :=
    .sum_map fun noise hnoise =>
      ((hbounded noise hnoise).two.fillsAt.slot hi hw).1.1.isShort hring
  have htwoSecond : hring.IsShort (noises.length * bound)
      (sums ring parties noises i w).twoSecond :=
    .sum_map fun noise hnoise =>
      ((hbounded noise hnoise).two.fillsAt.slot hi hw).1.2.isShort hring
  have hthree : hring.IsShort (noises.length * bound) (sums ring parties noises i w).three :=
    .sum_map fun noise hnoise =>
      ((hbounded noise hnoise).three.fillsAt.slot hi hw).1.isShort hring
  -- The bound is put together as the noise is: two products and two single sums.
  have hnoise := (((hsecret.mul hone).add htwoFirst).add (hephemeral.mul htwoSecond)).add hthree
  have hbound : ring.degree * (parties.length * 1) * (noises.length * bound) +
      noises.length * bound + ring.degree * (parties.length * 1) * (noises.length * bound) +
        noises.length * bound =
      2 * ring.degree * parties.length ^ 2 * bound + 2 * parties.length * bound := by
    rw [hcount]
    ring
  rw [← hbound]
  exact hnoise

end Bounds

/-! ## The bound -/

/-- In every run with ternary keys and noise within `bound`, the residual of every slot of the
key is the transform of one integer polynomial, which the way back gives in every channel, with
coefficients of absolute value at most `2 * n * P ^ 2 * bound + 2 * P * bound` for degree `n` and
`P` parties. -/
theorem residual_bounded {moduli : List Nat} {degree digitBits : Nat} {ring : NegacyclicRing}
    {source : NoiseSource} {e : Engine}
    (hring : NegacyclicRing.build moduli degree = .ok ring)
    (hengine : Engine.build ring source digitBits = .ok e) {a : CommonMatrix}
    {parties : List Party} {noises : List PartyNoise} {out : RelinearizationKey}
    (hrun : IsRun e a parties noises out) {bound : Nat}
    (hternary : ∀ p ∈ parties, IsTernaryKey ring p.secret ∧ IsTernaryKey ring p.ephemeral)
    (hbounded : ∀ noise ∈ noises, noise.Fills e.shape (IsShortNoise ring bound)) :
    Gives (e.ceremony a parties out) fun t =>
      ∀ i < ring.channels.length, ∀ w < e.levels,
        ∃ r : List Int, r.length = degree ∧
          (∀ c ∈ r, |c| ≤ ((2 * degree * parties.length ^ 2 * bound +
            2 * parties.length * bound : Nat) : Int)) ∧
          Gives (t.key.read i w) fun slot => Gives (plainPair ring slot) fun k =>
            Gives (ring.transformOf r) fun d =>
              ring.Represents d (residual ring (parties.map fun p => plain ring p.secret).sum i
                (w * digitBits) k) ∧
              Gives (ring.backward d) fun b => ring.Represents b (ring.classes r) := by
  obtain ⟨hvalid, rfl, _⟩ := NegacyclicRing.valid_of_build hring
  obtain ⟨he, rfl, rfl⟩ := Engine.valid_of_build hvalid hengine
  obtain ⟨t, ht, hvalues⟩ := gives_ceremony he hrun
  refine ⟨t, ht, ?_⟩
  intro i hi w hw
  have hcount : noises.length = parties.length := (mapM_eq_ok_iff.1 hrun.noise_eq).length_eq.symm
  have hshort := isShort_keyNoise he.ring hcount hternary hbounded (i := i) (w := w) hi hw
  -- The integer polynomial is chosen before the slot is read, once for all channels.
  obtain ⟨r, hlength, hr, hnoise⟩ := he.ring.exists_classes_of_isShort hshort
  obtain ⟨slot, hslot, k, hk, hfirst, hsecond⟩ := hvalues.gives_slot he hi hw
  obtain ⟨d, hd, hdvalues⟩ := NegacyclicRing.gives_transformOf he.ring hlength
  obtain ⟨b, hb, hclasses⟩ := he.ring.gives_backward hdvalues
  have hphase := (sums e.ring parties noises i w).key_phase
    (e.ring.gadget i (w * e.digitBits)) (e.ring.values (a.slot i w))
  have hresidual : residual e.ring (sums e.ring parties noises i w).secret i (w * e.digitBits) k =
      (sums e.ring parties noises i w).keyNoise := by
    rw [residual, hfirst.values_eq, hsecond.values_eq, hphase, add_sub_cancel_left]
  rw [← hnoise, ← hresidual] at hdvalues
  exact ⟨r, hlength, hr, slot, hslot, k, hk, d, hd, hdvalues, b, hb, hclasses⟩

theorem isTernaryKey_smallKey {coefficients : List Int} (hlength : coefficients.length = 8)
    (hternary : ∀ c ∈ coefficients, c = -1 ∨ c = 0 ∨ c = 1) :
    IsTernaryKey smallRing (smallKey coefficients) := by
  obtain ⟨hvalid, hdegree, _⟩ := NegacyclicRing.valid_of_build build_smallRing
  exact isTernaryKey_of_keyOf hvalid (hlength.trans hdegree.symm) hternary (keyOf_smallKey hlength)

theorem smallParty_ternary {secret ephemeral : Element} (hsecret : IsTernaryKey smallRing secret)
    (hephemeral : IsTernaryKey smallRing ephemeral) (source : NoiseSource) (word : UInt64) :
    IsTernaryKey smallRing (smallParty secret ephemeral source word).secret ∧
      IsTernaryKey smallRing (smallParty secret ephemeral source word).ephemeral :=
  ⟨hsecret, hephemeral⟩

theorem smallParties_ternary : ∀ p ∈ smallParties,
    IsTernaryKey smallRing p.secret ∧ IsTernaryKey smallRing p.ephemeral := by
  intro p hp
  simp only [smallParties, List.mem_cons, List.not_mem_nil, or_false] at hp
  rcases hp with rfl | rfl
  · exact smallParty_ternary (isTernaryKey_smallKey rfl (by decide))
      (isTernaryKey_smallKey rfl (by decide)) _ _
  · exact smallParty_ternary (isTernaryKey_smallKey rfl (by decide))
      (isTernaryKey_smallKey rfl (by decide)) _ _

theorem smallNoises_short :
    ∀ noise ∈ smallNoises, noise.Fills smallEngine.shape (IsShortNoise smallRing 2) :=
  fun noise hnoise => (noise_small.2 noise hnoise).imp fun _ hx =>
    isShortNoise_of_isNoise smallEngine_valid.ring hx

/-- The small run has noise within 2, and residuals within 136. -/
theorem residual_bounded_small :
    IsRun smallEngine smallMatrix smallParties smallNoises smallOut ∧
      (∀ p ∈ smallParties, IsTernaryKey smallRing p.secret ∧ IsTernaryKey smallRing p.ephemeral) ∧
      (∀ noise ∈ smallNoises, noise.Fills smallEngine.shape (IsShortNoise smallRing 2)) ∧
      Gives (smallEngine.ceremony smallMatrix smallParties smallOut) fun t =>
        ∀ i < smallRing.channels.length, ∀ w < 2,
          ∃ r : List Int, r.length = 8 ∧ (∀ c ∈ r, |c| ≤ 136) ∧
            Gives (t.key.read i w) fun slot => Gives (plainPair smallRing slot) fun k =>
              Gives (smallRing.transformOf r) fun d =>
                smallRing.Represents d (residual smallRing
                  (smallParties.map fun p => plain smallRing p.secret).sum i (w * 30) k) ∧
                Gives (smallRing.backward d) fun b =>
                  smallRing.Represents b (smallRing.classes r) :=
  ⟨isRun_small, smallParties_ternary, smallNoises_short,
    residual_bounded build_smallRing build_smallEngine isRun_small smallParties_ternary
      smallNoises_short⟩

end Protocol
end RelinCeremony
