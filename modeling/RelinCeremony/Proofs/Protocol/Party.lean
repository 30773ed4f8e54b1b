import RelinCeremony.Proofs.Protocol.Contribution
import RelinCeremony.Proofs.Protocol.Rounds
import RelinCeremony.Proofs.Ring.Sampler

namespace RelinCeremony
namespace Protocol

/-!
# Parties

A party has keys, a source of noise and generators of its own, and makes one share in each
round.  Its noise is what its source writes with the seeds of the slots, so it can be
any noise that sources can write.

The shares of a party have the values of the rounds on its contribution.
-/

open RelinCeremony.Ring (Element NegacyclicRing NoiseSource)

instance : Inhabited Element := ⟨⟨[]⟩⟩

/-- A party with its keys, its source of noise, the shares that it writes over and the
generators that it draws from in the three rounds. -/
structure Party where
  secret : Element
  ephemeral : Element
  source : NoiseSource
  outOne : RoundOneShare
  outTwo : RoundTwoShare
  outThree : RoundThreeShare
  drawOne : Random.Generator
  drawTwo : Random.Generator
  drawThree : Random.Generator

/-- The noise of a party in the three rounds. -/
structure PartyNoise where
  one : Grid Element
  two : Grid (Element × Element)
  three : Grid Element
deriving DecidableEq

namespace Party

/-- The engine of a party: the common one with the source of the party. -/
def engine (p : Party) (e : Engine) : Engine := { e with source := p.source }

/-- The share of a party in the first round. -/
def shareOne (e : Engine) (a : CommonMatrix) (p : Party) : Outcome RoundOneShare := do
  let (share, _) ← (p.engine e).roundOne p.ephemeral p.secret a p.outOne p.drawOne
  return share

def shareTwo (e : Engine) (a : CommonMatrix) (h : RoundOneShare) (p : Party) :
    Outcome RoundTwoShare := do
  let (share, _) ← (p.engine e).roundTwo h p.secret a p.outTwo p.drawTwo
  return share

def shareThree (e : Engine) (h : RoundTwoShare) (p : Party) : Outcome RoundThreeShare := do
  let (share, _) ← (p.engine e).roundThree h p.ephemeral p.secret p.outThree p.drawThree
  return share

/-- The noise that the source of a party writes in the three rounds. -/
def noise (e : Engine) (p : Party) : Checked PartyNoise := do
  return {
    one := ← (p.engine e).drawNoise (p.engine e).slotNoise p.outOne p.drawOne
    two := ← (p.engine e).drawNoise (p.engine e).pairSlotNoise p.outTwo p.drawTwo
    three := ← (p.engine e).drawNoise (p.engine e).slotNoise p.outThree p.drawThree }

/-- The keys are reduced, and the shares to write over have the dimensions of the ring. -/
structure Admissible (e : Engine) (p : Party) : Prop where
  secret : e.ring.Reduced p.secret
  ephemeral : e.ring.Reduced p.ephemeral
  outOne : p.outOne.Fills e.shape e.ring.Fits
  outTwo : p.outTwo.Fills e.shape fun pair => e.ring.Fits pair.1 ∧ e.ring.Fits pair.2
  outThree : p.outThree.Fills e.shape e.ring.Fits

end Party

/-- All noise of the party has the shape and the property. -/
structure PartyNoise.Fills (noise : PartyNoise) (shape : Shape) (P : Element → Prop) : Prop where
  one : noise.one.Fills shape P
  two : noise.two.Fills shape fun pair => P pair.1 ∧ P pair.2
  three : noise.three.Fills shape P

theorem PartyNoise.Fills.imp {noise : PartyNoise} {shape : Shape} {P Q : Element → Prop}
    (h : noise.Fills shape P) (hpq : ∀ x, P x → Q x) : noise.Fills shape Q :=
  ⟨h.one.imp hpq, h.two.imp fun _ hpair => ⟨hpq _ hpair.1, hpq _ hpair.2⟩, h.three.imp hpq⟩

/-! ## Noise with a property of the source -/

theorem gives_drawNoise {α : Type} {e : Engine} (he : e.Valid) {out : Grid α}
    {g : Random.Generator} {slot : α → Random.Seed → Checked α} {P Q : α → Prop}
    (hout : out.Fills e.shape Q) (hslot : ∀ old seed, Q old → Gives (slot old seed) P) :
    Gives (e.drawNoise slot out g) fun noise => noise.Fills e.shape P := by
  unfold Engine.drawNoise
  refine (Engine.gives_drawSeeds he g).bind fun r hr => ?_
  dsimp only
  rw [hout.1]
  refine Gives.bind (Grid.gives_mapSlots e.shape (P := fun _ _ => P) ?_ ?_)
    fun slots hslots => ⟨_, rfl, hslots.fills fun _ _ _ hx => hx⟩
  · simp [hout.2.1, hr]
  · intro n hn _ _
    obtain ⟨hno, hns⟩ : n < out.slots.length ∧ n < r.1.length := by
      simpa [lt_min_iff] using hn
    simp only [List.getElem_zip]
    exact hslot _ _ (hout.2.2 _ (List.getElem_mem hno))

/-- What a source writes over elements of the ring, a party with this source draws. -/
theorem gives_noise {e : Engine} (he : e.Valid) {p : Party} (hp : p.Admissible e)
    {P : Element → Prop}
    (hsource : ∀ old g, e.ring.Fits old →
      Gives ((p.source.noise e.ring old).run g) fun r => P r.1) :
    Gives (p.noise e) fun noise => noise.Fills e.shape P := by
  have hparty : (p.engine e).Valid := he.withSource p.source
  have hslot : ∀ old seed, e.ring.Fits old →
      Gives ((p.engine e).slotNoise old seed) P := by
    intro old seed hold
    exact (hsource old _ hold).bind fun r hr => ⟨_, rfl, hr⟩
  have hpair : ∀ (old : Element × Element) seed, e.ring.Fits old.1 ∧ e.ring.Fits old.2 →
      Gives ((p.engine e).pairSlotNoise old seed) fun pair => P pair.1 ∧ P pair.2 := by
    intro old seed hold
    refine (hsource _ _ e.ring.fits_zero).bind fun first hfirst => ?_
    exact (hsource _ _ hold.2).bind fun second hsecond => ⟨_, rfl, hfirst, hsecond⟩
  obtain ⟨one, hone, honeFills⟩ := gives_drawNoise (g := p.drawOne) hparty hp.outOne hslot
  obtain ⟨two, htwo, htwoFills⟩ := gives_drawNoise (g := p.drawTwo) hparty hp.outTwo hpair
  obtain ⟨three, hthree, hthreeFills⟩ :=
    gives_drawNoise (g := p.drawThree) hparty hp.outThree hslot
  refine ⟨⟨one, two, three⟩, ?_, honeFills, htwoFills, hthreeFills⟩
  simp only [Party.noise, hone, htwo, hthree, ok_bind]
  rfl

/-! ## Contributions -/

/-- The classes that an element in Montgomery form stands for. -/
def plain (ring : NegacyclicRing) (a : Element) : ring.Values :=
  ring.values a * ring.radixInverse

/-- A key that is lifted from integers stands for their values. -/
theorem plain_of_keyOf {ring : NegacyclicRing} (hring : ring.Valid) {coefficients : List Int}
    {a : Element} (hlength : coefficients.length = ring.degree)
    (hkey : ring.keyOf coefficients = .ok a) :
    plain ring a = hring.evaluations (ring.classes coefficients) := by
  have hrepresents := (NegacyclicRing.gives_keyOf hring hlength).value_unique hkey
  rw [plain, hrepresents.values_eq, NegacyclicRing.mul_radix_mul_radixInverse hring.validModuli]

/-- What a party with its noise puts into the slot `(i, w)`. -/
def contribution (ring : NegacyclicRing) (i w : Nat) (member : Party × PartyNoise) :
    Contribution ring.Values where
  secret := plain ring member.1.secret
  ephemeral := plain ring member.1.ephemeral
  one := ring.values (member.2.one.slot i w)
  twoFirst := ring.values (member.2.two.slot i w).1
  twoSecond := ring.values (member.2.two.slot i w).2
  three := ring.values (member.2.three.slot i w)

/-- A party that can take part, with the noise that it draws. -/
structure Takes (e : Engine) (member : Party × PartyNoise) : Prop where
  admissible : member.1.Admissible e
  noise_eq : member.1.noise e = .ok member.2
  reduced : member.2.Fills e.shape e.ring.Reduced

theorem noise_eq_ok {e : Engine} {p : Party} {noise : PartyNoise} (h : p.noise e = .ok noise) :
    (p.engine e).drawNoise (p.engine e).slotNoise p.outOne p.drawOne = .ok noise.one ∧
      (p.engine e).drawNoise (p.engine e).pairSlotNoise p.outTwo p.drawTwo = .ok noise.two ∧
        (p.engine e).drawNoise (p.engine e).slotNoise p.outThree p.drawThree = .ok noise.three := by
  unfold Party.noise at h
  obtain ⟨one, hone, h⟩ := bind_eq_ok_iff.1 h
  obtain ⟨two, htwo, h⟩ := bind_eq_ok_iff.1 h
  obtain ⟨three, hthree, h⟩ := bind_eq_ok_iff.1 h
  cases h
  exact ⟨hone, htwo, hthree⟩

theorem fillsAt_values {ring : NegacyclicRing} {shape : Shape} {grid : Grid Element}
    (h : grid.Fills shape ring.Reduced) :
    grid.FillsAt shape fun i w x => ring.Represents x (ring.values (grid.slot i w)) := by
  refine h.fillsAt.imp fun i w x hx => ?_
  rw [← hx.2]
  exact hx.1.represents

theorem fillsAt_pairValues {ring : NegacyclicRing} {shape : Shape} {grid : Grid (Element × Element)}
    (h : grid.Fills shape fun pair => ring.Reduced pair.1 ∧ ring.Reduced pair.2) :
    grid.FillsAt shape fun i w pair => ring.Represents pair.1 (ring.values (grid.slot i w).1) ∧
      ring.Represents pair.2 (ring.values (grid.slot i w).2) := by
  refine h.fillsAt.imp fun i w pair hpair => ?_
  rw [← hpair.2]
  exact ⟨hpair.1.1.represents, hpair.1.2.represents⟩

/-! ## The shares of a party -/

section Shares

variable {e : Engine} {member : Party × PartyNoise}

theorem gives_shareOne (he : e.Valid) (hmember : Takes e member) {a : CommonMatrix}
    (ha : a.Fills e.shape e.ring.Reduced) :
    Gives (member.1.shareOne e a) fun share => share.FillsAt e.shape fun i w x =>
      e.ring.Represents x ((contribution e.ring i w member).roundOne
        (e.ring.gadget i (w * e.digitBits)) (e.ring.values (a.slot i w))) := by
  have hround := Engine.gives_roundOne (he.withSource member.1.source)
    hmember.admissible.ephemeral.represents hmember.admissible.secret.represents
    (fillsAt_values ha) hmember.admissible.outOne
    ⟨_, (noise_eq_ok hmember.noise_eq).1, fillsAt_values hmember.reduced.one⟩
  refine hround.bind fun r hr => ⟨_, rfl, hr.imp fun i w x hx => ?_⟩
  have hvalues : e.ring.values (member.2.one.slot i w) +
      e.ring.gadget i (w * e.digitBits) * e.ring.values member.1.secret * e.ring.radixInverse -
        e.ring.values member.1.ephemeral * e.ring.values (a.slot i w) * e.ring.radixInverse =
      (contribution e.ring i w member).roundOne (e.ring.gadget i (w * e.digitBits))
        (e.ring.values (a.slot i w)) := by
    simp only [contribution, Contribution.roundOne, plain]
    ring
  rw [← hvalues]
  exact hx

theorem gives_shareTwo (he : e.Valid) (hmember : Takes e member) {a : CommonMatrix}
    (ha : a.Fills e.shape e.ring.Reduced) {h : RoundOneShare} {H : Nat → Nat → e.ring.Values}
    (hh : h.FillsAt e.shape fun i w x => e.ring.Represents x (H i w)) :
    Gives (member.1.shareTwo e a h) fun share => share.FillsAt e.shape fun i w pair =>
      e.ring.Represents pair.1 ((contribution e.ring i w member).roundTwo
        (e.ring.values (a.slot i w)) (H i w)).1 ∧
      e.ring.Represents pair.2 ((contribution e.ring i w member).roundTwo
        (e.ring.values (a.slot i w)) (H i w)).2 := by
  have hround := Engine.gives_roundTwo (he.withSource member.1.source) hh
    hmember.admissible.secret.represents (fillsAt_values ha) hmember.admissible.outTwo
    ⟨_, (noise_eq_ok hmember.noise_eq).2.1, fillsAt_pairValues hmember.reduced.two⟩
  refine hround.bind fun r hr => ⟨_, rfl, hr.imp fun i w pair hpair => ?_⟩
  simp only [contribution, Contribution.roundTwo, plain]
  rw [← mul_assoc, mul_right_comm (e.ring.values member.1.secret)]
  exact hpair

theorem gives_shareThree (he : e.Valid) (hmember : Takes e member) {h : RoundTwoShare}
    {H : Nat → Nat → e.ring.Values × e.ring.Values}
    (hh : h.FillsAt e.shape fun i w pair =>
      e.ring.Represents pair.1 (H i w).1 ∧ e.ring.Represents pair.2 (H i w).2) :
    Gives (member.1.shareThree e h) fun share => share.FillsAt e.shape fun i w x =>
      e.ring.Represents x ((contribution e.ring i w member).roundThree (H i w)) := by
  have hround := Engine.gives_roundThree (he.withSource member.1.source)
    (hh.imp fun i w pair hpair => hpair.2) hmember.admissible.ephemeral.represents
    hmember.admissible.secret.represents hmember.admissible.outThree
    ⟨_, (noise_eq_ok hmember.noise_eq).2.2, fillsAt_values hmember.reduced.three⟩
  refine hround.bind fun r hr => ⟨_, rfl, hr.imp fun i w x hx => ?_⟩
  have hvalues : e.ring.values (member.2.three.slot i w) +
      (e.ring.values member.1.ephemeral - e.ring.values member.1.secret) * (H i w).2 *
        e.ring.radixInverse = (contribution e.ring i w member).roundThree (H i w) := by
    simp only [contribution, Contribution.roundThree, plain]
    ring
  rw [← hvalues]
  exact hx

end Shares

end Protocol
end RelinCeremony
