import RelinCeremony.Proofs.Protocol.Ceremony
import RelinCeremony.Proofs.Protocol.ScheduledRounds

namespace RelinCeremony
namespace Protocol

/-!
# The formula of a slot and its seed

The noise of a slot depends on the seed with the number of the slot only: slot `(i, w)` has the
number `i * levels + w` among the seeds that the caller's generator gives.  So the rounds are
formulas in the keys, the aggregates and the noise of these seeds, and the caller's generator is
left after as many seeds as there are slots.

Together with `Proofs.Protocol.ScheduledRounds` this describes the rounds by any schedule, with
whatever scratch elements and over whatever shares.
-/

open RelinCeremony.Ring (Element NegacyclicRing NoiseSource NormalSampler)
open RelinCeremony.Protocol.InPlace (afterSeed snd_of_times_seed)

/-- The seed with number `n`, from 0 on, that a generator gives. -/
def seedNumber (g : Random.Generator) (n : Nat) : Random.Seed := (afterSeed^[n] g).nextSeed.1

theorem getElem_of_times_seed {count n : Nat} {g : Random.Generator}
    {r : List Random.Seed × Random.Generator}
    (h : (Random.Draw.times Random.Draw.seed count).run g = .ok r) (hn : n < r.1.length) :
    r.1[n] = seedNumber g n := by
  induction count generalizing g r n with
  | zero =>
      cases h
      simp at hn
  | succ count ih =>
      have hrun : ((Random.Draw.times Random.Draw.seed count).run (afterSeed g) >>= fun rest =>
          .ok (g.nextSeed.1 :: rest.1, rest.2)) = .ok r := h
      obtain ⟨rest, hrest, hr⟩ := bind_eq_ok_iff.1 hrun
      cases hr
      cases n with
      | zero => rfl
      | succ n => exact ih hrest (by simpa using hn)

namespace Engine

variable {e : Engine} (he : e.Valid) {u s : Element} {g : Random.Generator}

/-- For every slot `(i, w)` the source draws the noise with the values `N i w` from the keystream
with 20 rounds of the seed with number `i * levels + w`. -/
def NoiseOfSeeds (e : Engine) (g : Random.Generator) (N : Nat → Nat → e.ring.Values) : Prop :=
  ∀ i < e.shape.moduli, ∀ w < e.shape.levels,
    Gives ((e.source.noise e.ring e.ring.zero).run
        (.chacha20 (seedNumber g (i * e.shape.levels + w))))
      fun noise => e.ring.Represents noise.1 (N i w)

/-- The same for two noises, the second from where the first leaves the keystream of the slot. -/
def PairNoiseOfSeeds (e : Engine) (g : Random.Generator) (N₁ N₂ : Nat → Nat → e.ring.Values) :
    Prop :=
  ∀ i < e.shape.moduli, ∀ w < e.shape.levels,
    Gives ((e.source.noise e.ring e.ring.zero).run
        (.chacha20 (seedNumber g (i * e.shape.levels + w))))
      fun first => e.ring.Represents first.1 (N₁ i w) ∧
        Gives ((e.source.noise e.ring e.ring.zero).run first.2)
          fun second => e.ring.Represents second.1 (N₂ i w)

theorem NoiseOfSeeds.gives_slotNoise {N : Nat → Nat → e.ring.Values} (h : e.NoiseOfSeeds g N) :
    ∀ i < e.shape.moduli, ∀ w < e.shape.levels,
      Gives (e.slotNoise e.ring.zero (seedNumber g (i * e.shape.levels + w)))
        fun x => e.ring.Represents x (N i w) := by
  intro i hi w hw
  exact (h i hi w hw).bind fun noise hnoise => ⟨_, rfl, hnoise⟩

theorem PairNoiseOfSeeds.gives_pairSlotNoise {N₁ N₂ : Nat → Nat → e.ring.Values}
    (h : e.PairNoiseOfSeeds g N₁ N₂) :
    ∀ i < e.shape.moduli, ∀ w < e.shape.levels,
      Gives (e.pairSlotNoise (e.ring.zero, e.ring.zero) (seedNumber g (i * e.shape.levels + w)))
        fun pair => e.ring.Represents pair.1 (N₁ i w) ∧ e.ring.Represents pair.2 (N₂ i w) := by
  intro i hi w hw
  refine (h i hi w hw).bind fun first hfirst => ?_
  exact hfirst.2.bind fun second hsecond => ⟨_, rfl, hfirst.1, hsecond⟩

section Noise

variable (hsource : e.source.Overwrites e.ring)
include hsource

theorem slotNoise_eq {old old' : Element} (hold : e.ring.Fits old) (hold' : e.ring.Fits old')
    (seed : Random.Seed) : e.slotNoise old seed = e.slotNoise old' seed := by
  rw [slotNoise, slotNoise, hsource.run_eq old old' _ hold hold']

theorem pairSlotNoise_eq {old old' : Element × Element} (hold : e.ring.Fits old.2)
    (hold' : e.ring.Fits old'.2) (seed : Random.Seed) :
    e.pairSlotNoise old seed = e.pairSlotNoise old' seed := by
  unfold pairSlotNoise
  simp only [hsource.run_eq old.2 old'.2 _ hold hold']

end Noise

/-- A bounded source writes noise with every seed. -/
theorem exists_noiseOfSeeds (he : e.Valid) {bound : Nat}
    (hbounded : e.source.IsBounded e.ring bound) (g : Random.Generator) :
    (∃ N, e.NoiseOfSeeds g N) ∧ ∃ N₁ N₂, e.PairNoiseOfSeeds g N₁ N₂ := by
  have hdraw : ∀ g', ∃ r, (e.source.noise e.ring e.ring.zero).run g' = .ok r ∧
      e.ring.Reduced r.1 := by
    intro g'
    obtain ⟨r, hr, hnoise⟩ := hbounded _ g' e.ring.fits_zero
    exact ⟨r, hr, hnoise.reduced he.ring⟩
  choose noise hnoise hreduced using hdraw
  -- The generator of a slot, and what its first noise leaves of it.
  let start (i w : Nat) : Random.Generator := .chacha20 (seedNumber g (i * e.shape.levels + w))
  refine ⟨⟨fun i w => e.ring.values (noise (start i w)).1, ?_⟩,
    fun i w => e.ring.values (noise (start i w)).1,
    fun i w => e.ring.values (noise (noise (start i w)).2).1, ?_⟩
  · intro i _ w _
    exact ⟨_, hnoise _, (hreduced _).represents⟩
  · intro i _ w _
    exact ⟨_, hnoise _, (hreduced _).represents, _, hnoise _, (hreduced _).represents⟩

section Formulas

include he

/-- The noise of a share is drawn with the seeds of the numbers of its slots. -/
theorem gives_drawNoise_of_seeds {α : Type} {slot : α → Random.Seed → Checked α}
    {P : Nat → Nat → α → Prop} {Q : α → Prop} {out : Grid α} {blank : α}
    (hout : out.Fills e.shape Q)
    (hslot : ∀ i < e.shape.moduli, ∀ w < e.shape.levels,
      Gives (slot blank (seedNumber g (i * e.shape.levels + w))) (P i w))
    (hblank : ∀ old, Q old → ∀ seed, slot old seed = slot blank seed) :
    Gives (e.drawNoise slot out g) fun noise => noise.FillsAt e.shape P := by
  obtain ⟨⟨seeds, g'⟩, hseeds, hcount⟩ := gives_drawSeeds he g
  unfold drawNoise
  rw [hseeds, hout.1]
  simp only [ok_bind]
  refine Gives.bind (Grid.gives_mapSlots e.shape ?_ ?_) fun slots hslots => ⟨_, rfl, hslots⟩
  · simp [hout.2.1, hcount]
  · intro n hn hi hw
    obtain ⟨hno, hns⟩ : n < out.slots.length ∧ n < seeds.length := by
      simpa [lt_min_iff] using hn
    have hseed : seeds[n] = seedNumber g n :=
      getElem_of_times_seed (times_of_drawSeeds hseeds) hns
    have hgives := hslot _ hi _ hw
    rw [Nat.div_add_mod'] at hgives
    simp only [List.getElem_zip, hseed]
    rw [hblank _ (hout.2.2 _ (List.getElem_mem hno))]
    exact hgives

omit he in
theorem snd_of_roundOne {a : CommonMatrix} {out : RoundOneShare}
    {r : RoundOneShare × Random.Generator} (h : e.roundOne u s a out g = .ok r) :
    r.2 = afterSeed^[e.shape.moduli * e.shape.levels] g := by
  simp only [roundOne, bind_eq_ok_iff, lift_eq_ok_iff] at h
  obtain ⟨_, _, _, _, ⟨seeds, g'⟩, hseeds, slots, _, hr⟩ := h
  cases hr
  exact snd_of_times_seed (times_of_drawSeeds hseeds)

omit he in
theorem snd_of_roundTwo {h : RoundOneShare} {a : CommonMatrix} {out : RoundTwoShare}
    {r : RoundTwoShare × Random.Generator} (hrun : e.roundTwo h s a out g = .ok r) :
    r.2 = afterSeed^[e.shape.moduli * e.shape.levels] g := by
  simp only [roundTwo, bind_eq_ok_iff, lift_eq_ok_iff] at hrun
  obtain ⟨_, _, _, _, _, _, ⟨seeds, g'⟩, hseeds, slots, _, hr⟩ := hrun
  cases hr
  exact snd_of_times_seed (times_of_drawSeeds hseeds)

omit he in
theorem snd_of_roundThree {h : RoundTwoShare} {out : RoundThreeShare}
    {r : RoundThreeShare × Random.Generator} (hrun : e.roundThree h u s out g = .ok r) :
    r.2 = afterSeed^[e.shape.moduli * e.shape.levels] g := by
  simp only [roundThree, bind_eq_ok_iff, lift_eq_ok_iff] at hrun
  obtain ⟨_, _, _, _, ⟨seeds, g'⟩, hseeds, delta, _, slots, _, hr⟩ := hrun
  cases hr
  exact snd_of_times_seed (times_of_drawSeeds hseeds)

variable (hsource : e.source.Overwrites e.ring) (hu : e.ring.Reduced u) (hs : e.ring.Reduced s)
include hsource hs

include hu in
/-- The first round gives `-u * a + s * 2^(w * b) + e` in slot `(i, w)`, the secret term in
channel `i` only. -/
theorem gives_roundOne_of_seeds {a : CommonMatrix} {out : RoundOneShare}
    {N : Nat → Nat → e.ring.Values} (ha : a.Fills e.shape e.ring.Reduced)
    (hout : out.Fills e.shape e.ring.Fits)
    (hnoise : e.NoiseOfSeeds g N) :
    Gives (e.roundOne u s a out g) fun r =>
      r.2 = afterSeed^[e.shape.moduli * e.shape.levels] g ∧
      r.1.FillsAt e.shape fun i w x => e.ring.Represents x
        (N i w + e.ring.gadget i (w * e.digitBits) * plain e.ring s -
          plain e.ring u * e.ring.values (a.slot i w)) := by
  have hdraw := gives_drawNoise_of_seeds he hout hnoise.gives_slotNoise fun old hold =>
    slotNoise_eq hsource hold e.ring.fits_zero
  obtain ⟨r, hr, hslots⟩ :=
    gives_roundOne he hu.represents hs.represents (fillsAt_values ha) hout hdraw
  refine ⟨r, hr, snd_of_roundOne hr, hslots.imp fun i w x hx => ?_⟩
  rw [plain, plain, ← mul_assoc, mul_right_comm (e.ring.values u)]
  exact hx

/-- The second round gives `(h * s + e, s * a + e')`, with the two noises from one generator. -/
theorem gives_roundTwo_of_seeds {h : RoundOneShare} {a : CommonMatrix} {out : RoundTwoShare}
    {N₁ N₂ : Nat → Nat → e.ring.Values} (hh : h.Fills e.shape e.ring.Reduced)
    (ha : a.Fills e.shape e.ring.Reduced)
    (hout : out.Fills e.shape fun pair => e.ring.Fits pair.1 ∧ e.ring.Fits pair.2)
    (hnoise : e.PairNoiseOfSeeds g N₁ N₂) :
    Gives (e.roundTwo h s a out g) fun r =>
      r.2 = afterSeed^[e.shape.moduli * e.shape.levels] g ∧
      r.1.FillsAt e.shape fun i w pair =>
        e.ring.Represents pair.1 (e.ring.values (h.slot i w) * plain e.ring s + N₁ i w) ∧
        e.ring.Represents pair.2 (N₂ i w + plain e.ring s * e.ring.values (a.slot i w)) := by
  have hdraw := gives_drawNoise_of_seeds he hout hnoise.gives_pairSlotNoise fun old hold =>
    pairSlotNoise_eq hsource hold.2 e.ring.fits_zero
  obtain ⟨r, hr, hslots⟩ :=
    gives_roundTwo he (fillsAt_values hh) hs.represents (fillsAt_values ha) hout hdraw
  refine ⟨r, hr, snd_of_roundTwo hr, hslots.imp fun i w pair hpair => ?_⟩
  rw [plain, ← mul_assoc, mul_right_comm (e.ring.values s)]
  exact hpair

include hu in
/-- The third round gives `(u - s) * h1 + e`. -/
theorem gives_roundThree_of_seeds {h : RoundTwoShare} {out : RoundThreeShare}
    {N : Nat → Nat → e.ring.Values}
    (hh : h.Fills e.shape fun pair => e.ring.Reduced pair.1 ∧ e.ring.Reduced pair.2)
    (hout : out.Fills e.shape e.ring.Fits)
    (hnoise : e.NoiseOfSeeds g N) :
    Gives (e.roundThree h u s out g) fun r =>
      r.2 = afterSeed^[e.shape.moduli * e.shape.levels] g ∧
      r.1.FillsAt e.shape fun i w x => e.ring.Represents x
        (N i w + (plain e.ring u - plain e.ring s) * e.ring.values (h.slot i w).2) := by
  have hdraw := gives_drawNoise_of_seeds he hout hnoise.gives_slotNoise fun old hold =>
    slotNoise_eq hsource hold e.ring.fits_zero
  have haggregate := (fillsAt_pairValues hh).imp fun _ _ _ hpair => hpair.2
  obtain ⟨r, hr, hslots⟩ :=
    gives_roundThree he haggregate hu.represents hs.represents hout hdraw
  refine ⟨r, hr, snd_of_roundThree hr, hslots.imp fun i w x hx => ?_⟩
  rw [plain, plain, ← sub_mul, mul_right_comm]
  exact hx

end Formulas

/-- In an engine of a ring that is built, the normal noise depends on the generator only, and it
is reduced unless a rejection loop does not end.  With any source that depends on the generator
only, and with reduced keys, matrix and aggregates:

The three rounds and the key give the same by every plan, with whatever scratch elements and over
whatever share, as slot by slot in order, over any other share.  The shares are the formulas of
the rounds, with the noise of the seed that has the number of the slot, and the caller's
generator is left after one seed for each slot. -/
theorem rounds_independent_of_schedule {moduli : List Nat} {degree bits : Nat}
    {ring : NegacyclicRing} {source : NoiseSource}
    (hring : NegacyclicRing.build moduli degree = .ok ring)
    (hengine : Engine.build ring source bits = .ok e) :
    (∀ sampler : NormalSampler, sampler.source.Overwrites e.ring ∧
      sampler.source.WritesReduced (.endlessRejection = ·) e.ring) ∧
    (e.source.Overwrites e.ring →
      ∀ plan : WorkPlan, plan.Admissible e.ring (e.shape.moduli * e.shape.levels) →
      ∀ (u s : Element) (a : CommonMatrix) (h : RoundOneShare) (two : RoundTwoShare)
        (three : RoundThreeShare) (g : Random.Generator),
      e.ring.Reduced u → e.ring.Reduced s → a.Fills e.shape e.ring.Reduced →
      h.Fills e.shape e.ring.Reduced →
      two.Fills e.shape (fun pair => e.ring.Reduced pair.1 ∧ e.ring.Reduced pair.2) →
      three.Fills e.shape e.ring.Reduced →
      (∀ out old : RoundOneShare, out.Fills e.shape e.ring.Fits → old.Fills e.shape e.ring.Fits →
        (∀ r, e.scheduledRoundOne plan u s a old g = .ok r ↔ e.roundOne u s a out g = .ok r) ∧
        ∀ N, e.NoiseOfSeeds g N → Gives (e.roundOne u s a out g) fun r =>
          r.2 = afterSeed^[e.shape.moduli * e.shape.levels] g ∧
          r.1.FillsAt e.shape fun i w x => e.ring.Represents x
            (N i w + e.ring.gadget i (w * e.digitBits) * plain e.ring s -
              plain e.ring u * e.ring.values (a.slot i w))) ∧
      (∀ out old : RoundTwoShare,
        out.Fills e.shape (fun pair => e.ring.Fits pair.1 ∧ e.ring.Fits pair.2) →
        old.Fills e.shape (fun pair => e.ring.Fits pair.1 ∧ e.ring.Fits pair.2) →
        (∀ r, e.scheduledRoundTwo plan h s a old g = .ok r ↔ e.roundTwo h s a out g = .ok r) ∧
        ∀ N₁ N₂, e.PairNoiseOfSeeds g N₁ N₂ → Gives (e.roundTwo h s a out g) fun r =>
          r.2 = afterSeed^[e.shape.moduli * e.shape.levels] g ∧
          r.1.FillsAt e.shape fun i w pair =>
            e.ring.Represents pair.1 (e.ring.values (h.slot i w) * plain e.ring s + N₁ i w) ∧
            e.ring.Represents pair.2 (N₂ i w + plain e.ring s * e.ring.values (a.slot i w))) ∧
      (∀ out old : RoundThreeShare, out.Fills e.shape e.ring.Fits → old.Fills e.shape e.ring.Fits →
        (∀ r, e.scheduledRoundThree plan two u s old g = .ok r ↔
          e.roundThree two u s out g = .ok r) ∧
        ∀ N, e.NoiseOfSeeds g N → Gives (e.roundThree two u s out g) fun r =>
          r.2 = afterSeed^[e.shape.moduli * e.shape.levels] g ∧
          r.1.FillsAt e.shape fun i w x => e.ring.Represents x
            (N i w + (plain e.ring u - plain e.ring s) * e.ring.values (two.slot i w).2)) ∧
      ∀ out old : RelinearizationKey,
        out.Fills e.shape (fun pair => e.ring.Fits pair.1 ∧ e.ring.Fits pair.2) →
        old.Fills e.shape (fun pair => e.ring.Fits pair.1 ∧ e.ring.Fits pair.2) →
        (∀ key, e.scheduledKey plan two three old = .ok key ↔
          e.relinearizationKey two three out = .ok key) ∧
        Gives (e.relinearizationKey two three out) fun key =>
          key.FillsAt e.shape fun i w pair =>
            e.ring.Represents pair.1
              ((e.ring.values (two.slot i w).1 + e.ring.values (three.slot i w)) * 2 ^ 64) ∧
            e.ring.Represents pair.2 (e.ring.values (two.slot i w).2 * 2 ^ 64)) := by
  obtain ⟨hvalid, hering, _⟩ := valid_of_build (NegacyclicRing.valid_of_build hring).1 hengine
  constructor
  · intro sampler
    exact ⟨sampler.overwrites hvalid.ring, sampler.writesReduced rfl hvalid.ring⟩
  intro hsource plan hplan u s a h two three g hu hs ha hh htwo hthree
  have hpairs := fillsAt_pairValues htwo
  have hthreeValues := fillsAt_values hthree
  -- By plan as in order, and in order by the formula: one pair for each round and the key.
  refine ⟨?_, ?_, ?_, ?_⟩
  · intro out old hout hold
    constructor
    · intro r
      exact scheduledRoundOne_eq_ok_iff hvalid hplan hsource ha hout hold
    · intro N hN
      exact gives_roundOne_of_seeds hvalid hsource hu hs ha hout hN
  · intro out old hout hold
    constructor
    · intro r
      exact scheduledRoundTwo_eq_ok_iff hvalid hplan hsource hh hs ha hout hold
    · intro N₁ N₂ hN
      exact gives_roundTwo_of_seeds hvalid hsource hs hh ha hout hN
  · intro out old hout hold
    constructor
    · intro r
      exact scheduledRoundThree_eq_ok_iff hvalid hplan hsource htwo hu hs hout hold
    · intro N hN
      exact gives_roundThree_of_seeds hvalid hsource hu hs htwo hout hN
  · intro out old hout hold
    constructor
    · intro key
      exact scheduledKey_eq_ok_iff hvalid hplan htwo hthree hout hold
    · exact gives_relinearizationKey hvalid (V := fun i w =>
        (e.ring.values (two.slot i w).1, e.ring.values (two.slot i w).2)) hpairs hthreeValues hout

/-- Two workers take the four slots of the small engine out of order, with scratch elements that
hold anything. -/
def smallPlan : WorkPlan where
  tasks := [⟨1, 3⟩, ⟨0, 1⟩, ⟨1, 0⟩, ⟨0, 2⟩]
  scratch worker := ⟨List.replicate 2 (List.replicate 8 (200 + worker))⟩
  common := ⟨List.replicate 2 (List.replicate 8 7)⟩

theorem smallPlan_admissible :
    smallPlan.Admissible smallRing (smallEngine.shape.moduli * smallEngine.shape.levels) where
  tasks := by decide +kernel
  scratch worker := by
    have hcolumns : smallRing.degree = 8 := by decide +kernel
    have hrows : smallRing.channels.length = 2 := by decide +kernel
    refine ⟨hrows.symm, fun row hrow => ?_⟩
    rw [List.eq_of_mem_replicate hrow, hcolumns, List.length_replicate]
  common := by decide +kernel

/-- An element that is not reduced. -/
def staleElement : Element := ⟨List.replicate 2 (List.replicate 8 500)⟩

def staleShare : RoundOneShare := ⟨smallEngine.shape, List.replicate 4 staleElement⟩

def stalePairs : RoundTwoShare := ⟨smallEngine.shape, List.replicate 4 (staleElement, staleElement)⟩

def blankShare : RoundOneShare := ⟨smallEngine.shape, List.replicate 4 smallRing.zero⟩

def smallSecret : Element := smallKey [1, 0, -1, 1, 0, 0, 1, -1]

def smallEphemeral : Element := smallKey [0, 1, 1, 0, -1, 0, 0, 1]

def smallDraw : Random.Generator := .chacha8 (.ofWord 3)

/-- The rounds and the key of the small engine, by plan over elements that are not reduced and in
order over zero. -/
theorem rounds_independent_of_schedule_small : ∃ one two three key,
    (smallEngine.scheduledRoundOne smallPlan smallEphemeral smallSecret smallMatrix staleShare
        smallDraw = .ok one ∧
      smallEngine.roundOne smallEphemeral smallSecret smallMatrix blankShare smallDraw = .ok one) ∧
    (smallEngine.scheduledRoundTwo smallPlan smallMatrix smallSecret smallMatrix stalePairs
        smallDraw = .ok two ∧
      smallEngine.roundTwo smallMatrix smallSecret smallMatrix smallOut smallDraw = .ok two) ∧
    (smallEngine.scheduledRoundThree smallPlan smallOut smallEphemeral smallSecret staleShare
        smallDraw = .ok three ∧
      smallEngine.roundThree smallOut smallEphemeral smallSecret blankShare smallDraw =
        .ok three) ∧
    smallEngine.scheduledKey smallPlan smallOut smallMatrix stalePairs = .ok key ∧
      smallEngine.relinearizationKey smallOut smallMatrix smallOut = .ok key := by
  have hvalid := smallEngine_valid
  have hzero := (NegacyclicRing.represents_zero hvalid.ring.validModuli).reduced
  have hstale : smallRing.Fits staleElement := by decide +kernel
  have hmatrix : smallMatrix.Fills smallEngine.shape smallRing.Reduced := by decide +kernel
  obtain ⟨⟨N, hN⟩, N₁, N₂, hpair⟩ := exists_noiseOfSeeds hvalid
    ((Ring.BoundedNoise.mk 2).isBounded_source hvalid.ring) smallDraw
  obtain ⟨_, hrounds⟩ := rounds_independent_of_schedule build_smallRing build_smallEngine
  obtain ⟨hone, htwo, hthree, hkey⟩ := hrounds ((Ring.BoundedNoise.mk 2).overwrites hvalid.ring)
    smallPlan smallPlan_admissible smallEphemeral smallSecret smallMatrix smallMatrix smallOut
    smallMatrix smallDraw (smallKey_reduced rfl) (smallKey_reduced rfl) hmatrix hmatrix
    (fills_replicate ⟨hzero, hzero⟩) hmatrix
  have hblank : blankShare.Fills smallEngine.shape smallRing.Fits := fills_replicate hzero.1
  have hstaleShare : staleShare.Fills smallEngine.shape smallRing.Fits := fills_replicate hstale
  have hout : smallOut.Fills smallEngine.shape fun pair =>
    smallRing.Fits pair.1 ∧ smallRing.Fits pair.2 := fills_replicate ⟨hzero.1, hzero.1⟩
  have hstalePairs : stalePairs.Fills smallEngine.shape fun pair =>
    smallRing.Fits pair.1 ∧ smallRing.Fits pair.2 := fills_replicate ⟨hstale, hstale⟩
  obtain ⟨honePlan, honeGives⟩ := hone blankShare staleShare hblank hstaleShare
  obtain ⟨htwoPlan, htwoGives⟩ := htwo smallOut stalePairs hout hstalePairs
  obtain ⟨hthreePlan, hthreeGives⟩ := hthree blankShare staleShare hblank hstaleShare
  obtain ⟨hkeyPlan, key, hkey, _⟩ := hkey smallOut stalePairs hout hstalePairs
  obtain ⟨one, hone, _⟩ := honeGives N hN
  obtain ⟨two, htwo, _⟩ := htwoGives N₁ N₂ hpair
  obtain ⟨three, hthree, _⟩ := hthreeGives N hN
  exact ⟨one, two, three, key, ⟨(honePlan one).2 hone, hone⟩, ⟨(htwoPlan two).2 htwo, htwo⟩,
    ⟨(hthreePlan three).2 hthree, hthree⟩, (hkeyPlan key).2 hkey, hkey⟩

end Engine
end Protocol
end RelinCeremony
