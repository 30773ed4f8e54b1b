import RelinCeremony.Proofs.Protocol.Party
import RelinCeremony.Proofs.Protocol.ShapeChecks
import RelinCeremony.Proofs.Protocol.Workers
import RelinCeremony.Proofs.Ring.Sampler

namespace RelinCeremony
namespace Protocol
namespace Engine

/-!
# Rounds by any schedule

The rounds and the key are computed here by workers, in the order and with the scratch elements
of a `WorkPlan`; the second round keeps its first noise in the scratch element of the worker.

For a source that overwrites, all plans give the same share, over any share of the dimensions of
the ring: the one that the round gives slot by slot.  Its slots are the formulas of the round,
with the noise of the seed that has the number of the slot.
-/

open RelinCeremony.Ring (Element NegacyclicRing NoiseSource NormalSampler)
open RelinCeremony.Protocol.InPlace (afterSeed snd_of_times_seed)

variable {e : Engine}

/-! ## The work on a slot -/

/-- Slot `n` of the first round, written over `old`. -/
def roundOneAt (e : Engine) (u s : Element) (a : List Element) (seeds : List Random.Seed) (n : Nat)
    (old : Element) : Checked Element := do
  let aSlot ← Lockstep.read a n
  let seed ← Lockstep.read seeds n
  let (i, w) ← e.shape.coordinates n
  e.roundOneSlot u s i w aSlot old seed

def roundTwoAt (e : Engine) (s : Element) (h a : List Element) (seeds : List Random.Seed) (n : Nat)
    (scratch : Element) (old : Element × Element) : Checked (Element × Element) := do
  let hSlot ← Lockstep.read h n
  let aSlot ← Lockstep.read a n
  let seed ← Lockstep.read seeds n
  e.roundTwoSlot s hSlot aSlot scratch old seed

def roundThreeAt (e : Engine) (delta : Element) (h : List (Element × Element))
    (seeds : List Random.Seed) (n : Nat) (old : Element) : Checked Element := do
  let hSlot ← Lockstep.read h n
  let seed ← Lockstep.read seeds n
  e.roundThreeSlot delta hSlot old seed

def keyAt (e : Engine) (two : List (Element × Element)) (three : List Element) (n : Nat)
    (old : Element × Element) : Checked (Element × Element) := do
  let pair ← Lockstep.read two n
  let h ← Lockstep.read three n
  e.keySlot pair h old

/-- In the second round the first noise of the slot is left in the scratch element. -/
def roundTwoWork (e : Engine) (s : Element) (h a : List Element) (seeds : List Random.Seed) :
    SlotWork (Element × Element) := fun n scratch old => do
  let slot ← e.roundTwoAt s h a seeds n scratch old
  let seed ← Lockstep.read seeds n
  return (slot, ← e.slotNoise scratch seed)

/-! ## Calls by plan -/

/-- The first round, with the slots processed as planned. -/
def scheduledRoundOne (e : Engine) (plan : WorkPlan) (u s : Element) (a : CommonMatrix)
    (out : RoundOneShare) (g : Random.Generator) :
    Outcome (RoundOneShare × Random.Generator) := do
  e.requireShape a
  e.requireShape out
  let (seeds, g) ← (e.drawSeeds.run g : Checked _)
  let slots ← ((SlotWork.plain (e.roundOneAt u s a.slots seeds)).run plan out.slots : Checked _)
  return (⟨out.shape, slots⟩, g)

def scheduledRoundTwo (e : Engine) (plan : WorkPlan) (h : RoundOneShare) (s : Element)
    (a : CommonMatrix) (out : RoundTwoShare) (g : Random.Generator) :
    Outcome (RoundTwoShare × Random.Generator) := do
  e.requireShape h
  e.requireShape a
  e.requireShape out
  let (seeds, g) ← (e.drawSeeds.run g : Checked _)
  let slots ← ((e.roundTwoWork s h.slots a.slots seeds).run plan out.slots : Checked _)
  return (⟨out.shape, slots⟩, g)

/-- The third round, with the difference of the keys in the common scratch element. -/
def scheduledRoundThree (e : Engine) (plan : WorkPlan) (h : RoundTwoShare) (u s : Element)
    (out : RoundThreeShare) (g : Random.Generator) :
    Outcome (RoundThreeShare × Random.Generator) := do
  e.requireShape h
  e.requireShape out
  let (seeds, g) ← (e.drawSeeds.run g : Checked _)
  let delta ← (e.ring.sub u s plan.common : Checked _)
  let slots ← ((SlotWork.plain (e.roundThreeAt delta h.slots seeds)).run plan out.slots :
    Checked _)
  return (⟨out.shape, slots⟩, g)

def scheduledKey (e : Engine) (plan : WorkPlan) (two : RoundTwoShare) (three : RoundThreeShare)
    (out : RelinearizationKey) : Outcome RelinearizationKey := do
  e.requireShape two
  e.requireShape three
  e.requireShape out
  let slots ← ((SlotWork.plain (e.keyAt two.slots three.slots)).run plan out.slots : Checked _)
  return ⟨out.shape, slots⟩

/-! ## What was there before does not matter -/

section Overwriting

variable (he : e.Valid) (hsource : e.source.Overwrites e.ring) {u s delta scratch : Element}
  {a h : List Element} {seeds : List Random.Seed} {n : Nat}

include hsource in
theorem roundOneAt_eq {old old' : Element} (hold : e.ring.Fits old) (hold' : e.ring.Fits old') :
    e.roundOneAt u s a seeds n old = e.roundOneAt u s a seeds n old' := by
  unfold roundOneAt roundOneSlot
  simp only [hsource.run_eq old old' _ hold hold']

include hsource in
theorem roundThreeAt_eq {h : List (Element × Element)} {old old' : Element}
    (hold : e.ring.Fits old) (hold' : e.ring.Fits old') :
    e.roundThreeAt delta h seeds n old = e.roundThreeAt delta h seeds n old' := by
  unfold roundThreeAt roundThreeSlot
  simp only [hsource.run_eq old old' _ hold hold']

include he in
theorem keyAt_eq {two : List (Element × Element)} {three : List Element}
    {old old' : Element × Element} (htwo : ∀ x ∈ two, e.ring.Reduced x.1)
    (hthree : ∀ x ∈ three, e.ring.Reduced x) (hold : e.ring.Fits old.1)
    (hold' : e.ring.Fits old'.1) : e.keyAt two three n old = e.keyAt two three n old' := by
  unfold keyAt keySlot
  refine bind_congr_ok fun pair hpair => bind_congr_ok fun x hx => ?_
  have hmoduli := he.ring.validModuli
  have hsum := (htwo pair (Lockstep.mem_of_read hpair)).represents
  have hadded := (hthree x (Lockstep.mem_of_read hx)).represents
  rw [NegacyclicRing.eq_of_gives_represents
    (NegacyclicRing.gives_add hmoduli hsum hadded hold)
    (NegacyclicRing.gives_add hmoduli hsum hadded hold')]

include he hsource in
theorem roundTwoAt_eq {scratch' : Element} {old old' : Element × Element}
    (hs : e.ring.Reduced s) (hh : ∀ x ∈ h, e.ring.Reduced x) (hscratch : e.ring.Fits scratch)
    (hscratch' : e.ring.Fits scratch') (hold : e.ring.Fits old.1 ∧ e.ring.Fits old.2)
    (hold' : e.ring.Fits old'.1 ∧ e.ring.Fits old'.2) :
    e.roundTwoAt s h a seeds n scratch old = e.roundTwoAt s h a seeds n scratch' old' := by
  unfold roundTwoAt roundTwoSlot
  refine bind_congr_ok fun x hx => ?_
  have hmoduli := he.ring.validModuli
  have hfactor := (hh x (Lockstep.mem_of_read hx)).represents
  have hproduct := NegacyclicRing.eq_of_gives_represents
    (NegacyclicRing.gives_mulMontgomery hmoduli hfactor hs.represents hold.1)
    (NegacyclicRing.gives_mulMontgomery hmoduli hfactor hs.represents hold'.1)
  simp only [hsource.run_eq scratch scratch' _ hscratch hscratch', hproduct,
    hsource.run_eq old.2 old'.2 _ hold.2 hold'.2]

include hsource in
theorem fits_of_slotNoise {seed : Random.Seed} {noise : Element} (hscratch : e.ring.Fits scratch)
    (h : e.slotNoise scratch seed = .ok noise) : e.ring.Fits noise := by
  obtain ⟨r, hr, hnoise⟩ := bind_eq_ok_iff.1 h
  cases hnoise
  exact hsource.fits _ _ _ hscratch hr

/-- A slot of the second round begins with the noise for its first component. -/
theorem exists_slotNoise_of_roundTwoAt {old x : Element × Element}
    (hx : e.roundTwoAt s h a seeds n scratch old = .ok x) :
    ∃ seed left, Lockstep.read seeds n = .ok seed ∧ e.slotNoise scratch seed = .ok left := by
  simp only [roundTwoAt, bind_eq_ok_iff] at hx
  obtain ⟨_, _, _, _, seed, hseed, hslot⟩ := hx
  obtain ⟨⟨noise, g⟩, hnoise, _⟩ := bind_eq_ok_iff.1 hslot
  refine ⟨seed, noise, hseed, ?_⟩
  rw [slotNoise, hnoise]
  rfl

include he hsource in
theorem overwrites_roundTwoWork (a : List Element) (seeds : List Random.Seed)
    (hs : e.ring.Reduced s) (hh : ∀ x ∈ h, e.ring.Reduced x) :
    (e.roundTwoWork s h a seeds).Overwrites e.ring
      (fun old => e.ring.Fits old.1 ∧ e.ring.Fits old.2)
      fun n => e.roundTwoAt s h a seeds n e.ring.zero (e.ring.zero, e.ring.zero) := by
  have hzero := e.ring.fits_zero
  constructor
  · intro n scratch old hscratch hold x
    rw [← roundTwoAt_eq he hsource hs hh hscratch hzero hold ⟨hzero, hzero⟩]
    simp only [roundTwoWork, bind_eq_ok_iff]
    constructor
    · rintro ⟨left, slot, hslot, seed, _, noise, _, hx⟩
      cases hx
      exact hslot
    · intro hx
      obtain ⟨seed, left, hseed, hleft⟩ := exists_slotNoise_of_roundTwoAt hx
      exact ⟨left, x, hx, seed, hseed, left, hleft, rfl⟩
  · intro n scratch old x left hscratch _ hx
    simp only [roundTwoWork, bind_eq_ok_iff] at hx
    obtain ⟨slot, _, seed, _, noise, hnoise, hx⟩ := hx
    cases hx
    exact fits_of_slotNoise hsource hscratch hnoise

end Overwriting

/-! ## A call by plan is the call -/

section Calls

variable (he : e.Valid) {plan : WorkPlan}
  (hplan : plan.Admissible e.ring (e.shape.moduli * e.shape.levels)) {u s : Element}
  {g : Random.Generator}

section Rounds

variable (hsource : e.source.Overwrites e.ring)
include he hplan hsource

theorem scheduledRoundOne_eq_ok_iff {a : CommonMatrix} {out out' : RoundOneShare}
    (ha : a.Fills e.shape e.ring.Reduced) (hout : out.Fills e.shape e.ring.Fits)
    (hout' : out'.Fills e.shape e.ring.Fits) {r : RoundOneShare × Random.Generator} :
    e.scheduledRoundOne plan u s a out' g = .ok r ↔ e.roundOne u s a out g = .ok r := by
  obtain ⟨⟨seeds, g'⟩, hseeds, hcount⟩ := gives_drawSeeds he g
  have hwork := SlotWork.overwrites_plain e.ring (e.roundOneAt u s a.slots seeds)
    fun n old hold => roundOneAt_eq hsource hold e.ring.fits_zero
  unfold scheduledRoundOne roundOne
  rw [requireShape_eq ha.1, requireShape_eq hout'.1, requireShape_eq hout.1, hseeds, hout.1,
    hout'.1]
  simp only [ok_bind, lift_ok]
  refine lift_bind_eq_ok_iff fun slots => ?_
  refine hwork.run_eq_ok_iff_mapM (by rw [hout'.2.1]; exact hplan) hout'.2.2
    (by simp [hout.2.1, hout'.2.1, ha.2.1, hcount]) fun n hn => ?_
  obtain ⟨hno, hna, hns⟩ : n < out.slots.length ∧ n < a.slots.length ∧ n < seeds.length := by
    simpa [lt_min_iff] using hn
  rw [roundOneAt_eq hsource e.ring.fits_zero (hout.2.2 _ (List.getElem_mem hno)), roundOneAt,
    Lockstep.read_eq hna, Lockstep.read_eq hns]
  simp only [List.getElem_zipIdx, List.getElem_zip, Nat.zero_add, ok_bind]

theorem scheduledRoundTwo_eq_ok_iff {h : RoundOneShare} {a : CommonMatrix}
    {out out' : RoundTwoShare} (hh : h.Fills e.shape e.ring.Reduced) (hs : e.ring.Reduced s)
    (ha : a.Fills e.shape e.ring.Reduced)
    (hout : out.Fills e.shape fun pair => e.ring.Fits pair.1 ∧ e.ring.Fits pair.2)
    (hout' : out'.Fills e.shape fun pair => e.ring.Fits pair.1 ∧ e.ring.Fits pair.2)
    {r : RoundTwoShare × Random.Generator} :
    e.scheduledRoundTwo plan h s a out' g = .ok r ↔ e.roundTwo h s a out g = .ok r := by
  obtain ⟨⟨seeds, g'⟩, hseeds, hcount⟩ := gives_drawSeeds he g
  have hzero := e.ring.fits_zero
  have hwork := overwrites_roundTwoWork he hsource a.slots seeds hs hh.2.2
  unfold scheduledRoundTwo roundTwo
  rw [requireShape_eq hh.1, requireShape_eq ha.1, requireShape_eq hout'.1, requireShape_eq hout.1,
    hseeds, hout.1, hout'.1]
  simp only [ok_bind, lift_ok]
  refine lift_bind_eq_ok_iff fun slots => ?_
  refine hwork.run_eq_ok_iff_mapM (by rw [hout'.2.1]; exact hplan) hout'.2.2
    (by simp [hout.2.1, hout'.2.1, hh.2.1, ha.2.1, hcount]) fun n hn => ?_
  obtain ⟨hno, hnh, hna, hns⟩ : n < out.slots.length ∧ n < h.slots.length ∧
      n < a.slots.length ∧ n < seeds.length := by
    simpa [lt_min_iff] using hn
  rw [roundTwoAt_eq he hsource hs hh.2.2 hzero hzero ⟨hzero, hzero⟩
    (hout.2.2 _ (List.getElem_mem hno)), roundTwoAt, Lockstep.read_eq hnh,
    Lockstep.read_eq hna, Lockstep.read_eq hns]
  simp only [List.getElem_zip, ok_bind]

theorem scheduledRoundThree_eq_ok_iff {h : RoundTwoShare} {out out' : RoundThreeShare}
    (hh : h.Fills e.shape fun pair => e.ring.Reduced pair.1 ∧ e.ring.Reduced pair.2)
    (hu : e.ring.Reduced u) (hs : e.ring.Reduced s) (hout : out.Fills e.shape e.ring.Fits)
    (hout' : out'.Fills e.shape e.ring.Fits) {r : RoundThreeShare × Random.Generator} :
    e.scheduledRoundThree plan h u s out' g = .ok r ↔ e.roundThree h u s out g = .ok r := by
  obtain ⟨⟨seeds, g'⟩, hseeds, hcount⟩ := gives_drawSeeds he g
  have hmoduli := he.ring.validModuli
  have hdelta : e.ring.sub u s plan.common = e.ring.sub u s e.ring.zero :=
    NegacyclicRing.eq_of_gives_represents
      (NegacyclicRing.gives_sub hmoduli hu.represents hs.represents hplan.common)
      (NegacyclicRing.gives_sub hmoduli hu.represents hs.represents e.ring.fits_zero)
  obtain ⟨delta, hsub, _⟩ :=
    NegacyclicRing.gives_sub hmoduli hu.represents hs.represents e.ring.fits_zero
  have hwork := SlotWork.overwrites_plain e.ring (e.roundThreeAt delta h.slots seeds)
    fun n old hold => roundThreeAt_eq hsource hold e.ring.fits_zero
  unfold scheduledRoundThree roundThree
  rw [requireShape_eq hh.1, requireShape_eq hout'.1, requireShape_eq hout.1, hseeds, hdelta, hsub,
    hout.1, hout'.1]
  simp only [ok_bind, lift_ok]
  refine lift_bind_eq_ok_iff fun slots => ?_
  refine hwork.run_eq_ok_iff_mapM (by rw [hout'.2.1]; exact hplan) hout'.2.2
    (by simp [hout.2.1, hout'.2.1, hh.2.1, hcount]) fun n hn => ?_
  obtain ⟨hno, hnh, hns⟩ : n < out.slots.length ∧ n < h.slots.length ∧ n < seeds.length := by
    simpa [lt_min_iff] using hn
  rw [roundThreeAt_eq hsource e.ring.fits_zero (hout.2.2 _ (List.getElem_mem hno)),
    roundThreeAt, Lockstep.read_eq hnh, Lockstep.read_eq hns]
  simp only [List.getElem_zip, ok_bind]

end Rounds

include he hplan in
theorem scheduledKey_eq_ok_iff {two : RoundTwoShare} {three : RoundThreeShare}
    {out out' key : RelinearizationKey}
    (htwo : two.Fills e.shape fun pair => e.ring.Reduced pair.1 ∧ e.ring.Reduced pair.2)
    (hthree : three.Fills e.shape e.ring.Reduced)
    (hout : out.Fills e.shape fun pair => e.ring.Fits pair.1 ∧ e.ring.Fits pair.2)
    (hout' : out'.Fills e.shape fun pair => e.ring.Fits pair.1 ∧ e.ring.Fits pair.2) :
    e.scheduledKey plan two three out' = .ok key ↔
      e.relinearizationKey two three out = .ok key := by
  have htwoFirst : ∀ pair ∈ two.slots, e.ring.Reduced pair.1 :=
    fun pair hpair => (htwo.2.2 pair hpair).1
  have hkeyAt : ∀ n (old : Element × Element), e.ring.Fits old.1 ∧ e.ring.Fits old.2 →
      e.keyAt two.slots three.slots n old =
        e.keyAt two.slots three.slots n (e.ring.zero, e.ring.zero) :=
    fun n old hold => keyAt_eq he htwoFirst hthree.2.2 hold.1 e.ring.fits_zero
  have hwork := SlotWork.overwrites_plain e.ring (e.keyAt two.slots three.slots) hkeyAt
  unfold scheduledKey relinearizationKey
  rw [requireShape_eq htwo.1, requireShape_eq hthree.1, requireShape_eq hout'.1,
    requireShape_eq hout.1, hout.1, hout'.1]
  simp only [ok_bind]
  refine lift_bind_eq_ok_iff fun slots => ?_
  refine hwork.run_eq_ok_iff_mapM (by rw [hout'.2.1]; exact hplan) hout'.2.2
    (by simp [hout.2.1, hout'.2.1, htwo.2.1, hthree.2.1]) fun n hn => ?_
  obtain ⟨hno, hnt, hnh⟩ :
      n < out.slots.length ∧ n < two.slots.length ∧ n < three.slots.length := by
    simpa [lt_min_iff] using hn
  rw [← hkeyAt n _ (hout.2.2 _ (List.getElem_mem hno)), keyAt, Lockstep.read_eq hnt,
    Lockstep.read_eq hnh]
  simp only [List.getElem_zip, ok_bind]

end Calls

end Engine
end Protocol
end RelinCeremony
