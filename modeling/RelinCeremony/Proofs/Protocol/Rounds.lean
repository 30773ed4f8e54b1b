import RelinCeremony.Proofs.Protocol.Engine
import RelinCeremony.Protocol.Rounds

namespace RelinCeremony
namespace Protocol
namespace Engine

/-!
# The rounds on families of values

The noise of a round is what the source writes into the slots, seed by seed; it is
computed here apart from the shares.  On reduced operands and reduced noise each
round gives a share whose slots are the values that its formula says.
-/

open RelinCeremony.Ring (Element NegacyclicRing)

/-! ## Noise -/

/-- The noise that a round of single elements writes into a slot. -/
def slotNoise (e : Engine) (old : Element) (seed : Random.Seed) : Checked Element := do
  let (noise, _) ← (e.source.noise e.ring old).run (slotGenerator seed)
  return noise

/-- The two noises that the second round writes into a slot. -/
def pairSlotNoise (e : Engine) (old : Element × Element) (seed : Random.Seed) :
    Checked (Element × Element) := do
  let (first, g) ← (e.source.noise e.ring e.ring.zero).run (slotGenerator seed)
  let (second, _) ← (e.source.noise e.ring old.2).run g
  return (first, second)

/-- The noise of a share, with one seed for each slot. -/
def drawNoise {α : Type} (e : Engine) (slot : α → Random.Seed → Checked α) (out : Grid α)
    (g : Random.Generator) : Checked (Grid α) := do
  let (seeds, _) ← e.drawSeeds.run g
  let slots ← (out.slots.zip seeds).mapM fun (old, seed) => slot old seed
  return ⟨out.shape, slots⟩

/-- Drawn noise comes from a seed for each slot. -/
theorem exists_seeds {α : Type} {e : Engine} (he : e.Valid) {out : Grid α}
    {g : Random.Generator} {slot : α → Random.Seed → Checked α} {P : Nat → Nat → α → Prop}
    (h : Gives (e.drawNoise slot out g) fun noise => noise.FillsAt e.shape P) :
    ∃ seeds g', e.drawSeeds.run g = .ok (seeds, g') ∧
      seeds.length = e.shape.moduli * e.shape.levels ∧
        ∀ n (ho : n < out.slots.length) (hs : n < seeds.length),
          Gives (slot out.slots[n] seeds[n]) (P (n / e.shape.levels) (n % e.shape.levels)) := by
  obtain ⟨⟨seeds, g'⟩, hseeds, h⟩ := h.of_bind
  obtain ⟨slots, hslots, hnoise⟩ := h.of_bind
  rw [Gives.pure_iff] at hnoise
  refine ⟨seeds, g', hseeds, (gives_drawSeeds he g).value_unique hseeds, fun n ho hs => ?_⟩
  have hforall := mapM_eq_ok_iff.1 hslots
  have hn : n < (out.slots.zip seeds).length := by
    rw [List.length_zip]
    exact lt_min ho hs
  have hn' : n < slots.length := by
    rw [← hforall.length_eq]
    exact hn
  have hitem := hforall.get hn hn'
  simp only [List.get_eq_getElem, List.getElem_zip] at hitem
  exact ⟨_, hitem, hnoise.slots n hn'⟩

/-! ## Slots -/

section Slots

variable {e : Engine} {u s a h delta old : Element} {seed : Random.Seed}
  {U S A H N D : e.ring.Values}

theorem gives_roundOneSlot (he : e.Valid) {i w : Nat} (hi : i < e.ring.channels.length)
    (hw : w < e.levels) (hu : e.ring.Represents u U) (hs : e.ring.Represents s S)
    (ha : e.ring.Represents a A)
    (hnoise : Gives (e.slotNoise old seed) fun x => e.ring.Represents x N) :
    Gives (e.roundOneSlot u s i w a old seed) fun x => e.ring.Represents x
      (N + e.ring.gadget i (w * e.digitBits) * S * e.ring.radixInverse -
        U * A * e.ring.radixInverse) := by
  obtain ⟨hmul, hmod⟩ := he.checkedMul_shift hw
  have hbits : w * e.digitBits < 64 := by
    have hshift := he.shift_lt hw
    unfold coveredBits at hshift
    omega
  unfold roundOneSlot
  refine hnoise.of_bind.bind fun r hr => ?_
  have hr' : e.ring.Represents r.1 N := by simpa using hr
  dsimp only
  rw [hmul, ok_bind, hmod]
  refine (NegacyclicRing.gives_addShiftedDigits he.ring.validModuli hi hbits hs hr').bind
    fun gadget hgadget => ?_
  exact NegacyclicRing.gives_mulMontgomerySub he.ring.validModuli hu ha hgadget

theorem gives_roundTwoSlot (he : e.Valid) {N₁ N₂ : e.ring.Values} {old : Element × Element}
    (hold : e.ring.Fits old.1) (hs : e.ring.Represents s S) (hh : e.ring.Represents h H)
    (ha : e.ring.Represents a A)
    (hnoise : Gives (e.pairSlotNoise old seed) fun pair =>
      e.ring.Represents pair.1 N₁ ∧ e.ring.Represents pair.2 N₂) :
    Gives (e.roundTwoSlot s h a e.ring.zero old seed) fun pair =>
      e.ring.Represents pair.1 (H * S * e.ring.radixInverse + N₁) ∧
        e.ring.Represents pair.2 (N₂ + S * A * e.ring.radixInverse) := by
  unfold roundTwoSlot
  refine hnoise.of_bind.bind fun first hfirst => ?_
  obtain ⟨second, hsecond, hpair⟩ := hfirst.of_bind
  obtain ⟨hN₁, hN₂⟩ := Gives.pure_iff.1 hpair
  refine (NegacyclicRing.gives_mulMontgomery he.ring.validModuli hh hs hold).bind
    fun product hproduct => ?_
  refine (NegacyclicRing.gives_addAssign he.ring.validModuli hN₁ hproduct).bind
    fun sum hsum => ?_
  rw [hsecond]
  exact (NegacyclicRing.gives_mulMontgomeryAdd he.ring.validModuli hs ha hN₂).bind
    fun hidden hhidden => ⟨_, rfl, hsum, hhidden⟩

theorem gives_roundThreeSlot (he : e.Valid) {h : Element × Element}
    (hdelta : e.ring.Represents delta D) (hh : e.ring.Represents h.2 H)
    (hnoise : Gives (e.slotNoise old seed) fun x => e.ring.Represents x N) :
    Gives (e.roundThreeSlot delta h old seed) fun x =>
      e.ring.Represents x (N + D * H * e.ring.radixInverse) := by
  unfold roundThreeSlot
  refine hnoise.of_bind.bind fun r hr => ?_
  have hr' : e.ring.Represents r.1 N := by simpa using hr
  exact NegacyclicRing.gives_mulMontgomeryAdd he.ring.validModuli hdelta hh hr'

end Slots

/-! ## Shares -/

section Shares

variable {e : Engine} {u s : Element} {g : Random.Generator} {U S : e.ring.Values}

theorem gives_roundOne (he : e.Valid) {a : CommonMatrix} {out : RoundOneShare}
    {A N : Nat → Nat → e.ring.Values} (hu : e.ring.Represents u U) (hs : e.ring.Represents s S)
    (ha : a.FillsAt e.shape fun i w x => e.ring.Represents x (A i w))
    (hout : out.Fills e.shape e.ring.Fits)
    (hnoise : Gives (e.drawNoise e.slotNoise out g) fun noise =>
      noise.FillsAt e.shape fun i w x => e.ring.Represents x (N i w)) :
    Gives (e.roundOne u s a out g) fun r => r.1.FillsAt e.shape fun i w x =>
      e.ring.Represents x (N i w + e.ring.gadget i (w * e.digitBits) * S * e.ring.radixInverse -
        U * A i w * e.ring.radixInverse) := by
  obtain ⟨seeds, g', hseeds, hcount, hslot⟩ := exists_seeds he hnoise
  unfold roundOne
  rw [requireShape_eq ha.shape_eq, requireShape_eq hout.1, hseeds, hout.1]
  simp only [ok_bind, lift_ok]
  refine Gives.bind (Gives.lift (Grid.gives_mapSlots e.shape ?_ ?_))
    fun slots hslots => ⟨_, rfl, hslots⟩
  · simp [hout.2.1, ha.length_eq, hcount]
  · intro n hn hi hw
    obtain ⟨hno, hna, hns⟩ :
        n < out.slots.length ∧ n < a.slots.length ∧ n < seeds.length := by
      simpa [lt_min_iff] using hn
    simp only [List.getElem_zipIdx, List.getElem_zip, Nat.zero_add]
    rw [Shape.coordinates_eq hw]
    exact gives_roundOneSlot he hi hw hu hs (ha.slots n hna) (hslot n hno hns)

theorem gives_roundTwo (he : e.Valid) {h : RoundOneShare} {a : CommonMatrix}
    {out : RoundTwoShare} {H A N₁ N₂ : Nat → Nat → e.ring.Values}
    (hh : h.FillsAt e.shape fun i w x => e.ring.Represents x (H i w))
    (hs : e.ring.Represents s S)
    (ha : a.FillsAt e.shape fun i w x => e.ring.Represents x (A i w))
    (hout : out.Fills e.shape fun pair => e.ring.Fits pair.1 ∧ e.ring.Fits pair.2)
    (hnoise : Gives (e.drawNoise e.pairSlotNoise out g) fun noise =>
      noise.FillsAt e.shape fun i w pair =>
        e.ring.Represents pair.1 (N₁ i w) ∧ e.ring.Represents pair.2 (N₂ i w)) :
    Gives (e.roundTwo h s a out g) fun r => r.1.FillsAt e.shape fun i w pair =>
      e.ring.Represents pair.1 (H i w * S * e.ring.radixInverse + N₁ i w) ∧
        e.ring.Represents pair.2 (N₂ i w + S * A i w * e.ring.radixInverse) := by
  obtain ⟨seeds, g', hseeds, hcount, hslot⟩ := exists_seeds he hnoise
  unfold roundTwo
  rw [requireShape_eq hh.shape_eq, requireShape_eq ha.shape_eq, requireShape_eq hout.1, hseeds,
    hout.1]
  simp only [ok_bind, lift_ok]
  refine Gives.bind (Gives.lift (Grid.gives_mapSlots e.shape ?_ ?_))
    fun slots hslots => ⟨_, rfl, hslots⟩
  · simp [hout.2.1, hh.length_eq, ha.length_eq, hcount]
  · intro n hn hi hw
    obtain ⟨hno, hnh, hna, hns⟩ : n < out.slots.length ∧ n < h.slots.length ∧
        n < a.slots.length ∧ n < seeds.length := by
      simpa [lt_min_iff] using hn
    simp only [List.getElem_zip]
    exact gives_roundTwoSlot he (hout.2.2 _ (List.getElem_mem hno)).1 hs (hh.slots n hnh)
      (ha.slots n hna) (hslot n hno hns)

theorem gives_roundThree (he : e.Valid) {h : RoundTwoShare} {out : RoundThreeShare}
    {H N : Nat → Nat → e.ring.Values}
    (hh : h.FillsAt e.shape fun i w pair => e.ring.Represents pair.2 (H i w))
    (hu : e.ring.Represents u U) (hs : e.ring.Represents s S)
    (hout : out.Fills e.shape e.ring.Fits)
    (hnoise : Gives (e.drawNoise e.slotNoise out g) fun noise =>
      noise.FillsAt e.shape fun i w x => e.ring.Represents x (N i w)) :
    Gives (e.roundThree h u s out g) fun r => r.1.FillsAt e.shape fun i w x =>
      e.ring.Represents x (N i w + (U - S) * H i w * e.ring.radixInverse) := by
  obtain ⟨seeds, g', hseeds, hcount, hslot⟩ := exists_seeds he hnoise
  unfold roundThree
  rw [requireShape_eq hh.shape_eq, requireShape_eq hout.1, hseeds, hout.1]
  simp only [ok_bind, lift_ok]
  have hdelta := NegacyclicRing.gives_sub he.ring.validModuli hu hs e.ring.fits_zero
  refine Gives.bind hdelta.lift fun delta hdelta => ?_
  refine Gives.bind (Gives.lift (Grid.gives_mapSlots e.shape ?_ ?_))
    fun slots hslots => ⟨_, rfl, hslots⟩
  · simp [hout.2.1, hh.length_eq, hcount]
  · intro n hn hi hw
    obtain ⟨hno, hnh, hns⟩ :
        n < out.slots.length ∧ n < h.slots.length ∧ n < seeds.length := by
      simpa [lt_min_iff] using hn
    simp only [List.getElem_zip]
    exact gives_roundThreeSlot he hdelta (hh.slots n hnh) (hslot n hno hns)

end Shares

end Engine
end Protocol
end RelinCeremony
