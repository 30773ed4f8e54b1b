import RelinCeremony.Proofs.Protocol.Party
import RelinCeremony.Proofs.Protocol.Slots
import RelinCeremony.Proofs.Ring.Sampler

namespace RelinCeremony
namespace Protocol
namespace Engine

/-!
# Rounds on reduced elements

Where only the range of the residues matters, the values need not be named.  On reduced
operands the rounds write reduced shares, for every source that writes reduced elements; the key
is reduced as well.  Faults of the source are the only ones.
-/

open RelinCeremony.Ring (Element NegacyclicRing NoiseSource)

variable {e : Engine} {allowed : Fault → Prop}

/-! ## Slots -/

section Slots

variable {u s a h delta old : Element} {seed : Random.Seed}

/-- Noise that the source has written is the noise of the slot. -/
theorem gives_slotNoise {r : Element × Random.Generator} (hr : e.ring.Reduced r.1)
    (hrun : (e.source.noise e.ring old).run (slotGenerator seed) = .ok r) :
    Gives (e.slotNoise old seed) fun x => e.ring.Represents x (e.ring.values r.1) := by
  rw [slotNoise, hrun]
  exact ⟨r.1, rfl, hr.represents⟩

theorem roundOneSlot_reduced (he : e.Valid) (hsource : e.source.WritesReduced allowed e.ring)
    {i w : Nat} (hi : i < e.ring.channels.length) (hw : w < e.levels) (hu : e.ring.Reduced u)
    (hs : e.ring.Reduced s) (ha : e.ring.Reduced a) (hold : e.ring.Reduced old) :
    GivesUnless allowed (e.roundOneSlot u s i w a old seed) e.ring.Reduced := by
  refine GivesUnless.bind_of_ok (hsource old hold (slotGenerator seed)) fun r hrun hr => ?_
  have hslot := gives_roundOneSlot he hi hw hu.represents hs.represents ha.represents
    (gives_slotNoise hr hrun)
  exact .of_gives (hslot.imp fun _ hx => hx.reduced)

theorem roundTwoSlot_reduced (he : e.Valid) (hsource : e.source.WritesReduced allowed e.ring)
    {old : Element × Element} (hs : e.ring.Reduced s) (hh : e.ring.Reduced h)
    (ha : e.ring.Reduced a) (hold : Round.two.Holds e.ring.Reduced old) :
    GivesUnless allowed (e.roundTwoSlot s h a e.ring.zero old seed)
      (Round.two.Holds e.ring.Reduced) := by
  have hmoduli := he.ring.validModuli
  have hzero := (NegacyclicRing.represents_zero hmoduli).reduced
  have hpair := Round.holds_two.1 hold
  unfold roundTwoSlot
  -- The source may fail at each of the two noises, so there is no single noise to start from.
  refine (hsource _ hzero (slotGenerator seed)).bind fun first hfirst => ?_
  have hmul := NegacyclicRing.gives_mulMontgomery hmoduli hh.represents hs.represents hpair.1.1
  refine (GivesUnless.of_gives hmul).bind fun product hproduct => ?_
  have hadd := NegacyclicRing.gives_addAssign hmoduli hfirst.represents hproduct
  refine (GivesUnless.of_gives hadd).bind fun sum hsum => ?_
  refine (hsource _ hpair.2 first.2).bind fun second hsecond => ?_
  have hhide := NegacyclicRing.gives_mulMontgomeryAdd hmoduli hs.represents ha.represents
    hsecond.represents
  refine (GivesUnless.of_gives hhide).bind fun hidden hhidden => ?_
  exact Round.holds_two.2 ⟨hsum.reduced, hhidden.reduced⟩

theorem roundThreeSlot_reduced (he : e.Valid) (hsource : e.source.WritesReduced allowed e.ring)
    {h : Element × Element} (hdelta : e.ring.Reduced delta)
    (hh : Round.two.Holds e.ring.Reduced h) (hold : e.ring.Reduced old) :
    GivesUnless allowed (e.roundThreeSlot delta h old seed) e.ring.Reduced := by
  refine GivesUnless.bind_of_ok (hsource old hold (slotGenerator seed)) fun r hrun hr => ?_
  have hslot := gives_roundThreeSlot he hdelta.represents (Round.holds_two.1 hh).2.represents
    (gives_slotNoise hr hrun)
  exact .of_gives (hslot.imp fun _ hx => hx.reduced)

end Slots

/-! ## Shares -/

section Shares

variable {u s : Element} (g : Random.Generator)

theorem roundOne_reduced (he : e.Valid) (hsource : e.source.WritesReduced allowed e.ring)
    {a : CommonMatrix} {out : RoundOneShare} (hu : e.ring.Reduced u) (hs : e.ring.Reduced s)
    (ha : a.Fills e.shape e.ring.Reduced) (hout : out.Fills e.shape e.ring.Reduced) :
    GivesUnless (Failure.IsFault allowed) (e.roundOne u s a out g) fun r =>
      r.1.Fills e.shape e.ring.Reduced := by
  obtain ⟨⟨seeds, g'⟩, hseeds, hcount⟩ := gives_drawSeeds he g
  have hlength : (out.slots.zip (a.slots.zip seeds)).length = e.shape.moduli * e.shape.levels := by
    simp [hout.2.1, ha.2.1, hcount]
  unfold roundOne
  rw [requireShape_eq ha.1, requireShape_eq hout.1, hseeds, hout.1]
  simp only [ok_bind, lift_ok]
  refine (Grid.givesUnless_mapSlots e.shape (by simpa using hlength) ?_).lift.bind
    fun slots hslots => hslots
  rintro ⟨⟨old, aSlot, seed⟩, index⟩ hitem
  obtain ⟨hindex, hslots⟩ := List.mem_zipIdx' hitem
  obtain ⟨hold, hrest⟩ := List.of_mem_zip (hslots ▸ List.getElem_mem hindex)
  obtain ⟨hi, hw⟩ := Grid.coordinates_lt (Nat.lt_of_lt_of_eq hindex hlength)
  simp only [Shape.coordinates_eq hw, ok_bind]
  exact roundOneSlot_reduced he hsource hi hw hu hs (ha.2.2 _ (List.of_mem_zip hrest).1)
    (hout.2.2 _ hold)

theorem roundTwo_reduced (he : e.Valid) (hsource : e.source.WritesReduced allowed e.ring)
    {h : RoundOneShare} {a : CommonMatrix} {out : RoundTwoShare}
    (hh : h.Fills e.shape e.ring.Reduced) (hs : e.ring.Reduced s)
    (ha : a.Fills e.shape e.ring.Reduced)
    (hout : out.Fills e.shape (Round.two.Holds e.ring.Reduced)) :
    GivesUnless (Failure.IsFault allowed) (e.roundTwo h s a out g) fun r =>
      r.1.Fills e.shape (Round.two.Holds e.ring.Reduced) := by
  obtain ⟨⟨seeds, g'⟩, hseeds, hcount⟩ := gives_drawSeeds he g
  unfold roundTwo
  rw [requireShape_eq hh.1, requireShape_eq ha.1, requireShape_eq hout.1, hseeds, hout.1]
  simp only [ok_bind, lift_ok]
  refine (Grid.givesUnless_mapSlots e.shape ?_ ?_).lift.bind fun slots hslots => hslots
  · simp [hout.2.1, hh.2.1, ha.2.1, hcount]
  · rintro ⟨old, hSlot, aSlot, seed⟩ hitem
    obtain ⟨hold, hrest⟩ := List.of_mem_zip hitem
    obtain ⟨hhSlot, hrest⟩ := List.of_mem_zip hrest
    exact roundTwoSlot_reduced he hsource hs (hh.2.2 _ hhSlot)
      (ha.2.2 _ (List.of_mem_zip hrest).1) (hout.2.2 _ hold)

theorem roundThree_reduced (he : e.Valid) (hsource : e.source.WritesReduced allowed e.ring)
    {h : RoundTwoShare} {out : RoundThreeShare}
    (hh : h.Fills e.shape (Round.two.Holds e.ring.Reduced)) (hu : e.ring.Reduced u)
    (hs : e.ring.Reduced s) (hout : out.Fills e.shape e.ring.Reduced) :
    GivesUnless (Failure.IsFault allowed) (e.roundThree h u s out g) fun r =>
      r.1.Fills e.shape e.ring.Reduced := by
  obtain ⟨⟨seeds, g'⟩, hseeds, hcount⟩ := gives_drawSeeds he g
  obtain ⟨delta, hsub, hdelta⟩ := NegacyclicRing.gives_sub he.ring.validModuli hu.represents
    hs.represents e.ring.fits_zero
  unfold roundThree
  rw [requireShape_eq hh.1, requireShape_eq hout.1, hseeds, hsub, hout.1]
  simp only [ok_bind, lift_ok]
  refine (Grid.givesUnless_mapSlots e.shape ?_ ?_).lift.bind fun slots hslots => hslots
  · simp [hout.2.1, hh.2.1, hcount]
  · rintro ⟨old, hSlot, seed⟩ hitem
    obtain ⟨hold, hrest⟩ := List.of_mem_zip hitem
    exact roundThreeSlot_reduced he hsource hdelta.reduced (hh.2.2 _ (List.of_mem_zip hrest).1)
      (hout.2.2 _ hold)

end Shares

/-! ## The key -/

theorem gives_relinearizationKey_reduced (he : e.Valid) {two : RoundTwoShare}
    {three : RoundThreeShare} {out : RelinearizationKey}
    (htwo : two.Fills e.shape (Round.two.Holds e.ring.Reduced))
    (hthree : three.Fills e.shape e.ring.Reduced)
    (hout : out.Fills e.shape (Round.two.Holds e.ring.Reduced)) :
    Gives (e.relinearizationKey two three out) fun key =>
      key.Fills e.shape (Round.two.Holds e.ring.Reduced) := by
  have htwo' := htwo.imp fun _ hpair => Round.holds_two.1 hpair
  have hfits := hout.imp fun _ hpair => Round.holds_two.1 (hpair.imp fun _ ha => ha.1)
  have hkey := gives_relinearizationKey he (V := fun i w =>
    (e.ring.values (two.slot i w).1, e.ring.values (two.slot i w).2))
    (fillsAt_pairValues htwo') (fillsAt_values hthree) hfits
  exact hkey.imp fun key hkey => hkey.fills fun _ _ _ hpair =>
    Round.holds_two.2 ⟨hpair.1.reduced, hpair.2.reduced⟩

end Engine
end Protocol
end RelinCeremony
