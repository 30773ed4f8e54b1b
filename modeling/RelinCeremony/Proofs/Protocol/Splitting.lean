import RelinCeremony.Proofs.Protocol.Ceremony

namespace RelinCeremony
namespace Protocol

/-!
# Splittings of the keys

The aggregates and the key of a run depend on the parties only by sums: two runs whose
secrets, ephemeral keys and noise have the same sums leave the same transcript.  So a
run is told by a single party that holds the sums, and all splittings of the same keys
into shares without noise give one key.
-/

open RelinCeremony.Ring (Element NegacyclicRing NoiseSource)

/-- The noise of two runs has the same sums in the slot `(i, w)`. -/
structure SameNoise (ring : NegacyclicRing) (noises noises' : List PartyNoise) (i w : Nat) :
    Prop where
  one : (noises.map fun noise => ring.values (noise.one.slot i w)).sum =
    (noises'.map fun noise => ring.values (noise.one.slot i w)).sum
  twoFirst : (noises.map fun noise => ring.values (noise.two.slot i w).1).sum =
    (noises'.map fun noise => ring.values (noise.two.slot i w).1).sum
  twoSecond : (noises.map fun noise => ring.values (noise.two.slot i w).2).sum =
    (noises'.map fun noise => ring.values (noise.two.slot i w).2).sum
  three : (noises.map fun noise => ring.values (noise.three.slot i w)).sum =
    (noises'.map fun noise => ring.values (noise.three.slot i w)).sum

/-! ## Equal sums -/

section Sums

variable {ring : NegacyclicRing}

theorem sum_plain_eq (hring : ring.ValidModuli) {elements elements' : List Element}
    (hreduced : ∀ a ∈ elements, ring.Reduced a) (hreduced' : ∀ a ∈ elements', ring.Reduced a)
    (h : sumElements ring elements = sumElements ring elements') :
    (elements.map (plain ring)).sum = (elements'.map (plain ring)).sum := by
  obtain ⟨sum, hsum, hrepresents⟩ := gives_sumElements hring hreduced
  have hrepresents' := (gives_sumElements hring hreduced').value_unique (h.symm.trans hsum)
  rw [sum_map_plain, sum_map_plain, ← hrepresents.values_eq, ← hrepresents'.values_eq]

end Sums

/-! ## Equal transcripts -/

/-- The values of a transcript depend on the sums within the shape only. -/
theorem Transcript.HasValues.congr {t : Transcript} {e : Engine} {a : CommonMatrix}
    {c c' : Nat → Nat → Contribution e.ring.Values} (h : t.HasValues e a c)
    (hc : ∀ i < e.shape.moduli, ∀ w < e.shape.levels, c i w = c' i w) : t.HasValues e a c' where
  one := h.one.imp_lt fun i hi w hw x hx => by
    rw [← hc i hi w hw]
    exact hx
  two := h.two.imp_lt fun i hi w hw pair hpair => by
    rw [← hc i hi w hw]
    exact hpair
  three := h.three.imp_lt fun i hi w hw x hx => by
    rw [← hc i hi w hw]
    exact hx
  key := h.key.imp_lt fun i hi w hw slot hslot => by
    rw [← hc i hi w hw]
    exact hslot

/-- Two runs of parties whose keys and whose noise have the same sums leave the same
aggregates and the same key, whatever the numbers of parties are. -/
theorem transcript_eq_of_sums {moduli : List Nat} {degree digitBits : Nat}
    {ring : NegacyclicRing} {source : NoiseSource} {e : Engine}
    (hring : NegacyclicRing.build moduli degree = .ok ring)
    (hengine : Engine.build ring source digitBits = .ok e) {a : CommonMatrix}
    {parties parties' : List Party} {noises noises' : List PartyNoise}
    {out out' : RelinearizationKey} (hrun : IsRun e a parties noises out)
    (hrun' : IsRun e a parties' noises' out')
    (hsecret : sumElements ring (parties.map Party.secret) =
      sumElements ring (parties'.map Party.secret))
    (hephemeral : sumElements ring (parties.map Party.ephemeral) =
      sumElements ring (parties'.map Party.ephemeral))
    (hnoise : ∀ i < ring.channels.length, ∀ w < e.levels, SameNoise ring noises noises' i w) :
    ∃ t, e.ceremony a parties out = .ok t ∧ e.ceremony a parties' out' = .ok t := by
  obtain ⟨he, rfl, rfl⟩ := Engine.valid_of_build (NegacyclicRing.valid_of_build hring).1 hengine
  obtain ⟨t, ht, hvalues⟩ := gives_ceremony he hrun
  obtain ⟨t', ht', hvalues'⟩ := gives_ceremony he hrun'
  have hsecrets := sum_plain_eq he.ring.validModuli hrun.reduced_secrets hrun'.reduced_secrets
    hsecret
  have hephemerals := sum_plain_eq he.ring.validModuli hrun.reduced_ephemerals
    hrun'.reduced_ephemerals hephemeral
  rw [List.map_map, List.map_map] at hsecrets hephemerals
  have hsums : ∀ i < e.shape.moduli, ∀ w < e.shape.levels,
      sums e.ring parties noises i w = sums e.ring parties' noises' i w := by
    intro i hi w hw
    have hslot := hnoise i hi w hw
    simp only [sums, Contribution.mk.injEq]
    exact ⟨hsecrets, hephemerals, hslot.one, hslot.twoFirst, hslot.twoSecond, hslot.three⟩
  have heq := (hvalues.congr hsums).unique hvalues'
  exact ⟨t, ht, by rw [heq]; exact ht'⟩

/-! ## A splitting

Two parties of the small ring with fixed noise, and one party with their sums. -/

/-- A source that writes the same element everywhere. -/
def constantSource (a : Element) : NoiseSource := ⟨Ring.sampleTernary, fun _ _ => return a⟩

def constantNoise (a : Element) : PartyNoise where
  one := ⟨smallEngine.shape, List.replicate 4 a⟩
  two := ⟨smallEngine.shape, List.replicate 4 (a, a)⟩
  three := ⟨smallEngine.shape, List.replicate 4 a⟩

/-- A party with the given secret, ephemeral key and noise. -/
def fixedParty (keys : Element × Element × Element) : Party :=
  smallParty keys.1 keys.2.1 (constantSource keys.2.2) 3

theorem eq_replicate_of_fills {α : Type} {grid : Grid α} {x : α}
    (h : grid.Fills smallEngine.shape (· = x)) :
    grid = ⟨smallEngine.shape, List.replicate 4 x⟩ := by
  have hcount : smallEngine.shape.moduli * smallEngine.shape.levels = 4 := by decide +kernel
  obtain ⟨hshape, hlength, hslots⟩ := h
  cases grid
  simp only at hshape hlength hslots
  rw [hshape, List.eq_replicate_iff.2 ⟨hlength.trans hcount, hslots⟩]

theorem slot_replicate {α : Type} [Inhabited α] (x : α) {i w : Nat}
    (hi : i < smallRing.channels.length) (hw : w < 2) :
    (⟨smallEngine.shape, List.replicate 4 x⟩ : Grid α).slot i w = x :=
  ((fills_replicate (P := (· = x)) rfl).fillsAt.slot hi hw).1

theorem isRun_fixedParty {keys : List (Element × Element × Element)} (hne : keys ≠ [])
    (hreduced : ∀ k ∈ keys, smallRing.Reduced k.1 ∧ smallRing.Reduced k.2.1 ∧
      smallRing.Reduced k.2.2) :
    IsRun smallEngine smallMatrix (keys.map fixedParty)
      (keys.map fun k => constantNoise k.2.2) smallOut where
  matrix := isRun_small.matrix
  nonempty := by simpa using hne
  admissible := by
    intro p hp
    obtain ⟨k, hk, rfl⟩ := List.mem_map.1 hp
    exact smallParty_admissible (hreduced k hk).1 (hreduced k hk).2.1 _ _
  noise_eq := by
    rw [List.mapM_map]
    refine mapM_eq_ok_map fun k hk => ?_
    have hadmissible := smallParty_admissible (hreduced k hk).1 (hreduced k hk).2.1
      (constantSource k.2.2) 3
    obtain ⟨noise, hnoise, hfills⟩ := gives_noise (P := (· = k.2.2)) smallEngine_valid hadmissible
      fun _ g _ => ⟨(k.2.2, g), rfl, rfl⟩
    refine hnoise.trans (congrArg Except.ok ?_)
    cases noise
    simp only [constantNoise, PartyNoise.mk.injEq]
    exact ⟨eq_replicate_of_fills hfills.one,
      eq_replicate_of_fills (hfills.two.imp fun _ hpair => Prod.ext hpair.1 hpair.2),
      eq_replicate_of_fills hfills.three⟩
  reduced := by
    intro noise hnoise
    obtain ⟨k, hk, rfl⟩ := List.mem_map.1 hnoise
    have hnoise := (hreduced k hk).2.2
    exact ⟨fills_replicate hnoise, fills_replicate ⟨hnoise, hnoise⟩, fills_replicate hnoise⟩
  out := isRun_small.out

def smallSum (elements : List Element) : Element :=
  (sumElements smallRing elements).toOption.getD default

theorem sumElements_small {elements : List Element}
    (hreduced : ∀ a ∈ elements, smallRing.Reduced a) :
    sumElements smallRing elements = .ok (smallSum elements) ∧
      smallRing.Represents (smallSum elements) (elements.map smallRing.values).sum := by
  have hmoduli : smallRing.ValidModuli := smallEngine_valid.ring.validModuli
  obtain ⟨sum, hsum, hrepresents⟩ := gives_sumElements hmoduli hreduced
  have heq : smallSum elements = sum := by
    rw [smallSum, hsum]
    rfl
  rw [heq]
  exact ⟨hsum, hrepresents⟩

/-- Secrets, ephemeral keys and noise of two parties. -/
def splitKeys : List (Element × Element × Element) :=
  [(smallKey [1, 0, -1, 1, 0, 0, 1, -1], smallKey [0, 1, 1, 0, -1, 0, 0, 1],
      smallKey [2, 0, 0, 1, -1, 0, 2, 1]),
    (smallKey [0, 1, 1, -1, 1, 0, -1, 0], smallKey [1, -1, 0, 0, 1, 1, 0, 0],
      smallKey [0, -2, 1, 0, 0, 1, 1, -1])]

/-- The sums of the secrets, the ephemeral keys and the noise. -/
def unsplitKeys : Element × Element × Element :=
  (smallSum (splitKeys.map fun k => k.1), smallSum (splitKeys.map fun k => k.2.1),
    smallSum (splitKeys.map fun k => k.2.2))

theorem splitKeys_reduced : ∀ k ∈ splitKeys, smallRing.Reduced k.1 ∧ smallRing.Reduced k.2.1 ∧
    smallRing.Reduced k.2.2 := by
  intro k hk
  simp only [splitKeys, List.mem_cons, List.not_mem_nil, or_false] at hk
  rcases hk with rfl | rfl <;>
    exact ⟨smallKey_reduced rfl, smallKey_reduced rfl, smallKey_reduced rfl⟩

/-- The sums are reduced, and the elements have the same sums as the sums alone. -/
theorem smallSum_reduced (read : Element × Element × Element → Element)
    (hread : ∀ k ∈ splitKeys, smallRing.Reduced (read k)) :
    smallRing.Reduced (smallSum (splitKeys.map read)) ∧
      sumElements smallRing (splitKeys.map read) = .ok (smallSum (splitKeys.map read)) ∧
      ((splitKeys.map read).map smallRing.values).sum =
        smallRing.values (smallSum (splitKeys.map read)) := by
  have hmap : ∀ a ∈ splitKeys.map read, smallRing.Reduced a := by
    intro a ha
    obtain ⟨k, hk, rfl⟩ := List.mem_map.1 ha
    exact hread k hk
  obtain ⟨hsum, hrepresents⟩ := sumElements_small hmap
  exact ⟨hrepresents.reduced, hsum, hrepresents.values_eq.symm⟩

theorem sameNoise_split {i w : Nat} (hi : i < smallRing.channels.length) (hw : w < 2) :
    SameNoise smallRing (splitKeys.map fun k => constantNoise k.2.2)
      ([unsplitKeys].map fun k => constantNoise k.2.2) i w := by
  have hsum := (smallSum_reduced (fun k => k.2.2) fun k hk => (splitKeys_reduced k hk).2.2).2.2
  have hslot : ∀ read : PartyNoise → Element, (∀ a, read (constantNoise a) = a) →
      ((splitKeys.map fun k => constantNoise k.2.2).map fun noise =>
        smallRing.values (read noise)).sum =
          (([unsplitKeys].map fun k => constantNoise k.2.2).map fun noise =>
            smallRing.values (read noise)).sum := by
    intro read hread
    simp only [List.map_map, Function.comp_def, hread, List.map_cons, List.map_nil, List.sum_cons,
      List.sum_nil, add_zero]
    rw [List.map_map] at hsum
    exact hsum
  exact ⟨hslot (fun noise => noise.one.slot i w) fun a => slot_replicate a hi hw,
    hslot (fun noise => (noise.two.slot i w).1) fun a => by
      rw [constantNoise, slot_replicate (a, a) hi hw],
    hslot (fun noise => (noise.two.slot i w).2) fun a => by
      rw [constantNoise, slot_replicate (a, a) hi hw],
    hslot (fun noise => noise.three.slot i w) fun a => slot_replicate a hi hw⟩

theorem transcript_eq_of_sums_small :
    ∃ t, smallEngine.ceremony smallMatrix (splitKeys.map fixedParty) smallOut = .ok t ∧
      smallEngine.ceremony smallMatrix ([unsplitKeys].map fixedParty) smallOut = .ok t := by
  obtain ⟨hsecret, hsecretSum, _⟩ :=
    smallSum_reduced (fun k => k.1) fun k hk => (splitKeys_reduced k hk).1
  obtain ⟨hephemeral, hephemeralSum, _⟩ :=
    smallSum_reduced (fun k => k.2.1) fun k hk => (splitKeys_reduced k hk).2.1
  obtain ⟨hnoise, _⟩ :=
    smallSum_reduced (fun k => k.2.2) fun k hk => (splitKeys_reduced k hk).2.2
  have hreduced : ∀ k ∈ [unsplitKeys], smallRing.Reduced k.1 ∧ smallRing.Reduced k.2.1 ∧
      smallRing.Reduced k.2.2 := by
    intro k hk
    rw [List.mem_singleton.1 hk]
    exact ⟨hsecret, hephemeral, hnoise⟩
  refine transcript_eq_of_sums build_smallRing build_smallEngine
    (isRun_fixedParty (by simp [splitKeys]) splitKeys_reduced)
    (isRun_fixedParty (by simp) hreduced) ?_ ?_ fun i hi w hw => sameNoise_split hi hw
  · rw [List.map_map]
    exact hsecretSum
  · rw [List.map_map]
    exact hephemeralSum

end Protocol
end RelinCeremony
