import RelinCeremony.Proofs.Protocol.Aggregation
import RelinCeremony.Proofs.Protocol.Party

namespace RelinCeremony
namespace Protocol

/-!
# Ceremonies

A ceremony is a whole run of the protocol: every party makes its share of a round on
the aggregate of the round before, the shares are summed, and the last two aggregates
give the key.

The main statement, `gives_ceremony`, says which values the aggregates and the key have:
those of the rounds on the sums of the keys and of the noise.
-/

open RelinCeremony.Ring (Element NegacyclicRing NoiseSource)

/-- What a run of the protocol leaves behind: the three aggregates and the key. -/
structure Transcript where
  one : RoundOneShare
  two : RoundTwoShare
  three : RoundThreeShare
  key : RelinearizationKey
deriving DecidableEq

namespace Engine

/-- A run of the protocol, with the key written over `out`. -/
def ceremony (e : Engine) (a : CommonMatrix) (parties : List Party) (out : RelinearizationKey) :
    Outcome Transcript := do
  let one ← e.sumShares (← parties.mapM (Party.shareOne e a))
  let two ← e.sumShares (← parties.mapM (Party.shareTwo e a one))
  let three ← e.sumShares (← parties.mapM (Party.shareThree e two))
  return ⟨one, two, three, ← e.relinearizationKey two three out⟩

end Engine

/-- What callers of a run promise: there is a party, and the matrix, the keys and the noise
that the sources write are reduced. -/
structure IsRun (e : Engine) (a : CommonMatrix) (parties : List Party) (noises : List PartyNoise)
    (out : RelinearizationKey) : Prop where
  matrix : a.Fills e.shape e.ring.Reduced
  nonempty : parties ≠ []
  admissible : ∀ p ∈ parties, p.Admissible e
  noise_eq : parties.mapM (Party.noise e) = .ok noises
  reduced : ∀ noise ∈ noises, noise.Fills e.shape e.ring.Reduced
  out : out.Fills e.shape fun slot => e.ring.Fits slot.1 ∧ e.ring.Fits slot.2

/-! ## Sums of elements -/

section Elements

variable {ring : NegacyclicRing}

/-- The sum of elements, each added in place to those before. -/
def sumElements (ring : NegacyclicRing) : List Element → Checked Element
  | [] => .ok ring.zero
  | first :: rest => rest.foldlM (fun total a => ring.addAssign a total) first

theorem gives_foldlM_addAssign (hring : ring.ValidModuli) {elements : List Element}
    (hreduced : ∀ a ∈ elements, ring.Reduced a) {first : Element} {x : ring.Values}
    (hfirst : ring.Represents first x) :
    Gives (elements.foldlM (fun total a => ring.addAssign a total) first) fun sum =>
      ring.Represents sum (x + (elements.map ring.values).sum) := by
  induction elements generalizing first x with
  | nil => exact ⟨first, rfl, by simpa using hfirst⟩
  | cons a elements ih =>
      have ha := (hreduced a (by simp)).represents
      rw [List.foldlM_cons]
      refine (NegacyclicRing.gives_addAssign hring ha hfirst).bind fun total htotal => ?_
      refine (ih (fun b hb => hreduced b (by simp [hb])) htotal).imp fun sum hsum => ?_
      simpa only [List.map_cons, List.sum_cons, add_assoc] using hsum

theorem gives_sumElements (hring : ring.ValidModuli) {elements : List Element}
    (hreduced : ∀ a ∈ elements, ring.Reduced a) :
    Gives (sumElements ring elements) fun sum =>
      ring.Represents sum (elements.map ring.values).sum := by
  cases elements with
  | nil => exact ⟨_, rfl, NegacyclicRing.represents_zero hring⟩
  | cons first rest =>
      have hfirst := (hreduced first (by simp)).represents
      refine (gives_foldlM_addAssign hring (fun a ha => hreduced a (by simp [ha])) hfirst).imp
        fun sum hsum => ?_
      simpa only [List.map_cons, List.sum_cons] using hsum

theorem sum_map_plain (ring : NegacyclicRing) (elements : List Element) :
    (elements.map (plain ring)).sum = (elements.map ring.values).sum * ring.radixInverse := by
  rw [← List.sum_map_mul_right]
  rfl

end Elements

/-! ## Sums over the parties -/

/-- The sums over the parties of their keys, and of their noise in the slot `(i, w)`. -/
def sums (ring : NegacyclicRing) (parties : List Party) (noises : List PartyNoise) (i w : Nat) :
    Contribution ring.Values where
  secret := (parties.map fun p => plain ring p.secret).sum
  ephemeral := (parties.map fun p => plain ring p.ephemeral).sum
  one := (noises.map fun noise => ring.values (noise.one.slot i w)).sum
  twoFirst := (noises.map fun noise => ring.values (noise.two.slot i w).1).sum
  twoSecond := (noises.map fun noise => ring.values (noise.two.slot i w).2).sum
  three := (noises.map fun noise => ring.values (noise.three.slot i w)).sum

theorem total_contribution (ring : NegacyclicRing) (members : List (Party × PartyNoise))
    (i w : Nat) :
    Contribution.total (members.map (contribution ring i w)) =
      sums ring (members.map Prod.fst) (members.map Prod.snd) i w := by
  simp only [Contribution.total, sums, contribution, List.map_map, Function.comp_def]

/-! ## The whole run -/

/-- The aggregates and the key have the values of the rounds on a contribution. -/
structure Transcript.HasValues (t : Transcript) (e : Engine) (a : CommonMatrix)
    (c : Nat → Nat → Contribution e.ring.Values) : Prop where
  one : t.one.FillsAt e.shape fun i w x => e.ring.Represents x
    ((c i w).roundOne (e.ring.gadget i (w * e.digitBits)) (e.ring.values (a.slot i w)))
  two : t.two.FillsAt e.shape fun i w pair =>
    e.ring.Represents pair.1 ((c i w).aggregateTwo (e.ring.gadget i (w * e.digitBits))
      (e.ring.values (a.slot i w))).1 ∧
    e.ring.Represents pair.2 ((c i w).aggregateTwo (e.ring.gadget i (w * e.digitBits))
      (e.ring.values (a.slot i w))).2
  three : t.three.FillsAt e.shape fun i w x => e.ring.Represents x
    ((c i w).roundThree ((c i w).aggregateTwo (e.ring.gadget i (w * e.digitBits))
      (e.ring.values (a.slot i w))))
  key : t.key.FillsAt e.shape fun i w slot =>
    e.ring.Represents slot.1 (((c i w).key (e.ring.gadget i (w * e.digitBits))
      (e.ring.values (a.slot i w))).1 * 2 ^ 64) ∧
    e.ring.Represents slot.2 (((c i w).key (e.ring.gadget i (w * e.digitBits))
      (e.ring.values (a.slot i w))).2 * 2 ^ 64)

/-- Values leave no choice for the transcript. -/
theorem Transcript.HasValues.unique {t t' : Transcript} {e : Engine} {a : CommonMatrix}
    {c : Nat → Nat → Contribution e.ring.Values} (h : t.HasValues e a c)
    (h' : t'.HasValues e a c) : t = t' := by
  have hone := h.one.ext h'.one fun _ _ _ _ hx hy => hx.unique hy
  have htwo := h.two.ext h'.two fun _ _ _ _ hx hy =>
    Prod.ext (hx.1.unique hy.1) (hx.2.unique hy.2)
  have hthree := h.three.ext h'.three fun _ _ _ _ hx hy => hx.unique hy
  have hkey := h.key.ext h'.key fun _ _ _ _ hx hy =>
    Prod.ext (hx.1.unique hy.1) (hx.2.unique hy.2)
  cases t
  cases t'
  simp_all

variable {e : Engine} {members : List (Party × PartyNoise)}

theorem gives_mapM_members {α : Type} {f : Party → Outcome α} {P : Party × PartyNoise → α → Prop}
    (h : ∀ member ∈ members, Gives (f member.1) (P member)) :
    Gives ((members.map Prod.fst).mapM f) fun shares =>
      List.Forall₂ (fun share member => P member share) shares members := by
  rw [List.mapM_map]
  exact (gives_mapM (f := f ∘ Prod.fst) h).imp fun shares hshares => hshares.flip

theorem sum_map_contribution {V : Type} [AddCommMonoid V] {ring : NegacyclicRing} {i w : Nat}
    {f : Contribution ring.Values → V}
    (hf : ∀ cs, (cs.map f).sum = f (Contribution.total cs)) :
    (members.map fun member => f (contribution ring i w member)).sum =
      f (Contribution.total (members.map (contribution ring i w))) := by
  rw [← hf, List.map_map]
  rfl

/-- Members that take part give a transcript with the values of the total contribution. -/
theorem gives_ceremony_members (he : e.Valid) {a : CommonMatrix}
    (ha : a.Fills e.shape e.ring.Reduced) (hne : members ≠ [])
    (hmembers : ∀ member ∈ members, Takes e member)
    {out : RelinearizationKey}
    (hout : out.Fills e.shape fun slot => e.ring.Fits slot.1 ∧ e.ring.Fits slot.2) :
    Gives (e.ceremony a (members.map Prod.fst) out) fun t => t.HasValues e a fun i w =>
      Contribution.total (members.map (contribution e.ring i w)) := by
  have hmoduli := he.ring.validModuli
  -- The shares of each round are described on the aggregate of the round before.
  obtain ⟨ones, hones, honeShares⟩ := gives_mapM_members fun member hmember =>
    gives_shareOne he (hmembers member hmember) ha
  obtain ⟨one, hsumOne, honeSums⟩ := Engine.gives_sumShares (R := e.ring.Represents)
    (Engine.gives_addAssign_element hmoduli) hne honeShares
  have hone := honeSums.imp fun i w x hx => by
    rw [sum_map_contribution (Contribution.sum_roundOne _ _)] at hx
    exact hx
  obtain ⟨twos, htwos, htwoShares⟩ := gives_mapM_members fun member hmember =>
    gives_shareTwo he (hmembers member hmember) ha hone
  obtain ⟨two, hsumTwo, htwoSums⟩ := Engine.gives_sumShares
    (Engine.gives_addAssign_pair hmoduli) hne htwoShares
  have htwo := htwoSums.imp fun i w pair hpair => by
    rw [sum_map_contribution (Contribution.sum_roundTwo _ _)] at hpair
    exact hpair
  obtain ⟨threes, hthrees, hthreeShares⟩ := gives_mapM_members fun member hmember =>
    gives_shareThree he (hmembers member hmember) htwo
  obtain ⟨three, hsumThree, hthreeSums⟩ := Engine.gives_sumShares (R := e.ring.Represents)
    (Engine.gives_addAssign_element hmoduli) hne hthreeShares
  have hthree := hthreeSums.imp fun i w x hx => by
    rw [sum_map_contribution (Contribution.sum_roundThree _)] at hx
    exact hx
  obtain ⟨key, hkey, hkeySlots⟩ := Engine.gives_relinearizationKey he htwo hthree hout
  have hrun : e.ceremony a (members.map Prod.fst) out = .ok ⟨one, two, three, key⟩ := by
    simp only [Engine.ceremony, hones, hsumOne, htwos, hsumTwo, hthrees, hsumThree, hkey, ok_bind]
    rfl
  exact ⟨_, hrun, hone, htwo, hthree, hkeySlots⟩

/-- A run gives a transcript with the values of the sums. -/
theorem gives_ceremony (he : e.Valid) {a : CommonMatrix} {parties : List Party}
    {noises : List PartyNoise} {out : RelinearizationKey} (hrun : IsRun e a parties noises out) :
    Gives (e.ceremony a parties out) fun t => t.HasValues e a (sums e.ring parties noises) := by
  -- Parties and noise are paired; the pairs are the members.
  have hforall := mapM_eq_ok_iff.1 hrun.noise_eq
  have hparties := List.map_fst_zip hforall.length_eq.le
  have hnoises := List.map_snd_zip hforall.length_eq.ge
  have hmembers : ∀ member ∈ parties.zip noises, Takes e member := by
    intro member hmember
    have hmem := List.of_mem_zip hmember
    exact ⟨hrun.admissible _ hmem.1, List.forall₂_zip hforall hmember, hrun.reduced _ hmem.2⟩
  have hne : parties.zip noises ≠ [] := by
    intro hnil
    rw [hnil] at hparties
    exact hrun.nonempty hparties.symm
  have hceremony := gives_ceremony_members he hrun.matrix hne hmembers hrun.out
  simp only [total_contribution, hparties, hnoises] at hceremony
  exact hceremony

theorem IsRun.reduced_secrets {a : CommonMatrix} {parties : List Party}
    {noises : List PartyNoise} {out : RelinearizationKey} (hrun : IsRun e a parties noises out) :
    ∀ b ∈ parties.map Party.secret, e.ring.Reduced b := by
  intro b hb
  obtain ⟨p, hp, rfl⟩ := List.mem_map.1 hb
  exact (hrun.admissible p hp).secret

theorem IsRun.reduced_ephemerals {a : CommonMatrix} {parties : List Party}
    {noises : List PartyNoise} {out : RelinearizationKey} (hrun : IsRun e a parties noises out) :
    ∀ b ∈ parties.map Party.ephemeral, e.ring.Reduced b := by
  intro b hb
  obtain ⟨p, hp, rfl⟩ := List.mem_map.1 hb
  exact (hrun.admissible p hp).ephemeral

/-- The secrets of a run add up to the Montgomery form of the sum of what they stand for. -/
theorem IsRun.gives_secret (he : e.Valid) {a : CommonMatrix} {parties : List Party}
    {noises : List PartyNoise} {out : RelinearizationKey} (hrun : IsRun e a parties noises out) :
    Gives (sumElements e.ring (parties.map Party.secret)) fun s =>
      ∀ i w, e.ring.Represents s ((sums e.ring parties noises i w).secret * 2 ^ 64) := by
  have hclasses : ((parties.map Party.secret).map e.ring.values).sum =
      (parties.map fun p => plain e.ring p.secret).sum * 2 ^ 64 := by
    have hplain := sum_map_plain e.ring (parties.map Party.secret)
    rw [List.map_map] at hplain
    rw [← NegacyclicRing.mul_radixInverse_mul_radix he.ring.validModuli
      ((parties.map Party.secret).map e.ring.values).sum, ← hplain]
    rfl
  refine (gives_sumElements he.ring.validModuli hrun.reduced_secrets).imp fun s hs i w => ?_
  rw [hclasses] at hs
  exact hs

/-! ## A small run

Two parties with ternary keys and drawn noise, over two moduli and two levels. -/

/-- The ring of degree 8 with the moduli 97 and 113. -/
@[irreducible]
def smallRing : NegacyclicRing :=
  (NegacyclicRing.build [97, 113] 8).toOption.getD ⟨0, [], 0⟩

theorem build_smallRing : NegacyclicRing.build [97, 113] 8 = .ok smallRing := by
  -- Only that there is a ring is computed; which one it is stays folded.
  have hgives : Gives (NegacyclicRing.build [97, 113] 8) fun _ => True := by decide +kernel
  obtain ⟨ring, hring, _⟩ := hgives
  rw [smallRing, hring]
  rfl

def smallSource : NoiseSource := (Ring.BoundedNoise.mk 2).source

/-- The engine of the small ring with digits of 30 bits. -/
def smallEngine : Engine := ⟨smallRing, smallSource, 30, 2⟩

theorem build_smallEngine : Engine.build smallRing smallSource 30 = .ok smallEngine :=
  Engine.build_eq_ok_iff.2 ⟨by decide, rfl⟩

theorem smallEngine_valid : smallEngine.Valid :=
  (Engine.valid_of_build (NegacyclicRing.valid_of_build build_smallRing).1 build_smallEngine).1

def smallKey (coefficients : List Int) : Element :=
  (smallRing.keyOf coefficients).toOption.getD default

theorem keyOf_smallKey {coefficients : List Int} (hlength : coefficients.length = 8) :
    smallRing.keyOf coefficients = .ok (smallKey coefficients) := by
  obtain ⟨hvalid, hdegree, _⟩ := NegacyclicRing.valid_of_build build_smallRing
  obtain ⟨key, hkey, _⟩ := NegacyclicRing.gives_keyOf hvalid (hlength.trans hdegree.symm)
  rw [smallKey, hkey]
  rfl

theorem smallKey_reduced {coefficients : List Int} (hlength : coefficients.length = 8) :
    smallRing.Reduced (smallKey coefficients) := by
  obtain ⟨hvalid, hdegree, _⟩ := NegacyclicRing.valid_of_build build_smallRing
  exact ((NegacyclicRing.gives_keyOf hvalid (hlength.trans hdegree.symm)).value_unique
    (keyOf_smallKey hlength)).reduced

/-- A party of the small ring that writes over zero shares. -/
def smallParty (secret ephemeral : Element) (source : NoiseSource) (word : UInt64) : Party where
  secret := secret
  ephemeral := ephemeral
  source := source
  outOne := ⟨smallEngine.shape, List.replicate 4 smallRing.zero⟩
  outTwo := ⟨smallEngine.shape, List.replicate 4 (smallRing.zero, smallRing.zero)⟩
  outThree := ⟨smallEngine.shape, List.replicate 4 smallRing.zero⟩
  drawOne := .chacha8 (.ofWord word)
  drawTwo := .chacha8 (.ofWord (word + 1))
  drawThree := .chacha8 (.ofWord (word + 2))

theorem fills_replicate {α : Type} {P : α → Prop} {x : α} (hx : P x) :
    (⟨smallEngine.shape, List.replicate 4 x⟩ : Grid α).Fills smallEngine.shape P := by
  have hcount : smallEngine.shape.moduli * smallEngine.shape.levels = 4 := by decide +kernel
  refine ⟨rfl, by rw [hcount]; rfl, fun y hy => ?_⟩
  rw [List.eq_of_mem_replicate hy]
  exact hx

theorem smallParty_admissible {secret ephemeral : Element} (hsecret : smallRing.Reduced secret)
    (hephemeral : smallRing.Reduced ephemeral) (source : NoiseSource) (word : UInt64) :
    (smallParty secret ephemeral source word).Admissible smallEngine := by
  have hzero := smallRing.fits_zero
  exact ⟨hsecret, hephemeral, fills_replicate hzero, fills_replicate ⟨hzero, hzero⟩,
    fills_replicate hzero⟩

def smallParties : List Party :=
  [smallParty (smallKey [1, 0, -1, 1, 0, 0, 1, -1]) (smallKey [0, 1, 1, 0, -1, 0, 0, 1])
      smallSource 3,
    smallParty (smallKey [0, 1, 1, -1, 1, 0, -1, 0]) (smallKey [1, -1, 0, 0, 1, 1, 0, 0])
      smallSource 8]

def smallNoises : List PartyNoise :=
  (smallParties.mapM (Party.noise smallEngine)).toOption.getD []

def smallMatrix : CommonMatrix :=
  ⟨smallEngine.shape, [⟨[[1, 2, 3, 4, 5, 6, 7, 96], [112, 0, 5, 9, 23, 3, 1, 50]]⟩,
    ⟨[[9, 8, 7, 6, 5, 4, 3, 2], [1, 1, 2, 3, 5, 8, 13, 21]]⟩,
    ⟨[[0, 90, 0, 80, 0, 70, 0, 60], [34, 55, 89, 4, 9, 16, 25, 36]]⟩,
    ⟨[[49, 64, 81, 3, 24, 47, 72, 2], [7, 77, 0, 6, 66, 111, 5, 55]]⟩]⟩

def smallOut : RelinearizationKey :=
  ⟨smallEngine.shape, List.replicate 4 (smallRing.zero, smallRing.zero)⟩

theorem smallParties_admissible : ∀ p ∈ smallParties, p.Admissible smallEngine := by
  intro p hp
  simp only [smallParties, List.mem_cons, List.not_mem_nil, or_false] at hp
  rcases hp with rfl | rfl
  · exact smallParty_admissible (smallKey_reduced rfl) (smallKey_reduced rfl) _ _
  · exact smallParty_admissible (smallKey_reduced rfl) (smallKey_reduced rfl) _ _

theorem noise_small : smallParties.mapM (Party.noise smallEngine) = .ok smallNoises ∧
    ∀ noise ∈ smallNoises, noise.Fills smallEngine.shape (smallRing.IsNoise 2) := by
  have hgives : Gives (smallParties.mapM (Party.noise smallEngine)) fun noises =>
      List.Forall₂ (fun _ noise => noise.Fills smallEngine.shape (smallRing.IsNoise 2))
        smallParties noises := by
    refine gives_mapM fun p hp => gives_noise smallEngine_valid (smallParties_admissible p hp) ?_
    have hsource : p.source = smallSource := by
      simp only [smallParties, List.mem_cons, List.not_mem_nil, or_false] at hp
      rcases hp with rfl | rfl <;> rfl
    rw [hsource]
    exact Ring.BoundedNoise.isBounded_source _ smallEngine_valid.ring
  obtain ⟨noises, hnoises, hbounded⟩ := hgives
  have heq : smallNoises = noises := by
    rw [smallNoises, hnoises]
    rfl
  rw [heq]
  refine ⟨hnoises, fun noise hnoise => ?_⟩
  obtain ⟨n, hn, rfl⟩ := List.getElem_of_mem hnoise
  exact hbounded.get (by rw [hbounded.length_eq]; exact hn) hn

theorem isRun_small : IsRun smallEngine smallMatrix smallParties smallNoises smallOut where
  matrix := by decide +kernel
  nonempty := by simp [smallParties]
  admissible := smallParties_admissible
  noise_eq := noise_small.1
  reduced := fun noise hnoise =>
    (noise_small.2 noise hnoise).imp fun _ hx => hx.reduced smallEngine_valid.ring
  out := fills_replicate ⟨smallRing.fits_zero, smallRing.fits_zero⟩

end Protocol
end RelinCeremony
