import RelinCeremony.Proofs.Protocol.Combination

namespace RelinCeremony
namespace Protocol

/-!
# Ceremonies with schedules

In a ceremony every party sums the shares of a round by itself, in the order in which they
reach it and with the functions that it likes.  Its `Schedule` says how.  All parties end with
the transcript of the ceremony in which the shares are summed in order.
-/

open RelinCeremony.Ring (Element NegacyclicRing NoiseSource)

/-- How a party combines the shares of the rounds, and the key that it writes over. -/
structure Schedule where
  one : Combination .one
  two : Combination .two
  three : Combination .three
  out : RelinearizationKey

/-- The schedule uses every share of so many parties once. -/
structure Schedule.Admissible (s : Schedule) (e : Engine) (count : Nat) : Prop where
  one : s.one.Covers e count
  two : s.two.Covers e count
  three : s.three.Covers e count
  out : s.out.Fills e.shape fun slot => e.ring.Fits slot.1 ∧ e.ring.Fits slot.2

/-- A run of the protocol in which every party sums the shares with its own schedule.  There is
one transcript for each party. -/
def Engine.scheduledCeremony (e : Engine) (a : CommonMatrix) (members : List (Party × Schedule)) :
    Outcome (List Transcript) := do
  let sharesOne ← members.mapM fun member => member.1.shareOne e a
  let ones ← members.mapM fun member => member.2.one.run (r := .one) e sharesOne
  let sharesTwo ← (members.zip ones).mapM fun (member, one) => member.1.shareTwo e a one
  let twos ← members.mapM fun member => member.2.two.run (r := .two) e sharesTwo
  let sharesThree ← (members.zip twos).mapM fun (member, two) => member.1.shareThree e two
  let threes ← members.mapM fun member => member.2.three.run (r := .three) e sharesThree
  (members.zip (ones.zip (twos.zip threes))).mapM fun (member, one, two, three) => do
    return ⟨one, two, three, ← e.relinearizationKey two three member.2.out⟩

/-! ## One round -/

section Rounds

variable {e : Engine} {r : Round}

theorem Combination.Covers.run_eq_sumShares (he : e.Valid) {shares : List r.Share}
    (hne : shares ≠ [])
    (hshares : ∀ share ∈ shares, share.Fills e.shape (r.Holds e.ring.Reduced))
    {c : Combination r} (hc : c.Covers e shares.length) : c.run e shares = e.sumShares shares := by
  obtain ⟨total, htotal, hvalues⟩ := hc.gives_run he hshares
  have hsum := Engine.gives_sumShares (e := e) (R := r.Represents e.ring)
    (v := fun i w share => r.values e.ring (share.slot i w))
    (fun _ _ _ _ hv hw => Round.gives_addAssign he.ring.validModuli hv hw) hne
    (List.forall₂_same.2 fun share hshare => Combination.fillsAt_values (hshares share hshare))
  obtain ⟨sum, hsum, hsumvalues⟩ := hsum
  rw [htotal, hsum, hvalues.ext hsumvalues fun _ _ _ _ h h' => h.unique h']

/-- Parties that make reduced shares agree on the aggregate, each with its own combination. -/
theorem exists_aggregate (he : e.Valid) {parties : List Party} (hne : parties ≠ [])
    {f : Party → Outcome r.Share}
    (hf : ∀ p ∈ parties, Gives (f p) fun share => share.Fills e.shape (r.Holds e.ring.Reduced)) :
    ∃ shares total, parties.mapM f = .ok shares ∧ e.sumShares shares = .ok total ∧
      total.Fills e.shape (r.Holds e.ring.Reduced) ∧
      ∀ c : Combination r, c.Covers e parties.length → c.run e shares = .ok total := by
  obtain ⟨shares, hshares, hforall⟩ := gives_mapM (P := fun _ (share : r.Share) =>
    share.Fills e.shape (r.Holds e.ring.Reduced)) hf
  have hreduced : ∀ share ∈ shares, share.Fills e.shape (r.Holds e.ring.Reduced) := by
    intro share hshare
    obtain ⟨n, hn, rfl⟩ := List.getElem_of_mem hshare
    exact hforall.get (by rw [hforall.length_eq]; exact hn) hn
  have hsharesne : shares ≠ [] := by
    intro hnil
    rw [hnil, List.forall₂_nil_right_iff] at hforall
    exact hne hforall
  have hordered := Combination.covers_inOrder e r shares.length
  obtain ⟨total, htotal, hvalues⟩ := hordered.gives_run he hreduced
  rw [hordered.run_eq_sumShares he hsharesne hreduced] at htotal
  refine ⟨shares, total, hshares, htotal, hvalues.fills fun _ _ _ hx => hx.holds_reduced, ?_⟩
  intro c hc
  rw [hforall.length_eq] at hc
  rw [hc.run_eq_sumShares he hsharesne hreduced, htotal]

/-- The key does not depend on what it is written over. -/
theorem relinearizationKey_out_eq (he : e.Valid) {two : RoundTwoShare} {three : RoundThreeShare}
    {out out' : RelinearizationKey} (htwo : two.Fills e.shape (Round.two.Holds e.ring.Reduced))
    (hthree : three.Fills e.shape (Round.three.Holds e.ring.Reduced))
    (hout : out.Fills e.shape fun slot => e.ring.Fits slot.1 ∧ e.ring.Fits slot.2)
    (hout' : out'.Fills e.shape fun slot => e.ring.Fits slot.1 ∧ e.ring.Fits slot.2) :
    ∃ key, e.relinearizationKey two three out = .ok key ∧
      e.relinearizationKey two three out' = .ok key := by
  have htwo' := fillsAt_pairValues (htwo.imp fun _ h => Round.holds_two.1 h)
  have hthree' := fillsAt_values (hthree.imp fun _ h => Round.holds_three.1 h)
  have hgives := fun (k : RelinearizationKey)
      (hk : k.Fills e.shape fun slot => e.ring.Fits slot.1 ∧ e.ring.Fits slot.2) =>
    Engine.gives_relinearizationKey (V := fun i w =>
      (e.ring.values (two.slot i w).1, e.ring.values (two.slot i w).2)) he htwo' hthree' hk
  obtain ⟨key, hkey, hvalues⟩ := hgives out hout
  obtain ⟨key', hkey', hvalues'⟩ := hgives out' hout'
  have hsame : key' = key := hvalues'.ext hvalues fun _ _ _ _ h h' =>
    Prod.ext (h.1.unique h'.1) (h.2.unique h'.2)
  exact ⟨key, hkey, hsame ▸ hkey'⟩

end Rounds

/-! ## The whole run -/

theorem IsRun.exists_takes {e : Engine} {a : CommonMatrix} {parties : List Party}
    {noises : List PartyNoise} {out : RelinearizationKey} (hrun : IsRun e a parties noises out)
    {p : Party} (hp : p ∈ parties) : ∃ noise, Takes e (p, noise) := by
  have hforall := mapM_eq_ok_iff.1 hrun.noise_eq
  obtain ⟨n, hn, rfl⟩ := List.getElem_of_mem hp
  have hn' : n < noises.length := by
    rw [← hforall.length_eq]
    exact hn
  exact ⟨noises[n], hrun.admissible _ hp, hforall.get hn hn', hrun.reduced _ (List.getElem_mem hn')⟩

/-- A map over the members and what each of them holds, when all hold the same. -/
theorem mapM_zip_const {α β γ : Type} (members : List α) (x : β) (f : α × β → Outcome γ) :
    (members.zip (members.map fun _ => x)).mapM f = members.mapM fun member => f (member, x) := by
  rw [← List.map_prod_left_eq_zip, List.mapM_map]
  rfl

theorem mapM_fst {α β γ : Type} (members : List (α × β)) (f : α → Outcome γ) :
    members.mapM (fun member => f member.1) = (members.map Prod.fst).mapM f := by
  rw [List.mapM_map]
  rfl

section Agreement

variable {e : Engine} {a : CommonMatrix} {sharesOne : List RoundOneShare}
  {sharesTwo : List RoundTwoShare} {sharesThree : List RoundThreeShare} {one : RoundOneShare}
  {two : RoundTwoShare} {three : RoundThreeShare} {key : RelinearizationKey}

/-- Parties whose combinations agree in each round all end with the transcript of them. -/
theorem scheduledCeremony_eq_replicate {members : List (Party × Schedule)}
    (hsharesOne : (members.map Prod.fst).mapM (Party.shareOne e a) = .ok sharesOne)
    (hone : ∀ member ∈ members, member.2.one.run (r := .one) e sharesOne = .ok one)
    (hsharesTwo : (members.map Prod.fst).mapM (Party.shareTwo e a one) = .ok sharesTwo)
    (htwo : ∀ member ∈ members, member.2.two.run (r := .two) e sharesTwo = .ok two)
    (hsharesThree : (members.map Prod.fst).mapM (Party.shareThree e two) = .ok sharesThree)
    (hthree : ∀ member ∈ members, member.2.three.run (r := .three) e sharesThree = .ok three)
    (hkey : ∀ member ∈ members, e.relinearizationKey two three member.2.out = .ok key) :
    e.scheduledCeremony a members = .ok (List.replicate members.length ⟨one, two, three, key⟩) := by
  have hones : (members.mapM fun member => member.2.one.run (r := .one) e sharesOne) =
      .ok (members.map fun _ => one) := mapM_eq_ok_map hone
  have htwos : (members.mapM fun member => member.2.two.run (r := .two) e sharesTwo) =
      .ok (members.map fun _ => two) := mapM_eq_ok_map htwo
  have hthrees : (members.mapM fun member => member.2.three.run (r := .three) e sharesThree) =
      .ok (members.map fun _ => three) := mapM_eq_ok_map hthree
  have hkeys : (members.mapM fun member => do
      return Transcript.mk one two three (← e.relinearizationKey two three member.2.out)) =
      .ok (members.map fun _ => Transcript.mk one two three key) := by
    refine mapM_eq_ok_map fun member hmember => ?_
    rw [hkey member hmember]
    rfl
  have hzip : (members.map fun _ => one).zip ((members.map fun _ => two).zip
      (members.map fun _ => three)) = members.map fun _ => (one, two, three) := by
    simp only [List.zip_map']
  rw [← List.map_const']
  unfold Engine.scheduledCeremony
  rw [mapM_fst, hsharesOne, ok_bind, hones, ok_bind, mapM_zip_const, mapM_fst, hsharesTwo,
    ok_bind, htwos, ok_bind, mapM_zip_const, mapM_fst, hsharesThree, ok_bind, hthrees, ok_bind,
    hzip, mapM_zip_const]
  exact hkeys

end Agreement

/-- Every party of a run with schedules leaves the transcript of the ceremony in order. -/
theorem scheduledCeremony_eq {e : Engine} (he : e.Valid) {a : CommonMatrix}
    {members : List (Party × Schedule)} {noises : List PartyNoise} {out : RelinearizationKey}
    (hrun : IsRun e a (members.map Prod.fst) noises out)
    (hschedules : ∀ member ∈ members, member.2.Admissible e members.length) :
    ∃ t, e.ceremony a (members.map Prod.fst) out = .ok t ∧
      e.scheduledCeremony a members = .ok (List.replicate members.length t) := by
  -- In each round the shares are the same for all, and so is the aggregate.
  obtain ⟨sharesOne, one, hsharesOne, hone, hreducedOne, hrunOne⟩ :=
    exists_aggregate (r := .one) he hrun.nonempty (f := Party.shareOne e a) fun p hp => by
      obtain ⟨noise, htakes⟩ := hrun.exists_takes hp
      exact (gives_shareOne he htakes hrun.matrix).imp fun _ h =>
        h.fills fun _ _ _ hx => Round.holds_one.2 hx.reduced
  have hvaluesOne := fillsAt_values (hreducedOne.imp fun _ h => Round.holds_one.1 h)
  obtain ⟨sharesTwo, two, hsharesTwo, htwo, hreducedTwo, hrunTwo⟩ :=
    exists_aggregate (r := .two) he hrun.nonempty (f := Party.shareTwo e a one) fun p hp => by
      obtain ⟨noise, htakes⟩ := hrun.exists_takes hp
      exact (gives_shareTwo he htakes hrun.matrix hvaluesOne).imp fun _ h =>
        h.fills fun _ _ _ hx => Round.holds_two.2 ⟨hx.1.reduced, hx.2.reduced⟩
  have hvaluesTwo := fillsAt_pairValues (hreducedTwo.imp fun _ h => Round.holds_two.1 h)
  obtain ⟨sharesThree, three, hsharesThree, hthree, hreducedThree, hrunThree⟩ :=
    exists_aggregate (r := .three) he hrun.nonempty (f := Party.shareThree e two) fun p hp => by
      obtain ⟨noise, htakes⟩ := hrun.exists_takes hp
      exact (gives_shareThree (H := fun i w => (e.ring.values (two.slot i w).1,
        e.ring.values (two.slot i w).2)) he htakes hvaluesTwo).imp fun _ h =>
          h.fills fun _ _ _ hx => Round.holds_three.2 hx.reduced
  obtain ⟨key, hkey, _⟩ := relinearizationKey_out_eq he hreducedTwo hreducedThree hrun.out hrun.out
  rw [List.length_map] at hrunOne hrunTwo hrunThree
  refine ⟨⟨one, two, three, key⟩, ?_, ?_⟩
  · unfold Engine.ceremony
    rw [hsharesOne, ok_bind, show e.sumShares sharesOne = .ok one from hone, ok_bind, hsharesTwo,
      ok_bind, show e.sumShares sharesTwo = .ok two from htwo, ok_bind, hsharesThree, ok_bind,
      show e.sumShares sharesThree = .ok three from hthree, ok_bind, hkey]
    rfl
  · refine scheduledCeremony_eq_replicate hsharesOne
      (fun member hmember => hrunOne _ (hschedules member hmember).one) hsharesTwo
      (fun member hmember => hrunTwo _ (hschedules member hmember).two) hsharesThree
      (fun member hmember => hrunThree _ (hschedules member hmember).three)
      fun member hmember => ?_
    obtain ⟨key', hkey', hmemberKey⟩ := relinearizationKey_out_eq he hreducedTwo hreducedThree
      hrun.out (hschedules member hmember).out
    rw [hkey] at hkey'
    cases hkey'
    exact hmemberKey

/-- In each of the three rounds, all combinations that use every one of the shares once give the
same share: the one whose residues are the sums of the residues of the shares.  So parties that
sum the shares of a ceremony in their own ways hold the same aggregates and the same key. -/
theorem aggregates_agree {moduli : List Nat} {degree digitBits : Nat} {ring : NegacyclicRing}
    {source : NoiseSource} {e : Engine} (hring : NegacyclicRing.build moduli degree = .ok ring)
    (hengine : Engine.build ring source digitBits = .ok e) :
    (∀ (r : Round) (shares : List r.Share),
      (∀ share ∈ shares, share.Fills e.shape (r.Holds e.ring.Reduced)) →
        ∃ total, IsSum e shares total ∧
          ∀ c : Combination r, c.Covers e shares.length → c.run e shares = .ok total) ∧
    ∀ (a : CommonMatrix) (members : List (Party × Schedule)) (noises : List PartyNoise)
      (out : RelinearizationKey), IsRun e a (members.map Prod.fst) noises out →
        (∀ member ∈ members, member.2.Admissible e members.length) →
          ∃ t, e.ceremony a (members.map Prod.fst) out = .ok t ∧
            e.scheduledCeremony a members = .ok (List.replicate members.length t) := by
  obtain ⟨hvalid, _, _⟩ := NegacyclicRing.valid_of_build hring
  obtain ⟨he, _, _⟩ := Engine.valid_of_build hvalid hengine
  constructor
  · intro r shares hshares
    have hordered := Combination.covers_inOrder e r shares.length
    obtain ⟨total, htotal, hvalues⟩ := hordered.gives_run he hshares
    refine ⟨total, isSum_of_represents he hvalues, fun c hc => ?_⟩
    rw [hc.run_eq he hshares hordered, htotal]
  · intro a members noises out hrun hschedules
    exact scheduledCeremony_eq he hrun hschedules

/-! ## A small run with two schedules -/

/-- Shares of the second round made of the slots of the small matrix. -/
def smallShares : List Round.two.Share :=
  [smallMatrix.slots.zip smallMatrix.slots.reverse, smallMatrix.slots.reverse.zip smallMatrix.slots,
    smallMatrix.slots.zip smallMatrix.slots].map fun slots => ⟨smallEngine.shape, slots⟩

theorem smallShares_fill :
    ∀ share ∈ smallShares, share.Fills smallEngine.shape (Round.two.Holds smallRing.Reduced) := by
  decide +kernel

theorem fits_smallOut : smallOut.Fills smallEngine.shape (Round.two.Holds smallRing.Fits) :=
  fills_replicate (Round.holds_two.2 ⟨smallRing.fits_zero, smallRing.fits_zero⟩)

/-- The last share with a zero share added, and the sum of the two others, in turn. -/
def crossedSum : Combination .two :=
  .add (.accumulate (.given 2) .zero) (.sum (.given 1) [.given 0]) smallOut

theorem crossedSum_covers : crossedSum.Covers smallEngine 3 where
  leaves := by decide
  outs := by
    intro out hout
    rw [List.mem_singleton.1 hout]
    exact fits_smallOut

/-- The first party sums lists, the second one adds share by share in the other order. -/
def smallSchedules : List Schedule :=
  [⟨.sum (.given 0) [.given 1], .sum (.given 0) [.given 1], .sum (.given 0) [.given 1], smallOut⟩,
    ⟨.accumulate (.given 1) (.given 0), .add (.given 1) (.given 0) smallOut,
      .sum .zero [.given 1, .given 0], smallOut⟩]

theorem smallSchedules_admissible : ∀ s ∈ smallSchedules, s.Admissible smallEngine 2 := by
  have hout := fits_smallOut.imp fun _ hx => Round.holds_two.1 hx
  intro s hs
  simp only [smallSchedules, List.mem_cons, List.not_mem_nil, or_false] at hs
  rcases hs with rfl | rfl
  · have hlist : ∀ r : Round,
        (Combination.sum (r := r) (.given 0) [.given 1]).Covers smallEngine 2 :=
      fun r => ⟨by cases r <;> decide, by simp [Combination.outs, Combination.outsAll]⟩
    exact ⟨hlist .one, hlist .two, hlist .three, hout⟩
  · refine ⟨⟨by decide, ?_⟩, ⟨by decide, ?_⟩, ⟨by decide, ?_⟩, hout⟩
    · simp [Combination.outs]
    · intro out ho
      rw [List.mem_singleton.1 ho]
      exact fits_smallOut
    · simp [Combination.outs, Combination.outsAll]

theorem aggregates_agree_small :
    (∃ total, IsSum smallEngine smallShares total ∧
      crossedSum.run smallEngine smallShares = .ok total ∧
      (Combination.inOrder .two 3).run smallEngine smallShares = .ok total) ∧
    ∃ t, smallEngine.ceremony smallMatrix smallParties smallOut = .ok t ∧
      smallEngine.scheduledCeremony smallMatrix (smallParties.zip smallSchedules) = .ok [t, t] := by
  obtain ⟨hsums, hruns⟩ := aggregates_agree build_smallRing build_smallEngine
  constructor
  · obtain ⟨total, htotal, hall⟩ := hsums .two smallShares smallShares_fill
    exact ⟨total, htotal, hall _ crossedSum_covers, hall _ (Combination.covers_inOrder _ _ 3)⟩
  · refine hruns smallMatrix (smallParties.zip smallSchedules) smallNoises smallOut isRun_small
      fun member hmember => ?_
    exact smallSchedules_admissible _ (List.of_mem_zip hmember).2

end Protocol
end RelinCeremony
