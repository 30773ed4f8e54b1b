import RelinCeremony.Proofs.Protocol.Combination
import RelinCeremony.Proofs.Ring.Reach

namespace RelinCeremony
namespace Protocol

/-!
# Shares of foreign elements

An engine compares the shapes of grids and does not look at the dimensions of the elements in
the slots.  A share that was received may have the shape of the engine and hold elements of
another ring, with fewer or more rows and columns.  Adding it is neither refused nor a fault:
each slot is changed as far as the received element reaches, and is as before in all other
places.

So the sum of such a share is the full sum only if its elements cover the ring.
-/

open RelinCeremony.Ring (Element NegacyclicRing)

variable {e : Engine} {r : Round}

/-! ## Slots -/

namespace Round

/-- A slot is added component by component. -/
theorem addAssign_eq_ok_iff {ring : NegacyclicRing} {x y z : r.Slot} :
    Summand.addAssign ring y x = .ok z ↔
      ∀ c, ring.addAssign (r.component y c) (r.component x c) = .ok (r.component z c) := by
  cases r with
  | one => exact ⟨fun h _ => h, fun h => h 0⟩
  | two =>
      refine Iff.trans ?_ Fin.forall_fin_two.symm
      show (ring.addAssign y.1 x.1 >>= fun first =>
        ring.addAssign y.2 x.2 >>= fun second => .ok (first, second)) = .ok z ↔ _
      rw [bind_eq_ok_iff]
      constructor
      · rintro ⟨first, hfirst, hrest⟩
        obtain ⟨second, hsecond, hz⟩ := bind_eq_ok_iff.1 hrest
        cases hz
        exact ⟨hfirst, hsecond⟩
      · rintro ⟨hfirst, hsecond⟩
        exact ⟨z.1, hfirst, bind_eq_ok_iff.2 ⟨z.2, hsecond, rfl⟩⟩
  | three => exact ⟨fun h _ => h, fun h => h 0⟩

/-- Any elements are the components of a slot. -/
theorem exists_component_eq (elements : Fin r.width → Element) :
    ∃ z : r.Slot, ∀ c, r.component z c = elements c := by
  cases r with
  | one => exact ⟨elements 0, Fin.forall_fin_one.2 rfl⟩
  | two => exact ⟨(elements 0, elements 1), Fin.forall_fin_two.2 ⟨rfl, rfl⟩⟩
  | three => exact ⟨elements 0, Fin.forall_fin_one.2 rfl⟩

theorem exists_addAssign_iff {ring : NegacyclicRing} (hring : ring.ValidModuli) {x y : r.Slot}
    (hx : r.Holds ring.Reduced x) :
    (∃ z, Summand.addAssign ring y x = .ok z) ↔ r.Holds ring.ReducedInReach y := by
  have hcomponent := fun c =>
    NegacyclicRing.exists_addAssign_iff (b := r.component y c) hring (hx c)
  constructor
  · rintro ⟨z, hz⟩ c
    exact (hcomponent c).1 ⟨_, addAssign_eq_ok_iff.1 hz c⟩
  · intro h
    choose sums hsums using fun c => (hcomponent c).2 (h c)
    obtain ⟨z, hz⟩ := exists_component_eq sums
    refine ⟨z, addAssign_eq_ok_iff.2 fun c => ?_⟩
    rw [hz]
    exact hsums c

end Round

/-! ## Shares -/

namespace Engine

variable {total share sum : r.Share}

/-- Each element of a sum is related to the two elements that its operands have in its place. -/
def SlotsRelated (e : Engine) (related : Element → Element → Element → Prop)
    (total share sum : r.Share) : Prop :=
  sum.FillsAt e.shape fun i w z => ∀ c,
    related (r.component (total.slot i w) c) (r.component (share.slot i w) c) (r.component z c)

theorem accumulate_eq_ok_iff (htotal : total.shape = e.shape) (hshare : share.shape = e.shape) :
    e.accumulate total share = .ok sum ↔ sum.shape = e.shape ∧
      List.Forall₂ (fun p z => Summand.addAssign e.ring p.2 p.1 = .ok z)
        (total.slots.zip share.slots) sum.slots := by
  unfold accumulate
  rw [requireShape_eq htotal, requireShape_eq hshare, ok_bind, ok_bind, bind_eq_ok_iff, htotal]
  constructor
  · rintro ⟨slots, hslots, hsum⟩
    cases hsum
    exact ⟨rfl, mapM_eq_ok_iff.1 (lift_eq_ok_iff.1 hslots)⟩
  · rintro ⟨hshape, hslots⟩
    refine ⟨sum.slots, lift_eq_ok_iff.2 (mapM_eq_ok_iff.2 hslots), ?_⟩
    rw [← hshape]
    rfl

section Accumulate

variable (he : e.Valid) (htotal : total.Fills e.shape (r.Holds e.ring.Reduced))
  (hshare : share.Fills e.shape fun _ => True)
include he htotal hshare

/-- A share is accepted exactly if its elements are reduced as far as they reach into the
ring. -/
theorem exists_accumulate_iff :
    (∃ sum, e.accumulate total share = .ok sum) ↔
      ∀ y ∈ share.slots, r.Holds e.ring.ReducedInReach y := by
  have hlength : total.slots.length = share.slots.length := htotal.2.1.trans hshare.2.1.symm
  constructor
  · rintro ⟨sum, hsum⟩ y hy
    obtain ⟨_, hslots⟩ := (accumulate_eq_ok_iff htotal.1 hshare.1).1 hsum
    obtain ⟨n, hn, rfl⟩ := List.getElem_of_mem hy
    have hnt : n < total.slots.length := by omega
    have hnz : n < (total.slots.zip share.slots).length := by simp [hnt, hn]
    have hadd := hslots.get hnz (by rw [← hslots.length_eq]; exact hnz)
    simp only [List.get_eq_getElem, List.getElem_zip] at hadd
    exact (Round.exists_addAssign_iff he.ring.validModuli
      (htotal.2.2 _ (List.getElem_mem hnt))).1 ⟨_, hadd⟩
  · intro h
    have hslots : Gives ((total.slots.zip share.slots).mapM fun p =>
        (Summand.addAssign e.ring p.2 p.1 : Checked r.Slot)) fun _ => True := by
      refine (gives_mapM (P := fun _ _ => True) fun p hp => ?_).imp fun _ _ => trivial
      obtain ⟨hx, hy⟩ := List.of_mem_zip hp
      obtain ⟨z, hz⟩ := (Round.exists_addAssign_iff he.ring.validModuli
        (htotal.2.2 _ hx)).2 (h _ hy)
      exact ⟨z, hz, trivial⟩
    obtain ⟨slots, hrun, _⟩ := hslots
    exact ⟨⟨e.shape, slots⟩, (accumulate_eq_ok_iff htotal.1 hshare.1).2
      ⟨rfl, mapM_eq_ok_iff.1 hrun⟩⟩

/-- A share that is accepted is added as far as its elements reach. -/
theorem isSumInReach_of_accumulate (hsum : e.accumulate total share = .ok sum) :
    e.SlotsRelated e.ring.IsSumInReach total share sum := by
  obtain ⟨hshape, hslots⟩ := (accumulate_eq_ok_iff htotal.1 hshare.1).1 hsum
  have hlength : (total.slots.zip share.slots).length = e.shape.moduli * e.shape.levels := by
    simp [htotal.2.1, hshare.2.1]
  refine ⟨hshape, hslots.length_eq.symm.trans hlength, fun n hn c => ?_⟩
  have hnz : n < (total.slots.zip share.slots).length := by rw [hslots.length_eq]; exact hn
  obtain ⟨hnt, hns⟩ : n < total.slots.length ∧ n < share.slots.length := by
    simpa [lt_min_iff] using hnz
  obtain ⟨hreduced, htotalSlot⟩ := htotal.fillsAt.slots n hnt
  obtain ⟨_, hshareSlot⟩ := hshare.fillsAt.slots n hns
  have hadd := hslots.get hnz hn
  simp only [List.get_eq_getElem, List.getElem_zip] at hadd
  rw [← htotalSlot, ← hshareSlot]
  exact NegacyclicRing.isSumInReach_of_addAssign he.ring.validModuli (hreduced c)
    (Round.addAssign_eq_ok_iff.1 hadd c)

/-- An accepted share is added in full exactly if all its elements cover the ring. -/
theorem isFullSum_iff_covers (hsum : e.accumulate total share = .ok sum) :
    e.SlotsRelated e.ring.IsFullSum total share sum ↔
      ∀ y ∈ share.slots, r.Holds e.ring.Covers y := by
  have hreach := isSumInReach_of_accumulate he htotal hshare hsum
  constructor
  · intro hfull y hy c
    obtain ⟨n, hn, rfl⟩ := List.getElem_of_mem hy
    obtain ⟨_, hshareSlot⟩ := hshare.fillsAt.slots n hn
    have hns : n < sum.slots.length := by rw [hfull.length_eq, ← hshare.2.1]; exact hn
    rw [hshareSlot]
    exact (hreach.slots n hns c).isFullSum_iff.1 (hfull.slots n hns c)
  · refine fun hcovers => ⟨hreach.shape_eq, hreach.length_eq, fun n hn c => ?_⟩
    have hns : n < share.slots.length := by rw [hshare.2.1, ← hreach.length_eq]; exact hn
    obtain ⟨_, hshareSlot⟩ := hshare.fillsAt.slots n hns
    refine (hreach.slots n hn c).isFullSum_iff.2 ?_
    rw [← hshareSlot]
    exact hcovers _ (List.getElem_mem hns) c

end Accumulate

/-! ## Lists of shares -/

section Lists

variable {shares : List r.Share}

theorem SlotsRelated.fills_reduced (h : e.SlotsRelated e.ring.IsSumInReach total share sum) :
    sum.Fills e.shape (r.Holds e.ring.Reduced) :=
  Grid.FillsAt.fills h fun _ _ _ hz c => (hz c).1

variable (he : e.Valid) (hshares : ∀ share ∈ shares, share.Fills e.shape fun _ => True)
include he hshares

/-- Shares are accepted one after another exactly if each of them is accepted. -/
theorem exists_foldlM_accumulate_iff (htotal : total.Fills e.shape (r.Holds e.ring.Reduced)) :
    (∃ sum, shares.foldlM e.accumulate total = .ok sum) ↔
      ∀ share ∈ shares, ∀ y ∈ share.slots, r.Holds e.ring.ReducedInReach y := by
  -- The sum so far is generalised; that it is reduced is the invariant.
  induction shares generalizing total with
  | nil => simp [pure, Except.pure]
  | cons share rest ih =>
      have hshare := hshares share List.mem_cons_self
      have hrest : ∀ other ∈ rest, other.Fills e.shape fun _ => True :=
        fun other hother => hshares other (List.mem_cons_of_mem share hother)
      have hstep := exists_accumulate_iff he htotal hshare
      simp only [List.foldlM_cons, bind_eq_ok_iff, List.forall_mem_cons]
      constructor
      · rintro ⟨sum, next, hnext, hsum⟩
        have hreduced := (isSumInReach_of_accumulate he htotal hshare hnext).fills_reduced
        exact ⟨hstep.1 ⟨next, hnext⟩, (ih hrest hreduced).1 ⟨sum, hsum⟩⟩
      · rintro ⟨hhead, htail⟩
        obtain ⟨next, hnext⟩ := hstep.2 hhead
        have hreduced := (isSumInReach_of_accumulate he htotal hshare hnext).fills_reduced
        obtain ⟨sum, hsum⟩ := (ih hrest hreduced).2 htail
        exact ⟨sum, next, hnext, hsum⟩

/-- Shares that are accepted one after another are summed up, where residues that are not there
count as zero. -/
theorem isSum_of_foldlM_accumulate (htotal : total.Fills e.shape (r.Holds e.ring.Reduced))
    (h : shares.foldlM e.accumulate total = .ok sum) : IsSum e (total :: shares) sum := by
  induction shares generalizing total with
  | nil =>
      cases h
      refine htotal.fillsAt.imp fun i w x hx c => ⟨(hx.1 c).1, fun j t => ?_⟩
      rw [List.map_cons, List.map_nil, List.sum_cons, List.sum_nil, Nat.add_zero, ← hx.2]
      exact (Nat.mod_eq_of_lt ((hx.1 c).2 j t)).symm
  | cons share rest ih =>
      have hshare := hshares share List.mem_cons_self
      have hrest : ∀ other ∈ rest, other.Fills e.shape fun _ => True :=
        fun other hother => hshares other (List.mem_cons_of_mem share hother)
      rw [List.foldlM_cons, bind_eq_ok_iff] at h
      obtain ⟨next, hnext, hsum⟩ := h
      have hstep := isSumInReach_of_accumulate he htotal hshare hnext
      refine (ih hrest hstep.fills_reduced hsum).imp_lt fun i hi w hw x hx c =>
        ⟨(hx c).1, fun j t => ?_⟩
      have hslot := hstep.slot hi hw c
      have hold : e.ring.Reduced (r.component (total.slot i w) c) := by
        obtain ⟨hreduced, _⟩ := htotal.fillsAt.slot hi hw
        exact hreduced c
      rw [(hx c).2 j t]
      simp only [List.map_cons, List.sum_cons]
      rw [hslot.residue_eq hold, Nat.mod_add_mod, Nat.add_assoc]

end Lists

/-- In an engine of a ring that is built, let a share of a round with reduced elements be given,
and other shares of the engine's shape with any elements.

Adding a share, and summing up shares from the given one on, gives a value exactly if the
residues of the elements are below the moduli as far as they reach into the ring.  Then the
share is added as far as its elements reach, and residues that are not there count as zero: the
addition is in full exactly if all elements of the share have a residue for every channel and
every column. -/
theorem foreign_share_in_reach {moduli : List Nat} {degree bits : Nat} {ring : NegacyclicRing}
    {source : Ring.NoiseSource} (hring : NegacyclicRing.build moduli degree = .ok ring)
    (hengine : Engine.build ring source bits = .ok e) (r : Round) (total : r.Share)
    (htotal : total.Fills e.shape (r.Holds ring.Reduced)) :
    (∀ share : r.Share, share.Fills e.shape (fun _ => True) →
      ((∃ sum, e.accumulate total share = .ok sum) ↔
        ∀ y ∈ share.slots, r.Holds ring.ReducedInReach y) ∧
      ∀ sum, e.accumulate total share = .ok sum →
        e.SlotsRelated ring.IsSumInReach total share sum ∧
        (e.SlotsRelated ring.IsFullSum total share sum ↔
          ∀ y ∈ share.slots, r.Holds ring.Covers y)) ∧
    ∀ shares : List r.Share, (∀ share ∈ shares, share.Fills e.shape fun _ => True) →
      ((∃ sum, e.sumShares (total :: shares) = .ok sum) ↔
        ∀ share ∈ shares, ∀ y ∈ share.slots, r.Holds ring.ReducedInReach y) ∧
      ∀ sum, e.sumShares (total :: shares) = .ok sum → IsSum e (total :: shares) sum := by
  obtain ⟨hvalid, rfl, _⟩ := valid_of_build (NegacyclicRing.valid_of_build hring).1 hengine
  refine ⟨fun share hshare => ⟨exists_accumulate_iff hvalid htotal hshare, fun sum hsum =>
    ⟨isSumInReach_of_accumulate hvalid htotal hshare hsum,
      isFullSum_iff_covers hvalid htotal hshare hsum⟩⟩, fun shares hshares => ?_⟩
  rw [sumShares, requireShape_eq htotal.1, ok_bind]
  exact ⟨exists_foldlM_accumulate_iff hvalid hshares htotal,
    fun sum => isSum_of_foldlM_accumulate hvalid hshares htotal⟩

def fiveElement : Element := ⟨List.replicate 2 (List.replicate 8 5)⟩

/-- An element of the ring modulo 97 alone. -/
def halfElement : Element := ⟨[List.replicate 8 1]⟩

def smallFives : Round.one.Share := ⟨smallEngine.shape, List.replicate 4 fiveElement⟩

def smallHalves : Round.one.Share := ⟨smallEngine.shape, List.replicate 4 halfElement⟩

theorem fills_smallFives : smallFives.Fills smallEngine.shape (Round.one.Holds smallRing.Reduced) :=
  fills_replicate (Round.holds_one.2 (by decide +kernel))

theorem reducedInReach_smallHalves :
    ∀ y ∈ smallHalves.slots, Round.one.Holds smallRing.ReducedInReach y := by
  intro y hy
  rw [List.eq_of_mem_replicate hy]
  exact Round.holds_one.2 (by unfold NegacyclicRing.ReducedInReach; decide +kernel)

/-- In the engine modulo 97 and 113, elements modulo 97 alone are accepted. -/
theorem foreign_share_in_reach_small :
    (∃ sum, smallEngine.accumulate smallFives smallHalves = .ok sum ∧
      smallEngine.SlotsRelated smallRing.IsSumInReach smallFives smallHalves sum) ∧
    ∃ sum, smallEngine.sumShares [smallFives, smallHalves, smallHalves] = .ok sum ∧
      IsSum smallEngine [smallFives, smallHalves, smallHalves] sum := by
  have hhalves : smallHalves.Fills smallEngine.shape fun _ => True := fills_replicate trivial
  obtain ⟨hadd, hsums⟩ := foreign_share_in_reach build_smallRing build_smallEngine .one smallFives
    fills_smallFives
  obtain ⟨hgives, hreach⟩ := hadd smallHalves hhalves
  obtain ⟨hgivesAll, hsum⟩ := hsums [smallHalves, smallHalves] (by simp [hhalves])
  obtain ⟨sum, haccumulate⟩ := hgives.2 reducedInReach_smallHalves
  obtain ⟨sum', hsumShares⟩ := hgivesAll.2 (by
    simpa only [List.forall_mem_cons, List.not_mem_nil, false_implies, implies_true, and_true,
      and_self] using reducedInReach_smallHalves)
  exact ⟨⟨sum, haccumulate, (hreach sum haccumulate).1⟩, sum', hsumShares, hsum sum' hsumShares⟩

/-- A share of elements that are reduced modulo 97 alone is added to the first rows only: these
go from 5 to 6, and the rows modulo 113 stay 5. -/
theorem foreign_share_added_in_part :
    Gives (NegacyclicRing.build [97] 8) (fun other => other.Reduced halfElement) ∧
    ∃ sum, smallEngine.accumulate smallFives smallHalves = .ok sum ∧
      sum.slots = List.replicate 4 ⟨[List.replicate 8 6, List.replicate 8 5]⟩ ∧
      ¬ smallEngine.SlotsRelated smallRing.IsFullSum smallFives smallHalves sum := by
  have hslots : ((List.replicate 4 fiveElement).zip (List.replicate 4 halfElement)).mapM
      (fun p => Summand.addAssign smallRing p.2 p.1) =
        (.ok (List.replicate 4 ⟨[List.replicate 8 6, List.replicate 8 5]⟩) : Checked _) := by
    decide +kernel
  have hhalves : smallHalves.Fills smallEngine.shape fun _ => True := fills_replicate trivial
  have hsum : smallEngine.accumulate smallFives smallHalves =
      .ok ⟨smallEngine.shape, List.replicate 4 ⟨[List.replicate 8 6, List.replicate 8 5]⟩⟩ :=
    (accumulate_eq_ok_iff rfl rfl).2 ⟨rfl, mapM_eq_ok_iff.1 hslots⟩
  refine ⟨by decide +kernel, _, hsum, rfl, fun hfull => ?_⟩
  have hcovers := (isFullSum_iff_covers smallEngine_valid fills_smallFives hhalves hsum).1 hfull
  have hhalf : smallRing.Covers halfElement :=
    Round.holds_one.1 (hcovers halfElement (List.mem_replicate.2 ⟨by decide, rfl⟩))
  have hnot : ¬ smallRing.Covers halfElement := by
    unfold NegacyclicRing.Covers
    decide +kernel
  exact hnot hhalf

end Engine
end Protocol
end RelinCeremony
