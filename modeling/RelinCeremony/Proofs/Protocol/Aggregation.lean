import Mathlib.Algebra.BigOperators.Group.List.Basic
import RelinCeremony.Proofs.Protocol.Engine
import RelinCeremony.Protocol.Aggregation
import RelinCeremony.Protocol.Key

namespace RelinCeremony
namespace Protocol
namespace Engine

/-!
# Aggregates and the key on families of values

The sum of shares has in every slot the sum of the values, for single elements and for
pairs alike.  The key has the values of the aggregates, multiplied by the radix.
-/

open RelinCeremony.Ring (Element NegacyclicRing)

/-! ## Sums of shares -/

section Pairs

variable {e : Engine} {α V : Type} [Summand α] [AddCommMonoid V] {R : α → V → Prop}
  {F : α → Prop}

/-- Two shares are added slot by slot over a third. -/
theorem gives_addShares
    (hadd : ∀ x y old v w, R x v → R y w → F old →
      Gives (Summand.add e.ring x y old) fun z => R z (v + w))
    {a b out : Grid α} {v w : Nat → Nat → V} (ha : a.FillsAt e.shape fun i l x => R x (v i l))
    (hb : b.FillsAt e.shape fun i l x => R x (w i l)) (hout : out.Fills e.shape F) :
    Gives (e.addShares a b out) fun sum =>
      sum.FillsAt e.shape fun i l x => R x (v i l + w i l) := by
  unfold addShares
  rw [requireShape_eq ha.shape_eq, requireShape_eq hb.shape_eq, requireShape_eq hout.1, hout.1]
  simp only [ok_bind]
  refine Gives.bind (Gives.lift (Grid.gives_mapSlots e.shape ?_ ?_))
    fun slots hslots => ⟨_, rfl, hslots⟩
  · simp [hout.2.1, ha.length_eq, hb.length_eq]
  · intro n hn _ _
    obtain ⟨hno, hna, hnb⟩ :
        n < out.slots.length ∧ n < a.slots.length ∧ n < b.slots.length := by
      simpa [lt_min_iff] using hn
    simp only [List.getElem_zip]
    exact hadd _ _ _ _ _ (ha.slots n hna) (hb.slots n hnb) (hout.2.2 _ (List.getElem_mem hno))

end Pairs

section Sums

variable {e : Engine} {α V γ : Type} [Summand α] [AddCommMonoid V] {R : α → V → Prop}
  (hadd : ∀ x y v w, R x v → R y w → Gives (Summand.addAssign e.ring y x) fun z => R z (v + w))
include hadd

theorem gives_accumulate {total share : Grid α} {v w : Nat → Nat → V}
    (htotal : total.FillsAt e.shape fun i l x => R x (v i l))
    (hshare : share.FillsAt e.shape fun i l x => R x (w i l)) :
    Gives (e.accumulate total share) fun sum =>
      sum.FillsAt e.shape fun i l x => R x (v i l + w i l) := by
  unfold accumulate
  rw [requireShape_eq htotal.shape_eq, requireShape_eq hshare.shape_eq, htotal.shape_eq]
  simp only [ok_bind]
  refine Gives.bind (Gives.lift (Grid.gives_mapSlots e.shape ?_ ?_))
    fun slots hslots => ⟨_, rfl, hslots⟩
  · simp [htotal.length_eq, hshare.length_eq]
  · intro n hn _ _
    obtain ⟨hnt, hns⟩ : n < total.slots.length ∧ n < share.slots.length := by
      simpa [lt_min_iff] using hn
    simp only [List.getElem_zip]
    exact hadd _ _ _ _ (htotal.slots n hnt) (hshare.slots n hns)

/-- Shares are added one after another to a first one. -/
theorem gives_foldlM_accumulate {shares : List (Grid α)} {cs : List γ}
    {value : Nat → Nat → γ → V}
    (hshares : List.Forall₂ (fun share c =>
      share.FillsAt e.shape fun i w x => R x (value i w c)) shares cs)
    {first : Grid α} {v : Nat → Nat → V}
    (hfirst : first.FillsAt e.shape fun i w x => R x (v i w)) :
    Gives (shares.foldlM e.accumulate first) fun sum =>
      sum.FillsAt e.shape fun i w x => R x (v i w + (cs.map (value i w)).sum) := by
  -- The sum so far is generalised along with its values.
  induction hshares generalizing first v with
  | nil => exact ⟨first, rfl, by simpa using hfirst⟩
  | cons hshare _ ih =>
      rw [List.foldlM_cons]
      refine (gives_accumulate hadd hfirst hshare).bind fun sum hsum => ?_
      refine (ih hsum).imp fun total htotal => ?_
      simpa only [List.map_cons, List.sum_cons, add_assoc] using htotal

/-- The sum of a list of shares, one for each contribution. -/
theorem gives_sumShares {shares : List (Grid α)} {cs : List γ} {v : Nat → Nat → γ → V}
    (hne : cs ≠ [])
    (hshares : List.Forall₂ (fun share c =>
      share.FillsAt e.shape fun i w x => R x (v i w c)) shares cs) :
    Gives (e.sumShares shares) fun sum =>
      sum.FillsAt e.shape fun i w x => R x (cs.map (v i w)).sum := by
  cases hshares with
  | nil => exact absurd rfl hne
  | cons hshare hrest =>
      rw [sumShares, requireShape_eq hshare.shape_eq, ok_bind]
      refine (gives_foldlM_accumulate hadd hrest hshare).imp fun total htotal => ?_
      simpa only [List.map_cons, List.sum_cons] using htotal

end Sums

/-! ## The two kinds of slots -/

section Slots

variable {ring : NegacyclicRing} (hring : ring.ValidModuli)
include hring

theorem gives_addAssign_element (x y : Element) (v w : ring.Values)
    (hx : ring.Represents x v) (hy : ring.Represents y w) :
    Gives (Summand.addAssign ring y x) fun z => ring.Represents z (v + w) :=
  NegacyclicRing.gives_addAssign hring hy hx

theorem gives_addAssign_pair (x y : Element × Element) (v w : ring.Values × ring.Values)
    (hx : ring.Represents x.1 v.1 ∧ ring.Represents x.2 v.2)
    (hy : ring.Represents y.1 w.1 ∧ ring.Represents y.2 w.2) :
    Gives (Summand.addAssign ring y x) fun z =>
      ring.Represents z.1 (v + w).1 ∧ ring.Represents z.2 (v + w).2 := by
  refine (gives_addAssign_element hring _ _ _ _ hx.1 hy.1).bind fun first hfirst => ?_
  exact (gives_addAssign_element hring _ _ _ _ hx.2 hy.2).bind fun second hsecond =>
    ⟨_, rfl, hfirst, hsecond⟩

end Slots

/-! ## The key -/

variable {e : Engine}

theorem gives_keySlot (he : e.Valid) {pair old : Element × Element} {h : Element}
    {V₁ V₂ H : e.ring.Values} (hold : e.ring.Fits old.1) (hfirst : e.ring.Represents pair.1 V₁)
    (hsecond : e.ring.Represents pair.2 V₂) (hh : e.ring.Represents h H) :
    Gives (e.keySlot pair h old) fun slot =>
      e.ring.Represents slot.1 ((V₁ + H) * 2 ^ 64) ∧ e.ring.Represents slot.2 (V₂ * 2 ^ 64) := by
  have hmoduli := he.ring.validModuli
  unfold keySlot
  refine (NegacyclicRing.gives_add hmoduli hfirst hh hold).bind fun sum hsum => ?_
  refine (NegacyclicRing.gives_toMontgomery hmoduli hsum).bind fun k₀ hk₀ => ?_
  exact (NegacyclicRing.gives_toMontgomery hmoduli hsecond).bind fun k₁ hk₁ => ⟨_, rfl, hk₀, hk₁⟩

theorem gives_relinearizationKey (he : e.Valid) {two : RoundTwoShare} {three : RoundThreeShare}
    {out : RelinearizationKey} {V : Nat → Nat → e.ring.Values × e.ring.Values}
    {H : Nat → Nat → e.ring.Values}
    (htwo : two.FillsAt e.shape fun i w pair =>
      e.ring.Represents pair.1 (V i w).1 ∧ e.ring.Represents pair.2 (V i w).2)
    (hthree : three.FillsAt e.shape fun i w x => e.ring.Represents x (H i w))
    (hout : out.Fills e.shape fun slot => e.ring.Fits slot.1 ∧ e.ring.Fits slot.2) :
    Gives (e.relinearizationKey two three out) fun key => key.FillsAt e.shape fun i w slot =>
      e.ring.Represents slot.1 (((V i w).1 + H i w) * 2 ^ 64) ∧
        e.ring.Represents slot.2 ((V i w).2 * 2 ^ 64) := by
  unfold relinearizationKey
  rw [requireShape_eq htwo.shape_eq, requireShape_eq hthree.shape_eq, requireShape_eq hout.1,
    hout.1]
  simp only [ok_bind]
  refine Gives.bind (Gives.lift (Grid.gives_mapSlots e.shape ?_ ?_))
    fun slots hslots => ⟨_, rfl, hslots⟩
  · simp [hout.2.1, htwo.length_eq, hthree.length_eq]
  · intro n hn _ _
    obtain ⟨hno, hnt, hnh⟩ :
        n < out.slots.length ∧ n < two.slots.length ∧ n < three.slots.length := by
      simpa [lt_min_iff] using hn
    simp only [List.getElem_zip]
    exact gives_keySlot he (hout.2.2 _ (List.getElem_mem hno)).1 (htwo.slots n hnt).1
      (htwo.slots n hnt).2 (hthree.slots n hnh)

end Engine
end Protocol
end RelinCeremony
