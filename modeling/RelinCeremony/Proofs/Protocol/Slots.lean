import Mathlib.Data.Fin.VecNotation
import RelinCeremony.Proofs.Protocol.Aggregation

namespace RelinCeremony
namespace Protocol

/-!
# Slots of the three rounds

A slot of a share holds one element in the first and in the third round and two in the
second.  What is said of elements is said of a slot component by component, so that the
sums of shares are described once for the three rounds.
-/

open RelinCeremony.Ring (Element NegacyclicRing)

inductive Round where
  | one
  | two
  | three
deriving DecidableEq

namespace Round

/-- What a share of the round holds in a slot. -/
@[reducible]
def Slot : Round → Type
  | .one => Element
  | .two => Element × Element
  | .three => Element

/-- A share of the round. -/
abbrev Share (r : Round) : Type := Grid r.Slot

instance : (r : Round) → Summand r.Slot
  | .one => inferInstanceAs (Summand Element)
  | .two => inferInstanceAs (Summand (Element × Element))
  | .three => inferInstanceAs (Summand Element)

/-- The number of elements in a slot. -/
@[reducible]
def width : Round → Nat
  | .one => 1
  | .two => 2
  | .three => 1

def component : (r : Round) → r.Slot → Fin r.width → Element
  | .one, x, _ => x
  | .two, x, c => ![x.1, x.2] c
  | .three, x, _ => x

/-- All elements of the slot have the property. -/
def Holds (r : Round) (P : Element → Prop) (x : r.Slot) : Prop := ∀ c, P (r.component x c)

instance (r : Round) (P : Element → Prop) [DecidablePred P] (x : r.Slot) :
    Decidable (r.Holds P x) :=
  inferInstanceAs (Decidable (∀ c, P (r.component x c)))

/-- The elements of the slot are the reduced ones of the families. -/
def Represents (r : Round) (ring : NegacyclicRing) (x : r.Slot)
    (v : Fin r.width → ring.Values) : Prop :=
  ∀ c, ring.Represents (r.component x c) (v c)

/-! ## Components -/

section Components

variable {P Q : Element → Prop} {ring : NegacyclicRing}

@[simp] theorem holds_one {x : Element} : Round.one.Holds P x ↔ P x := by
  simp [Holds, component, width]

@[simp] theorem holds_two {x : Element × Element} : Round.two.Holds P x ↔ P x.1 ∧ P x.2 :=
  Fin.forall_fin_two

@[simp] theorem holds_three {x : Element} : Round.three.Holds P x ↔ P x := by
  simp [Holds, component, width]

@[simp] theorem represents_one {x : Element} {v : Fin 1 → ring.Values} :
    Round.one.Represents ring x v ↔ ring.Represents x (v 0) :=
  Fin.forall_fin_one

@[simp] theorem represents_two {x : Element × Element} {v : Fin 2 → ring.Values} :
    Round.two.Represents ring x v ↔ ring.Represents x.1 (v 0) ∧ ring.Represents x.2 (v 1) :=
  Fin.forall_fin_two

@[simp] theorem represents_three {x : Element} {v : Fin 1 → ring.Values} :
    Round.three.Represents ring x v ↔ ring.Represents x (v 0) :=
  Fin.forall_fin_one

variable {r : Round} {x y : r.Slot}

theorem Holds.imp (h : r.Holds P x) (hpq : ∀ a, P a → Q a) : r.Holds Q x :=
  fun c => hpq _ (h c)

/-- A slot is told by its components. -/
theorem ext_component (h : ∀ c, r.component x c = r.component y c) : x = y := by
  cases r with
  | one => exact h 0
  | two => exact Prod.ext (h 0) (h 1)
  | three => exact h 0

theorem Represents.unique {v : Fin r.width → ring.Values} (hx : r.Represents ring x v)
    (hy : r.Represents ring y v) : x = y :=
  ext_component fun c => (hx c).unique (hy c)

theorem Represents.holds_reduced {v : Fin r.width → ring.Values} (h : r.Represents ring x v) :
    r.Holds ring.Reduced x :=
  fun c => (h c).reduced

/-- The classes of the elements of a slot. -/
def values (r : Round) (ring : NegacyclicRing) (x : r.Slot) : Fin r.width → ring.Values :=
  fun c => ring.values (r.component x c)

theorem Holds.represents (h : r.Holds ring.Reduced x) : r.Represents ring x (r.values ring x) :=
  fun c => (h c).represents

end Components

/-! ## Sums of slots -/

section Sums

variable {ring : NegacyclicRing} {r : Round} {x y old : r.Slot}
  {v w : Fin r.width → ring.Values}

theorem gives_add (hring : ring.ValidModuli) (hx : r.Represents ring x v)
    (hy : r.Represents ring y w) (hold : r.Holds ring.Fits old) :
    Gives (Summand.add ring x y old) fun z => r.Represents ring z (v + w) := by
  cases r with
  | one =>
      exact (NegacyclicRing.gives_add hring (hx 0) (hy 0) (hold 0)).imp fun z hz =>
        represents_one.2 hz
  | two =>
      refine (NegacyclicRing.gives_add hring (hx 0) (hy 0) (hold 0)).bind fun first hfirst => ?_
      refine (NegacyclicRing.gives_add hring (hx 1) (hy 1) (hold 1)).bind fun second hsecond => ?_
      exact ⟨_, rfl, represents_two.2 ⟨hfirst, hsecond⟩⟩
  | three =>
      exact (NegacyclicRing.gives_add hring (hx 0) (hy 0) (hold 0)).imp fun z hz =>
        represents_three.2 hz

theorem gives_addAssign (hring : ring.ValidModuli) (hx : r.Represents ring x v)
    (hy : r.Represents ring y w) :
    Gives (Summand.addAssign ring y x) fun z => r.Represents ring z (v + w) := by
  cases r with
  | one =>
      exact (Engine.gives_addAssign_element hring x y _ _ (hx 0) (hy 0)).imp fun z hz =>
        represents_one.2 hz
  | two =>
      exact (Engine.gives_addAssign_pair hring x y (v 0, v 1) (w 0, w 1) ⟨hx 0, hx 1⟩
        ⟨hy 0, hy 1⟩).imp fun z hz => represents_two.2 hz
  | three =>
      exact (Engine.gives_addAssign_element hring x y _ _ (hx 0) (hy 0)).imp fun z hz =>
        represents_three.2 hz

end Sums
end Round

/-! ## Sums of shares -/

namespace Engine

variable {e : Engine} {r : Round}

/-- The zero share of a round. -/
def zeroShare (e : Engine) : (r : Round) → Checked r.Share
  | .one => do return (← e.zeroShares).1
  | .two => do return (← e.zeroShares).2.1
  | .three => do return (← e.zeroShares).2.2

theorem gives_zeroGrid (he : e.Valid) :
    Gives e.zeroGrid fun grid => grid.FillsAt e.shape fun _ _ x => e.ring.Represents x 0 :=
  Grid.gives_ofFn he.size_shape fun _ _ _ _ =>
    ⟨_, rfl, NegacyclicRing.represents_zero he.ring.validModuli⟩

theorem gives_zeroPairGrid (he : e.Valid) :
    Gives e.zeroPairGrid fun grid => grid.FillsAt e.shape fun _ _ pair =>
      e.ring.Represents pair.1 0 ∧ e.ring.Represents pair.2 0 :=
  Grid.gives_ofFn he.size_shape fun _ _ _ _ =>
    have hzero := NegacyclicRing.represents_zero he.ring.validModuli
    ⟨_, rfl, hzero, hzero⟩

theorem gives_zeroShares (he : e.Valid) :
    Gives e.zeroShares fun shares =>
      (shares.1.FillsAt e.shape fun _ _ x => e.ring.Represents x 0) ∧
      (shares.2.1.FillsAt e.shape fun _ _ pair =>
        e.ring.Represents pair.1 0 ∧ e.ring.Represents pair.2 0) ∧
      shares.2.2.FillsAt e.shape fun _ _ x => e.ring.Represents x 0 := by
  refine (gives_zeroGrid he).bind fun one hone => ?_
  refine (gives_zeroPairGrid he).bind fun two htwo => ?_
  exact (gives_zeroGrid he).bind fun three hthree => ⟨_, rfl, hone, htwo, hthree⟩

theorem gives_zeroShare (he : e.Valid) (r : Round) :
    Gives (e.zeroShare r) fun share =>
      share.FillsAt e.shape fun _ _ x => r.Represents e.ring x 0 := by
  cases r with
  | one =>
      exact (gives_zeroShares he).bind fun shares hshares =>
        ⟨_, rfl, hshares.1.imp fun _ _ _ hx => Round.represents_one.2 hx⟩
  | two =>
      exact (gives_zeroShares he).bind fun shares hshares =>
        ⟨_, rfl, hshares.2.1.imp fun _ _ _ hx => Round.represents_two.2 hx⟩
  | three =>
      exact (gives_zeroShares he).bind fun shares hshares =>
        ⟨_, rfl, hshares.2.2.imp fun _ _ _ hx => Round.represents_three.2 hx⟩

/-! ## Reduced shares -/

section Reduced

variable {a b out : r.Share} {shares : List r.Share}

/-- The sum of reduced slots is reduced, whatever the values. -/
theorem gives_addAssign_reduced (he : e.Valid) (x y : r.Slot) (_ _ : Unit)
    (hx : r.Holds e.ring.Reduced x) (hy : r.Holds e.ring.Reduced y) :
    Gives (Summand.addAssign e.ring y x) (r.Holds e.ring.Reduced) :=
  (Round.gives_addAssign he.ring.validModuli hx.represents hy.represents).imp fun _ hz =>
    hz.holds_reduced

theorem gives_addShares_reduced (he : e.Valid) (ha : a.Fills e.shape (r.Holds e.ring.Reduced))
    (hb : b.Fills e.shape (r.Holds e.ring.Reduced))
    (hout : out.Fills e.shape (r.Holds e.ring.Reduced)) :
    Gives (e.addShares a b out) fun sum => sum.Fills e.shape (r.Holds e.ring.Reduced) := by
  have hsum := gives_addShares (R := fun x (_ : Unit) => r.Holds e.ring.Reduced x)
    (v := fun _ _ => ()) (w := fun _ _ => ())
    (fun x y old _ _ hx hy hold => (Round.gives_add he.ring.validModuli hx.represents
      hy.represents hold).imp fun _ hz => hz.holds_reduced)
    (.of_fills ha) (.of_fills hb) (hout.imp fun _ hx => hx.imp fun _ h => h.1)
  exact hsum.imp fun _ hfills => hfills.fills fun _ _ _ hx => hx

theorem gives_accumulate_reduced (he : e.Valid) (ha : a.Fills e.shape (r.Holds e.ring.Reduced))
    (hb : b.Fills e.shape (r.Holds e.ring.Reduced)) :
    Gives (e.accumulate a b) fun sum => sum.Fills e.shape (r.Holds e.ring.Reduced) :=
  (gives_accumulate (v := fun _ _ => ()) (w := fun _ _ => ()) (gives_addAssign_reduced he)
    (.of_fills ha) (.of_fills hb)).imp fun _ hfills => hfills.fills fun _ _ _ hx => hx

theorem gives_sumShares_reduced (he : e.Valid) (hne : shares ≠ [])
    (hshares : ∀ share ∈ shares, share.Fills e.shape (r.Holds e.ring.Reduced)) :
    Gives (e.sumShares shares) fun sum => sum.Fills e.shape (r.Holds e.ring.Reduced) := by
  have hsum := gives_sumShares (gives_addAssign_reduced he) (v := fun _ _ _ => ()) hne
    (List.forall₂_same.2 fun share hshare => .of_fills (hshares share hshare))
  exact hsum.imp fun _ hfills => hfills.fills fun _ _ _ hx => hx

end Reduced

end Engine
end Protocol
end RelinCeremony
