import Mathlib.Algebra.Ring.Pi
import Mathlib.Data.List.GetD
import Mathlib.Data.ZMod.Basic
import RelinCeremony.Proofs.Modulus.Valid
import RelinCeremony.Ring.NegacyclicRing

namespace RelinCeremony
namespace Ring

/-!
# Elements as families of classes

A reduced element of a ring stands for a family of classes: one class for each
channel and each column.  The families form a commutative ring with pointwise
operations, `NegacyclicRing.Values`, and a family determines its reduced element.
Whether the columns are coefficients or values of the transform is not decided
here.
-/

namespace Element

/-- The residue in row `j` and column `t`, and 0 where there is none. -/
def residue (a : Element) (j t : Nat) : Nat := (a.rows.getD j []).getD t 0

theorem residue_eq {a : Element} {j t : Nat} (hj : j < a.rows.length)
    (ht : t < a.rows[j].length) : a.residue j t = a.rows[j][t] := by
  simp [residue, List.getD_eq_getElem?_getD, List.getElem?_eq_getElem hj,
    List.getElem?_eq_getElem ht]

/-- The element has the given number of rows, and each row the given number of
columns. -/
def HasDimensions (a : Element) (rows columns : Nat) : Prop :=
  a.rows.length = rows ∧ ∀ row ∈ a.rows, row.length = columns

instance (a : Element) (rows columns : Nat) : Decidable (a.HasDimensions rows columns) :=
  inferInstanceAs (Decidable (_ ∧ _))

namespace HasDimensions

variable {a b : Element} {rows columns : Nat}

theorem row_length (h : a.HasDimensions rows columns) {j : Nat} (hj : j < a.rows.length) :
    a.rows[j].length = columns :=
  h.2 _ (List.getElem_mem hj)

theorem zero (rows columns : Nat) : (Element.zero rows columns).HasDimensions rows columns := by
  refine ⟨by simp [Element.zero], fun row hrow => ?_⟩
  rw [Element.zero, List.mem_replicate] at hrow
  simp [hrow.2]

theorem ext (ha : a.HasDimensions rows columns) (hb : b.HasDimensions rows columns)
    (h : ∀ j < rows, ∀ t < columns, a.residue j t = b.residue j t) : a = b := by
  have hlength : a.rows.length = b.rows.length := ha.1.trans hb.1.symm
  have hrows : a.rows = b.rows := by
    apply List.ext_getElem hlength
    intro j hja hjb
    apply List.ext_getElem ((ha.row_length hja).trans (hb.row_length hjb).symm)
    intro t hta htb
    have hresidue := h j (by rw [← ha.1]; exact hja) t (by rw [← ha.row_length hja]; exact hta)
    rwa [residue_eq hja hta, residue_eq hjb htb] at hresidue
  cases a
  cases b
  exact congrArg Element.mk hrows

end HasDimensions
end Element

namespace NegacyclicRing

def channel (ring : NegacyclicRing) (j : Fin ring.channels.length) : Channel := ring.channels[j]

/-- Families of classes, one for each channel and each column. -/
abbrev Values (ring : NegacyclicRing) : Type :=
  (j : Fin ring.channels.length) → Fin ring.degree → ZMod (ring.channel j).modulus.value

variable {ring : NegacyclicRing} {a b : Element} {x y : ring.Values}

/-- The classes of the residues of an element. -/
def values (ring : NegacyclicRing) (a : Element) : ring.Values :=
  fun j t => (a.residue j t : ZMod (ring.channel j).modulus.value)

/-- The element has a row for each channel and as many columns as the degree. -/
def Fits (ring : NegacyclicRing) (a : Element) : Prop :=
  a.HasDimensions ring.channels.length ring.degree

instance (ring : NegacyclicRing) (a : Element) : Decidable (ring.Fits a) :=
  inferInstanceAs (Decidable (a.HasDimensions _ _))

/-- The element fits, and every residue is below the modulus of its channel. -/
def Reduced (ring : NegacyclicRing) (a : Element) : Prop :=
  ring.Fits a ∧ ∀ (j : Fin ring.channels.length) (t : Fin ring.degree),
    a.residue j t < (ring.channel j).modulus.value

instance (ring : NegacyclicRing) (a : Element) : Decidable (ring.Reduced a) :=
  inferInstanceAs (Decidable (_ ∧ _))

/-- The element is the reduced one of the family of classes. -/
def Represents (ring : NegacyclicRing) (a : Element) (x : ring.Values) : Prop :=
  ring.Fits a ∧ ∀ (j : Fin ring.channels.length) (t : Fin ring.degree),
    (ring.channel j).modulus.Represents (a.residue j t) (x j t)

theorem represents_iff_rows :
    ring.Represents a x ↔ a.rows.length = ring.channels.length ∧
      ∀ (j : Fin ring.channels.length) (hj : j < a.rows.length),
        (ring.channel j).modulus.RowRepresents a.rows[(j : Nat)] (x j) := by
  constructor
  · intro h
    refine ⟨h.1.1, fun j hj => ⟨h.1.row_length hj, fun t => ?_⟩⟩
    have hcell := h.2 j t
    rwa [Element.residue, List.getD_eq_getElem _ _ hj] at hcell
  · rintro ⟨hlength, hrows⟩
    refine ⟨⟨hlength, fun row hrow => ?_⟩, fun j t => ?_⟩
    · obtain ⟨j, hj, rfl⟩ := List.getElem_of_mem hrow
      exact (hrows ⟨j, by rw [← hlength]; exact hj⟩ hj).1
    · have hj : (j : Nat) < a.rows.length := by
        rw [hlength]
        exact j.isLt
      rw [Element.residue, List.getD_eq_getElem _ _ hj]
      exact (hrows j hj).2 t

theorem Reduced.represents (h : ring.Reduced a) : ring.Represents a (ring.values a) :=
  ⟨h.1, fun j t => Modulus.represents_self (h.2 j t)⟩

theorem Represents.reduced (h : ring.Represents a x) : ring.Reduced a :=
  ⟨h.1, fun j t => (h.2 j t).1⟩

theorem Represents.values_eq (h : ring.Represents a x) : ring.values a = x := by
  funext j t
  exact (h.2 j t).2

theorem Represents.unique (ha : ring.Represents a x) (hb : ring.Represents b x) : a = b := by
  refine ha.1.ext hb.1 fun j hj t ht => ?_
  exact (ha.2 ⟨j, hj⟩ ⟨t, ht⟩).unique (hb.2 ⟨j, hj⟩ ⟨t, ht⟩)

/-- Computations that give reduced elements of one family give the same element. -/
theorem eq_of_gives_represents {ε : Type} {c d : Except ε Element}
    (hc : Gives c fun a => ring.Represents a x) (hd : Gives d fun a => ring.Represents a x) :
    c = d := by
  obtain ⟨a, rfl, ha⟩ := hc
  obtain ⟨b, rfl, hb⟩ := hd
  rw [ha.unique hb]

theorem fits_zero (ring : NegacyclicRing) : ring.Fits ring.zero :=
  Element.HasDimensions.zero _ _

theorem residue_zero (ring : NegacyclicRing) (j t : Nat) : ring.zero.residue j t = 0 := by
  simp only [zero, Element.zero, Element.residue, List.getD_eq_getElem?_getD,
    List.getElem?_replicate]
  split
  · simp only [Option.getD_some, List.getElem?_replicate]
    split <;> rfl
  · rfl

theorem represents_zero (hring : ∀ j, (ring.channel j).modulus.Valid) :
    ring.Represents ring.zero 0 := by
  refine ⟨ring.fits_zero, fun j t => ?_⟩
  rw [residue_zero]
  exact ⟨(hring j).pos, Nat.cast_zero⟩

end NegacyclicRing
end Ring
end RelinCeremony
