import Mathlib.Algebra.BigOperators.Fin
import RelinCeremony.Proofs.Ring.Construction
import RelinCeremony.Ring.Residues

namespace RelinCeremony
namespace Ring
namespace NegacyclicRing

/-!
# Coefficients and their classes

Integers written into a ring are represented in every channel, and natural numbers
read from it are the least ones with the classes of the element.
-/

variable {ring : NegacyclicRing} {a out : Element} {x : ring.Values}

def classes (ring : NegacyclicRing) (coefficients : List Int) : ring.Values :=
  fun _ t => (coefficients.getD t 0 : Int)

theorem gives_writeInts (hring : ring.ValidModuli) {coefficients : List Int}
    (hlength : coefficients.length = ring.degree) (hout : ring.Fits out) :
    Gives (ring.writeInts coefficients out) fun c =>
      ring.Represents c (ring.classes coefficients) := by
  refine Gives.bind (gives_updateRows hout.1 rfl fun j hjo hjp => ?_) fun rows hrows =>
    ⟨_, rfl, hrows⟩
  refine gives_updateRow (hout.row_length hjo) hlength fun t hto htp => ⟨_, rfl, ?_⟩
  rw [classes, List.getD_eq_getElem _ _ htp]
  exact Modulus.represents_reduceInt (hring j) _

theorem gives_ofInts (hring : ring.ValidModuli) {coefficients : List Int}
    (hlength : coefficients.length = ring.degree) :
    Gives (ring.ofInts coefficients) fun c => ring.Represents c (ring.classes coefficients) := by
  rw [ofInts, if_pos hlength]
  exact (gives_writeInts hring hlength ring.fits_zero).lift

/-- Natural numbers of any size are reduced in every channel. -/
theorem gives_ofNats (hring : ring.ValidModuli) {coefficients : List Nat}
    (hlength : coefficients.length = ring.degree) :
    Gives (ring.ofNats coefficients) fun c =>
      ring.Represents c fun _ t => (coefficients.getD t 0 : Nat) := by
  rw [ofNats, if_pos hlength]
  refine ⟨_, rfl, represents_iff_rows.2 ⟨by simp [moduli], fun j hj => ?_⟩⟩
  constructor
  · simpa using hlength
  · intro t
    have ht : (t : Nat) < coefficients.length := by
      rw [hlength]
      exact t.isLt
    simp only [moduli, List.map_map, List.getElem_map, Function.comp_apply]
    rw [List.getD_eq_getElem _ _ (by simpa using ht), List.getD_eq_getElem _ _ ht,
      List.getElem_map]
    exact Modulus.represents_mod (hring j) _

/-! ## Reading coefficients -/

/-- Column `t` of an element is read through the idempotents. -/
theorem coefficient_eq (ha : ring.Fits a) {t : Nat} (ht : t < ring.degree) :
    ring.coefficient a.rows t =
      .ok ((∑ j, (ring.channel j).idempotent * a.residue j t) % ring.modulus) := by
  have hterms : (ring.channels.zip a.rows).mapM
      (fun (p : Channel × List Nat) => do
        return p.1.idempotent * (← Lockstep.read p.2 t)) =
      (.ok ((ring.channels.zip a.rows).map fun p => p.1.idempotent * p.2.getD t 0) :
        Checked (List Nat)) := by
    refine mapM_eq_ok_map fun p hp => ?_
    have hlength : p.2.length = ring.degree := ha.2 _ (List.of_mem_zip hp).2
    have htp : t < p.2.length := by
      rw [hlength]
      exact ht
    rw [Lockstep.read_eq htp, List.getD_eq_getElem _ _ htp]
    rfl
  have hlist : (ring.channels.zip a.rows).map (fun p => p.1.idempotent * p.2.getD t 0) =
      List.ofFn fun j => (ring.channel j).idempotent * a.residue j t := by
    refine List.ext_getElem (by simp [ha.1]) fun j hj hj' => ?_
    have hja : j < a.rows.length := by
      rw [ha.1]
      simpa using hj'
    simp only [List.getElem_map, List.getElem_zip, List.getElem_ofFn, Element.residue,
      List.getD_eq_getElem _ _ hja]
    rfl
  unfold coefficient
  rw [hterms, hlist, ← List.sum_ofFn]
  rfl

/-- A sum of multiples of the idempotents has the class of channel `j` that it has there. -/
theorem Valid.cast_sum_idempotent (hring : ring.Valid) (r : Fin ring.channels.length → Nat)
    (j : Fin ring.channels.length) :
    ((∑ i, (ring.channel i).idempotent * r i : Nat) : ZMod (ring.channel j).modulus.value) =
      r j := by
  rw [Nat.cast_sum]
  -- Only the channel's own idempotent is left of the sum.
  rw [Finset.sum_eq_single j]
  · rw [Nat.cast_mul, hring.cast_idempotent, if_pos rfl, one_mul]
  · intro i _ hij
    rw [Nat.cast_mul, hring.cast_idempotent, if_neg hij, zero_mul]
  · simp

/-- The coefficients of an element are below the modulus and belong to its classes. -/
theorem gives_toNats (hring : ring.Valid) (ha : ring.Represents a x) :
    Gives (ring.toNats a) fun coefficients =>
      coefficients.length = ring.degree ∧ (∀ c ∈ coefficients, c < ring.modulus) ∧
        ∀ j (t : Fin ring.degree), (coefficients.getD t 0 : ZMod (ring.channel j).modulus.value) =
          x j t := by
  have hmap : (List.range ring.degree).mapM (ring.coefficient a.rows) =
      .ok ((List.range ring.degree).map fun t =>
        (∑ j, (ring.channel j).idempotent * a.residue j t) % ring.modulus) :=
    mapM_eq_ok_map fun t ht => coefficient_eq ha.1 (List.mem_range.1 ht)
  have hcount : a.rowCount = ring.channels.length := ha.1.1
  rw [toNats, require_bind hcount, hmap]
  refine ⟨_, rfl, by simp, ?_, fun j t => ?_⟩
  · intro c hc
    obtain ⟨t, _, rfl⟩ := List.mem_map.1 hc
    exact Nat.mod_lt _ hring.modulus_pos
  · rw [List.getD_eq_getElem _ _ (by simp), List.getElem_map, List.getElem_range,
      cast_mod_of_dvd (hring.channel j).dvd, hring.cast_sum_idempotent]
    exact (ha.2 j t).2

end NegacyclicRing
end Ring
end RelinCeremony
