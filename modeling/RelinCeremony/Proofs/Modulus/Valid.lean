import Mathlib.Data.List.GetD
import Mathlib.Data.ZMod.Units
import RelinCeremony.Modulus.Basic
import RelinCeremony.Proofs.Gives

namespace RelinCeremony
namespace Modulus

/-!
# Residues as classes

A built modulus is odd, has at most 62 bits and carries the right constants; this
is `Valid`.  A word represents a class modulo `m` if it is the reduced residue of
the class.  The operations on residues are described by what they do to the
classes.
-/

/-- The invariant of a modulus with its constants. -/
structure Valid (m : Modulus) : Prop where
  odd : m.value % 2 = 1
  three_le : 3 ≤ m.value
  lt : m.value < 2 ^ 62
  negInverse : m.word * m.negInverse = -1
  radixSquared : m.radixSquared = 2 ^ 128 % m.value

/-- A modulus that is built is the one asked for, with the right constants. -/
theorem valid_of_build {p : Nat} {m : Modulus} (h : build p = .ok (some m)) :
    m.Valid ∧ m.value = p := by
  unfold build at h
  split at h
  case isFalse => cases h
  case isTrue hadmissible =>
    obtain ⟨_, hinverse, hm⟩ := bind_eq_ok_iff.1 h
    rw [require_eq_ok_iff] at hinverse
    cases hm
    simp only [isAdmissible, Bool.and_eq_true, decide_eq_true_eq, beq_iff_eq] at hadmissible
    obtain ⟨⟨hthree, hlt⟩, hodd⟩ := hadmissible
    refine ⟨⟨hodd, hthree, hlt, ?_, ?_⟩, rfl⟩
    · show UInt64.ofNat p * -Word.inverse (.ofNat p) = -1
      rw [UInt64.mul_neg, hinverse]
    · show Word.size % p * (Word.size % p) % p = 2 ^ 128 % p
      rw [← Nat.mul_mod]
      rfl

namespace Valid

variable {m : Modulus}

theorem pos (hm : m.Valid) : 0 < m.value := by
  have h := hm.three_le
  omega

theorem lt_word (hm : m.Valid) : m.value < 2 ^ 63 := by
  have h := hm.lt
  omega

theorem toNat_word (hm : m.Valid) : m.word.toNat = m.value := by
  have h := hm.lt
  rw [word, UInt64.toNat_ofNat', Nat.mod_eq_of_lt (by omega)]

theorem coprime_two (hm : m.Valid) : Nat.Coprime 2 m.value := by
  rw [Nat.coprime_two_left]
  exact Nat.odd_iff.2 hm.odd

end Valid

/-! ## Representatives -/

/-- The word is the reduced residue of the class. -/
def Represents (m : Modulus) (a : Nat) (x : ZMod m.value) : Prop :=
  a < m.value ∧ (a : ZMod m.value) = x

variable {m : Modulus} {a b : Nat} {x y : ZMod m.value}

theorem represents_self (ha : a < m.value) : m.Represents a a := ⟨ha, rfl⟩

theorem represents_mod (hm : m.Valid) (n : Nat) : m.Represents (n % m.value) n :=
  ⟨Nat.mod_lt _ hm.pos, ZMod.natCast_mod n m.value⟩

theorem represents_pred (hm : m.Valid) : m.Represents (m.value - 1) (-1) := by
  refine ⟨Nat.sub_lt hm.pos Nat.one_pos, ?_⟩
  rw [Nat.cast_sub hm.pos, ZMod.natCast_self, Nat.cast_one, zero_sub]

theorem Represents.unique (ha : m.Represents a x) (hb : m.Represents b x) : a = b := by
  have hclass : (a : ZMod m.value) = b := ha.2.trans hb.2.symm
  have hmod := (ZMod.natCast_eq_natCast_iff a b m.value).1 hclass
  exact hmod.eq_of_lt_of_lt ha.1 hb.1

/-- The words of a row are the reduced residues of a family of classes. -/
def RowRepresents (m : Modulus) {n : Nat} (row : List Nat) (v : Fin n → ZMod m.value) : Prop :=
  row.length = n ∧ ∀ t : Fin n, m.Represents (row.getD t 0) (v t)

theorem RowRepresents.unique {n : Nat} {row row' : List Nat} {v : Fin n → ZMod m.value}
    (h : m.RowRepresents row v) (h' : m.RowRepresents row' v) : row = row' := by
  refine List.ext_getElem (h.1.trans h'.1.symm) fun t ht ht' => ?_
  have hcell := (h.2 ⟨t, h.1 ▸ ht⟩).unique (h'.2 ⟨t, h.1 ▸ ht⟩)
  rwa [List.getD_eq_getElem _ _ ht, List.getD_eq_getElem _ _ ht'] at hcell

/-- The row consists of `n` numbers that are reduced modulo `p`. -/
def IsRow (p n : Nat) (row : List Nat) : Prop := row.length = n ∧ ∀ a ∈ row, a < p

instance (p n : Nat) (row : List Nat) : Decidable (IsRow p n row) :=
  inferInstanceAs (Decidable (_ ∧ _))

theorem IsRow.set {p n i a : Nat} {row : List Nat} (h : IsRow p n row) (ha : a < p) :
    IsRow p n (row.set i a) := by
  refine ⟨(List.length_set ..).trans h.1, fun b hb => ?_⟩
  rcases List.mem_or_eq_of_mem_set hb with hmem | rfl
  · exact h.2 b hmem
  · exact ha

theorem IsRow.represents {n : Nat} {row : List Nat} (h : IsRow m.value n row) :
    m.RowRepresents row fun t : Fin n => (row.getD t 0 : ZMod m.value) := by
  refine ⟨h.1, fun t => represents_self (h.2 _ ?_)⟩
  have ht : (t : Nat) < row.length := by
    rw [h.1]
    exact t.isLt
  rw [List.getD_eq_getElem _ _ ht]
  exact List.getElem_mem ht

theorem RowRepresents.isRow {n : Nat} {row : List Nat} {v : Fin n → ZMod m.value}
    (h : m.RowRepresents row v) : IsRow m.value n row := by
  refine ⟨h.1, fun a ha => ?_⟩
  obtain ⟨t, ht, rfl⟩ := List.getElem_of_mem ha
  have hcell := h.2 ⟨t, h.1 ▸ ht⟩
  rw [List.getD_eq_getElem _ _ ht] at hcell
  exact hcell.1

/-! ## Sums, differences and negatives -/

theorem gives_add (hm : m.Valid) (ha : m.Represents a x) (hb : m.Represents b y) :
    Gives (m.add a b) fun r => m.Represents r (x + y) := by
  refine ⟨_, add_eq hm.lt_word ha.1 hb.1, ?_⟩
  rw [← ha.2, ← hb.2, ← Nat.cast_add]
  exact represents_mod hm (a + b)

theorem gives_sub (hm : m.Valid) (ha : m.Represents a x) (hb : m.Represents b y) :
    Gives (m.sub a b) fun r => m.Represents r (x - y) := by
  refine ⟨_, sub_eq hm.lt_word ha.1 hb.1, ?_⟩
  have hle : b ≤ a + m.value := by
    have hb' := hb.1
    omega
  have hclass : ((a + m.value - b : Nat) : ZMod m.value) = x - y := by
    rw [Nat.cast_sub hle, Nat.cast_add, ZMod.natCast_self, add_zero, ha.2, hb.2]
  rw [← hclass]
  exact represents_mod hm (a + m.value - b)

theorem gives_neg (hm : m.Valid) (ha : m.Represents a x) :
    Gives (m.neg a) fun r => m.Represents r (-x) := by
  refine ⟨_, neg_eq hm.lt_word ha.1, ?_⟩
  have hclass : ((m.value - a : Nat) : ZMod m.value) = -x := by
    rw [Nat.cast_sub ha.1.le, ZMod.natCast_self, zero_sub, ha.2]
  rw [← hclass]
  exact represents_mod hm (m.value - a)

theorem represents_reduceInt (hm : m.Valid) (n : Int) : m.Represents (m.reduceInt n) n := by
  have hpos : (0 : Int) < m.value := by
    have h := hm.pos
    omega
  have hnonneg : 0 ≤ n % (m.value : Int) := Int.emod_nonneg n hpos.ne'
  have hlt : n % (m.value : Int) < m.value := Int.emod_lt_of_pos n hpos
  refine ⟨?_, ?_⟩
  · unfold reduceInt
    omega
  · have hcast : ((m.reduceInt n : Nat) : Int) = n % (m.value : Int) := Int.toNat_of_nonneg hnonneg
    rw [← Int.cast_natCast, hcast]
    exact ZMod.intCast_mod n m.value

end Modulus
end RelinCeremony
