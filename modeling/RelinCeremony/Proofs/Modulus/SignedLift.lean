import RelinCeremony.Proofs.Modulus.MontgomeryForm

namespace RelinCeremony
namespace Modulus

/-!
# Signed integers and residues

Lifting takes a signed integer to its residue, and centring takes a residue back to an
integer.  The modulus is odd, so every class has exactly one integer between
`-(p - 1) / 2` and `(p - 1) / 2`.  Centring gives this integer; it undoes the lift of
these integers and of no others.

The laws hold for integers of any size, so in particular for all signed words, the least
one included.
-/

variable {m : Modulus} {a : Nat} {x y : Int}

/-- The integer is one of those that stand in the middle: its size is at most half the
modulus, rounded down. -/
def IsCentred (m : Modulus) (x : Int) : Prop := x.natAbs ≤ (m.value - 1) / 2

/-! ## The lift -/

theorem cast_reduceInt (hm : m.Valid) (x : Int) : (m.reduceInt x : Int) = x % m.value := by
  have hpos : (0 : Int) < m.value := Int.natCast_pos.2 hm.pos
  exact Int.toNat_of_nonneg (Int.emod_nonneg x hpos.ne')

theorem reduceInt_eq_iff (hm : m.Valid) :
    m.reduceInt x = m.reduceInt y ↔ x % m.value = y % m.value := by
  rw [← Int.natCast_inj, cast_reduceInt hm, cast_reduceInt hm]

/-- Two centred integers with one residue are equal: they differ by less than the
modulus. -/
theorem IsCentred.eq_of_reduceInt_eq (hm : m.Valid) (hx : m.IsCentred x) (hy : m.IsCentred y)
    (h : m.reduceInt x = m.reduceInt y) : x = y := by
  have hthree := hm.three_le
  have hdvd : (m.value : Int) ∣ x - y :=
    Int.ModEq.dvd ((reduceInt_eq_iff hm).1 h).symm
  have hsmall : |x - y| < (m.value : Int) := by
    unfold IsCentred at hx hy
    rw [abs_lt]
    omega
  exact sub_eq_zero.1 (Int.eq_zero_of_abs_lt_dvd hdvd hsmall)

/-! ## Centring -/

/-- The representative of a residue is centred, and its lift is the residue. -/
theorem gives_center (hm : m.Valid) (ha : a < m.value) :
    Gives (m.center a) fun c => m.IsCentred c ∧ m.reduceInt c = a := by
  have hodd := hm.odd
  have hresidue : (a : Int) % m.value = a := Int.emod_eq_of_lt (by omega) (by omega)
  rw [center, require_bind ha, Gives.pure_iff]
  simp only [← Int.natCast_inj, cast_reduceInt hm, IsCentred]
  split
  case isTrue hupper =>
    -- The residue lies above half the modulus and loses one modulus.
    exact ⟨by omega, by rw [Int.sub_emod_right, hresidue]⟩
  case isFalse hlower =>
    exact ⟨by omega, hresidue⟩

theorem center_reduceInt_eq_iff (hm : m.Valid) (x : Int) :
    m.center (m.reduceInt x) = .ok x ↔ m.IsCentred x := by
  obtain ⟨c, hcenter, hcentred, hlift⟩ := gives_center hm (represents_reduceInt hm x).1
  constructor
  · intro h
    rw [hcenter] at h
    cases h
    exact hcentred
  · intro hx
    rw [hcenter, hcentred.eq_of_reduceInt_eq hm hx hlift]

/-! ## Sums, differences and negatives of lifts -/

theorem add_reduceInt (hm : m.Valid) (x y : Int) :
    m.add (m.reduceInt x) (m.reduceInt y) = .ok (m.reduceInt (x + y)) := by
  have hsum := represents_reduceInt hm (x + y)
  rw [Int.cast_add] at hsum
  exact eq_ok_of_gives_represents
    (gives_add hm (represents_reduceInt hm x) (represents_reduceInt hm y)) hsum

theorem sub_reduceInt (hm : m.Valid) (x y : Int) :
    m.sub (m.reduceInt x) (m.reduceInt y) = .ok (m.reduceInt (x - y)) := by
  have hdifference := represents_reduceInt hm (x - y)
  rw [Int.cast_sub] at hdifference
  exact eq_ok_of_gives_represents
    (gives_sub hm (represents_reduceInt hm x) (represents_reduceInt hm y)) hdifference

theorem neg_reduceInt (hm : m.Valid) (x : Int) :
    m.neg (m.reduceInt x) = .ok (m.reduceInt (-x)) := by
  have hnegative := represents_reduceInt hm (-x)
  rw [Int.cast_neg] at hnegative
  exact eq_ok_of_gives_represents (gives_neg hm (represents_reduceInt hm x)) hnegative

/-- Every odd number from 3 to `2^62 - 1` becomes a modulus for which centring and lifting
are inverse.  A residue is centred to an integer of size at most half the modulus whose
lift is the residue.  An integer of any size is lifted to a residue congruent to it, from
which it comes back by centring exactly if its size is at most half the modulus.  Lifting
respects sums, differences and negatives. -/
theorem center_reduceInt_inverse {p : Nat} (hodd : p % 2 = 1) (hthree : 3 ≤ p)
    (hlt : p < 2 ^ 62) :
    ∃ m, build p = .ok (some m) ∧ m.value = p ∧
      (∀ a < p, Gives (m.center a) fun c =>
        -(((p - 1) / 2 : Nat) : Int) ≤ c ∧ c ≤ ((p - 1) / 2 : Nat) ∧ m.reduceInt c = a) ∧
      (∀ x : Int, m.reduceInt x < p ∧ m.reduceInt x ≡ x [ZMOD p] ∧
        (m.center (m.reduceInt x) = .ok x ↔ x.natAbs ≤ (p - 1) / 2)) ∧
      ∀ x y : Int,
        m.add (m.reduceInt x) (m.reduceInt y) = .ok (m.reduceInt (x + y)) ∧
        m.sub (m.reduceInt x) (m.reduceInt y) = .ok (m.reduceInt (x - y)) ∧
        m.neg (m.reduceInt x) = .ok (m.reduceInt (-x)) := by
  obtain ⟨_, hbuild, m, rfl, hm, rfl⟩ :=
    gives_build_of_isAdmissible (isAdmissible_iff.2 ⟨hthree, hlt, hodd⟩)
  refine ⟨m, hbuild, rfl, fun a ha => ?_, fun x => ⟨(represents_reduceInt hm x).1, ?_,
    center_reduceInt_eq_iff hm x⟩,
    fun x y => ⟨add_reduceInt hm x y, sub_reduceInt hm x y, neg_reduceInt hm x⟩⟩
  · refine (gives_center hm ha).imp fun c hc => ?_
    obtain ⟨hcentred, hlift⟩ := hc
    unfold IsCentred at hcentred
    exact ⟨by omega, by omega, hlift⟩
  · rw [cast_reduceInt hm]
    exact Int.mod_modEq x m.value

/-- Modulo 1153 the middle is at 576: 576 comes back and 577 does not.  The least signed
word has the residue of its centred representative, -315. -/
theorem center_reduceInt_inverse_small : ∃ m, build 1153 = .ok (some m) ∧ m.value = 1153 ∧
    m.center (m.reduceInt 576) = .ok 576 ∧ m.center (m.reduceInt 577) ≠ .ok 577 ∧
    m.reduceInt (-2 ^ 63) ≡ -2 ^ 63 [ZMOD 1153] ∧
    m.center (m.reduceInt (-2 ^ 63)) ≠ .ok (-2 ^ 63) ∧
    m.neg (m.reduceInt (-2 ^ 63 + 1)) = .ok (m.reduceInt (2 ^ 63 - 1)) ∧
    Gives (m.center 577) fun c => -576 ≤ c ∧ m.reduceInt c = 577 := by
  obtain ⟨m, hbuild, hvalue, hcenter, hlift, hlaws⟩ :=
    center_reduceInt_inverse (p := 1153) (by decide) (by decide) (by decide)
  refine ⟨m, hbuild, hvalue, (hlift 576).2.2.2 (by decide), ?_, (hlift (-2 ^ 63)).2.1, ?_,
    (hlaws (-2 ^ 63 + 1) 0).2.2, ?_⟩
  · exact fun h => absurd ((hlift 577).2.2.1 h) (by decide)
  · exact fun h => absurd ((hlift (-2 ^ 63)).2.2.1 h) (by decide)
  · exact (hcenter 577 (by decide)).imp fun c hc => ⟨hc.1, hc.2.2⟩

end Modulus
end RelinCeremony
