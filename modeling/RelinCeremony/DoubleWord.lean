import RelinCeremony.Word

namespace RelinCeremony

/-!
# Double words

A double word is a number below `2^128`, kept as two words.  Products of words
and Montgomery sums are double words.  `toNat_ofProduct` and `checkedAdd_eq` say
what the two operations compute.
-/

/-- A number below `2^128` by its high and its low word. -/
structure DoubleWord where
  high : UInt64
  low : UInt64
deriving DecidableEq

namespace DoubleWord

/-- The number that a double word stands for. -/
def toNat (x : DoubleWord) : Nat := x.high.toNat * 2 ^ 64 + x.low.toNat

/-- The double word of a number below `2^128`. -/
def ofNat (n : Nat) : DoubleWord := ⟨.ofNat (n / 2 ^ 64), .ofNat n⟩

@[inline] def ofWord (a : UInt64) : DoubleWord := ⟨0, a⟩

@[inline] def ofProduct (a b : UInt64) : DoubleWord := ⟨Word.highProduct a b, a * b⟩

/-- The carry out of the sum of two words. -/
@[inline] def carry (a b : UInt64) : UInt64 := if a + b < a then 1 else 0

/-- Sum that has to fit in a double word. -/
@[inline] def checkedAdd (x y : DoubleWord) : Checked DoubleWord := do
  let high := x.high + y.high
  let carry := carry x.low y.low
  require (x.high ≤ high ∧ high ≤ high + carry) .overflow
  return ⟨high + carry, x.low + y.low⟩

/-! ## What the operations compute -/

theorem toNat_ofWord (a : UInt64) : (ofWord a).toNat = a.toNat := by
  simp [toNat, ofWord]

theorem toNat_ofProduct (a b : UInt64) : (ofProduct a b).toNat = a.toNat * b.toNat := by
  simp only [toNat, ofProduct, Word.toNat_highProduct, UInt64.toNat_mul]
  omega

theorem toNat_high (x : DoubleWord) : x.high.toNat = x.toNat / 2 ^ 64 := by
  have hlow := x.low.toNat_lt
  simp only [toNat]
  omega

theorem toNat_low (x : DoubleWord) : x.low.toNat = x.toNat % 2 ^ 64 := by
  have hlow := x.low.toNat_lt
  simp only [toNat]
  omega

theorem toNat_carry (a b : UInt64) : (carry a b).toNat = (a.toNat + b.toNat) / 2 ^ 64 := by
  have ha := a.toNat_lt
  have hb := b.toNat_lt
  simp only [carry, UInt64.lt_iff_toNat_lt, UInt64.toNat_add]
  split
  · simp
    omega
  · simp
    omega

theorem checkedAdd_of_lt {x y : DoubleWord} (h : x.toNat + y.toNat < 2 ^ 128) :
    ∃ z, x.checkedAdd y = .ok z ∧ z.toNat = x.toNat + y.toNat := by
  have hx := x.low.toNat_lt
  have hy := y.low.toNat_lt
  have hcarry := toNat_carry x.low y.low
  simp only [toNat] at h
  have hhigh : (x.high + y.high).toNat = x.high.toNat + y.high.toNat := by
    rw [UInt64.toNat_add, Nat.mod_eq_of_lt (by omega)]
  have htotal : (x.high + y.high + carry x.low y.low).toNat =
      x.high.toNat + y.high.toNat + (carry x.low y.low).toNat := by
    rw [UInt64.toNat_add, hhigh, Nat.mod_eq_of_lt (by omega)]
  refine ⟨⟨x.high + y.high + carry x.low y.low, x.low + y.low⟩, ?_, ?_⟩
  · have hfits : x.high ≤ x.high + y.high ∧
        x.high + y.high ≤ x.high + y.high + carry x.low y.low := by
      simp only [UInt64.le_iff_toNat_le, htotal, hhigh]
      omega
    exact require_bind hfits _ _
  · simp only [toNat, htotal, UInt64.toNat_add]
    omega

end DoubleWord
end RelinCeremony
