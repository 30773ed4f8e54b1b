import RelinCeremony.Proofs.Ring.CommonArea

namespace RelinCeremony
namespace Ring
namespace NegacyclicRing

/-!
# Products that are added or subtracted at once

The fused operations add a Montgomery product to the output, or subtract it.  The same is
done in two steps with an element that holds the product in between.  This element has to
cover the common area of the output and the factors.  If it is larger, the second step also
reaches places where a factor ends; there it adds what the element held before.

A subtraction of a product undoes its addition.
-/

/-- Whether a product is added or subtracted. -/
inductive Sign where
  | plus
  | minus

namespace Sign

variable {α : Type}

/-- The operation that accumulates the product of its operands. -/
def fused : Sign → α → α → Operation α
  | plus => .mulMontgomeryAdd
  | minus => .mulMontgomerySub

/-- The sum or the difference of two operands. -/
def combine : Sign → α → α → Operation α
  | plus => .add
  | minus => .sub

variable {sign : Sign} {x y : α}

@[simp] theorem operands_fused : (sign.fused x y).operands = [x, y] := by cases sign <;> rfl

@[simp] theorem operands_combine : (sign.combine x y).operands = [x, y] := by cases sign <;> rfl

@[simp] theorem reads_fused {o : α} : (sign.fused x y).reads o = [o, x, y] := by
  cases sign <;> rfl

@[simp] theorem reads_combine {o : α} : (sign.combine x y).reads o = [x, y] := by
  cases sign <;> rfl

variable {a b : Element} {j t : Nat}

@[simp] theorem residuesAt_fused :
    (sign.fused a b).residuesAt j t = sign.fused (a.residue j t) (b.residue j t) := by
  cases sign <;> rfl

@[simp] theorem residuesAt_combine :
    (sign.combine a b).residuesAt j t = sign.combine (a.residue j t) (b.residue j t) := by
  cases sign <;> rfl

variable {p o r s u v : Nat} {x y : Nat}

/-- Combining a residue with a product is the fused operation. -/
theorem relates_fused (hs : (Operation.mulMontgomery x y).Relates p u s)
    (hr : (sign.combine o s).Relates p v r) : (sign.fused x y).Relates p o r := by
  cases sign with
  | plus =>
      calc
        r * 2 ^ 64 ≡ (o + s) * 2 ^ 64 [MOD p] := Nat.ModEq.mul_right _ hr
        _ = o * 2 ^ 64 + s * 2 ^ 64 := Nat.add_mul ..
        _ ≡ o * 2 ^ 64 + x * y [MOD p] := Nat.ModEq.add_left _ hs
  | minus =>
      calc
        r * 2 ^ 64 + x * y ≡ r * 2 ^ 64 + s * 2 ^ 64 [MOD p] :=
          Nat.ModEq.add_left _ (Nat.ModEq.symm hs)
        _ = (r + s) * 2 ^ 64 := (Nat.add_mul ..).symm
        _ ≡ o * 2 ^ 64 [MOD p] := Nat.ModEq.mul_right _ hr

/-- Combining a reduced residue with zero changes nothing. -/
theorem eq_of_relates_combine_zero (hr : r < p) (ho : o < p)
    (h : (sign.combine o 0).Relates p v r) : r = o := by
  cases sign with
  | plus => exact Nat.ModEq.eq_of_lt_of_lt h hr ho
  | minus => exact Nat.ModEq.eq_of_lt_of_lt h hr ho

end Sign

/-! ## Two steps -/

/-- The element can hold the product of `a` and `b` on its way to the output: it covers the
common area, and what the two steps read is reduced. -/
structure CanHold (moduli : List Nat) (a b out held : Element) : Prop where
  admits : (Operation.mulMontgomery a b).Admits moduli held
  covers : ∀ j t, Common moduli [out, a, b] j t → Common moduli [held] j t
  reduced : ∀ j t, Common moduli [out, held] j t → ¬ Common moduli [out, a, b] j t →
    out.residue j t < moduli.getD j 0 ∧ held.residue j t < moduli.getD j 0

/-- Where only the output and the element that holds the product meet, and not the factors,
the latter is zero. -/
def IsClearBeyond (moduli : List Nat) (a b out held : Element) : Prop :=
  ∀ j t, Common moduli [out, held] j t → ¬ Common moduli [out, a, b] j t → held.residue j t = 0

section TwoSteps

variable {ring : NegacyclicRing} {a b out held product c d : Element} {sign : Sign}

theorem common_cons_cons_iff {moduli : List Nat} {e e' : Element} {es : List Element} {j t : Nat} :
    Common moduli (e :: e' :: es) j t ↔ Common moduli [e] j t ∧ Common moduli (e' :: es) j t := by
  simp only [Common, List.forall_mem_cons, List.not_mem_nil, false_imp_iff, implies_true]
  tauto

theorem common_congr {moduli : List Nat} {e e' : Element} {j t : Nat}
    (h : e.rows.map List.length = e'.rows.map List.length) :
    Common moduli [e] j t ↔ Common moduli [e'] j t := by
  simp only [Common, List.forall_mem_singleton, Element.rowCount_congr h,
    Element.columnCount_congr h]

/-- In the common area the product is a residue of the factors. -/
theorem CanHold.exists_product {moduli : List Nat} (hheld : CanHold moduli a b out held)
    (hproduct : (Operation.mulMontgomery a b).IsResult moduli held product) {j t : Nat}
    (hcommon : Common moduli [out, a, b] j t) :
    product.residue j t < moduli.getD j 0 ∧
      (Operation.mulMontgomery (a.residue j t) (b.residue j t)).Relates (moduli.getD j 0)
        (held.residue j t) (product.residue j t) := by
  have hall : Common moduli [held, a, b] j t := by
    have hcovered := hheld.covers j t hcommon
    simp only [common_cons_cons_iff] at hcommon ⊢
    exact ⟨hcovered, hcommon.2⟩
  obtain ⟨s, hs, hlt, hrelates⟩ := hproduct.common j t hall
  rw [Element.residue_of_residue? hs]
  exact ⟨hlt, hrelates⟩

/-- Beyond the common area the element holds what it held before, as far as the output
reaches. -/
theorem residue_product_of_not_common {moduli : List Nat}
    (hproduct : (Operation.mulMontgomery a b).IsResult moduli held product) {j t : Nat}
    (hmeet : Common moduli [out, held] j t) (hcommon : ¬ Common moduli [out, a, b] j t) :
    product.residue j t = held.residue j t := by
  have hframe : ¬ Common moduli [held, a, b] j t := by
    simp only [common_cons_cons_iff] at hmeet hcommon ⊢
    tauto
  rw [Element.residue_eq_getD, hproduct.frame j t hframe, ← Element.residue_eq_getD]

theorem admits_combine (h : (sign.fused a b).Admits ring.moduli out)
    (hheld : CanHold ring.moduli a b out held)
    (hproduct : (Operation.mulMontgomery a b).IsResult ring.moduli held product) :
    (sign.combine out product).Admits ring.moduli out := by
  have hout : out.IsRectangular := h.rectangular out (by simp)
  have hrectangular : product.IsRectangular :=
    (Element.isRectangular_congr hproduct.lengths).2 (hheld.admits.rectangular held (by simp))
  constructor
  · simp [hout, hrectangular]
  · intro j t hmeet
    simp only [Sign.operands_combine, Sign.residuesAt_combine, Sign.reads_combine,
      List.forall_mem_cons, List.not_mem_nil, false_imp_iff, implies_true, and_true,
      common_cons_cons_iff, common_congr hproduct.lengths] at hmeet ⊢
    by_cases hcommon : Common ring.moduli [out, a, b] j t
    · have hreads := h.reduced j t (by simpa using hcommon)
      simp only [Sign.residuesAt_fused, Sign.reads_fused, List.forall_mem_cons] at hreads
      exact ⟨hreads.1, (hheld.exists_product hproduct hcommon).1⟩
    · have hpair : Common ring.moduli [out, held] j t := common_cons_cons_iff.2 hmeet.2
      rw [residue_product_of_not_common hproduct hpair hcommon]
      exact hheld.reduced j t hpair hcommon

/-- In the common area the second step writes what the fused operation writes. -/
theorem exists_fused_of_combine {moduli : List Nat} (hheld : CanHold moduli a b out held)
    (hproduct : (Operation.mulMontgomery a b).IsResult moduli held product)
    (hd : (sign.combine out product).IsResult moduli out d) {j t : Nat}
    (hcommon : Common moduli [out, a, b] j t) :
    ∃ r, d.residue? j t = some r ∧ r < moduli.getD j 0 ∧
      (sign.fused (a.residue j t) (b.residue j t)).Relates (moduli.getD j 0)
        (out.residue j t) r := by
  have hmeet : Common moduli (out :: (sign.combine out product).operands) j t := by
    have hcovered := hheld.covers j t hcommon
    simp only [common_cons_cons_iff] at hcommon
    simp only [Sign.operands_combine, common_cons_cons_iff, common_congr hproduct.lengths]
    exact ⟨hcommon.1, hcommon.1, hcovered⟩
  obtain ⟨r, hr, hlt, hrelates⟩ := hd.common j t hmeet
  rw [Sign.residuesAt_combine] at hrelates
  exact ⟨r, hr, hlt, Sign.relates_fused (hheld.exists_product hproduct hcommon).2 hrelates⟩

/-- If the element adds nothing beyond the common area, the two steps are the fused
operation. -/
theorem isResult_fused_of_combine {moduli : List Nat} (hheld : CanHold moduli a b out held)
    (hproduct : (Operation.mulMontgomery a b).IsResult moduli held product)
    (hd : (sign.combine out product).IsResult moduli out d)
    (hclear : IsClearBeyond moduli a b out held) :
    (sign.fused a b).IsResult moduli out d := by
  refine ⟨hd.lengths, fun j t hcommon => ?_, fun j t hcommon => ?_⟩
  · rw [Sign.operands_fused] at hcommon
    rw [Sign.residuesAt_fused]
    exact exists_fused_of_combine hheld hproduct hd hcommon
  · rw [Sign.operands_fused] at hcommon
    by_cases hmeet : Common moduli (out :: (sign.combine out product).operands) j t
    · have hpair : Common moduli [out, held] j t := by
        simp only [Sign.operands_combine, common_cons_cons_iff,
          common_congr hproduct.lengths] at hmeet
        exact common_cons_cons_iff.2 hmeet.2
      -- The second step reaches this place, but it combines with zero there.
      obtain ⟨r, hr, hlt, hrelates⟩ := hd.common j t hmeet
      rw [Sign.residuesAt_combine, residue_product_of_not_common hproduct hpair hcommon,
        hclear j t hpair hcommon] at hrelates
      rw [hr, hd.residue?_out hr,
        Sign.eq_of_relates_combine_zero hlt (hheld.reduced j t hpair hcommon).1 hrelates]
    · exact hd.frame j t hmeet

namespace Valid

/-- Writing the product into an element that can hold it, and combining it with the output
then, is the fused operation on the common area, and everywhere if the element adds nothing
beyond it. -/
theorem gives_two_steps (hring : ring.Valid) (h : (sign.fused a b).Admits ring.moduli out)
    (hheld : CanHold ring.moduli a b out held) :
    Gives (ring.mulMontgomery a b held) fun product =>
      Gives ((sign.combine out product).write ring out) fun d =>
        Gives ((sign.fused a b).write ring out) fun c =>
          (∀ j t, Common ring.moduli [out, a, b] j t → d.residue? j t = c.residue? j t) ∧
            (IsClearBeyond ring.moduli a b out held → d = c) := by
  refine (hring.gives_write hheld.admits).imp fun product hproduct => ?_
  refine (hring.gives_write (admits_combine h hheld hproduct)).imp fun d hd => ?_
  refine (hring.gives_write h).imp fun c hc => ⟨fun j t hcommon => ?_, fun hclear => ?_⟩
  · obtain ⟨r, hr, hlt, hrelates⟩ := exists_fused_of_combine hheld hproduct hd hcommon
    obtain ⟨s, hs, hlt', hrelates'⟩ := hc.common j t (by simpa using hcommon)
    rw [Sign.residuesAt_fused] at hrelates'
    rw [hr, hs, hrelates.unique (hring.coprime_getD_moduli hcommon.1) hlt hlt' hrelates']
  · exact hring.eq_of_isResult (isResult_fused_of_combine hheld hproduct hd hclear) hc

/-- The subtraction of a product gives back the element that it was added to. -/
theorem gives_undo (hring : ring.Valid)
    (h : (Operation.mulMontgomeryAdd a b).Admits ring.moduli out) :
    Gives (ring.mulMontgomeryAdd a b out) fun c => ring.mulMontgomerySub a b c = .ok out := by
  refine (hring.gives_write h).imp fun c hc => ?_
  have hcommon : ∀ j t, Common ring.moduli [c, a, b] j t ↔ Common ring.moduli [out, a, b] j t := by
    intro j t
    simp only [common_cons_cons_iff, common_congr hc.lengths]
  have hadmits : (Operation.mulMontgomerySub a b).Admits ring.moduli c := by
    constructor
    · have hrectangular := h.rectangular
      simp only [Operation.operands, List.forall_mem_cons] at hrectangular ⊢
      exact ⟨(Element.isRectangular_congr hc.lengths).2 hrectangular.1, hrectangular.2⟩
    · intro j t hmeet
      obtain ⟨r, hr, hlt, -⟩ := hc.common j t ((hcommon j t).1 hmeet)
      have hreads := h.reduced j t ((hcommon j t).1 hmeet)
      simp only [Operation.residuesAt, Operation.map, Operation.reads,
        List.forall_mem_cons] at hreads ⊢
      rw [Element.residue_of_residue? hr]
      exact ⟨hlt, hreads.2⟩
  have hresult : (Operation.mulMontgomerySub a b).IsResult ring.moduli c out := by
    refine ⟨hc.lengths.symm, fun j t hmeet => ?_, fun j t hmeet => ?_⟩
    · -- What the addition wrote is congruent to the output and the product; the subtraction has
      -- to write the output again.
      obtain ⟨r, hr, -, hrelates⟩ := hc.common j t ((hcommon j t).1 hmeet)
      have hreads := h.reduced j t ((hcommon j t).1 hmeet)
      refine ⟨_, hc.residue?_out hr, hreads _ (by simp [Operation.residuesAt, Operation.map,
        Operation.reads]), ?_⟩
      rw [Element.residue_of_residue? hr]
      exact Nat.ModEq.symm hrelates
    · exact (hc.frame j t fun hout => hmeet ((hcommon j t).2 hout)).symm
  exact hring.write_eq_of_isResult hadmits hresult

end Valid

end TwoSteps

/-! ## All operations -/

/-- In a ring that is built, the six operations never fault on elements of any dimensions
whose residues in the common area are reduced.  They write there the one reduced residue that
meets the congruence of the operation, which is also what they write for elements of full
size, and change nothing else.  Adding or subtracting a product is to multiply into an
element that covers the common area and then to add or subtract it; and the subtraction of a
product undoes its addition. -/
theorem lockstep_exact {moduli : List Nat} {degree : Nat} {ring : NegacyclicRing}
    (hring : build moduli degree = .ok ring) :
    (∀ (operation : Operation Element) (out : Element), operation.Admits moduli out →
      Gives (operation.write ring out) fun c => operation.IsResult moduli out c ∧
        ∀ (full : Operation Element) (big : Element),
          (∀ e ∈ big :: full.operands, ring.Reduced e) →
            Gives (full.write ring big) fun result => ∀ j t,
              Common moduli (out :: operation.operands) j t → t < degree →
                full.residuesAt j t = operation.residuesAt j t →
                  big.residue j t = out.residue j t → result.residue? j t = c.residue? j t) ∧
    (∀ (sign : Sign) (a b out held : Element), (sign.fused a b).Admits moduli out →
      CanHold moduli a b out held →
        Gives (ring.mulMontgomery a b held) fun product =>
          Gives ((sign.combine out product).write ring out) fun d =>
            Gives ((sign.fused a b).write ring out) fun c =>
              (∀ j t, Common moduli [out, a, b] j t → d.residue? j t = c.residue? j t) ∧
                (IsClearBeyond moduli a b out held → d = c)) ∧
    ∀ a b out : Element, (Operation.mulMontgomeryAdd a b).Admits moduli out →
      Gives (ring.mulMontgomeryAdd a b out) fun c => ring.mulMontgomerySub a b c = .ok out := by
  obtain ⟨hvalid, rfl, rfl⟩ := valid_of_build hring
  refine ⟨fun operation out h => ?_, fun sign a b out held h hheld => ?_, fun a b out h => ?_⟩
  · exact (hvalid.gives_write h).imp fun c hc =>
      ⟨hc, fun full big hfull => hvalid.gives_write_full hc hfull⟩
  · exact hvalid.gives_two_steps h hheld
  · exact hvalid.gives_undo h

def unevenOut : Element := ⟨[[5, 6, 7], [200, 201, 202]]⟩

def unevenLeft : Element := ⟨[[96, 1], [500, 500], [0, 0]]⟩

def unevenRight : Element := ⟨[[96, 96, 300, 300]]⟩

/-- Rows of three, two and four residues have two columns in common, and one operand has only
one row.  The other residues are not reduced and stay as they are. -/
theorem lockstep_exact_small : ∃ ring, build [97, 113] 8 = .ok ring ∧
    (Gives (ring.add unevenLeft unevenRight unevenOut) fun c =>
      c.residue? 0 0 = some 95 ∧ c.residue? 0 2 = some 7 ∧ c.residue? 1 0 = some 200) ∧
    (Gives (ring.mulMontgomery unevenLeft unevenRight ⟨[[300, 300]]⟩) fun product =>
      Gives (ring.sub unevenOut product unevenOut) fun d =>
        ring.mulMontgomerySub unevenLeft unevenRight unevenOut = .ok d) ∧
    Gives (ring.mulMontgomeryAdd unevenLeft unevenRight unevenOut) fun c =>
      ring.mulMontgomerySub unevenLeft unevenRight c = .ok unevenOut := by
  have hgives : Gives (build [97, 113] 8) fun _ => True := by decide +kernel
  obtain ⟨ring, hring, _⟩ := hgives
  -- Both areas of which something is asked are the first two places of the first row.
  have hcommon : ∀ j t, Common [97, 113] [unevenOut, unevenLeft, unevenRight] j t ↔
      j = 0 ∧ t < 2 := by
    intro j t
    simp [Common, Element.rowCount, Element.columnCount, unevenOut, unevenLeft, unevenRight]
    omega
  have hpair : ∀ j t, Common [97, 113] [unevenOut, ⟨[[300, 300]]⟩] j t ↔ j = 0 ∧ t < 2 := by
    intro j t
    simp [Common, Element.rowCount, Element.columnCount, unevenOut]
    omega
  have hrectangular : ∀ e ∈ [unevenOut, unevenLeft, unevenRight], e.IsRectangular := by decide
  have hlt : ∀ j t, Common [97, 113] [unevenOut, unevenLeft, unevenRight] j t →
      ∀ e ∈ [unevenOut, unevenLeft, unevenRight], e.residue j t < [97, 113].getD j 0 := by
    intro j t h
    obtain ⟨rfl, ht⟩ := (hcommon j t).1 h
    interval_cases t <;> decide
  have hheld : CanHold [97, 113] unevenLeft unevenRight unevenOut ⟨[[300, 300]]⟩ := by
    refine ⟨⟨by decide, fun j t h => ?_⟩, fun j t h => ?_, fun j t h hnot => ?_⟩
    · have hplace : j = 0 ∧ t < 2 := by
        simp [Common, Operation.operands, Element.rowCount, Element.columnCount, unevenLeft,
          unevenRight] at h
        omega
      obtain ⟨rfl, ht⟩ := hplace
      interval_cases t <;> decide
    · obtain ⟨rfl, ht⟩ := (hcommon j t).1 h
      interval_cases t <;> decide
    · exact absurd ((hcommon j t).2 ((hpair j t).1 h)) hnot
  obtain ⟨hwrite, hfused, hundo⟩ := lockstep_exact hring
  refine ⟨ring, hring, ?_, ?_, hundo _ _ _ (Operation.admits_of_lt hrectangular hlt)⟩
  · refine (hwrite (.add unevenLeft unevenRight) unevenOut
      (Operation.admits_of_lt hrectangular hlt)).imp fun c hc => ?_
    obtain ⟨r, hr, hlt', hrelates⟩ := hc.1.common 0 0 ((hcommon 0 0).2 (by decide))
    have hvalue : r = 95 := Nat.ModEq.eq_of_lt_of_lt (hrelates.trans (by decide)) hlt' (by decide)
    refine ⟨by rw [hr, hvalue], hc.1.frame 0 2 fun h => ?_, hc.1.frame 1 0 fun h => ?_⟩
    · exact absurd ((hcommon 0 2).1 h) (by decide)
    · exact absurd ((hcommon 1 0).1 h) (by decide)
  · refine (hfused .minus unevenLeft unevenRight unevenOut _
      (Operation.admits_of_lt hrectangular hlt) hheld).imp fun product hproduct => ?_
    refine hproduct.imp fun d hd => ?_
    obtain ⟨c, hc, -, hequal⟩ := hd
    rw [hequal fun j t h hnot => absurd ((hcommon j t).2 ((hpair j t).1 h)) hnot]
    exact hc

end NegacyclicRing
end Ring
end RelinCeremony
