import RelinCeremony.Proofs.Ring.Acceptance
import RelinCeremony.Proofs.Ring.Decoding
import RelinCeremony.Proofs.Ring.Reach

namespace RelinCeremony
namespace Ring
namespace NegacyclicRing

/-!
# Digit shifts as products by a constant

A digit shift works on one row of an element in transformed and Montgomery form.  It
leaves the other rows as they are, and in its row it adds the shift of every residue.  On
the coefficients below `Q` this is a product by a constant: a power of two times the
idempotent of the channel, the number that is 1 modulo its prime and 0 modulo the others.

The transform is linear, so the constant passes through it; that one Montgomery reduction
both shifts and takes the radix away is in `gives_addShiftedDigits`.
-/

variable {ring : NegacyclicRing} {a c out : Element} {bits i j : Nat}

/-! ## The row of a digit shift -/

/-- What a digit shift does: it updates row `i` and puts it back. -/
theorem addShiftedDigits_eq_ok_iff : ring.addShiftedDigits a bits i out = .ok c ↔
    ∃ channel row outRow result, ring.channels[i]? = some channel ∧ a.rows[i]? = some row ∧
      out.rows[i]? = some outRow ∧
      Lockstep.update (fun o x => do channel.modulus.add o (← channel.modulus.shiftDigits x bits))
        outRow row = .ok result ∧ out.rows.set i result = c.rows := by
  unfold addShiftedDigits
  simp only [bind_eq_ok_iff, Lockstep.read_eq_ok_iff, Lockstep.updateAt_eq_ok_iff]
  constructor
  · rintro ⟨channel, hchannel, row, hrow, rows, ⟨outRow, result, houtRow, hresult, rfl⟩, hc⟩
    cases hc
    exact ⟨channel, row, outRow, result, hchannel, hrow, houtRow, hresult, rfl⟩
  · rintro ⟨channel, row, outRow, result, hchannel, hrow, houtRow, hresult, hrows⟩
    exact ⟨channel, hchannel, row, hrow, c.rows, ⟨outRow, result, houtRow, hresult, hrows⟩, rfl⟩

/-- The other rows stay as they are. -/
theorem rows_addShiftedDigits_of_ne (h : ring.addShiftedDigits a bits i out = .ok c)
    (hj : j ≠ i) : c.rows[j]? = out.rows[j]? := by
  obtain ⟨_, _, _, _, _, _, _, _, hrows⟩ := addShiftedDigits_eq_ok_iff.1 h
  rw [← hrows, List.getElem?_set_ne hj.symm]

/-- In its row a digit shift adds the shift of every residue. -/
theorem residue_addShiftedDigits (hring : ring.ValidModuli) (hi : i < ring.channels.length)
    (hbits : bits < 64) (ha : ring.Reduced a) (hout : ring.Reduced out)
    (h : ring.addShiftedDigits a bits i out = .ok c) {t : Nat} (ht : t < ring.degree) :
    Gives (ring.shiftDigits (a.residue i t) bits i) fun y =>
      c.residue i t = (out.residue i t + y) % (ring.channel ⟨i, hi⟩).modulus.value := by
  obtain ⟨channel, row, outRow, result, hchannel, hrow, houtRow, hresult, hrows⟩ :=
    addShiftedDigits_eq_ok_iff.1 h
  obtain rfl : ring.channel ⟨i, hi⟩ = channel :=
    Option.some_inj.1 ((List.getElem?_eq_getElem hi).symm.trans hchannel)
  have hcell : row[t]? = some (a.residue i t) := by
    simpa [Element.residue?, hrow] using ha.1.residue?_eq hi ht
  have houtCell : outRow[t]? = some (out.residue i t) := by
    simpa [Element.residue?, houtRow] using hout.1.residue?_eq hi ht
  obtain ⟨r, hr, hresultCell⟩ := Lockstep.getElem?_update hresult houtCell hcell
  obtain ⟨y, hy, hsum⟩ := bind_eq_ok_iff.1 hr
  refine ⟨y, ?_, ?_⟩
  · rw [shiftDigits, Lockstep.read_eq_ok_iff.2 hchannel]
    exact hy
  · have hlt := ((Modulus.gives_shiftDigits (hring ⟨i, hi⟩)
      (Modulus.represents_self (ha.2 ⟨i, hi⟩ ⟨t, ht⟩)) hbits).value_unique hy).1
    rw [Modulus.add_eq (hring ⟨i, hi⟩).lt_word (hout.2 ⟨i, hi⟩ ⟨t, ht⟩) hlt] at hsum
    have hresidue : c.residue? i t = some r := by
      have hio : i < out.rows.length := (List.getElem?_eq_some_iff.1 houtRow).1
      rw [Element.residue?, ← hrows, List.getElem?_set_self hio]
      exact hresultCell
    rw [Element.residue_of_residue? hresidue]
    exact (Except.ok.inj hsum).symm

/-! ## The constant -/

namespace Valid

/-- A constant factor passes through the transform. -/
theorem integerValues_const_mul (hring : ring.Valid) (k : Nat) (v : Fin ring.degree → Int) :
    hring.integerValues (fun t => k * v t) = k * hring.integerValues v := by
  funext j t
  simp only [integerValues, evaluations_apply, Transform.evaluate, Int.cast_mul, Int.cast_natCast,
    mul_assoc, Pi.mul_apply, Pi.natCast_apply, Finset.mul_sum]

/-- A power of two times the idempotent of a channel is the power of two in the channel and
zero in the others. -/
theorem cast_mul_idempotent (hring : ring.Valid) {e : Nat} (he : IsIdempotent ring.moduli i e)
    (bits : Nat) : ((2 ^ bits * e : Nat) : ring.Values) = ring.gadget i bits := by
  funext j t
  have hcast := ((isIdempotent_iff hring).1 he).2 j
  rw [Pi.natCast_apply, Pi.natCast_apply, gadget, Nat.cast_mul, hcast, mul_ite, mul_one, mul_zero]

/-- A digit shift of an element in Montgomery form adds the product by the constant. -/
theorem gives_addShiftedDigits_const_mul (hring : ring.Valid) (hi : i < ring.channels.length)
    (hbits : bits < 64) {e : Nat} (he : IsIdempotent ring.moduli i e)
    {v w : Fin ring.degree → Int} (ha : ring.Represents a (hring.integerValues w * 2 ^ 64))
    (hout : ring.Represents out (hring.integerValues v)) :
    Gives (ring.addShiftedDigits a bits i out) fun c => ring.Represents c
      (hring.integerValues (v + fun t => (2 ^ bits * e : Nat) * w t)) := by
  refine (gives_addShiftedDigits hring.validModuli hi hbits ha hout).imp fun c hc => ?_
  -- The radix of the Montgomery form and the inverse that the reduction brings cancel.
  rwa [← mul_assoc, mul_radix_mul_radixInverse hring.validModuli, ← hring.cast_mul_idempotent he,
    ← integerValues_const_mul, ← integerValues_add] at hc

end Valid

/-! ## Decoding -/

theorem leastResidues_add_const_mul {size modulus k : Nat} {x y : List Nat}
    (hx : x.length = size) (hy : y.length = size) :
    leastResidues modulus (integers size x + fun t => k * integers size y t) =
      List.zipWith (fun x y => (x + k * y) % modulus) x y := by
  refine List.ext_getElem (by simp [leastResidues, hx, hy]) fun t ht ht' => ?_
  obtain ⟨htx, hty⟩ : t < x.length ∧ t < y.length := by simpa using ht'
  simp only [leastResidues, integers, List.getElem_ofFn, List.getElem_zipWith, Pi.add_apply,
    List.getD_eq_getElem _ _ htx, List.getD_eq_getElem _ _ hty]
  exact_mod_cast Int.toNat_natCast _

/-- The transform of the element with the given coefficients, in Montgomery form. -/
def montgomeryFormOf (ring : NegacyclicRing) (coefficients : List Nat) : RingResult Element := do
  let a ← ring.ofNats coefficients
  (do ring.toMontgomery (← ring.forward a) : Checked Element)

theorem gives_montgomeryFormOf (hring : ring.Valid) {s : List Nat}
    (hlength : s.length = ring.degree) : Gives (ring.montgomeryFormOf s) fun a =>
      ring.Represents a (hring.integerValues (integers ring.degree s) * 2 ^ 64) := by
  refine (gives_ofNats hring.validModuli hlength).bind fun a ha => Gives.lift ?_
  have hvalues := hring.valuesHom_polynomial s
  rw [hring.valuesHom_polynomial_integers] at hvalues
  rw [hvalues]
  exact (hring.gives_forward ha).bind fun b hb => gives_toMontgomery hring.validModuli hb

/-- In a ring that is built let `e` be the number below `Q`, the product of the moduli, that is 1
modulo the one at place `i` and 0 modulo the others; there is exactly one.  Take the transform of
`n` coefficients in Montgomery form, and add its digit shift by fewer than 64 bits in channel `i`
to a reduced element.  The other rows of the element stay as they are; every residue of the row
grows by the digit shift of the residue; and the coefficients that the element decodes to grow by
`2 ^ bits * e` times the given ones, modulo `Q`. -/
theorem addShiftedDigits_decodes {moduli : List Nat} {degree : Nat} {ring : NegacyclicRing}
    (hring : build moduli degree = .ok ring) {s : List Nat} (hs : s.length = degree)
    {i bits : Nat} (hi : i < moduli.length) (hbits : bits < 64) {out : Element}
    (hout : ring.Reduced out) :
    ∃ e, (∀ e', IsIdempotent moduli i e' ↔ e' = e) ∧
      Gives (ring.decode out) fun x => Gives (ring.montgomeryFormOf s) fun a =>
        Gives (ring.addShiftedDigits a bits i out) fun c => ring.Reduced c ∧
          (∀ j ≠ i, c.rows[j]? = out.rows[j]?) ∧
          (∀ t < degree, Gives (ring.shiftDigits (a.residue i t) bits i) fun y =>
            c.residue i t = (out.residue i t + y) % moduli[i]) ∧
          ring.decode c =
            .ok (List.zipWith (fun x y => (x + 2 ^ bits * e * y) % moduli.prod) x s) := by
  obtain ⟨hvalid, rfl, rfl⟩ := valid_of_build hring
  have hic : i < ring.channels.length := by simpa [NegacyclicRing.moduli] using hi
  obtain ⟨e, he⟩ : ∃ e, IsIdempotent ring.moduli i e :=
    ⟨_, isIdempotent_of_build hring (by simpa [idempotents] using hic)⟩
  refine ⟨e, fun e' => ⟨fun he' => he'.unique hvalid he, fun he' => he' ▸ he⟩, ?_⟩
  obtain ⟨x, hdecode, hx⟩ := hvalid.gives_decode_isCoefficients hout
  have ho := hvalid.represents_of_decode hout hdecode
  refine ⟨x, hdecode, (gives_montgomeryFormOf hvalid hs).imp fun a ha => ?_⟩
  obtain ⟨c, hshift, hc⟩ := hvalid.gives_addShiftedDigits_const_mul hic hbits he ha ho
  refine ⟨c, hshift, hc.reduced, fun j hj => rows_addShiftedDigits_of_ne hshift hj,
    fun t ht => ?_, ?_⟩
  · simp only [NegacyclicRing.moduli, List.getElem_map]
    exact residue_addShiftedDigits hvalid.validModuli hic hbits ha.reduced hout hshift ht
  · rw [hvalid.decode_eq_leastResidues hc, leastResidues_add_const_mul hx.1 hs, hvalid.modulus_eq]

/-- Modulo 97 * 113 the constant of the second channel is 679.  A shift of `1 + 2 x^7` by 63 bits
there adds `2 ^ 63 * 679`, which is 10185 modulo 10961, and twice as much. -/
theorem addShiftedDigits_decodes_small : ∃ ring out a c, build [97, 113] 8 = .ok ring ∧
    ring.Reduced out ∧ ring.decode out = .ok [5, 0, 0, 0, 0, 0, 0, 10960] ∧
    ring.montgomeryFormOf [1, 0, 0, 0, 0, 0, 0, 2] = .ok a ∧
    ring.addShiftedDigits a 63 1 out = .ok c ∧ c.rows[0]? = out.rows[0]? ∧
    ring.decode c = .ok [10190, 0, 0, 0, 0, 0, 0, 9408] := by
  have hgives : Gives (build [97, 113] 8) fun _ => True := by decide +kernel
  obtain ⟨ring, hring, _⟩ := hgives
  obtain ⟨hvalid, hdegree, hmoduli⟩ := valid_of_build hring
  obtain ⟨out, ⟨hout, hdecode⟩, _⟩ :=
    hvalid.existsUnique_decode (c := [5, 0, 0, 0, 0, 0, 0, 10960])
      (by rw [hvalid.modulus_eq, hmoduli, hdegree]; decide)
  obtain ⟨e, he, x, hx, a, ha, c, hshift, _, hrows, _, hsum⟩ :=
    addShiftedDigits_decodes hring (s := [1, 0, 0, 0, 0, 0, 0, 2]) rfl (i := 1) (by decide)
      (show 63 < 64 by decide) hout
  obtain rfl : 679 = e := (he 679).1 (by decide)
  obtain rfl := Except.ok.inj (hdecode.symm.trans hx)
  exact ⟨ring, out, a, c, hring, hout, hdecode, ha, hshift, hrows 0 (by decide), hsum⟩

end NegacyclicRing
end Ring
end RelinCeremony
