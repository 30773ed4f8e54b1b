import RelinCeremony.Proofs.Lockstep
import RelinCeremony.Proofs.Modulus.Montgomery
import RelinCeremony.Proofs.Ring.Values
import RelinCeremony.Ring.Arithmetic

namespace RelinCeremony
namespace Ring
namespace NegacyclicRing

/-!
# Arithmetic of elements on families of classes

Each operation of the ring on reduced operands gives the reduced element of the
corresponding operation on the families.  The Montgomery products carry the
inverse of the radix as a factor.

All operations are updates of rows in lockstep, so one lemma on the update of
rows and one on the update of a row serve for all.
-/

variable {ring : NegacyclicRing} {a b out : Element} {x y z : ring.Values}

def ValidModuli (ring : NegacyclicRing) : Prop := ∀ j, (ring.channel j).modulus.Valid

def radixInverse (ring : NegacyclicRing) : ring.Values :=
  fun j _ => (ring.channel j).modulus.radixInverse

theorem radix_mul_radixInverse (hring : ring.ValidModuli) :
    (2 ^ 64 : ring.Values) * ring.radixInverse = 1 := by
  funext j t
  exact Modulus.radix_mul_radixInverse (hring j)

theorem mul_radix_mul_radixInverse (hring : ring.ValidModuli) (x : ring.Values) :
    x * 2 ^ 64 * ring.radixInverse = x := by
  rw [mul_assoc, radix_mul_radixInverse hring, mul_one]

theorem mul_radixInverse_mul_radix (hring : ring.ValidModuli) (x : ring.Values) :
    x * ring.radixInverse * 2 ^ 64 = x := by
  rw [mul_right_comm, mul_radix_mul_radixInverse hring]

/-! ## Updates of rows -/

/-- An update of a row of words by as many operands represents the classes that its
places represent. -/
theorem gives_updateRow {m : Modulus} {n : Nat} {v : Fin n → ZMod m.value} {β : Type}
    {f : Nat → β → Checked Nat} {outs : List Nat} {operands : List β} (houts : outs.length = n)
    (hoperands : operands.length = n)
    (h : ∀ (t : Fin n) (ho : t < outs.length) (hp : t < operands.length),
      Gives (f outs[(t : Nat)] operands[(t : Nat)]) fun r => m.Represents r (v t)) :
    Gives (Lockstep.update f outs operands) fun row => m.RowRepresents row v := by
  have hupdate := Lockstep.gives_update_of_length_eq (f := f)
    (P := fun i r => ∀ hi : i < n, m.Represents r (v ⟨i, hi⟩)) (hoperands.trans houts.symm)
    fun i ho hp => (h ⟨i, by omega⟩ ho hp).imp fun r hr _ => hr
  refine hupdate.imp fun row hrow => ⟨hrow.1.trans houts, fun t => ?_⟩
  have ht : (t : Nat) < row.length := by
    rw [hrow.1, houts]
    exact t.isLt
  rw [List.getD_eq_getElem _ _ ht]
  exact hrow.2 t ht t.isLt

/-- An update of the rows by as many operands as channels represents the family that
its rows represent. -/
theorem gives_updateRows {β : Type} {f : List Nat → β → Checked (List Nat)}
    {outs : List (List Nat)} {operands : List β} (houts : outs.length = ring.channels.length)
    (hoperands : operands.length = ring.channels.length)
    (h : ∀ (j : Fin ring.channels.length) (ho : j < outs.length) (hp : j < operands.length),
      Gives (f outs[(j : Nat)] operands[(j : Nat)]) fun row =>
        (ring.channel j).modulus.RowRepresents row (x j)) :
    Gives (Lockstep.update f outs operands) fun rows => ring.Represents ⟨rows⟩ x := by
  have hupdate := Lockstep.gives_update_of_length_eq (f := f)
    (P := fun i row => ∀ hi : i < ring.channels.length,
      (ring.channel ⟨i, hi⟩).modulus.RowRepresents row (x ⟨i, hi⟩))
    (hoperands.trans houts.symm)
    fun i ho hp => (h ⟨i, by omega⟩ ho hp).imp fun row hrow _ => hrow
  refine hupdate.imp fun rows hrows => represents_iff_rows.2 ⟨hrows.1.trans houts, ?_⟩
  intro j hj
  exact hrows.2 j hj j.isLt

/-- An operation on two operands represents what it does in every cell. -/
theorem gives_updateFrom2 {f : Modulus → Nat → Nat → Nat → Checked Nat} (ha : ring.Fits a)
    (hb : ring.Fits b) (ho : ring.Fits out)
    (h : ∀ (j : Fin ring.channels.length) (t : Fin ring.degree),
      Gives (f (ring.channel j).modulus (a.residue j t) (b.residue j t) (out.residue j t))
        fun r => (ring.channel j).modulus.Represents r (x j t)) :
    Gives (ring.updateFrom2 f a b out) fun c => ring.Represents c x := by
  have hlengths : (a.rows.zip (b.rows.zip ring.channels)).length = ring.channels.length := by
    simp [ha.1, hb.1]
  refine (gives_updateRows (x := x) ho.1 hlengths fun j hjo hjp => ?_).bind fun rows hrows =>
    ⟨_, rfl, hrows⟩
  have hja : (j : Nat) < a.rows.length := by
    rw [ha.1]
    exact j.isLt
  have hjb : (j : Nat) < b.rows.length := by
    rw [hb.1]
    exact j.isLt
  simp only [List.getElem_zip]
  refine gives_updateRow (ho.row_length hjo)
    (by simp [ha.row_length hja, hb.row_length hjb]) fun t hto htp => ?_
  have hcell := h j t
  have hta : (t : Nat) < a.rows[(j : Nat)].length := by
    rw [ha.row_length hja]
    exact t.isLt
  have htb : (t : Nat) < b.rows[(j : Nat)].length := by
    rw [hb.row_length hjb]
    exact t.isLt
  rw [Element.residue_eq hja hta, Element.residue_eq hjb htb, Element.residue_eq hjo hto] at hcell
  simp only [List.getElem_zip]
  exact hcell

theorem gives_updateFrom {f : Modulus → Nat → Nat → Checked Nat} (ha : ring.Fits a)
    (ho : ring.Fits out)
    (h : ∀ (j : Fin ring.channels.length) (t : Fin ring.degree),
      Gives (f (ring.channel j).modulus (a.residue j t) (out.residue j t))
        fun r => (ring.channel j).modulus.Represents r (x j t)) :
    Gives (ring.updateFrom f a out) fun c => ring.Represents c x := by
  have hlengths : (a.rows.zip ring.channels).length = ring.channels.length := by
    simp [ha.1]
  refine (gives_updateRows (x := x) ho.1 hlengths fun j hjo hjp => ?_).bind fun rows hrows =>
    ⟨_, rfl, hrows⟩
  have hja : (j : Nat) < a.rows.length := by
    rw [ha.1]
    exact j.isLt
  simp only [List.getElem_zip]
  refine gives_updateRow (ho.row_length hjo) (ha.row_length hja) fun t hto htp => ?_
  have hcell := h j t
  rw [Element.residue_eq hja htp, Element.residue_eq hjo hto] at hcell
  exact hcell

/-- A conversion in place represents what it makes of every row. -/
theorem gives_convertRows {f : Channel → List Nat → Checked (List Nat)} (ha : ring.Represents a y)
    (h : ∀ (j : Fin ring.channels.length) (row : List Nat),
      (ring.channel j).modulus.RowRepresents row (y j) →
        Gives (f (ring.channel j) row) fun result =>
          (ring.channel j).modulus.RowRepresents result (x j)) :
    Gives (ring.convertRows f a) fun c => ring.Represents c x := by
  obtain ⟨hlength, hrows⟩ := represents_iff_rows.1 ha
  rw [convertRows, Lockstep.convert_eq_update hlength.ge]
  refine (gives_updateRows (x := x) hlength rfl fun j hjo _ => ?_).bind fun rows hresult =>
    ⟨_, rfl, hresult⟩
  exact h j _ (hrows j hjo)

/-! ## Sums, differences and products -/

section Operations

variable (hring : ring.ValidModuli)
include hring

theorem gives_add (ha : ring.Represents a x) (hb : ring.Represents b y) (ho : ring.Fits out) :
    Gives (ring.add a b out) fun c => ring.Represents c (x + y) :=
  gives_updateFrom2 ha.1 hb.1 ho fun j t => Modulus.gives_add (hring j) (ha.2 j t) (hb.2 j t)

theorem gives_addAssign (hb : ring.Represents b y) (ho : ring.Represents out z) :
    Gives (ring.addAssign b out) fun c => ring.Represents c (z + y) :=
  gives_updateFrom hb.1 ho.1 fun j t => Modulus.gives_add (hring j) (ho.2 j t) (hb.2 j t)

theorem gives_sub (ha : ring.Represents a x) (hb : ring.Represents b y) (ho : ring.Fits out) :
    Gives (ring.sub a b out) fun c => ring.Represents c (x - y) :=
  gives_updateFrom2 ha.1 hb.1 ho fun j t => Modulus.gives_sub (hring j) (ha.2 j t) (hb.2 j t)

theorem gives_mulMontgomery (ha : ring.Represents a x) (hb : ring.Represents b y)
    (ho : ring.Fits out) :
    Gives (ring.mulMontgomery a b out) fun c => ring.Represents c (x * y * ring.radixInverse) :=
  gives_updateFrom2 ha.1 hb.1 ho fun j t =>
    Modulus.gives_montgomeryMul (hring j) (ha.2 j t) (hb.2 j t)

theorem gives_mulMontgomeryAdd (ha : ring.Represents a x) (hb : ring.Represents b y)
    (ho : ring.Represents out z) :
    Gives (ring.mulMontgomeryAdd a b out) fun c =>
      ring.Represents c (z + x * y * ring.radixInverse) := by
  refine gives_updateFrom2 ha.1 hb.1 ho.1 fun j t => ?_
  refine (Modulus.gives_montgomeryMul (hring j) (ha.2 j t) (hb.2 j t)).bind
    fun product hproduct => ?_
  exact Modulus.gives_add (hring j) (ho.2 j t) hproduct

theorem gives_mulMontgomerySub (ha : ring.Represents a x) (hb : ring.Represents b y)
    (ho : ring.Represents out z) :
    Gives (ring.mulMontgomerySub a b out) fun c =>
      ring.Represents c (z - x * y * ring.radixInverse) := by
  refine gives_updateFrom2 ha.1 hb.1 ho.1 fun j t => ?_
  refine (Modulus.gives_montgomeryMul (hring j) (ha.2 j t) (hb.2 j t)).bind
    fun product hproduct => ?_
  exact Modulus.gives_sub (hring j) (ho.2 j t) hproduct

/-! ## Montgomery form -/

omit hring in
/-- A monadic map over a row represents what it makes of every word. -/
theorem gives_mapM_row {m : Modulus} {n : Nat} {v w : Fin n → ZMod m.value}
    {f : Nat → Checked Nat} {row : List Nat} (hrow : m.RowRepresents row v)
    (h : ∀ (r : Nat) (t : Fin n), m.Represents r (v t) →
      Gives (f r) fun s => m.Represents s (w t)) :
    Gives (row.mapM f) fun result => m.RowRepresents result w := by
  have hresult := gives_mapM_getElem (f := f)
    (P := fun t s => ∀ ht : t < n, m.Represents s (w ⟨t, ht⟩)) fun t (ht : t < row.length) => by
      have hcell := hrow.2 ⟨t, ht.trans_eq hrow.1⟩
      rw [List.getD_eq_getElem _ _ ht] at hcell
      exact (h _ _ hcell).imp fun s hs _ => hs
  refine hresult.imp fun result hresult => ⟨hresult.1.trans hrow.1, fun t => ?_⟩
  have ht : (t : Nat) < result.length := by
    rw [hresult.1, hrow.1]
    exact t.isLt
  rw [List.getD_eq_getElem _ _ ht]
  exact hresult.2 t ht t.isLt

theorem gives_toMontgomery (ha : ring.Represents a x) :
    Gives (ring.toMontgomery a) fun c => ring.Represents c (x * 2 ^ 64) :=
  gives_convertRows ha fun j _ hrow =>
    gives_mapM_row hrow fun _ _ hr => Modulus.gives_toMontgomery (hring j) hr

theorem gives_ofMontgomery (ha : ring.Represents a x) :
    Gives (ring.ofMontgomery a) fun c => ring.Represents c (x * ring.radixInverse) :=
  gives_convertRows ha fun j _ hrow =>
    gives_mapM_row hrow fun _ _ hr => Modulus.gives_ofMontgomery (hring j) hr

theorem gives_ofMontgomery_radix (ha : ring.Represents a (x * 2 ^ 64)) :
    Gives (ring.ofMontgomery a) fun c => ring.Represents c x := by
  have hgives := gives_ofMontgomery hring ha
  rwa [mul_radix_mul_radixInverse hring] at hgives

/-- The product with a factor in Montgomery form is the plain product. -/
theorem gives_mulMontgomery_radix (ha : ring.Represents a (x * 2 ^ 64)) (hb : ring.Represents b y)
    (ho : ring.Fits out) :
    Gives (ring.mulMontgomery a b out) fun c => ring.Represents c (x * y) := by
  have hgives := gives_mulMontgomery hring ha hb ho
  rwa [mul_right_comm x, mul_radix_mul_radixInverse hring] at hgives

theorem gives_mulMontgomeryAdd_radix (ha : ring.Represents a (x * 2 ^ 64))
    (hb : ring.Represents b y) (ho : ring.Represents out z) :
    Gives (ring.mulMontgomeryAdd a b out) fun c => ring.Represents c (z + x * y) := by
  have hgives := gives_mulMontgomeryAdd hring ha hb ho
  rwa [mul_right_comm x, mul_radix_mul_radixInverse hring] at hgives

theorem gives_mulMontgomerySub_radix (ha : ring.Represents a (x * 2 ^ 64))
    (hb : ring.Represents b y) (ho : ring.Represents out z) :
    Gives (ring.mulMontgomerySub a b out) fun c => ring.Represents c (z - x * y) := by
  have hgives := gives_mulMontgomerySub hring ha hb ho
  rwa [mul_right_comm x, mul_radix_mul_radixInverse hring] at hgives

/-! ## Digit shifts -/

omit hring in
/-- The family that is `2 ^ bits` in channel `i` and zero in the others. -/
def gadget (ring : NegacyclicRing) (i bits : Nat) : ring.Values :=
  fun j _ => if (j : Nat) = i then (2 ^ bits : Nat) else 0

omit hring in
/-- A row with the digit shifts of another row added to it. -/
theorem gives_addShiftedRow {m : Modulus} (hm : m.Valid) {n bits : Nat} (hbits : bits < 64)
    {outRow row : List Nat} {v u : Fin n → ZMod m.value} (hout : m.RowRepresents outRow v)
    (hrow : m.RowRepresents row u) :
    Gives (Lockstep.update (fun o r => do m.add o (← m.shiftDigits r bits)) outRow row)
      fun result => m.RowRepresents result fun t => v t + u t * 2 ^ bits * m.radixInverse := by
  refine gives_updateRow hout.1 hrow.1 fun t hto hta => ?_
  have hu := hrow.2 t
  have hv := hout.2 t
  rw [List.getD_eq_getElem _ _ hta] at hu
  rw [List.getD_eq_getElem _ _ hto] at hv
  refine (Modulus.gives_shiftDigits hm hu hbits).bind fun r hr => ?_
  exact Modulus.gives_add hm hv hr

/-- A digit shift in channel `i` adds the product by the power of two there, divided
by the radix, and nothing in the other channels. -/
theorem gives_addShiftedDigits {i bits : Nat} (hi : i < ring.channels.length) (hbits : bits < 64)
    (ha : ring.Represents a x) (ho : ring.Represents out z) :
    Gives (ring.addShiftedDigits a bits i out) fun c =>
      ring.Represents c (z + ring.gadget i bits * x * ring.radixInverse) := by
  obtain ⟨halength, harows⟩ := represents_iff_rows.1 ha
  obtain ⟨holength, horows⟩ := represents_iff_rows.1 ho
  have hia : i < a.rows.length := by omega
  have hio : i < out.rows.length := by omega
  obtain ⟨row, hupdate, hrow⟩ := gives_addShiftedRow (hring ⟨i, hi⟩) hbits (horows ⟨i, hi⟩ hio)
    (harows ⟨i, hi⟩ hia)
  refine ⟨⟨out.rows.set i row⟩, ?_, represents_iff_rows.2 ⟨by simpa using holength, ?_⟩⟩
  · simp only [addShiftedDigits, Lockstep.read_eq hi, Lockstep.read_eq hia]
    show (do
      let rows ← Lockstep.updateAt _ i out.rows
      return Element.mk rows) = _
    rw [Lockstep.updateAt_eq hio hupdate]
    rfl
  · intro j hj
    -- Channel `i` has the new row, all others keep theirs.
    by_cases hji : (j : Nat) = i
    · obtain rfl : j = ⟨i, hi⟩ := Fin.ext hji
      simp only [List.getElem_set_self]
      have hclass : (z + ring.gadget i bits * x * ring.radixInverse) ⟨i, hi⟩ =
          fun t => z ⟨i, hi⟩ t +
            x ⟨i, hi⟩ t * 2 ^ bits * (ring.channel ⟨i, hi⟩).modulus.radixInverse := by
        funext t
        simp only [Pi.add_apply, Pi.mul_apply, gadget, radixInverse, if_pos, Nat.cast_pow,
          Nat.cast_ofNat]
        ring
      rw [hclass]
      exact hrow
    · rw [List.getElem_set_ne (Ne.symm hji)]
      have hclass : (z + ring.gadget i bits * x * ring.radixInverse) j = z j := by
        funext t
        simp [gadget, hji]
      rw [hclass]
      exact horows j (by simpa using hj)

end Operations

end NegacyclicRing
end Ring
end RelinCeremony
