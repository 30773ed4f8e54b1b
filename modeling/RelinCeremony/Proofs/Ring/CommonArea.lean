import RelinCeremony.Proofs.Ring.Construction
import RelinCeremony.Proofs.Ring.Reach

namespace RelinCeremony
namespace Ring

/-!
# The common area of the operations in lockstep

The six operations on elements walk their output, their operands and the channels in step.
With elements of any dimensions they change the area that all of them have in common: the
rows and the columns below the least of the numbers of rows, of channels and of columns.
There the output gets the residue that elements of full size would give, and everywhere else
it stays as it was.

`Operation` names the six operations with their operands; an operation on elements becomes
an operation on residues at each place.  The residue that is written is described by a
congruence for each operation, and it is the only reduced one that meets it.
-/

namespace Element

variable {a b : Element} {j t : Nat}

/-- All rows of the element are of one length. -/
def IsRectangular (a : Element) : Prop := a.HasDimensions a.rowCount a.columnCount

instance (a : Element) : Decidable a.IsRectangular :=
  inferInstanceAs (Decidable (a.HasDimensions _ _))

theorem residue?_eq_some_residue (h : (a.residue? j t).isSome) :
    a.residue? j t = some (a.residue j t) := by
  obtain ⟨x, hx⟩ := Option.isSome_iff_exists.1 h
  rw [residue_of_residue? hx, hx]

theorem HasDimensions.columnCount_eq {rows columns : Nat} (h : a.HasDimensions rows columns)
    (hrows : 0 < rows) : a.columnCount = columns := by
  have hpos : 0 < a.rows.length := by
    rw [h.1]
    exact hrows
  rw [columnCount, List.head?_eq_getElem?, List.getElem?_eq_getElem hpos]
  exact h.row_length hpos

theorem HasDimensions.isRectangular {rows columns : Nat} (h : a.HasDimensions rows columns) :
    a.IsRectangular := by
  refine ⟨rfl, fun row hrow => ?_⟩
  have hpos : 0 < rows := by
    rw [← h.1]
    exact List.length_pos_of_mem hrow
  rw [h.columnCount_eq hpos, h.2 row hrow]

/-! Where an element has residues depends on the lengths of its rows only. -/

theorem isSome_residue?_iff :
    (a.residue? j t).isSome ↔ ∃ n, (a.rows.map List.length)[j]? = some n ∧ t < n := by
  rw [residue?, List.getElem?_map]
  cases a.rows[j]? <;> simp

theorem IsRectangular.isSome_residue?_iff (h : a.IsRectangular) :
    (a.residue? j t).isSome ↔ j < a.rowCount ∧ t < a.columnCount := by
  rw [Element.isSome_residue?_iff, hasDimensions_iff_lengths.1 h]
  simp only [List.getElem?_replicate]
  constructor
  · rintro ⟨n, hn, ht⟩
    split at hn
    case isTrue hj =>
      obtain rfl := Option.some_inj.1 hn
      exact ⟨hj, ht⟩
    case isFalse => cases hn
  · rintro ⟨hj, ht⟩
    exact ⟨a.columnCount, if_pos hj, ht⟩

section Lengths

variable (h : a.rows.map List.length = b.rows.map List.length)
include h

theorem isSome_residue?_congr : (a.residue? j t).isSome = (b.residue? j t).isSome := by
  rw [Bool.eq_iff_iff, isSome_residue?_iff, isSome_residue?_iff, h]

theorem rowCount_congr : a.rowCount = b.rowCount := by
  simpa [rowCount] using congrArg List.length h

theorem columnCount_congr : a.columnCount = b.columnCount := by
  rw [columnCount, columnCount, ← List.head?_map, ← List.head?_map, h]

theorem isRectangular_congr : a.IsRectangular ↔ b.IsRectangular := by
  rw [IsRectangular, IsRectangular, hasDimensions_iff_lengths, hasDimensions_iff_lengths, h,
    rowCount_congr h, columnCount_congr h]

end Lengths

/-- Elements with as many rows and with the same residues are equal. -/
theorem eq_of_residue? (hlength : a.rows.length = b.rows.length)
    (h : ∀ j t, a.residue? j t = b.residue? j t) : a = b := by
  have hrows : a.rows = b.rows := by
    refine List.ext_getElem hlength fun j hja hjb => ?_
    refine List.ext_getElem? fun t => ?_
    simpa [residue?, hja, hjb] using h j t
  cases a
  cases b
  exact congrArg Element.mk hrows

end Element

namespace NegacyclicRing

/-! ## Operations -/

/-- An operation that writes over an output, with its operands. -/
inductive Operation (α : Type) where
  | add (x y : α)
  | addAssign (y : α)
  | sub (x y : α)
  | mulMontgomery (x y : α)
  | mulMontgomeryAdd (x y : α)
  | mulMontgomerySub (x y : α)

namespace Operation

variable {α β : Type}

def map (g : α → β) : Operation α → Operation β
  | add x y => add (g x) (g y)
  | addAssign y => addAssign (g y)
  | sub x y => sub (g x) (g y)
  | mulMontgomery x y => mulMontgomery (g x) (g y)
  | mulMontgomeryAdd x y => mulMontgomeryAdd (g x) (g y)
  | mulMontgomerySub x y => mulMontgomerySub (g x) (g y)

def operands : Operation α → List α
  | addAssign y => [y]
  | add x y | sub x y | mulMontgomery x y | mulMontgomeryAdd x y | mulMontgomerySub x y => [x, y]

/-- What the operation reads: its operands, and the output if it accumulates. -/
def reads (out : α) : Operation α → List α
  | add x y | sub x y | mulMontgomery x y => [x, y]
  | addAssign y => [out, y]
  | mulMontgomeryAdd x y | mulMontgomerySub x y => [out, x, y]

/-- The operation on residues at a place. -/
def residuesAt (operation : Operation Element) (j t : Nat) : Operation Nat :=
  operation.map fun e => e.residue j t

/-- Carries out an operation on elements. -/
def write (ring : NegacyclicRing) (out : Element) : Operation Element → Checked Element
  | add a b => ring.add a b out
  | addAssign b => ring.addAssign b out
  | sub a b => ring.sub a b out
  | mulMontgomery a b => ring.mulMontgomery a b out
  | mulMontgomeryAdd a b => ring.mulMontgomeryAdd a b out
  | mulMontgomerySub a b => ring.mulMontgomerySub a b out

/-- Carries out an operation on residues. -/
def writeResidue (m : Modulus) : Operation Nat → Nat → Checked Nat
  | add x y, _ => m.add x y
  | addAssign y, o => m.add o y
  | sub x y, _ => m.sub x y
  | mulMontgomery x y, _ => m.montgomeryMul x y
  | mulMontgomeryAdd x y, o => do m.add o (← m.montgomeryMul x y)
  | mulMontgomerySub x y, o => do m.sub o (← m.montgomeryMul x y)

/-- The congruence modulo `p` between the residue `r` that an operation writes, the residue
`o` that it writes over, and its operands. -/
def Relates (p o r : Nat) : Operation Nat → Prop
  | add x y => r ≡ x + y [MOD p]
  | addAssign y => r ≡ o + y [MOD p]
  | sub x y => r + y ≡ x [MOD p]
  | mulMontgomery x y => r * 2 ^ 64 ≡ x * y [MOD p]
  | mulMontgomeryAdd x y => r * 2 ^ 64 ≡ o * 2 ^ 64 + x * y [MOD p]
  | mulMontgomerySub x y => r * 2 ^ 64 + x * y ≡ o * 2 ^ 64 [MOD p]

/-! ## Operations on residues -/

/-- A congruence has one reduced solution. -/
theorem Relates.unique {p o r s : Nat} {operation : Operation Nat} (hp : Nat.Coprime p (2 ^ 64))
    (hr : r < p) (hs : s < p) (h : operation.Relates p o r) (h' : operation.Relates p o s) :
    r = s := by
  have hcongruent : r ≡ s [MOD p] := by
    cases operation with
    | add x y => exact Nat.ModEq.trans h (Nat.ModEq.symm h')
    | addAssign y => exact Nat.ModEq.trans h (Nat.ModEq.symm h')
    | sub x y => exact Nat.ModEq.add_right_cancel' y (Nat.ModEq.trans h (Nat.ModEq.symm h'))
    | mulMontgomery x y =>
        exact Nat.ModEq.cancel_right_of_coprime hp (Nat.ModEq.trans h (Nat.ModEq.symm h'))
    | mulMontgomeryAdd x y =>
        exact Nat.ModEq.cancel_right_of_coprime hp (Nat.ModEq.trans h (Nat.ModEq.symm h'))
    | mulMontgomerySub x y =>
        exact Nat.ModEq.cancel_right_of_coprime hp
          (Nat.ModEq.add_right_cancel' (x * y) (Nat.ModEq.trans h (Nat.ModEq.symm h')))
  exact hcongruent.eq_of_lt_of_lt hr hs

/-- An operation on residues gives a reduced residue that meets its congruence, if the
residues that it reads are reduced. -/
theorem gives_writeResidue {m : Modulus} (hm : m.Valid) {o : Nat} {operation : Operation Nat}
    (h : ∀ x ∈ operation.reads o, x < m.value) :
    Gives (operation.writeResidue m o) fun r => r < m.value ∧ operation.Relates m.value o r := by
  have hradix := Modulus.radix_mul_radixInverse hm
  cases operation with
  | add x y =>
      obtain ⟨hx, hy⟩ : x < m.value ∧ y < m.value := by simpa [reads] using h
      refine (Modulus.gives_add hm ⟨hx, rfl⟩ ⟨hy, rfl⟩).imp fun r hr => ⟨hr.1, ?_⟩
      rw [Relates, ← ZMod.natCast_eq_natCast_iff, Nat.cast_add]
      exact hr.2
  | addAssign y =>
      obtain ⟨ho, hy⟩ : o < m.value ∧ y < m.value := by simpa [reads] using h
      refine (Modulus.gives_add hm ⟨ho, rfl⟩ ⟨hy, rfl⟩).imp fun r hr => ⟨hr.1, ?_⟩
      rw [Relates, ← ZMod.natCast_eq_natCast_iff, Nat.cast_add]
      exact hr.2
  | sub x y =>
      obtain ⟨hx, hy⟩ : x < m.value ∧ y < m.value := by simpa [reads] using h
      refine (Modulus.gives_sub hm ⟨hx, rfl⟩ ⟨hy, rfl⟩).imp fun r hr => ⟨hr.1, ?_⟩
      rw [Relates, ← ZMod.natCast_eq_natCast_iff, Nat.cast_add, hr.2, sub_add_cancel]
  | mulMontgomery x y =>
      obtain ⟨hx, hy⟩ : x < m.value ∧ y < m.value := by simpa [reads] using h
      refine (Modulus.gives_montgomeryMul hm ⟨hx, rfl⟩ ⟨hy, rfl⟩).imp fun r hr => ⟨hr.1, ?_⟩
      rw [Relates, ← ZMod.natCast_eq_natCast_iff]
      push_cast
      linear_combination (2 ^ 64 : ZMod m.value) * hr.2 + (x * y : ZMod m.value) * hradix
  | mulMontgomeryAdd x y =>
      obtain ⟨ho, hx, hy⟩ : o < m.value ∧ x < m.value ∧ y < m.value := by simpa [reads] using h
      refine (Modulus.gives_montgomeryMul hm ⟨hx, rfl⟩ ⟨hy, rfl⟩).bind fun product hproduct => ?_
      refine (Modulus.gives_add hm ⟨ho, rfl⟩ hproduct).imp fun r hr => ⟨hr.1, ?_⟩
      rw [Relates, ← ZMod.natCast_eq_natCast_iff]
      push_cast
      linear_combination (2 ^ 64 : ZMod m.value) * hr.2 + (x * y : ZMod m.value) * hradix
  | mulMontgomerySub x y =>
      obtain ⟨ho, hx, hy⟩ : o < m.value ∧ x < m.value ∧ y < m.value := by simpa [reads] using h
      refine (Modulus.gives_montgomeryMul hm ⟨hx, rfl⟩ ⟨hy, rfl⟩).bind fun product hproduct => ?_
      refine (Modulus.gives_sub hm ⟨ho, rfl⟩ hproduct).imp fun r hr => ⟨hr.1, ?_⟩
      rw [Relates, ← ZMod.natCast_eq_natCast_iff]
      push_cast
      linear_combination (2 ^ 64 : ZMod m.value) * hr.2 - (x * y : ZMod m.value) * hradix

/-! ## Operations as updates of cells -/

/-- The operations on residues for all places that the operands have. -/
def rows : Operation Element → List (List (Operation Nat))
  | add a b => List.zipWith (List.zipWith add) a.rows b.rows
  | addAssign b => b.rows.map (List.map addAssign)
  | sub a b => List.zipWith (List.zipWith sub) a.rows b.rows
  | mulMontgomery a b => List.zipWith (List.zipWith mulMontgomery) a.rows b.rows
  | mulMontgomeryAdd a b => List.zipWith (List.zipWith mulMontgomeryAdd) a.rows b.rows
  | mulMontgomerySub a b => List.zipWith (List.zipWith mulMontgomerySub) a.rows b.rows

end Operation

section Updates

variable {ring : NegacyclicRing} {β : Type} {j t : Nat} {x : β}

theorem updateFrom_eq_updateCells {f : Modulus → Nat → Nat → Checked Nat} (k : Nat → β)
    (g : Modulus → β → Nat → Checked Nat) (h : ∀ m x o, g m (k x) o = f m x o) (a out : Element) :
    ring.updateFrom f a out = ring.updateCells g (a.rows.map (List.map k)) out := by
  rw [updateCells, List.zip_map_left, Lockstep.update_map]
  simp only [Prod.map_fst, Prod.map_snd, id, Lockstep.update_map, h]
  rfl

theorem updateFrom2_eq_updateCells {f : Modulus → Nat → Nat → Nat → Checked Nat}
    (k : Nat → Nat → β) (g : Modulus → β → Nat → Checked Nat)
    (h : ∀ m x y o, g m (k x y) o = f m x y o) (a b out : Element) :
    ring.updateFrom2 f a b out =
      ring.updateCells g (List.zipWith (List.zipWith k) a.rows b.rows) out := by
  have hrows : (List.zipWith (List.zipWith k) a.rows b.rows).zip ring.channels =
      (a.rows.zip (b.rows.zip ring.channels)).map fun p =>
        ((p.1.zip p.2.1).map fun q => k q.1 q.2, p.2.2) := by
    refine List.ext_getElem (by simp [Nat.min_assoc]) fun j hj hj' => ?_
    simp only [List.getElem_zip, List.getElem_zipWith, List.map_zip_eq_zipWith]
    rfl
  rw [updateCells, hrows, Lockstep.update_map]
  simp only [Lockstep.update_map, h]
  rfl

theorem cell?_map_map {k : Nat → β} {a : Element} :
    cell? (a.rows.map (List.map k)) j t = some x ↔
      (a.residue? j t).isSome ∧ x = k (a.residue j t) := by
  have hcell : cell? (a.rows.map (List.map k)) j t = (a.residue? j t).map k := by
    rw [cell?, Element.residue?, List.getElem?_map]
    cases a.rows[j]? <;> simp
  rw [hcell, Element.residue_eq_getD]
  cases a.residue? j t <;> simp [eq_comm]

theorem cell?_zipWith_zipWith {k : Nat → Nat → β} {a b : Element} :
    cell? (List.zipWith (List.zipWith k) a.rows b.rows) j t = some x ↔
      ((a.residue? j t).isSome ∧ (b.residue? j t).isSome) ∧
        x = k (a.residue j t) (b.residue j t) := by
  have hcell : cell? (List.zipWith (List.zipWith k) a.rows b.rows) j t =
      Option.map₂ k (a.residue? j t) (b.residue? j t) := by
    rw [cell?, Element.residue?, Element.residue?, List.getElem?_zipWith]
    cases a.rows[j]? with
    | none => rfl
    | some row =>
        cases b.rows[j]? with
        | none => simp
        | some row' =>
            simp only [Option.bind_some, List.getElem?_zipWith]
            cases row[t]? <;> cases row'[t]? <;> rfl
  rw [hcell, Element.residue_eq_getD, Element.residue_eq_getD]
  cases a.residue? j t <;> cases b.residue? j t <;> simp [eq_comm]

end Updates

namespace Operation

/-- Every operation is an update of the cells that its operands have. -/
theorem write_eq_updateCells {ring : NegacyclicRing} (operation : Operation Element)
    (out : Element) : operation.write ring out =
      ring.updateCells writeResidue operation.rows out := by
  cases operation with
  | add a b => exact updateFrom2_eq_updateCells add writeResidue (fun _ _ _ _ => rfl) a b out
  | addAssign b => exact updateFrom_eq_updateCells addAssign writeResidue (fun _ _ _ => rfl) b out
  | sub a b => exact updateFrom2_eq_updateCells sub writeResidue (fun _ _ _ _ => rfl) a b out
  | mulMontgomery a b =>
      exact updateFrom2_eq_updateCells mulMontgomery writeResidue (fun _ _ _ _ => rfl) a b out
  | mulMontgomeryAdd a b =>
      exact updateFrom2_eq_updateCells mulMontgomeryAdd writeResidue (fun _ _ _ _ => rfl) a b out
  | mulMontgomerySub a b =>
      exact updateFrom2_eq_updateCells mulMontgomerySub writeResidue (fun _ _ _ _ => rfl) a b out

/-- There is an operation on residues at the places that all operands have. -/
theorem cell?_rows_eq_some_iff {operation : Operation Element} {x : Operation Nat} {j t : Nat} :
    cell? operation.rows j t = some x ↔
      (∀ e ∈ operation.operands, (e.residue? j t).isSome) ∧ x = operation.residuesAt j t := by
  cases operation with
  | addAssign b => simpa [operands, rows, residuesAt, map] using cell?_map_map
  | add a b => simpa [operands, rows, residuesAt, map] using cell?_zipWith_zipWith
  | sub a b => simpa [operands, rows, residuesAt, map] using cell?_zipWith_zipWith
  | mulMontgomery a b => simpa [operands, rows, residuesAt, map] using cell?_zipWith_zipWith
  | mulMontgomeryAdd a b => simpa [operands, rows, residuesAt, map] using cell?_zipWith_zipWith
  | mulMontgomerySub a b => simpa [operands, rows, residuesAt, map] using cell?_zipWith_zipWith

end Operation

/-! ## The common area -/

/-- The row and the column are below all numbers of rows and of columns, and there is a
modulus for the row. -/
def Common (moduli : List Nat) (elements : List Element) (j t : Nat) : Prop :=
  j < moduli.length ∧ ∀ e ∈ elements, j < e.rowCount ∧ t < e.columnCount

instance (moduli : List Nat) (elements : List Element) (j t : Nat) :
    Decidable (Common moduli elements j t) :=
  inferInstanceAs (Decidable (_ ∧ _))

namespace Operation

/-- The elements may be of any dimensions, and what the operation reads in their common area
is reduced. -/
structure Admits (moduli : List Nat) (operation : Operation Element) (out : Element) : Prop where
  rectangular : ∀ e ∈ out :: operation.operands, e.IsRectangular
  reduced : ∀ j t, Common moduli (out :: operation.operands) j t →
    ∀ x ∈ (operation.residuesAt j t).reads (out.residue j t), x < moduli.getD j 0

theorem exists_of_mem_reads {operation : Operation Element} {out : Element} {j t x : Nat}
    (h : x ∈ (operation.residuesAt j t).reads (out.residue j t)) :
    ∃ e ∈ out :: operation.operands, e.residue j t = x := by
  cases operation <;> simp_all [residuesAt, map, reads, operands, eq_comm]

theorem admits_of_lt {moduli : List Nat} {operation : Operation Element} {out : Element}
    (hrectangular : ∀ e ∈ out :: operation.operands, e.IsRectangular)
    (hlt : ∀ j t, Common moduli (out :: operation.operands) j t →
      ∀ e ∈ out :: operation.operands, e.residue j t < moduli.getD j 0) :
    operation.Admits moduli out := by
  refine ⟨hrectangular, fun j t hcommon x hx => ?_⟩
  obtain ⟨e, he, rfl⟩ := exists_of_mem_reads hx
  exact hlt j t hcommon e he

/-- What an operation makes of its output: in the common area the reduced residue that meets
the congruence of the operation, and elsewhere no change. -/
structure IsResult (moduli : List Nat) (operation : Operation Element) (out c : Element) :
    Prop where
  lengths : c.rows.map List.length = out.rows.map List.length
  common : ∀ j t, Common moduli (out :: operation.operands) j t →
    ∃ r, c.residue? j t = some r ∧ r < moduli.getD j 0 ∧
      (operation.residuesAt j t).Relates (moduli.getD j 0) (out.residue j t) r
  frame : ∀ j t, ¬ Common moduli (out :: operation.operands) j t →
    c.residue? j t = out.residue? j t

/-- Where a result has a residue it is written over one. -/
theorem IsResult.residue?_out {moduli : List Nat} {operation : Operation Element}
    {out c : Element} {j t r : Nat} (h : operation.IsResult moduli out c)
    (hr : c.residue? j t = some r) : out.residue? j t = some (out.residue j t) := by
  have hsome : (out.residue? j t).isSome := by
    rw [← Element.isSome_residue?_congr h.lengths, hr]
    rfl
  exact Element.residue?_eq_some_residue hsome

end Operation

variable {ring : NegacyclicRing} {operation : Operation Element} {out c : Element} {j t : Nat}

theorem getD_moduli (j : Fin ring.channels.length) :
    ring.moduli.getD j 0 = (ring.channel j).modulus.value := by
  simp [moduli, channel]

theorem common_iff {elements : List Element} (h : ∀ e ∈ elements, e.IsRectangular) :
    Common ring.moduli elements j t ↔
      j < ring.channels.length ∧ ∀ e ∈ elements, (e.residue? j t).isSome := by
  simp only [Common, moduli, List.length_map]
  refine and_congr_right fun _ => forall₂_congr fun e he => ?_
  exact (h e he).isSome_residue?_iff.symm

namespace Valid

/-- An operation on elements of any dimensions gives its result. -/
theorem gives_write (hring : ring.Valid) (h : operation.Admits ring.moduli out) :
    Gives (operation.write ring out) fun c => operation.IsResult ring.moduli out c := by
  have hresidue : ∀ (j : Fin ring.channels.length) (t : Nat),
      Common ring.moduli (out :: operation.operands) j t →
        Gives ((operation.residuesAt j t).writeResidue (ring.channel j).modulus (out.residue j t))
          fun r => r < ring.moduli.getD j 0 ∧
            (operation.residuesAt j t).Relates (ring.moduli.getD j 0) (out.residue j t) r := by
    intro j t hcommon
    have hreads := h.reduced j t hcommon
    rw [getD_moduli] at hreads ⊢
    exact Operation.gives_writeResidue (hring.validModuli j) hreads
  rw [Operation.write_eq_updateCells]
  obtain ⟨c, hc⟩ : ∃ c, ring.updateCells Operation.writeResidue operation.rows out = .ok c := by
    rw [exists_updateCells_iff]
    intro j t o x channel hchannel ho hx
    obtain ⟨hj, rfl⟩ := List.getElem?_eq_some_iff.1 hchannel
    obtain ⟨hoperands, rfl⟩ := Operation.cell?_rows_eq_some_iff.1 hx
    obtain ⟨r, hr, -⟩ := hresidue ⟨j, hj⟩ t ((common_iff h.rectangular).2
      ⟨hj, List.forall_mem_cons.2 ⟨Option.isSome_of_mem ho, hoperands⟩⟩)
    rw [Element.residue_of_residue? ho] at hr
    exact ⟨r, hr⟩
  refine ⟨c, hc, lengths_updateCells hc, fun j t hcommon => ?_, fun j t hcommon => ?_⟩
  · obtain ⟨hj, hsome⟩ := (common_iff h.rectangular).1 hcommon
    obtain ⟨hout, hoperands⟩ := List.forall_mem_cons.1 hsome
    obtain ⟨o, ho⟩ := Option.isSome_iff_exists.1 hout
    obtain ⟨r, hr, hcr⟩ := residue?_updateCells hc (List.getElem?_eq_getElem hj) ho
      (Operation.cell?_rows_eq_some_iff.2 ⟨hoperands, rfl⟩)
    rw [← Element.residue_of_residue? ho] at hr
    exact ⟨r, hcr, (hresidue ⟨j, hj⟩ t hcommon).value_unique hr⟩
  · rw [common_iff h.rectangular, List.forall_mem_cons] at hcommon
    cases hout : out.residue? j t with
    | none =>
        have hlengths := Element.isSome_residue?_congr (j := j) (t := t) (lengths_updateCells hc)
        rw [hout] at hlengths
        simpa using hlengths
    | some o =>
        rw [← hout]
        refine residue?_updateCells_of_none hc fun hj => ?_
        cases hx : cell? operation.rows j t with
        | none => rfl
        | some x =>
            have hoperands := (Operation.cell?_rows_eq_some_iff.1 hx).1
            exact absurd ⟨hj, Option.isSome_of_mem hout, hoperands⟩ hcommon

/-! ## Results are unique -/

theorem coprime_getD_moduli (hring : ring.Valid) (hj : j < ring.moduli.length) :
    Nat.Coprime (ring.moduli.getD j 0) (2 ^ 64) := by
  have hjc : j < ring.channels.length := by simpa [moduli] using hj
  rw [getD_moduli ⟨j, hjc⟩]
  exact (hring.validModuli ⟨j, hjc⟩).coprime_two.symm.pow_right 64

theorem eq_of_isResult (hring : ring.Valid) {d : Element}
    (hc : operation.IsResult ring.moduli out c) (hd : operation.IsResult ring.moduli out d) :
    c = d := by
  have hlength : c.rows.length = d.rows.length := by
    simpa using congrArg List.length (hc.lengths.trans hd.lengths.symm)
  refine Element.eq_of_residue? hlength fun j t => ?_
  by_cases hcommon : Common ring.moduli (out :: operation.operands) j t
  · obtain ⟨r, hr, hlt, hrelates⟩ := hc.common j t hcommon
    obtain ⟨s, hs, hlt', hrelates'⟩ := hd.common j t hcommon
    rw [hr, hs, hrelates.unique (hring.coprime_getD_moduli hcommon.1) hlt hlt' hrelates']
  · rw [hc.frame j t hcommon, hd.frame j t hcommon]

theorem write_eq_of_isResult (hring : ring.Valid) (h : operation.Admits ring.moduli out)
    (hc : operation.IsResult ring.moduli out c) : operation.write ring out = .ok c := by
  obtain ⟨d, hd, hresult⟩ := hring.gives_write h
  rw [hd, hring.eq_of_isResult hc hresult]

end Valid

/-! ## Elements of full size -/

theorem common_iff_of_reduced {elements : List Element} (h : ∀ e ∈ elements, ring.Reduced e)
    (hne : elements ≠ []) :
    Common ring.moduli elements j t ↔ j < ring.channels.length ∧ t < ring.degree := by
  rw [Common, moduli, List.length_map]
  refine and_congr_right fun hj => ?_
  have hcell : ∀ e ∈ elements, (j < e.rowCount ∧ t < e.columnCount) ↔ t < ring.degree := by
    intro e he
    have hfits := (h e he).1
    rw [Element.HasDimensions.columnCount_eq hfits (Nat.zero_lt_of_lt hj), Element.rowCount,
      hfits.1]
    exact and_iff_right hj
  constructor
  · intro hcommon
    obtain ⟨e, he⟩ := List.exists_mem_of_ne_nil _ hne
    exact (hcell e he).1 (hcommon e he)
  · exact fun ht e he => (hcell e he).2 ht

theorem admits_of_reduced {full : Operation Element} {big : Element}
    (h : ∀ e ∈ big :: full.operands, ring.Reduced e) : full.Admits ring.moduli big := by
  refine Operation.admits_of_lt (fun e he => (h e he).1.isRectangular) fun j t hcommon e he => ?_
  obtain ⟨hj, ht⟩ := (common_iff_of_reduced h (List.cons_ne_nil _ _)).1 hcommon
  rw [getD_moduli ⟨j, hj⟩]
  exact (h e he).2 ⟨j, hj⟩ ⟨t, ht⟩

/-- At a place where elements of full size have the same residues, the operation writes the
same residue. -/
theorem Valid.gives_write_full (hring : ring.Valid) (hc : operation.IsResult ring.moduli out c)
    {full : Operation Element} {big : Element}
    (h : ∀ e ∈ big :: full.operands, ring.Reduced e) :
    Gives (full.write ring big) fun result => ∀ j t,
      Common ring.moduli (out :: operation.operands) j t → t < ring.degree →
        full.residuesAt j t = operation.residuesAt j t → big.residue j t = out.residue j t →
          result.residue? j t = c.residue? j t := by
  refine (hring.gives_write (admits_of_reduced h)).imp fun result hresult j t hcommon ht
    hoperands hout => ?_
  have hj : j < ring.channels.length := by simpa [moduli] using hcommon.1
  obtain ⟨r, hr, hlt, hrelates⟩ := hc.common j t hcommon
  obtain ⟨s, hs, hlt', hrelates'⟩ :=
    hresult.common j t ((common_iff_of_reduced h (List.cons_ne_nil _ _)).2 ⟨hj, ht⟩)
  rw [hoperands, hout] at hrelates'
  rw [hr, hs, hrelates.unique (hring.coprime_getD_moduli hcommon.1) hlt hlt' hrelates']

end NegacyclicRing
end Ring
end RelinCeremony
