import RelinCeremony.Proofs.Ring.Arithmetic

namespace RelinCeremony
namespace Ring

/-!
# Operands of other dimensions

An operation in lockstep takes elements of any dimensions.  It changes a residue of the output
exactly where the operand has one too and the ring has a channel for the row; everywhere else
the output is as it was, and the operand is not looked at.

Such a place is said to be in reach of the operand.
-/

namespace Element

/-- The residue in row `j` and column `t`, if there is one. -/
def residue? (a : Element) (j t : Nat) : Option Nat := a.rows[j]?.bind fun row => row[t]?

variable {a : Element} {j t x rows columns : Nat}

theorem residue_eq_getD (a : Element) (j t : Nat) : a.residue j t = (a.residue? j t).getD 0 := by
  rw [residue, residue?, List.getD_eq_getElem?_getD, List.getD_eq_getElem?_getD]
  cases a.rows[j]? with
  | none => rfl
  | some row => rfl

theorem residue_of_residue? (h : a.residue? j t = some x) : a.residue j t = x := by
  rw [residue_eq_getD, h]
  rfl

theorem residue?_eq_some_iff :
    a.residue? j t = some x ↔ ∃ row, a.rows[j]? = some row ∧ row[t]? = some x :=
  Option.bind_eq_some_iff

theorem HasDimensions.residue?_eq (h : a.HasDimensions rows columns) (hj : j < rows)
    (ht : t < columns) : a.residue? j t = some (a.residue j t) := by
  have hja : j < a.rows.length := by
    rw [h.1]
    exact hj
  have hta : t < a.rows[j].length := by
    rw [h.row_length hja]
    exact ht
  rw [residue_eq hja hta, residue?_eq_some_iff]
  exact ⟨_, List.getElem?_eq_getElem hja, List.getElem?_eq_getElem hta⟩

theorem hasDimensions_iff_lengths :
    a.HasDimensions rows columns ↔ a.rows.map List.length = List.replicate rows columns := by
  simp [HasDimensions, List.eq_replicate_iff]

end Element

namespace NegacyclicRing

variable {ring : NegacyclicRing} {a b c : Element}

/-! ## Updates of any elements -/

section Updates

variable {β : Type} {f : Modulus → β → Nat → Checked Nat} {operands : List (List β)}
  {j t o : Nat} {x : β} {channel : Channel}

/-- The entry in row `j` and column `t`, if there is one. -/
def cell? (rows : List (List β)) (j t : Nat) : Option β := rows[j]?.bind fun row => row[t]?

theorem cell?_eq_some_iff :
    cell? operands j t = some x ↔ ∃ row, operands[j]? = some row ∧ row[t]? = some x :=
  Option.bind_eq_some_iff

/-- Updates an output from rows of operands of any kind, residue by residue. -/
def updateCells (ring : NegacyclicRing) (f : Modulus → β → Nat → Checked Nat)
    (operands : List (List β)) (out : Element) : Checked Element := do
  let rows ← Lockstep.update
    (fun outRow (p : List β × Channel) => Lockstep.update (fun o x => f p.2.modulus x o) outRow p.1)
    out.rows (operands.zip ring.channels)
  return ⟨rows⟩

theorem updateCells_eq_ok_iff : ring.updateCells f operands a = .ok c ↔
    Lockstep.update (fun outRow (p : List β × Channel) =>
      Lockstep.update (fun o x => f p.2.modulus x o) outRow p.1)
      a.rows (operands.zip ring.channels) = .ok c.rows := by
  rw [updateCells, bind_eq_ok_iff]
  constructor
  · rintro ⟨rows, hrows, hc⟩
    cases hc
    exact hrows
  · intro h
    exact ⟨_, h, rfl⟩

/-- In reach of the operands the operation is applied. -/
theorem residue?_updateCells (h : ring.updateCells f operands a = .ok c)
    (hchannel : ring.channels[j]? = some channel) (ho : a.residue? j t = some o)
    (hx : cell? operands j t = some x) :
    ∃ r, f channel.modulus x o = .ok r ∧ c.residue? j t = some r := by
  obtain ⟨outRow, houtRow, ho⟩ := Element.residue?_eq_some_iff.1 ho
  obtain ⟨row, hrow, hx⟩ := cell?_eq_some_iff.1 hx
  have hoperand : (operands.zip ring.channels)[j]? = some (row, channel) :=
    List.getElem?_zip_eq_some.2 ⟨hrow, hchannel⟩
  obtain ⟨result, hresult, hresultRow⟩ :=
    Lockstep.getElem?_update (updateCells_eq_ok_iff.1 h) houtRow hoperand
  obtain ⟨r, hr, hresultCell⟩ := Lockstep.getElem?_update hresult ho hx
  exact ⟨r, hr, Element.residue?_eq_some_iff.2 ⟨result, hresultRow, hresultCell⟩⟩

/-- Every row keeps its length. -/
theorem lengths_updateCells (h : ring.updateCells f operands a = .ok c) :
    c.rows.map List.length = a.rows.map List.length := by
  have hrows := updateCells_eq_ok_iff.1 h
  have hlength := Lockstep.update_length hrows
  refine List.ext_getElem (by simpa using hlength) fun j hjc hja => ?_
  simp only [List.length_map] at hjc hja
  rw [List.getElem_map, List.getElem_map]
  by_cases hreach : j < (operands.zip ring.channels).length
  · exact Lockstep.update_length (Lockstep.getElem_update hrows hja hreach hjc)
  · have hrow := Lockstep.getElem?_update_of_le hrows (Nat.le_of_not_lt hreach)
    rw [List.getElem?_eq_getElem hjc, List.getElem?_eq_getElem hja, Option.some_inj] at hrow
    rw [hrow]

/-- Out of reach of the operands nothing changes. -/
theorem residue?_updateCells_of_none (h : ring.updateCells f operands a = .ok c)
    (hx : j < ring.channels.length → cell? operands j t = none) :
    c.residue? j t = a.residue? j t := by
  have hrows := updateCells_eq_ok_iff.1 h
  by_cases hreach : j < (operands.zip ring.channels).length
  · obtain ⟨hjb, hjc⟩ : j < operands.length ∧ j < ring.channels.length := by
      simpa [lt_min_iff] using hreach
    have hrow : operands[j]? = some operands[j] := List.getElem?_eq_getElem hjb
    have hoperand : (operands.zip ring.channels)[j]? = some (operands[j], ring.channels[j]) :=
      List.getElem?_zip_eq_some.2 ⟨hrow, List.getElem?_eq_getElem hjc⟩
    cases houtRow : a.rows[j]? with
    | none =>
        have hja : c.rows.length ≤ j := by
          rw [Lockstep.update_length hrows]
          exact List.getElem?_eq_none_iff.1 houtRow
        simp [Element.residue?, houtRow, List.getElem?_eq_none_iff.2 hja]
    | some outRow =>
        obtain ⟨result, hresult, hresultRow⟩ :=
          Lockstep.getElem?_update hrows houtRow hoperand
        -- The row of the operand is there, so it is too short.
        have ht : operands[j].length ≤ t := by
          have hnone := hx hjc
          rw [cell?, hrow] at hnone
          exact List.getElem?_eq_none_iff.1 hnone
        simp only [Element.residue?, houtRow, hresultRow, Option.bind_some]
        exact Lockstep.getElem?_update_of_le hresult ht
  · have hrow := Lockstep.getElem?_update_of_le hrows (Nat.le_of_not_lt hreach)
    rw [Element.residue?, Element.residue?, hrow]

/-- An update gives an element exactly if the operation gives a value at every place in
reach. -/
theorem exists_updateCells_iff : (∃ c, ring.updateCells f operands a = .ok c) ↔
    ∀ j t o x channel, ring.channels[j]? = some channel → a.residue? j t = some o →
      cell? operands j t = some x → ∃ r, f channel.modulus x o = .ok r := by
  constructor
  · rintro ⟨c, h⟩ j t o x channel hchannel ho hx
    obtain ⟨r, hr, _⟩ := residue?_updateCells h hchannel ho hx
    exact ⟨r, hr⟩
  · intro h
    obtain ⟨rows, hrows⟩ := Lockstep.exists_update_iff.2 fun j outRow
        (p : List β × Channel) houtRow hp =>
      Lockstep.exists_update_iff.2 fun t o x ho hx => by
        obtain ⟨hrow, hchannel⟩ := List.getElem?_zip_eq_some.1 hp
        exact h j t o x p.2 hchannel (Element.residue?_eq_some_iff.2 ⟨outRow, houtRow, ho⟩)
          (cell?_eq_some_iff.2 ⟨p.1, hrow, hx⟩)
    exact ⟨⟨rows⟩, updateCells_eq_ok_iff.2 hrows⟩

end Updates

/-! ## Additions to reduced elements -/

/-- The residues of the element are below the moduli as far as the element reaches into the
ring. -/
def ReducedInReach (ring : NegacyclicRing) (b : Element) : Prop :=
  ∀ (j : Fin ring.channels.length) (t : Fin ring.degree), ∀ x ∈ b.residue? j t,
    x < (ring.channel j).modulus.value

/-- The element has a residue for every channel and every column of the ring. -/
def Covers (ring : NegacyclicRing) (b : Element) : Prop :=
  ∀ (j : Fin ring.channels.length) (t : Fin ring.degree), (b.residue? j t).isSome

/-- The third element is the first with the second added as far as the second reaches. -/
def IsSumInReach (ring : NegacyclicRing) (a b c : Element) : Prop :=
  ring.Reduced c ∧ ∀ (j : Fin ring.channels.length) (t : Fin ring.degree),
    c.residue j t = match b.residue? j t with
      | some x => (a.residue j t + x) % (ring.channel j).modulus.value
      | none => a.residue j t

/-- Every residue of the third element is the sum of two residues, one of each element, modulo
the modulus of the channel. -/
def IsFullSum (ring : NegacyclicRing) (a b c : Element) : Prop :=
  ring.Reduced c ∧ ∀ (j : Fin ring.channels.length) (t : Fin ring.degree),
    ∃ x ∈ b.residue? j t, c.residue j t = (a.residue j t + x) % (ring.channel j).modulus.value

/-- A sum as far as the operand reaches is the full sum exactly if the operand covers the
ring. -/
theorem IsSumInReach.isFullSum_iff (h : ring.IsSumInReach a b c) :
    ring.IsFullSum a b c ↔ ring.Covers b := by
  constructor
  · rintro ⟨_, hcells⟩ j t
    obtain ⟨x, hx, _⟩ := hcells j t
    exact Option.isSome_of_mem hx
  · refine fun hcovers => ⟨h.1, fun j t => ?_⟩
    obtain ⟨x, hx⟩ := Option.isSome_iff_exists.1 (hcovers j t)
    refine ⟨x, hx, ?_⟩
    rw [h.2 j t, hx]

theorem addAssign_eq_updateCells :
    ring.addAssign b a = ring.updateCells (fun m x o => m.add o x) b.rows a :=
  rfl

/-- An addition to a reduced element gives a value exactly if the operand is reduced in reach. -/
theorem exists_addAssign_iff (hring : ring.ValidModuli) (ha : ring.Reduced a) :
    (∃ c, ring.addAssign b a = .ok c) ↔ ring.ReducedInReach b := by
  rw [addAssign_eq_updateCells, exists_updateCells_iff]
  constructor
  · intro h j t x hx
    obtain ⟨r, hr⟩ := h j t _ x _ (List.getElem?_eq_getElem j.isLt)
      (ha.1.residue?_eq j.isLt t.isLt) hx
    rw [Modulus.add, bind_eq_ok_iff] at hr
    obtain ⟨_, hrange, _⟩ := hr
    exact (require_eq_ok_iff.1 hrange).2
  · intro h j t o x channel hchannel ho hx
    obtain ⟨hj, rfl⟩ := List.getElem?_eq_some_iff.1 hchannel
    have ht : t < ring.degree := by
      obtain ⟨row, hrow, hcell⟩ := Element.residue?_eq_some_iff.1 ho
      rw [← ha.1.2 row (List.mem_of_getElem? hrow)]
      exact (List.getElem?_eq_some_iff.1 hcell).1
    have hreduced := ha.2 ⟨j, hj⟩ ⟨t, ht⟩
    rw [Element.residue_of_residue? ho] at hreduced
    exact ⟨_, Modulus.add_eq (hring ⟨j, hj⟩).lt_word hreduced (h ⟨j, hj⟩ ⟨t, ht⟩ x hx)⟩

theorem isSumInReach_of_addAssign (hring : ring.ValidModuli) (ha : ring.Reduced a)
    (h : ring.addAssign b a = .ok c) : ring.IsSumInReach a b c := by
  have hreach := (exists_addAssign_iff hring ha).1 ⟨c, h⟩
  rw [addAssign_eq_updateCells] at h
  have hcells : ∀ (j : Fin ring.channels.length) (t : Fin ring.degree),
      c.residue j t = match b.residue? j t with
        | some x => (a.residue j t + x) % (ring.channel j).modulus.value
        | none => a.residue j t := by
    intro j t
    have ho := ha.1.residue?_eq j.isLt t.isLt
    cases hx : b.residue? j t with
    | none =>
        exact Element.residue_of_residue?
          ((residue?_updateCells_of_none h fun _ => hx).trans ho)
    | some x =>
        obtain ⟨r, hr, hc⟩ := residue?_updateCells h (List.getElem?_eq_getElem j.isLt) ho hx
        have hsum := Modulus.add_eq (hring j).lt_word (ha.2 j t) (hreach j t x hx)
        rw [Element.residue_of_residue? hc]
        exact Except.ok.inj (hr.symm.trans hsum)
  have hfits : ring.Fits c := by
    rw [Fits, Element.hasDimensions_iff_lengths, lengths_updateCells h]
    exact Element.hasDimensions_iff_lengths.1 ha.1
  refine ⟨⟨hfits, fun j t => ?_⟩, hcells⟩
  rw [hcells j t]
  cases b.residue? j t with
  | none => exact ha.2 j t
  | some x => exact Nat.mod_lt _ (hring j).pos

/-- Residues that are not there count as zero. -/
theorem IsSumInReach.residue_eq (ha : ring.Reduced a) (h : ring.IsSumInReach a b c)
    (j : Fin ring.channels.length) (t : Fin ring.degree) :
    c.residue j t = (a.residue j t + b.residue j t) % (ring.channel j).modulus.value := by
  rw [h.2 j t, Element.residue_eq_getD b]
  cases b.residue? j t with
  | none => exact (Nat.mod_eq_of_lt (ha.2 j t)).symm
  | some x => rfl

end NegacyclicRing
end Ring
end RelinCeremony
