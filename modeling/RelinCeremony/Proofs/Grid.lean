import RelinCeremony.Grid.Basic
import RelinCeremony.Proofs.Gives

namespace RelinCeremony

/-!
# Slots of grids

What holds of every slot of a grid is said in two ways.  `Grid.Fills` is a property of
the slots alone, `Grid.FillsAt` one of the slots and their coordinates.  A grid is
determined by its shape and its slots.

A grid whose slots are computed one after another is described slot by slot.
-/

theorem Shape.coordinates_eq {shape : Shape} {n : Nat} (h : n % shape.levels < shape.levels) :
    shape.coordinates n = .ok (n / shape.levels, n % shape.levels) := by
  have hne : shape.levels ≠ 0 := by omega
  rw [coordinates, require_bind hne]
  rfl

/-! ## Numbers of places -/

theorem Shape.number_lt {shape : Shape} {i w : Nat} (hi : i < shape.moduli)
    (hw : w < shape.levels) : i * shape.levels + w < shape.moduli * shape.levels := by
  calc
    i * shape.levels + w < i * shape.levels + shape.levels := Nat.add_lt_add_left hw _
    _ = (i + 1) * shape.levels := (Nat.succ_mul ..).symm
    _ ≤ shape.moduli * shape.levels := Nat.mul_le_mul_right _ hi

theorem Shape.number_div {shape : Shape} {w : Nat} (i : Nat) (hw : w < shape.levels) :
    (i * shape.levels + w) / shape.levels = i := by
  rw [Nat.mul_comm, Nat.mul_add_div (by omega), Nat.div_eq_of_lt hw, Nat.add_zero]

theorem Shape.number_mod {shape : Shape} {w : Nat} (i : Nat) (hw : w < shape.levels) :
    (i * shape.levels + w) % shape.levels = w := by
  rw [Nat.mul_comm, Nat.mul_add_mod, Nat.mod_eq_of_lt hw]

/-! ## Properties of all slots -/

namespace Grid

variable {α β : Type} {grid : Grid α} {shape : Shape}

/-- The slot `(i, w)`, and a fixed value where there is none. -/
def slot [Inhabited α] (grid : Grid α) (i w : Nat) : α := (grid.get? i w).getD default

/-- The grid has the shape and as many slots, and all slots have the property. -/
def Fills (grid : Grid α) (shape : Shape) (P : α → Prop) : Prop :=
  grid.shape = shape ∧ grid.slots.length = shape.moduli * shape.levels ∧ ∀ x ∈ grid.slots, P x

instance (grid : Grid α) (shape : Shape) (P : α → Prop) [DecidablePred P] :
    Decidable (grid.Fills shape P) :=
  inferInstanceAs (Decidable (_ ∧ _ ∧ _))

theorem Fills.imp {P Q : α → Prop} (h : grid.Fills shape P) (hpq : ∀ x, P x → Q x) :
    grid.Fills shape Q :=
  ⟨h.1, h.2.1, fun x hx => hpq x (h.2.2 x hx)⟩

/-- There is a slot for every pair of coordinates. -/
def IsFull (grid : Grid α) : Prop := grid.slots.length = grid.shape.moduli * grid.shape.levels

theorem IsFull.length_eq (h : grid.IsFull) (hshape : grid.shape = shape) :
    grid.slots.length = shape.moduli * shape.levels := by
  rw [h, hshape]

theorem Fills.isFull {P : α → Prop} (h : grid.Fills shape P) : grid.IsFull := by
  rw [IsFull, h.1]
  exact h.2.1

/-- The grid has the shape and as many slots, and each slot has the property of its
coordinates. -/
structure FillsAt (grid : Grid α) (shape : Shape) (P : Nat → Nat → α → Prop) : Prop where
  shape_eq : grid.shape = shape
  length_eq : grid.slots.length = shape.moduli * shape.levels
  slots : ∀ n (hn : n < grid.slots.length), P (n / shape.levels) (n % shape.levels) grid.slots[n]

theorem coordinates_lt {n : Nat} (hn : n < shape.moduli * shape.levels) :
    n / shape.levels < shape.moduli ∧ n % shape.levels < shape.levels := by
  have hlevels : 0 < shape.levels := by
    -- Without levels there are no slots, so the division is by a positive number.
    rcases Nat.eq_zero_or_pos shape.levels with hzero | hpos
    · rw [hzero] at hn
      omega
    · exact hpos
  exact ⟨(Nat.div_lt_iff_lt_mul hlevels).2 hn, Nat.mod_lt _ hlevels⟩

namespace FillsAt

variable {P Q : Nat → Nat → α → Prop}

theorem imp (h : grid.FillsAt shape P) (hpq : ∀ i w x, P i w x → Q i w x) :
    grid.FillsAt shape Q :=
  ⟨h.shape_eq, h.length_eq, fun n hn => hpq _ _ _ (h.slots n hn)⟩

/-- Only coordinates within the shape matter. -/
theorem imp_lt (h : grid.FillsAt shape P)
    (hpq : ∀ i < shape.moduli, ∀ w < shape.levels, ∀ x, P i w x → Q i w x) :
    grid.FillsAt shape Q := by
  refine ⟨h.shape_eq, h.length_eq, fun n hn => ?_⟩
  obtain ⟨hi, hw⟩ := coordinates_lt (Nat.lt_of_lt_of_eq hn h.length_eq)
  exact hpq _ hi _ hw _ (h.slots n hn)

theorem fills {R : α → Prop} (h : grid.FillsAt shape P) (hpr : ∀ i w x, P i w x → R x) :
    grid.Fills shape R := by
  refine ⟨h.shape_eq, h.length_eq, fun x hx => ?_⟩
  obtain ⟨n, hn, rfl⟩ := List.getElem_of_mem hx
  exact hpr _ _ _ (h.slots n hn)

theorem of_fills {R : α → Prop} (h : grid.Fills shape R) : grid.FillsAt shape fun _ _ => R :=
  ⟨h.1, h.2.1, fun _ hn => h.2.2 _ (List.getElem_mem hn)⟩

theorem exists_get? (h : grid.FillsAt shape P) {i w : Nat} (hi : i < shape.moduli)
    (hw : w < shape.levels) : ∃ x, grid.get? i w = some x ∧ P i w x := by
  have hn : i * shape.levels + w < grid.slots.length :=
    Nat.lt_of_lt_of_eq (Shape.number_lt hi hw) h.length_eq.symm
  have hslot := h.slots _ hn
  rw [Shape.number_div i hw, Shape.number_mod i hw] at hslot
  refine ⟨_, ?_, hslot⟩
  simp [get?, h.shape_eq, hi, hw, List.getElem?_eq_getElem hn]

theorem gives_read (h : grid.FillsAt shape P) {i w : Nat} (hi : i < shape.moduli)
    (hw : w < shape.levels) : Gives (grid.read i w) (P i w) := by
  obtain ⟨x, hx, hp⟩ := h.exists_get? hi hw
  exact ⟨x, by rw [read, hx], hp⟩

theorem slot [Inhabited α] (h : grid.FillsAt shape P) {i w : Nat} (hi : i < shape.moduli)
    (hw : w < shape.levels) : P i w (grid.slot i w) := by
  obtain ⟨x, hx, hp⟩ := h.exists_get? hi hw
  rw [Grid.slot, hx]
  exact hp

theorem ext {other : Grid α} (h : grid.FillsAt shape P) (hother : other.FillsAt shape P)
    (hunique : ∀ i w x y, P i w x → P i w y → x = y) : grid = other := by
  have hlength : grid.slots.length = other.slots.length := h.length_eq.trans hother.length_eq.symm
  have hslots : grid.slots = other.slots := by
    apply List.ext_getElem hlength
    intro n hn hn'
    exact hunique _ _ _ _ (h.slots n hn) (hother.slots n hn')
  have hshape : grid.shape = other.shape := h.shape_eq.trans hother.shape_eq.symm
  cases grid
  cases other
  simp_all

end FillsAt

theorem Fills.fillsAt [Inhabited α] {P : α → Prop} (h : grid.Fills shape P) :
    grid.FillsAt shape fun i w x => P x ∧ x = grid.slot i w := by
  refine ⟨h.1, h.2.1, fun n hn => ⟨h.2.2 _ (List.getElem_mem hn), ?_⟩⟩
  obtain ⟨hi, hw⟩ := coordinates_lt (Nat.lt_of_lt_of_eq hn h.2.1)
  have hindex : n / shape.levels * shape.levels + n % shape.levels = n := Nat.div_add_mod' n _
  simp [Grid.slot, get?, h.1, hi, hw, hindex, List.getElem?_eq_getElem hn]

theorem FillsAt.gives_entries {P : Nat → Nat → α → Prop} (h : grid.FillsAt shape P) :
    Gives grid.entries fun entries =>
      entries.map Prod.fst = (List.range (shape.moduli * shape.levels)).map
        (fun n => (n / shape.levels, n % shape.levels)) ∧
      ∀ entry ∈ entries, entry.1.1 < shape.moduli ∧ entry.1.2 < shape.levels ∧
        P entry.1.1 entry.1.2 entry.2 := by
  have hposition : ∀ (slot : α) n, (slot, n) ∈ grid.slots.zipIdx → ∃ hn : n < grid.slots.length,
      grid.slots[n] = slot ∧ n / shape.levels < shape.moduli ∧
        n % shape.levels < shape.levels := by
    intro slot n hmem
    rw [List.mk_mem_zipIdx_iff_getElem?, List.getElem?_eq_some_iff] at hmem
    obtain ⟨hn, hslot⟩ := hmem
    exact ⟨hn, hslot, coordinates_lt (Nat.lt_of_lt_of_eq hn h.length_eq)⟩
  have hentries : grid.entries = .ok (grid.slots.zipIdx.map fun p =>
      ((p.2 / shape.levels, p.2 % shape.levels), p.1)) := by
    refine mapM_eq_ok_map fun p hmem => ?_
    obtain ⟨_, _, _, hw⟩ := hposition p.1 p.2 hmem
    simp only [h.shape_eq, Shape.coordinates_eq hw]
    rfl
  refine ⟨_, hentries, ?_, ?_⟩
  · rw [← h.length_eq]
    refine List.ext_getElem (by simp) fun n hn hn' => ?_
    simp
  · intro entry hentry
    obtain ⟨⟨slot, n⟩, hmem, rfl⟩ := List.mem_map.1 hentry
    obtain ⟨hn, rfl, hi, hw⟩ := hposition slot n hmem
    exact ⟨hi, hw, h.slots n hn⟩

/-- Slots that are computed one after another fill a grid. -/
theorem gives_mapSlots {ε : Type} (shape : Shape) {P : Nat → Nat → α → Prop} {items : List β}
    {f : β → Except ε α} (hlength : items.length = shape.moduli * shape.levels)
    (h : ∀ n (hn : n < items.length), n / shape.levels < shape.moduli →
      n % shape.levels < shape.levels →
        Gives (f items[n]) (P (n / shape.levels) (n % shape.levels))) :
    Gives (items.mapM f) fun slots => (⟨shape, slots⟩ : Grid α).FillsAt shape P := by
  have hslots := gives_mapM_getElem (f := f)
    (P := fun n => P (n / shape.levels) (n % shape.levels)) fun n (hn : n < items.length) => by
      obtain ⟨hi, hw⟩ := coordinates_lt (Nat.lt_of_lt_of_eq hn hlength)
      exact h n hn hi hw
  exact hslots.imp fun slots hslots => ⟨rfl, hslots.1.trans hlength, hslots.2⟩

/-- Slots that are computed one after another fill a grid, unless one of them fails as allowed. -/
theorem givesUnless_mapSlots {ε : Type} {allowed : ε → Prop} (shape : Shape) {P : α → Prop}
    {items : List β} {f : β → Except ε α} (hlength : items.length = shape.moduli * shape.levels)
    (h : ∀ item ∈ items, GivesUnless allowed (f item) P) :
    GivesUnless allowed (items.mapM f) fun slots => (⟨shape, slots⟩ : Grid α).Fills shape P := by
  refine (givesUnless_mapM h).imp fun slots hslots => ?_
  refine ⟨rfl, hslots.length_eq.symm.trans hlength, fun x hx => ?_⟩
  obtain ⟨n, hn, rfl⟩ := List.getElem_of_mem hx
  exact hslots.get (by rw [hslots.length_eq]; exact hn) hn

/-- A function that gives a value for every slot fills the list of slots, in order. -/
theorem gives_tabulateSlots (shape : Shape) {f : Nat → Nat → Checked α} {P : Nat → α → Prop}
    (indices : List Nat) (h : ∀ n ∈ indices, n % shape.levels < shape.levels ∧
      Gives (f (n / shape.levels) (n % shape.levels)) (P n)) :
    Gives ((tabulateSlots shape (fun i w (_ : Unit) => do return (← f i w, ())) indices).run ())
      fun r => List.Forall₂ P indices r.1 := by
  induction indices with
  | nil => exact ⟨([], ()), rfl, .nil⟩
  | cons n indices ih =>
      obtain ⟨hw, x, hx, hp⟩ := h n (by simp)
      obtain ⟨rest, hrest, hforall⟩ := ih fun m hm => h m (by simp [hm])
      refine ⟨(x :: rest.1, ()), ?_, .cons hp hforall⟩
      have hslot : StateT.run (fun (_ : Unit) => do
          return (← f (n / shape.levels) (n % shape.levels), ())) () = .ok (x, ()) := by
        show (do return (← f (n / shape.levels) (n % shape.levels), ()) : Checked _) = _
        rw [hx]
        rfl
      rw [tabulateSlots, Shape.coordinates_eq hw]
      simp only [StateT.run_bind, run_lift_ok, ok_bind, hslot, hrest]
      rfl

theorem gives_ofFn {shape : Shape} {f : Nat → Nat → Checked α} {P : Nat → Nat → α → Prop}
    (hsize : shape.size = .ok (shape.moduli * shape.levels))
    (h : ∀ i < shape.moduli, ∀ w < shape.levels, Gives (f i w) (P i w)) :
    Gives (ofFn shape f) fun grid => grid.FillsAt shape P := by
  have hslots := gives_tabulateSlots shape (f := f)
    (P := fun n => P (n / shape.levels) (n % shape.levels))
    (List.range (shape.moduli * shape.levels)) fun n hn => by
      obtain ⟨hi, hw⟩ := coordinates_lt (List.mem_range.1 hn)
      exact ⟨hw, h _ hi _ hw⟩
  obtain ⟨r, hr, hforall⟩ := hslots
  refine ⟨⟨shape, r.1⟩, ?_, rfl, by simpa using hforall.length_eq.symm, fun n hn => ?_⟩
  · unfold ofFn tabulate
    rw [hsize]
    show (StateT.run _ () >>= _) = _
    simp only [StateT.run_bind, run_lift_ok, ok_bind, hr]
    rfl
  · have hcell := hforall.get (by rw [hforall.length_eq]; exact hn) hn
    simpa using hcell

end Grid
end RelinCeremony
