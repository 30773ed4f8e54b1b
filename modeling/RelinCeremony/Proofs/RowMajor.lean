import Mathlib.Data.List.Nodup
import RelinCeremony.Proofs.Grid

namespace RelinCeremony

/-!
# Grids in row-major order

The places of a shape are its coordinates row by row, told by two nested loops and without a
division.  A grid that is tabulated calls its function at each place once, in this order, and
each call goes on from the state that the one before has left.  Reading at coordinates finds
what was given there, the entries come with their own coordinates, and a grid that is read
slot by slot gives the same grid again.

Containers of single elements and of pairs, such as common matrices and shares, are grids.
-/

namespace Shape

/-- The coordinates of the slots, row by row. -/
def places (shape : Shape) : List (Nat × Nat) :=
  (List.range shape.moduli).flatMap fun i => (List.range shape.levels).map fun w => (i, w)

variable {shape : Shape}

theorem mem_places {i w : Nat} :
    (i, w) ∈ shape.places ↔ i < shape.moduli ∧ w < shape.levels := by
  simp [places]

theorem nodup_places (shape : Shape) : shape.places.Nodup :=
  List.nodup_range.product List.nodup_range

/-- The place with a number is found by a division by the number of levels. -/
theorem places_eq_map (shape : Shape) : shape.places =
    (List.range (shape.moduli * shape.levels)).map fun n =>
      (n / shape.levels, n % shape.levels) := by
  obtain ⟨moduli, levels⟩ := shape
  induction moduli with
  | zero => simp [places]
  | succ moduli ih =>
      -- The slots of the last row are numbered from `moduli * levels` on.
      have hrow : (List.range levels).map (fun w => (moduli, w)) =
          ((List.range levels).map (moduli * levels + ·)).map fun n =>
            (n / levels, n % levels) := by
        rw [List.map_map]
        refine List.map_congr_left fun w hw => ?_
        have hlevels : w < (⟨moduli, levels⟩ : Shape).levels := List.mem_range.1 hw
        exact Prod.ext (number_div moduli hlevels).symm (number_mod moduli hlevels).symm
      simp only [places] at ih ⊢
      rw [List.range_succ, List.flatMap_append, ih, List.flatMap_singleton, hrow,
        Nat.succ_mul, List.range_add, List.map_append]

theorem length_places (shape : Shape) : shape.places.length = shape.moduli * shape.levels := by
  simp [places_eq_map]

theorem getElem?_places {i w : Nat} (hi : i < shape.moduli) (hw : w < shape.levels) :
    shape.places[i * shape.levels + w]? = some (i, w) := by
  rw [places_eq_map, List.getElem?_map, List.getElem?_range (number_lt hi hw), Option.map_some,
    number_div i hw, number_mod i hw]

end Shape

/-! ## Maps that carry a state -/

section States

variable {σ α β : Type} {f : β → StateT σ Checked α}

theorem run_mapM_cons_eq_ok_iff {x : β} {xs : List β} {ys : List α} {s s' : σ} :
    ((x :: xs).mapM f).run s = .ok (ys, s') ↔
      ∃ y t rest, (f x).run s = .ok (y, t) ∧ (xs.mapM f).run t = .ok (rest, s') ∧
        ys = y :: rest := by
  rw [List.mapM_cons, StateT.run_bind, bind_eq_ok_iff]
  constructor
  · rintro ⟨⟨y, t⟩, hy, h⟩
    rw [StateT.run_bind, bind_eq_ok_iff] at h
    obtain ⟨⟨rest, t'⟩, hrest, h⟩ := h
    cases h
    exact ⟨y, t, rest, hy, hrest, rfl⟩
  · rintro ⟨y, t, rest, hy, hrest, rfl⟩
    refine ⟨(y, t), hy, ?_⟩
    rw [StateT.run_bind, hrest]
    rfl

/-- A map that carries a state gives as many values as there are elements, and each of them
comes from the state that the elements before it have left. -/
theorem of_run_mapM {xs : List β} {ys : List α} {s s' : σ}
    (h : (xs.mapM f).run s = .ok (ys, s')) : ys.length = xs.length ∧
      ∀ n x, xs[n]? = some x → ∃ y before after, ys[n]? = some y ∧
        ((xs.take n).mapM f).run s = .ok (ys.take n, before) ∧
          (f x).run before = .ok (y, after) := by
  induction xs generalizing ys s with
  | nil =>
      cases h
      exact ⟨rfl, fun n x hx => by simp at hx⟩
  | cons x xs ih =>
      obtain ⟨y, t, rest, hy, hrest, rfl⟩ := run_mapM_cons_eq_ok_iff.1 h
      obtain ⟨hlength, hplaces⟩ := ih hrest
      refine ⟨by simp [hlength], fun n z hz => ?_⟩
      cases n with
      | zero =>
          obtain rfl : x = z := by simpa using hz
          exact ⟨y, s, t, rfl, rfl, hy⟩
      | succ n =>
          obtain ⟨v, before, after, hv, hbefore, hafter⟩ := hplaces n z (by simpa using hz)
          refine ⟨v, before, after, by simpa using hv, ?_, hafter⟩
          exact run_mapM_cons_eq_ok_iff.2 ⟨y, t, _, hy, hbefore, rfl⟩

/-- A map whose parts always give a value gives one. -/
theorem gives_run_mapM {xs : List β} (h : ∀ x ∈ xs, ∀ s, Gives ((f x).run s) fun _ => True)
    (s : σ) : Gives ((xs.mapM f).run s) fun _ => True := by
  induction xs generalizing s with
  | nil => exact ⟨([], s), rfl, trivial⟩
  | cons x xs ih =>
      obtain ⟨⟨y, t⟩, hy, -⟩ := h x (by simp) s
      obtain ⟨⟨rest, s'⟩, hrest, -⟩ := ih (fun z hz => h z (by simp [hz])) t
      exact ⟨_, run_mapM_cons_eq_ok_iff.2 ⟨y, t, rest, hy, hrest, rfl⟩, trivial⟩

end States

/-! ## Tabulation -/

namespace Grid

variable {σ α : Type} {shape : Shape} {f : Nat → Nat → StateT σ Checked α}

theorem tabulateSlots_eq_mapM (indices : List Nat)
    (h : ∀ n ∈ indices, n < shape.moduli * shape.levels) :
    tabulateSlots shape f indices =
      (indices.map fun n => (n / shape.levels, n % shape.levels)).mapM fun p => f p.1 p.2 := by
  induction indices with
  | nil => rfl
  | cons n indices ih =>
      obtain ⟨-, hw⟩ := coordinates_lt (h n (by simp))
      rw [tabulateSlots, List.map_cons, List.mapM_cons, ← ih fun k hk => h k (by simp [hk]),
        Shape.coordinates_eq hw]
      funext s
      rfl

/-- A grid of at most as many slots as a word counts is tabulated by one call at each place,
in row-major order. -/
theorem tabulate_eq_mapM (hsize : shape.moduli * shape.levels < Word.size) :
    tabulate shape f = do return ⟨shape, ← shape.places.mapM fun p => f p.1 p.2⟩ := by
  have hslots := tabulateSlots_eq_mapM (f := f) (List.range (shape.moduli * shape.levels))
    fun n hn => List.mem_range.1 hn
  rw [← Shape.places_eq_map] at hslots
  rw [tabulate, Shape.size, Word.checkedMul_eq hsize, ← hslots]
  funext s
  rfl

/-- The slot `(i, w)` is what the function gives there, from the state that the calls at the
places before have left. -/
def HoldsValueAt (grid : Grid α) (f : Nat → Nat → StateT σ Checked α) (s : σ) (i w : Nat) :
    Prop :=
  ∃ x before after, grid.get? i w = some x ∧
    ((grid.shape.places.take (i * grid.shape.levels + w)).mapM fun p => f p.1 p.2).run s =
      .ok (grid.slots.take (i * grid.shape.levels + w), before) ∧
    (f i w).run before = .ok (x, after)

theorem holdsValueAt_of_run_mapM {slots : List α} {s s' : σ}
    (h : (shape.places.mapM fun p => f p.1 p.2).run s = .ok (slots, s')) {i w : Nat}
    (hi : i < shape.moduli) (hw : w < shape.levels) :
    HoldsValueAt ⟨shape, slots⟩ f s i w := by
  obtain ⟨-, hvalues⟩ := of_run_mapM h
  obtain ⟨x, before, after, hx, hbefore, hafter⟩ := hvalues _ _ (Shape.getElem?_places hi hw)
  refine ⟨x, before, after, ?_, hbefore, hafter⟩
  simp [get?, hi, hw, hx]

/-! ## Reading -/

variable {grid : Grid α} {i w : Nat}

theorem get?_eq_none (h : ¬ (i < grid.shape.moduli ∧ w < grid.shape.levels)) :
    grid.get? i w = none := by
  rw [get?, if_neg (by simpa using h)]

theorem read_eq_ok_iff {x : α} : grid.read i w = .ok x ↔ grid.get? i w = some x := by
  rw [read]
  cases grid.get? i w <;> simp

theorem read_eq_error_iff :
    grid.read i w = .error (.slotOutOfBounds i w grid.shape.moduli grid.shape.levels) ↔
      grid.get? i w = none := by
  rw [read]
  cases grid.get? i w <;> simp

/-- In a full grid every slot is found at its coordinates. -/
theorem IsFull.fillsAt_get? (h : grid.IsFull) :
    grid.FillsAt grid.shape fun i w x => grid.get? i w = some x := by
  refine ⟨rfl, h, fun n hn => ?_⟩
  obtain ⟨hi, hw⟩ := coordinates_lt (Nat.lt_of_lt_of_eq hn h)
  have hnumber : n / grid.shape.levels * grid.shape.levels + n % grid.shape.levels = n :=
    Nat.div_add_mod' n _
  simp [get?, hi, hw, hnumber, List.getElem?_eq_getElem hn]

/-- A full grid that is read slot by slot is made again. -/
theorem IsFull.ofFn_read (h : grid.IsFull)
    (hsize : grid.shape.moduli * grid.shape.levels < Word.size) :
    ofFn grid.shape grid.read = .ok grid := by
  have hread := gives_ofFn (Word.checkedMul_eq hsize) fun i hi w hw =>
    h.fillsAt_get?.gives_read hi hw
  obtain ⟨other, hother, hfills⟩ := hread
  rw [hother, hfills.ext h.fillsAt_get? fun i w x y hx hy => Option.some_inj.1 (hx.symm.trans hy)]

/-- The look-up with its number computed in a word. -/
def checkedGet? (grid : Grid α) (i w : Nat) : Checked (Option α) := do
  if i < grid.shape.moduli && w < grid.shape.levels then
    let first ← Word.checkedMul i grid.shape.levels
    require (first + w < Word.size) .overflow
    return grid.slots[first + w]?
  else
    return none

/-- The number of a slot fits in a word if the number of slots does. -/
theorem checkedGet?_eq (hsize : grid.shape.moduli * grid.shape.levels < Word.size) (i w : Nat) :
    grid.checkedGet? i w = .ok (grid.get? i w) := by
  unfold checkedGet? get?
  split
  case isTrue h =>
    obtain ⟨hi, hw⟩ : i < grid.shape.moduli ∧ w < grid.shape.levels := by simpa using h
    have hnumber := Shape.number_lt hi hw
    rw [Word.checkedMul_eq (by omega), ok_bind, require_bind (by omega)]
    rfl
  case isFalse => rfl

/-! ## Faithful grids -/

/-- Take any shape whose number of slots fits in a word, also one without rows or levels, and
any function, which may carry a state.  The function is called once at each place of the
shape, in row-major order, and nothing but these calls can fail.  The grid that is made has a
slot for each place and no other; the slot `(i, w)` is the value given there; every look-up
outside the shape finds nothing, and none overflows; a slot that has to exist is missing
exactly where nothing is found; the entries are the slots in row-major order with their own
coordinates; and a grid made of the slots of the grid is equal to it. -/
theorem tabulate_faithful {σ α : Type} {shape : Shape}
    (hsize : shape.moduli * shape.levels < 2 ^ 64) (f : Nat → Nat → StateT σ Checked α) :
    (shape.places.Nodup ∧
      ∀ i w, (i, w) ∈ shape.places ↔ i < shape.moduli ∧ w < shape.levels) ∧
    (tabulate shape f = do return ⟨shape, ← shape.places.mapM fun p => f p.1 p.2⟩) ∧
    ((∀ i < shape.moduli, ∀ w < shape.levels, ∀ s, Gives ((f i w).run s) fun _ => True) →
      ∀ s, Gives ((tabulate shape f).run s) fun _ => True) ∧
    ∀ s grid s', (tabulate shape f).run s = .ok (grid, s') →
      grid.shape = shape ∧ grid.slots.length = shape.moduli * shape.levels ∧
      (∀ i < shape.moduli, ∀ w < shape.levels, grid.HoldsValueAt f s i w) ∧
      (∀ i w, ¬ (i < shape.moduli ∧ w < shape.levels) → grid.get? i w = none) ∧
      (∀ i w, grid.checkedGet? i w = .ok (grid.get? i w) ∧
        (∀ x, grid.read i w = .ok x ↔ grid.get? i w = some x) ∧
        (grid.read i w = .error (.slotOutOfBounds i w shape.moduli shape.levels) ↔
          grid.get? i w = none)) ∧
      (Gives grid.entries fun entries => entries.map Prod.fst = shape.places ∧
        ∀ entry ∈ entries, grid.get? entry.1.1 entry.1.2 = some entry.2) ∧
      ofFn grid.shape grid.read = .ok grid := by
  have htabulate := tabulate_eq_mapM (f := f) hsize
  refine ⟨⟨shape.nodup_places, fun i w => Shape.mem_places⟩, htabulate, fun h s => ?_,
    fun s grid s' hrun => ?_⟩
  · have hcalls : ∀ p ∈ shape.places, ∀ s, Gives ((f p.1 p.2).run s) fun _ => True := by
      intro p hp
      obtain ⟨hi, hw⟩ := Shape.mem_places.1 hp
      exact h _ hi _ hw
    obtain ⟨⟨slots, s'⟩, hslots, -⟩ := gives_run_mapM hcalls s
    rw [htabulate, StateT.run_bind, hslots]
    exact ⟨(⟨shape, slots⟩, s'), rfl, trivial⟩
  · rw [htabulate, StateT.run_bind, bind_eq_ok_iff] at hrun
    obtain ⟨⟨slots, t⟩, hslots, hgrid⟩ := hrun
    cases hgrid
    have hlength : slots.length = shape.moduli * shape.levels :=
      (of_run_mapM hslots).1.trans shape.length_places
    have hfull : (⟨shape, slots⟩ : Grid α).IsFull := hlength
    refine ⟨rfl, hlength, fun i hi w hw => holdsValueAt_of_run_mapM hslots hi hw,
      fun i w h => get?_eq_none h, fun i w => ⟨checkedGet?_eq hsize i w,
        fun x => read_eq_ok_iff, read_eq_error_iff⟩, ?_, hfull.ofFn_read hsize⟩
    refine hfull.fillsAt_get?.gives_entries.imp fun entries hentries => ⟨?_, fun entry hentry => ?_⟩
    · rw [hentries.1, shape.places_eq_map]
    · exact (hentries.2 entry hentry).2.2

/-- Gives the coordinates with the number of calls before. -/
def numbered (i w : Nat) : StateT Nat Checked ((Nat × Nat) × Nat) :=
  fun calls => .ok (((i, w), calls), calls + 1)

/-- Two rows of three slots, each with its number. -/
def numberedSlots : Grid ((Nat × Nat) × Nat) :=
  ⟨⟨2, 3⟩, [((0, 0), 0), ((0, 1), 1), ((0, 2), 2), ((1, 0), 3), ((1, 1), 4), ((1, 2), 5)]⟩

theorem tabulate_faithful_small : 2 * 3 < 2 ^ 64 ∧
    (tabulate ⟨2, 3⟩ numbered).run 0 = .ok (numberedSlots, 6) ∧
    numberedSlots.HoldsValueAt numbered 0 1 2 ∧ numberedSlots.get? 1 2 = some ((1, 2), 5) ∧
    numberedSlots.get? 0 3 = none ∧
    numberedSlots.read 2 0 = .error (.slotOutOfBounds 2 0 2 3) ∧
    ofFn numberedSlots.shape numberedSlots.read = .ok numberedSlots := by
  have hrun : (tabulate ⟨2, 3⟩ numbered).run 0 = .ok (numberedSlots, 6) := rfl
  obtain ⟨-, -, -, hfaithful⟩ := @tabulate_faithful _ _ ⟨2, 3⟩ (by decide) numbered
  obtain ⟨-, -, hvalues, houtside, hreads, -, hagain⟩ := hfaithful 0 numberedSlots 6 hrun
  exact ⟨by decide, hrun, hvalues 1 (by decide) 2 (by decide), rfl, houtside 0 3 (by decide),
    (hreads 2 0).2.2.2 rfl, hagain⟩

end Grid

end RelinCeremony
