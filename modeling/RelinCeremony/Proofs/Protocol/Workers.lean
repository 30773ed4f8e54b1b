import Mathlib.Data.List.Basic
import Mathlib.Logic.Function.Basic
import RelinCeremony.Proofs.Lockstep
import RelinCeremony.Proofs.Ring.Values

namespace RelinCeremony
namespace Protocol

/-!
# Slots processed by workers

The slots of a share are processed one at a time, in any order and by any number of workers.
Each worker has a scratch element that it keeps from slot to slot, with whatever the last slot
left in it.  A `WorkPlan` says which worker takes which slot, in the order of time.

The work on a slot overwrites if neither the scratch element nor the old slot matters for what
it gives.  Then the plan does not matter either: `SlotWork.run_eq_ok_iff` describes the slots at
the end without it.
-/

open RelinCeremony.Ring (Element NegacyclicRing)

/-- A slot and the worker that takes it. -/
structure Task where
  worker : Nat
  slot : Nat
deriving DecidableEq

/-- How the slots of one call are processed, and what the scratch elements hold before. -/
structure WorkPlan where
  tasks : List Task
  /-- The scratch element of each worker. -/
  scratch : Nat → Element
  /-- The scratch element that is filled once for all workers of the call. -/
  common : Element

/-- Every slot is taken once, and the scratch elements have the dimensions of the ring. -/
structure WorkPlan.Admissible (plan : WorkPlan) (ring : NegacyclicRing) (slots : Nat) : Prop where
  tasks : (plan.tasks.map Task.slot).Perm (List.range slots)
  scratch : ∀ worker, ring.Fits (plan.scratch worker)
  common : ring.Fits plan.common

/-- The slots and the scratch elements while the workers are at it. -/
structure Progress (α : Type) where
  slots : List α
  scratch : Nat → Element

/-- The work on the slot with a number, from the scratch element of the worker and the old slot:
it gives the new slot and what is left in the scratch element. -/
abbrev SlotWork (α : Type) : Type := Nat → Element → α → Checked (α × Element)

namespace SlotWork

variable {α : Type}

/-- A worker takes a slot. -/
def step (work : SlotWork α) (now : Progress α) (task : Task) : Checked (Progress α) := do
  let old ← Lockstep.read now.slots task.slot
  let (slot, left) ← work task.slot (now.scratch task.worker) old
  return ⟨now.slots.set task.slot slot, Function.update now.scratch task.worker left⟩

/-- The slots after all tasks of a plan. -/
def run (work : SlotWork α) (plan : WorkPlan) (slots : List α) : Checked (List α) := do
  let done ← plan.tasks.foldlM work.step ⟨slots, plan.scratch⟩
  return done.slots

/-- Work that makes no use of the scratch element. -/
def plain (slot : Nat → α → Checked α) : SlotWork α := fun n scratch old => do
  return (← slot n old, scratch)

/-- The work gives in each slot what `result` says, whatever the scratch element and the old slot
hold, as long as the one fits the ring and the other has the property.  What is left in the
scratch element fits as well. -/
structure Overwrites (work : SlotWork α) (ring : NegacyclicRing) (P : α → Prop)
    (result : Nat → Checked α) : Prop where
  slot : ∀ n scratch old, ring.Fits scratch → P old → ∀ x,
    (∃ left, work n scratch old = .ok (x, left)) ↔ result n = .ok x
  scratch : ∀ n scratch old x left, ring.Fits scratch → P old →
    work n scratch old = .ok (x, left) → ring.Fits left

theorem overwrites_plain (ring : NegacyclicRing) {P : α → Prop} (slot : Nat → α → Checked α)
    {result : Nat → Checked α} (h : ∀ n old, P old → slot n old = result n) :
    (plain slot).Overwrites ring P result where
  slot n scratch old _ hold x := by
    rw [← h n old hold]
    simp only [plain, bind_eq_ok_iff]
    constructor
    · rintro ⟨left, y, hy, hx⟩
      cases hx
      exact hy
    · intro hx
      exact ⟨scratch, x, hx, rfl⟩
  scratch n scratch old x left hscratch _ hx := by
    obtain ⟨y, _, hx⟩ := bind_eq_ok_iff.1 hx
    cases hx
    exact hscratch

/-- The slots of the tasks hold their results, and the other slots are the old ones. -/
def HoldResults (result : Nat → Checked α) (tasks : List Task) (old slots : List α) : Prop :=
  (∀ task ∈ tasks, ∃ x, slots[task.slot]? = some x ∧ result task.slot = .ok x) ∧
    ∀ n ∉ tasks.map Task.slot, slots[n]? = old[n]?

theorem holdResults_nil_iff {result : Nat → Checked α} {old slots : List α} :
    HoldResults result [] old slots ↔ slots = old := by
  constructor
  · rintro ⟨_, hrest⟩
    exact List.ext_getElem? fun n => hrest n (by simp)
  · rintro rfl
    exact ⟨by simp, fun _ _ => rfl⟩

theorem holdResults_cons_iff {result : Nat → Checked α} {task : Task} {tasks : List Task}
    {old slots : List α} (hfresh : task.slot ∉ tasks.map Task.slot)
    (hlt : task.slot < old.length) :
    HoldResults result (task :: tasks) old slots ↔
      ∃ x, result task.slot = .ok x ∧ HoldResults result tasks (old.set task.slot x) slots := by
  constructor
  · rintro ⟨hresults, hrest⟩
    obtain ⟨x, hslot, hx⟩ := hresults task List.mem_cons_self
    refine ⟨x, hx, fun other hmem => hresults other (List.mem_cons_of_mem task hmem),
      fun n hn => ?_⟩
    by_cases hne : n = task.slot
    · rw [hne, hslot, List.getElem?_set_self hlt]
    · rw [List.getElem?_set_ne (Ne.symm hne)]
      exact hrest n (by simp [hne, hn])
  · rintro ⟨x, hx, hresults, hrest⟩
    have hslot : slots[task.slot]? = some x := by
      rw [hrest _ hfresh, List.getElem?_set_self hlt]
    constructor
    · intro other hmem
      rcases List.mem_cons.1 hmem with rfl | hmem
      · exact ⟨x, hslot, hx⟩
      · exact hresults other hmem
    · intro n hn
      rw [List.map_cons, List.mem_cons, not_or] at hn
      rw [hrest n hn.2, List.getElem?_set_ne (Ne.symm hn.1)]

/-- When all slots are taken, all of them hold their results. -/
theorem holdResults_iff_of_perm {result : Nat → Checked α} {tasks : List Task}
    {old slots : List α} (htasks : (tasks.map Task.slot).Perm (List.range old.length)) :
    HoldResults result tasks old slots ↔
      slots.length = old.length ∧ ∀ n (hn : n < slots.length), result n = .ok slots[n] := by
  have hmem : ∀ n, n ∈ tasks.map Task.slot ↔ n < old.length := fun n => by
    rw [htasks.mem_iff, List.mem_range]
  constructor
  · rintro ⟨hresults, hrest⟩
    have hresult : ∀ n < old.length, ∃ x, slots[n]? = some x ∧ result n = .ok x := by
      intro n hn
      obtain ⟨task, htask, rfl⟩ := List.mem_map.1 ((hmem n).2 hn)
      exact hresults task htask
    have hlength : slots.length = old.length := by
      apply Nat.le_antisymm
      · have hend := hrest old.length (by rw [hmem]; omega)
        rwa [List.getElem?_eq_none_iff.2 (Nat.le_refl _), List.getElem?_eq_none_iff] at hend
      · by_contra hlt
        obtain ⟨x, hx, _⟩ := hresult slots.length (by omega)
        exact absurd (List.getElem?_eq_some_iff.1 hx).1 (Nat.lt_irrefl _)
    refine ⟨hlength, fun n hn => ?_⟩
    obtain ⟨x, hx, hresult⟩ := hresult n (by omega)
    rw [hresult, (List.getElem?_eq_some_iff.1 hx).2]
  · rintro ⟨hlength, hresult⟩
    refine ⟨fun task htask => ?_, fun n hn => ?_⟩
    · have hlt : task.slot < slots.length := by
        rw [hlength, ← hmem]
        exact List.mem_map_of_mem htask
      exact ⟨_, List.getElem?_eq_getElem hlt, hresult _ hlt⟩
    · rw [hmem] at hn
      rw [List.getElem?_eq_none_iff.2 (by omega), List.getElem?_eq_none_iff.2 (by omega)]

section Run

variable {work : SlotWork α} {ring : NegacyclicRing} {P : α → Prop} {result : Nat → Checked α}
  {now next : Progress α} {task : Task}

theorem step_eq_ok_iff : work.step now task = .ok next ↔
    ∃ old, now.slots[task.slot]? = some old ∧ ∃ x left,
      work task.slot (now.scratch task.worker) old = .ok (x, left) ∧
        next = ⟨now.slots.set task.slot x, Function.update now.scratch task.worker left⟩ := by
  simp only [step, bind_eq_ok_iff, Lockstep.read_eq_ok_iff]
  constructor
  · rintro ⟨old, hold, ⟨x, left⟩, hwork, hnext⟩
    cases hnext
    exact ⟨old, hold, x, left, hwork, rfl⟩
  · rintro ⟨old, hold, x, left, hwork, rfl⟩
    exact ⟨old, hold, (x, left), hwork, rfl⟩

variable (hwork : work.Overwrites ring P result)
include hwork

/-- A step gives the result of its slot, leaves the other slots alone, and keeps the dimensions
of the scratch elements. -/
theorem Overwrites.of_step (hold : ∀ old, now.slots[task.slot]? = some old → P old)
    (hscratch : ∀ worker, ring.Fits (now.scratch worker)) (h : work.step now task = .ok next) :
    ∃ x, result task.slot = .ok x ∧ next.slots = now.slots.set task.slot x ∧
      ∀ worker, ring.Fits (next.scratch worker) := by
  obtain ⟨old, hread, x, left, hx, rfl⟩ := step_eq_ok_iff.1 h
  have hP := hold old hread
  have hfits := hwork.scratch _ _ _ _ _ (hscratch task.worker) hP hx
  refine ⟨x, (hwork.slot _ _ _ (hscratch task.worker) hP x).1 ⟨left, hx⟩, rfl, fun worker => ?_⟩
  by_cases hworker : worker = task.worker
  · subst hworker
    simpa using hfits
  · simpa [hworker] using hscratch worker

theorem Overwrites.exists_step {old x : α} (hold : now.slots[task.slot]? = some old) (hP : P old)
    (hscratch : ∀ worker, ring.Fits (now.scratch worker)) (hx : result task.slot = .ok x) :
    ∃ next, work.step now task = .ok next := by
  obtain ⟨left, hleft⟩ := (hwork.slot _ _ _ (hscratch task.worker) hP x).2 hx
  exact ⟨_, step_eq_ok_iff.2 ⟨old, hold, x, left, hleft, rfl⟩⟩

omit hwork in
/-- Tasks on other slots than the one that is set read what they did before. -/
theorem exists_read_set {n : Nat} {old : List α} {tasks : List Task}
    (hfresh : n ∉ tasks.map Task.slot)
    (htasks : ∀ task ∈ tasks, ∃ y, old[task.slot]? = some y ∧ P y) (x : α) :
    ∀ task ∈ tasks, ∃ y, (old.set n x)[task.slot]? = some y ∧ P y := by
  intro task hmem
  have hne : n ≠ task.slot := fun heq => hfresh (heq ▸ List.mem_map_of_mem hmem)
  rw [List.getElem?_set_ne hne]
  exact htasks task hmem

/-- Tasks on different slots give the results of their slots and leave the other slots alone. -/
theorem Overwrites.foldlM_step_iff (now : Progress α) {tasks : List Task}
    (hnodup : (tasks.map Task.slot).Nodup)
    (htasks : ∀ task ∈ tasks, ∃ old, now.slots[task.slot]? = some old ∧ P old)
    (hscratch : ∀ worker, ring.Fits (now.scratch worker)) {slots : List α} :
    (∃ done, tasks.foldlM work.step now = .ok done ∧ done.slots = slots) ↔
      HoldResults result tasks now.slots slots := by
  -- What the workers have done so far is generalised.
  induction tasks generalizing now with
  | nil =>
      rw [holdResults_nil_iff]
      constructor
      · rintro ⟨done, hdone, rfl⟩
        cases hdone
        rfl
      · intro hslots
        exact ⟨now, rfl, hslots.symm⟩
  | cons task tasks ih =>
      obtain ⟨hfresh, hnodup⟩ := List.nodup_cons.1 hnodup
      obtain ⟨old, hold, hP⟩ := htasks task List.mem_cons_self
      have hread : ∀ y, now.slots[task.slot]? = some y → P y := by
        intro y hy
        rw [hold] at hy
        cases hy
        exact hP
      have hleft := exists_read_set (P := P) hfresh fun other hmem =>
        htasks other (List.mem_cons_of_mem task hmem)
      rw [holdResults_cons_iff hfresh (List.getElem?_eq_some_iff.1 hold).1, List.foldlM_cons]
      constructor
      · rintro ⟨done, hdone, hslots⟩
        obtain ⟨next, hnext, hdone⟩ := bind_eq_ok_iff.1 hdone
        obtain ⟨x, hx, hset, hfits⟩ := hwork.of_step hread hscratch hnext
        refine ⟨x, hx, ?_⟩
        rw [← hset]
        exact (ih next hnodup (by rw [hset]; exact hleft x) hfits).1 ⟨done, hdone, hslots⟩
      · rintro ⟨x, hx, hrest⟩
        obtain ⟨next, hnext⟩ := hwork.exists_step hold hP hscratch hx
        obtain ⟨y, hy, hset, hfits⟩ := hwork.of_step hread hscratch hnext
        rw [hx] at hy
        cases hy
        rw [← hset] at hrest
        obtain ⟨done, hdone, hslots⟩ :=
          (ih next hnodup (by rw [hset]; exact hleft x) hfits).2 hrest
        exact ⟨done, bind_eq_ok_iff.2 ⟨next, hnext, hdone⟩, hslots⟩

/-- The slots at the end are the results, whatever the plan. -/
theorem Overwrites.run_eq_ok_iff {plan : WorkPlan} {old slots : List α}
    (hplan : plan.Admissible ring old.length) (hold : ∀ x ∈ old, P x) :
    work.run plan old = .ok slots ↔
      slots.length = old.length ∧ ∀ n (hn : n < slots.length), result n = .ok slots[n] := by
  have hnodup : (plan.tasks.map Task.slot).Nodup := hplan.tasks.nodup_iff.2 List.nodup_range
  have htasks : ∀ task ∈ plan.tasks, ∃ x, old[task.slot]? = some x ∧ P x := by
    intro task htask
    have hlt : task.slot < old.length := by
      rw [← List.mem_range, ← hplan.tasks.mem_iff]
      exact List.mem_map_of_mem htask
    exact ⟨_, List.getElem?_eq_getElem hlt, hold _ (List.getElem_mem hlt)⟩
  rw [← holdResults_iff_of_perm hplan.tasks,
    ← hwork.foldlM_step_iff ⟨old, plan.scratch⟩ hnodup htasks hplan.scratch, run,
    bind_eq_ok_iff]
  constructor
  · rintro ⟨done, hdone, hslots⟩
    cases hslots
    exact ⟨done, hdone, rfl⟩
  · rintro ⟨done, hdone, rfl⟩
    exact ⟨done, hdone, rfl⟩

/-- A plan gives the same as a map over a list whose places give the results. -/
theorem Overwrites.run_eq_ok_iff_mapM {β : Type} {plan : WorkPlan} {old slots : List α}
    {xs : List β} {f : β → Checked α} (hplan : plan.Admissible ring old.length)
    (hold : ∀ x ∈ old, P x) (hlength : xs.length = old.length)
    (hslot : ∀ n (hn : n < xs.length), f xs[n] = result n) :
    work.run plan old = .ok slots ↔ xs.mapM f = .ok slots := by
  rw [hwork.run_eq_ok_iff hplan hold, mapM_eq_ok_iff_getElem result hslot, hlength]

end Run

end SlotWork
end Protocol
end RelinCeremony
