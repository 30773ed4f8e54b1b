import RelinCeremony.Lockstep
import RelinCeremony.Proofs.Gives

namespace RelinCeremony
namespace Lockstep

/-!
# What the walks in lockstep compute

An update gives a list if its function gives a value at every place that both
lists reach.  At such a place stands the value of the function, and beyond the
operands the output is as it was.  A conversion is an update that has to reach
every operand.
-/

variable {α β : Type} {f : α → β → Checked α}

/-- An update gives a list if each place that it reaches gives a value. -/
theorem gives_update {outs : List α} {operands : List β}
    (h : ∀ i (ho : i < outs.length) (hp : i < operands.length),
      Gives (f outs[i] operands[i]) fun _ => True) :
    Gives (update f outs operands) fun _ => True := by
  induction outs generalizing operands with
  | nil => exact ⟨[], rfl, trivial⟩
  | cons out outs ih =>
      cases operands with
      | nil => exact ⟨out :: outs, rfl, trivial⟩
      | cons operand operands =>
          have hhead := h 0 (by simp) (by simp)
          have htail := ih fun i ho hp => h (i + 1) (by simpa using ho) (by simpa using hp)
          refine hhead.bind fun a _ => ?_
          exact htail.bind fun rest _ => ⟨a :: rest, rfl, trivial⟩

/-- At a place that both lists reach stands the value of the function. -/
theorem getElem_update {outs result : List α} {operands : List β}
    (h : update f outs operands = .ok result) {i : Nat} (ho : i < outs.length)
    (hp : i < operands.length) (hr : i < result.length) :
    f outs[i] operands[i] = .ok result[i] := by
  -- The walk is over the outputs; the operands may end first.
  induction outs generalizing operands result i with
  | nil => simp at ho
  | cons out outs ih =>
      cases operands with
      | nil => simp at hp
      | cons operand operands =>
          simp only [update, bind_eq_ok_iff] at h
          obtain ⟨a, ha, rest, hrest, hresult⟩ := h
          cases hresult
          cases i with
          | zero => exact ha
          | succ i =>
              exact ih hrest (by simpa using ho) (by simpa using hp) (by simpa using hr)

/-- Beyond the operands an update changes nothing. -/
theorem getElem?_update_of_le {outs result : List α} {operands : List β}
    (h : update f outs operands = .ok result) {i : Nat} (hi : operands.length ≤ i) :
    result[i]? = outs[i]? := by
  induction outs generalizing operands result i with
  | nil =>
      cases h
      rfl
  | cons out outs ih =>
      cases operands with
      | nil =>
          cases h
          rfl
      | cons operand operands =>
          simp only [update, bind_eq_ok_iff] at h
          obtain ⟨a, ha, rest, hrest, hresult⟩ := h
          cases hresult
          cases i with
          | zero => simp at hi
          | succ i => simpa using ih hrest (by simpa using hi)

/-- Operands can be converted before the walk or at each place. -/
theorem update_map {γ : Type} {f : α → γ → Checked α} (g : β → γ) (outs : List α)
    (operands : List β) :
    update f outs (operands.map g) = update (fun o p => f o (g p)) outs operands := by
  induction outs generalizing operands with
  | nil => rfl
  | cons out outs ih =>
      cases operands with
      | nil => rfl
      | cons operand operands => simp only [List.map_cons, update, ih]

theorem getElem?_update {outs result : List α} {operands : List β} {i : Nat} {o : α} {p : β}
    (h : update f outs operands = .ok result) (ho : outs[i]? = some o)
    (hp : operands[i]? = some p) : ∃ a, f o p = .ok a ∧ result[i]? = some a := by
  obtain ⟨hio, rfl⟩ := List.getElem?_eq_some_iff.1 ho
  obtain ⟨hip, rfl⟩ := List.getElem?_eq_some_iff.1 hp
  have hir : i < result.length := by
    rw [update_length h]
    exact hio
  exact ⟨result[i], getElem_update h hio hip hir, List.getElem?_eq_getElem hir⟩

/-- An update gives a list exactly if each place that it reaches gives a value. -/
theorem exists_update_iff {outs : List α} {operands : List β} :
    (∃ result, update f outs operands = .ok result) ↔
      ∀ (i : Nat) o p, outs[i]? = some o → operands[i]? = some p → ∃ a, f o p = .ok a := by
  constructor
  · rintro ⟨result, h⟩ i o p ho hp
    obtain ⟨a, ha, _⟩ := getElem?_update h ho hp
    exact ⟨a, ha⟩
  · intro h
    have hupdate : Gives (update f outs operands) fun _ => True := gives_update fun i ho hp => by
      obtain ⟨a, ha⟩ := h i _ _ (List.getElem?_eq_getElem ho) (List.getElem?_eq_getElem hp)
      exact ⟨a, ha, trivial⟩
    obtain ⟨result, hresult, _⟩ := hupdate
    exact ⟨result, hresult⟩

/-- An update of a list by as many operands gives at each place a value with the
property of that place. -/
theorem gives_update_of_length_eq {P : Nat → α → Prop} {outs : List α} {operands : List β}
    (hlength : operands.length = outs.length)
    (h : ∀ i (ho : i < outs.length) (hp : i < operands.length),
      Gives (f outs[i] operands[i]) (P i)) :
    Gives (update f outs operands) fun result =>
      result.length = outs.length ∧ ∀ i (hi : i < result.length), P i result[i] := by
  obtain ⟨result, hresult, _⟩ := gives_update fun i ho hp => (h i ho hp).imp fun _ _ => trivial
  refine ⟨result, hresult, update_length hresult, fun i hi => ?_⟩
  have ho : i < outs.length := by
    rw [← update_length hresult]
    exact hi
  have hp : i < operands.length := by
    rw [hlength]
    exact ho
  exact (h i ho hp).value_unique (getElem_update hresult ho hp hi)

theorem convert_eq_update {outs : List α} {operands : List β}
    (h : operands.length ≤ outs.length) : convert f outs operands = update f outs operands := by
  induction outs generalizing operands with
  | nil =>
      have hnil : operands = [] := List.length_eq_zero_iff.1 (by simpa using h)
      subst hnil
      rfl
  | cons out outs ih =>
      cases operands with
      | nil => rfl
      | cons operand operands =>
          have hrest : operands.length ≤ outs.length := by simpa using h
          simp only [convert, update, ih hrest]

theorem read_eq {outs : List α} {i : Nat} (hi : i < outs.length) :
    read outs i = .ok outs[i] := by
  simp [read, List.getElem?_eq_getElem hi]

theorem read_eq_ok_iff {outs : List α} {i : Nat} {a : α} :
    read outs i = .ok a ↔ outs[i]? = some a := by
  unfold read
  cases outs[i]? <;> simp

theorem mem_of_read {outs : List α} {i : Nat} {a : α} (h : read outs i = .ok a) : a ∈ outs :=
  List.mem_of_getElem? (read_eq_ok_iff.1 h)

theorem updateAt_eq {g : α → Checked α} {outs : List α} {i : Nat} (hi : i < outs.length) {a : α}
    (ha : g outs[i] = .ok a) : updateAt g i outs = .ok (outs.set i a) := by
  simp only [updateAt, List.getElem?_eq_getElem hi, ha]
  rfl

theorem updateAt_eq_ok_iff {g : α → Checked α} {outs result : List α} {i : Nat} :
    updateAt g i outs = .ok result ↔
      ∃ out a, outs[i]? = some out ∧ g out = .ok a ∧ outs.set i a = result := by
  unfold updateAt
  cases houts : outs[i]? with
  | none => simp
  | some out =>
      simp only [bind_eq_ok_iff, Option.some_inj, exists_and_left, exists_eq_left']
      exact exists_congr fun a => and_congr_right fun _ => ⟨Except.ok.inj, congrArg Except.ok⟩

end Lockstep
end RelinCeremony
