import Mathlib.Data.List.Forall2
import RelinCeremony.Fault

namespace RelinCeremony

/-!
# Computations that give a value

`Gives x P` says that the computation `x` gives a value and that the value has
the property `P`.  A statement of this form excludes faults and refusals, so it
is never satisfied for want of a value.

The rules follow the ways in which computations are put together: sequencing,
the lift of checked operations, and the monadic map and fold over lists.
-/

/-- The computation gives a value, and the value has the property. -/
def Gives {ε α : Type} (x : Except ε α) (P : α → Prop) : Prop :=
  ∃ a, x = .ok a ∧ P a

instance {ε α : Type} (x : Except ε α) (P : α → Prop) [DecidablePred P] :
    Decidable (Gives x P) :=
  match x with
  | .ok a => decidable_of_iff (P a) ⟨fun h => ⟨a, rfl, h⟩, fun ⟨_, hb, h⟩ => by cases hb; exact h⟩
  | .error _ => isFalse fun ⟨_, hb, _⟩ => by cases hb

namespace Gives

variable {ε α β : Type} {x : Except ε α} {P : α → Prop}

@[simp] theorem ok_iff {a : α} : Gives (.ok a : Except ε α) P ↔ P a :=
  ⟨fun ⟨_, hb, h⟩ => by cases hb; exact h, fun h => ⟨a, rfl, h⟩⟩

@[simp] theorem pure_iff {a : α} : Gives (pure a : Except ε α) P ↔ P a := ok_iff

theorem imp {Q : α → Prop} (h : Gives x P) (hpq : ∀ a, P a → Q a) : Gives x Q := by
  obtain ⟨a, ha, hp⟩ := h
  exact ⟨a, ha, hpq a hp⟩

/-- A sequence gives what its second part gives on the value of the first. -/
theorem bind {Q : β → Prop} {f : α → Except ε β} (h : Gives x P)
    (hf : ∀ a, P a → Gives (f a) Q) : Gives (x >>= f) Q := by
  obtain ⟨a, rfl, hp⟩ := h
  exact hf a hp

/-- A sequence that gives a value gives one in its first part. -/
theorem of_bind {Q : β → Prop} {f : α → Except ε β} (h : Gives (x >>= f) Q) :
    Gives x fun a => Gives (f a) Q := by
  cases x with
  | ok a => exact ⟨a, rfl, h⟩
  | error fault =>
      obtain ⟨b, hb, _⟩ := h
      cases hb

/-- Two computations of which the first gives a value with the properties of the
second are not told apart by those properties. -/
theorem value_unique {a : α} (h : Gives x P) (ha : x = .ok a) : P a := by
  obtain ⟨b, hb, hp⟩ := h
  rw [ha] at hb
  cases hb
  exact hp

theorem lift {P : α → Prop} {x : Checked α} (h : Gives x P) :
    Gives (liftM x : Fallible ε α) P := by
  obtain ⟨a, rfl, hp⟩ := h
  exact ⟨a, rfl, hp⟩

end Gives

/-- The computation gives a value with the property, or fails in a way that is allowed. -/
def GivesUnless {ε α : Type} (allowed : ε → Prop) (x : Except ε α) (P : α → Prop) : Prop :=
  match x with
  | .ok a => P a
  | .error failure => allowed failure

namespace GivesUnless

variable {ε α β : Type} {allowed : ε → Prop} {x : Except ε α} {P : α → Prop}

theorem of_gives (h : Gives x P) : GivesUnless allowed x P := by
  obtain ⟨a, rfl, hp⟩ := h
  exact hp

/-- Without an allowed failure there is a value. -/
theorem gives (h : GivesUnless (fun _ => False) x P) : Gives x P := by
  cases x with
  | ok a => exact ⟨a, rfl, h⟩
  | error failure => exact h.elim

theorem imp {Q : α → Prop} (h : GivesUnless allowed x P) (hpq : ∀ a, P a → Q a) :
    GivesUnless allowed x Q := by
  cases x with
  | ok a => exact hpq a h
  | error failure => exact h

theorem bind {Q : β → Prop} {f : α → Except ε β} (h : GivesUnless allowed x P)
    (hf : ∀ a, P a → GivesUnless allowed (f a) Q) : GivesUnless allowed (x >>= f) Q := by
  cases x with
  | ok a => exact hf a h
  | error failure => exact h

/-- A sequence has to be looked at only if its first part gives a value. -/
theorem bind_of_ok {Q : β → Prop} {f : α → Except ε β} (h : GivesUnless allowed x P)
    (hf : ∀ a, x = .ok a → P a → GivesUnless allowed (x >>= f) Q) :
    GivesUnless allowed (x >>= f) Q := by
  cases x with
  | ok a => exact hf a rfl h
  | error failure => exact h

end GivesUnless

/-- The failure is an allowed fault, and not a refusal. -/
def Failure.IsFault {ε : Type} (allowed : Fault → Prop) : Failure ε → Prop
  | .fault f => allowed f
  | .error _ => False

theorem GivesUnless.lift {ε α : Type} {allowed : Fault → Prop} {x : Checked α} {P : α → Prop}
    (h : GivesUnless allowed x P) :
    GivesUnless (Failure.IsFault allowed) (liftM x : Fallible ε α) P := by
  cases x with
  | ok a => exact h
  | error fault => exact h

/-- The failure is a refusal, and not a fault. -/
def Failure.IsRefusal {ε : Type} : Failure ε → Prop
  | .fault _ => False
  | .error _ => True

/-- A computation that gives a value or refuses does not fault. -/
theorem GivesUnless.ne_fault {ε α : Type} {x : Fallible ε α} {P : α → Prop}
    (h : GivesUnless Failure.IsRefusal x P) (fault : Fault) : x ≠ .error (.fault fault) := by
  rintro rfl
  exact h

theorem GivesUnless.of_ne_fault {ε α : Type} {x : Fallible ε α}
    (h : ∀ fault, x ≠ .error (.fault fault)) :
    GivesUnless Failure.IsRefusal x fun _ => True := by
  cases x with
  | ok a => trivial
  | error failure =>
      cases failure with
      | fault fault => exact h fault rfl
      | error reason => trivial

theorem givesUnless_refuse {ε α : Type} {P : α → Prop} (reason : ε) :
    GivesUnless Failure.IsRefusal (Fallible.refuse reason : Fallible ε α) P := trivial

theorem ok_bind {ε α β : Type} (a : α) (f : α → Except ε β) :
    ((.ok a : Except ε α) >>= f) = f a := rfl

theorem lift_ok {ε α : Type} (a : α) :
    (liftM (.ok a : Checked α) : Fallible ε α) = .ok a := rfl

theorem run_lift_ok {ε σ α : Type} (a : α) (s : σ) :
    (liftM (.ok a : Except ε α) : StateT σ (Except ε) α).run s = .ok (a, s) := rfl

theorem bind_eq_ok_iff {ε α β : Type} {x : Except ε α} {f : α → Except ε β} {b : β} :
    (x >>= f) = .ok b ↔ ∃ a, x = .ok a ∧ f a = .ok b := by
  cases x with
  | ok a => exact ⟨fun h => ⟨a, rfl, h⟩, fun ⟨_, ha, h⟩ => by cases ha; exact h⟩
  | error fault =>
      constructor
      · intro h
        cases h
      · rintro ⟨_, ha, _⟩
        cases ha

/-- What is done with a value in the end does not matter for a failure. -/
theorem bind_pure_eq_error_iff {ε α β : Type} {x : Except ε α} {f : α → β} {failure : ε} :
    (x >>= fun a => pure (f a)) = .error failure ↔ x = .error failure := by
  cases x with
  | ok a => simp [bind, Except.bind, pure, Except.pure]
  | error failure' => simp [bind, Except.bind]

/-- The second part of a sequence matters only on the value of the first. -/
theorem bind_congr_ok {ε α β : Type} {x : Except ε α} {f g : α → Except ε β}
    (h : ∀ a, x = .ok a → f a = g a) : (x >>= f) = x >>= g := by
  cases x with
  | ok a => exact h a rfl
  | error failure => rfl

theorem require_eq_ok_iff {condition : Prop} [Decidable condition] {fault : Fault} :
    require condition fault = .ok () ↔ condition := by
  unfold require
  split <;> simp_all

theorem lift_eq_ok_iff {ε α : Type} {x : Checked α} {a : α} :
    (liftM x : Fallible ε α) = .ok a ↔ x = .ok a := by
  cases x with
  | ok b => exact ⟨fun h => by cases h; rfl, fun h => by cases h; rfl⟩
  | error fault =>
      constructor
      · intro h
        cases h
      · intro h
        cases h

/-- Checked operations that give the same values can stand for each other, as far as values go. -/
theorem lift_bind_eq_ok_iff {ε α β : Type} {x y : Checked α} (h : ∀ a, x = .ok a ↔ y = .ok a)
    {f : α → Fallible ε β} {b : β} :
    ((liftM x : Fallible ε α) >>= f) = .ok b ↔ ((liftM y : Fallible ε α) >>= f) = .ok b := by
  simp only [bind_eq_ok_iff, lift_eq_ok_iff, h]

/-! ## Lists of computations -/

section Lists

variable {ε α β : Type}

/-- A monadic map gives the list of the values of its parts. -/
theorem mapM_eq_ok_iff {f : α → Except ε β} {xs : List α} {ys : List β} :
    xs.mapM f = .ok ys ↔ List.Forall₂ (fun x y => f x = .ok y) xs ys := by
  -- The values of the parts are those of the list, in order.
  induction xs generalizing ys with
  | nil =>
      simp only [List.mapM_nil, List.forall₂_nil_left_iff]
      exact ⟨fun h => by cases h; rfl, fun h => by rw [h]; rfl⟩
  | cons x xs ih =>
      simp only [List.mapM_cons, bind_eq_ok_iff, List.forall₂_cons_left_iff, ih]
      constructor
      · rintro ⟨y, hy, zs, hzs, h⟩
        cases h
        exact ⟨y, zs, hy, hzs, rfl⟩
      · rintro ⟨y, zs, hy, hzs, rfl⟩
        exact ⟨y, hy, zs, hzs, rfl⟩

theorem mapM_eq_ok_map {f : α → Except ε β} {g : α → β} {xs : List α}
    (h : ∀ x ∈ xs, f x = .ok (g x)) : xs.mapM f = .ok (xs.map g) := by
  rw [mapM_eq_ok_iff, List.forall₂_map_right_iff, List.forall₂_same]
  exact h

/-- A monadic map whose parts are known by their places. -/
theorem mapM_eq_ok_iff_getElem {f : α → Except ε β} (result : Nat → Except ε β) {xs : List α}
    {ys : List β} (h : ∀ n (hn : n < xs.length), f xs[n] = result n) :
    xs.mapM f = .ok ys ↔
      ys.length = xs.length ∧ ∀ n (hn : n < ys.length), result n = .ok ys[n] := by
  rw [mapM_eq_ok_iff, List.forall₂_iff_get]
  constructor
  · rintro ⟨hlength, hparts⟩
    exact ⟨hlength.symm, fun n hn => by rw [← h n (by omega)]; exact hparts n (by omega) hn⟩
  · rintro ⟨hlength, hparts⟩
    exact ⟨hlength.symm, fun n hn hn' => by
      rw [List.get_eq_getElem, h n hn]
      exact hparts n hn'⟩

theorem givesUnless_mapM {allowed : ε → Prop} {f : α → Except ε β} {P : α → β → Prop}
    {xs : List α} (h : ∀ x ∈ xs, GivesUnless allowed (f x) (P x)) :
    GivesUnless allowed (xs.mapM f) fun ys => List.Forall₂ P xs ys := by
  induction xs with
  | nil => exact List.Forall₂.nil
  | cons x xs ih =>
      rw [List.mapM_cons]
      refine (h x (by simp)).bind fun y hy => ?_
      refine (ih fun z hz => h z (by simp [hz])).bind fun ys hys => ?_
      exact List.Forall₂.cons hy hys

theorem gives_mapM {f : α → Except ε β} {P : α → β → Prop} {xs : List α}
    (h : ∀ x ∈ xs, Gives (f x) (P x)) :
    Gives (xs.mapM f) fun ys => List.Forall₂ P xs ys :=
  (givesUnless_mapM fun x hx => .of_gives (h x hx)).gives

/-- A monadic map over a list, described place by place. -/
theorem gives_mapM_getElem {f : α → Except ε β} {P : Nat → β → Prop} {xs : List α}
    (h : ∀ n (hn : n < xs.length), Gives (f xs[n]) (P n)) :
    Gives (xs.mapM f) fun ys => ys.length = xs.length ∧ ∀ n (hn : n < ys.length), P n ys[n] := by
  have hmap : Gives (xs.mapM f) fun ys => List.Forall₂ (fun _ _ => True) xs ys := by
    refine gives_mapM fun x hx => ?_
    obtain ⟨n, hn, rfl⟩ := List.getElem_of_mem hx
    exact (h n hn).imp fun _ _ => trivial
  obtain ⟨ys, hys, _⟩ := hmap
  have hforall := mapM_eq_ok_iff.1 hys
  refine ⟨ys, hys, hforall.length_eq.symm, fun n hn => ?_⟩
  have hnx : n < xs.length := Nat.lt_of_lt_of_eq hn hforall.length_eq.symm
  exact (h n hnx).value_unique (hforall.get hnx hn)

/-- A monadic fold keeps an invariant that each of its steps keeps.  The invariant
speaks about the elements folded so far, in order. -/
theorem gives_foldlM {f : β → α → Except ε β} {P : List α → β → Prop} (xs : List α) {b : β}
    (hstart : P [] b)
    (hstep : ∀ done x b, x ∈ xs → P done b → Gives (f b x) (P (done ++ [x]))) :
    Gives (xs.foldlM f b) (P xs) := by
  -- The induction is on the rest of the list; what is done already is generalised.
  suffices hrest : ∀ (rest done : List α) (b : β), rest ⊆ xs → P done b →
      Gives (rest.foldlM f b) (P (done ++ rest)) by
    simpa using hrest xs [] b (fun _ hx => hx) hstart
  intro rest
  induction rest with
  | nil =>
      intro done b _ hb
      simpa using hb
  | cons x rest ih =>
      intro done b hsub hb
      rw [List.foldlM_cons]
      refine (hstep done x b (hsub (by simp)) hb).bind fun c hc => ?_
      have hnext := ih (done ++ [x]) c (fun y hy => hsub (by simp [hy])) hc
      simpa using hnext

end Lists

end RelinCeremony
