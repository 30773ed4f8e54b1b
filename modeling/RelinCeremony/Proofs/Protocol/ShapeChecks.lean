import Mathlib.Logic.Function.Iterate
import RelinCeremony.Proofs.Protocol.InPlace

namespace RelinCeremony
namespace Protocol

/-!
# Checks of shapes

The functions of the engine that write over a container check the shapes of all containers
before they touch any.  So they refuse for one reason only, the first shape that is not the one
of the engine, and leave the state as it was.  The sum of a list of shares checks a share when
it comes to it.

A round draws as many seeds as there are slots; nothing else moves its generator.
-/

open RelinCeremony.Ring (Element NegacyclicRing)

namespace InPlace

variable {σ τ α β : Type} {x : InPlace σ α}

theorem run_bind_eq_ok {k : α → InPlace σ β} {s t : σ} {b : β} (h : (x >>= k) s = .ok b t) :
    ∃ a s', x s = .ok a s' ∧ k a s' = .ok b t := by
  cases hx : x s with
  | ok a s' => exact ⟨a, s', rfl, (run_bind_ok hx).symm.trans h⟩
  | error failure s' => cases (run_bind_error hx).symm.trans h

theorem onPart_eq_ok {x : InPlace τ α} {read : σ → τ} {write : τ → σ → σ} {s t : σ} {a : α}
    (h : onPart read write x s = .ok a t) : ∃ part, x (read s) = .ok a part ∧ t = write part s := by
  unfold onPart at h
  cases hrun : x (read s) with
  | ok b part =>
      rw [hrun] at h
      cases h
      exact ⟨part, rfl, rfl⟩
  | error failure part =>
      rw [hrun] at h
      cases h

/-! ## Computations that cannot refuse -/

/-- The computation gives a value or faults. -/
def NeverRefuses (x : InPlace σ α) : Prop := ∀ s err t, x s ≠ .error (.error err) t

theorem NeverRefuses.bind {k : α → InPlace σ β} (hx : NeverRefuses x)
    (hk : ∀ a, NeverRefuses (k a)) : NeverRefuses (x >>= k) := by
  intro s err t h
  cases hrun : x s with
  | ok a s' => exact hk a s' err t ((run_bind_ok hrun).symm.trans h)
  | error failure s' =>
      have hfailure := (run_bind_error (k := k) hrun).symm.trans h
      cases hfailure
      exact hx s err t hrun

theorem neverRefuses_modify (f : σ → σ) : NeverRefuses (modify f : InPlace σ Unit) := by
  intro s err t h
  cases h

theorem neverRefuses_lift (x : Checked α) : NeverRefuses (liftM x : InPlace σ α) := by
  intro s err t h
  cases x <;> cases h

theorem NeverRefuses.onPart {x : InPlace τ α} (hx : NeverRefuses x) (read : σ → τ)
    (write : τ → σ → σ) : NeverRefuses (onPart read write x) := by
  intro s err t h
  unfold InPlace.onPart at h
  cases hrun : x (read s) with
  | ok a t' =>
      rw [hrun] at h
      cases h
  | error failure t' =>
      rw [hrun] at h
      cases h
      exact hx _ _ _ hrun

theorem neverRefuses_writeEach (f : α → β → Checked α) (operands : List β) :
    NeverRefuses (writeEach f operands) := by
  intro olds
  induction olds generalizing operands with
  | nil => intro err t h; cases operands <;> cases h
  | cons old olds ih =>
      intro err t h
      cases operands with
      | nil => cases h
      | cons operand operands =>
          rw [writeEach] at h
          cases hslot : f old operand with
          | error fault =>
              rw [hslot] at h
              cases h
          | ok slot =>
              rw [hslot] at h
              cases hrest : writeEach f operands olds with
              | ok _ rest =>
                  simp only [hrest] at h
                  cases h
              | error failure rest =>
                  simp only [hrest] at h
                  cases h
                  exact ih operands _ _ hrest

theorem neverRefuses_writeSlots (f : α → β → Checked α) (operands : List β) :
    NeverRefuses (writeSlots f operands) :=
  (neverRefuses_writeEach f operands).onPart _ _

theorem neverRefuses_fillSeeds (n : Nat) : NeverRefuses (fillSeeds n) := by
  intro g err t h
  obtain ⟨r, hr, _⟩ := Engine.gives_times_seed n g
  cases (fillSeeds_eq hr).symm.trans h

/-! ## Shapes -/

/-- The computation refuses exactly if one of the shapes is not the one of the engine.  It names
the first such shape and leaves the state as it was. -/
def ChecksShapes (e : Engine) (shapes : List Shape) (x : InPlace σ Unit) (s : σ) : Prop :=
  match shapes.find? fun shape => shape ≠ e.shape with
  | some found => x s = .error (.error (.shape e.shape found)) s
  | none => ∀ err t, x s ≠ .error (.error err) t

theorem NeverRefuses.checksShapes {x : InPlace σ Unit} (hx : NeverRefuses x) (e : Engine) (s : σ) :
    ChecksShapes e [] x s :=
  hx s

theorem ChecksShapes.requireShape {e : Engine} {shapes : List Shape} {grid : Grid α}
    {k : Unit → InPlace σ Unit} {s : σ} (h : ChecksShapes e shapes (k ()) s) :
    ChecksShapes e (grid.shape :: shapes) (liftM (e.requireShape grid) >>= k) s := by
  by_cases hshape : grid.shape = e.shape
  · have hrun : (liftM (e.requireShape grid) : InPlace σ Unit) s = .ok () s := by
      rw [Engine.requireShape_eq hshape]
      rfl
    unfold ChecksShapes at h ⊢
    rw [run_bind_ok hrun, List.find?_cons_of_neg (by simpa using hshape)]
    exact h
  · have hrun : (liftM (e.requireShape grid) : InPlace σ Unit) s =
        .error (.error (.shape e.shape grid.shape)) s := by
      rw [Engine.requireShape, if_neg hshape]
      rfl
    unfold ChecksShapes
    rw [List.find?_cons_of_pos (by simpa using hshape)]
    exact run_bind_error hrun

/-- The refusal that a list of shapes calls for. -/
def shapeError? (e : Engine) (shapes : List Shape) : Option Error :=
  (shapes.find? fun shape => shape ≠ e.shape).map (Error.shape e.shape)

theorem ChecksShapes.run_eq {e : Engine} {shapes : List Shape} {x : InPlace σ Unit} {s : σ}
    (h : ChecksShapes e shapes x s) {err : Error} (herr : shapeError? e shapes = some err) :
    x s = .error (.error err) s := by
  unfold ChecksShapes at h
  unfold shapeError? at herr
  split at h
  · rename_i found hfind
    rw [hfind] at herr
    cases herr
    exact h
  · rename_i hfind
    rw [hfind] at herr
    cases herr

theorem ChecksShapes.eq_of_run {e : Engine} {shapes : List Shape} {x : InPlace σ Unit} {s t : σ}
    (h : ChecksShapes e shapes x s) {err : Error} (hrun : x s = .error (.error err) t) :
    shapeError? e shapes = some err ∧ t = s := by
  unfold ChecksShapes at h
  unfold shapeError?
  split at h
  · rename_i found hfind
    cases h.symm.trans hrun
    rw [hfind]
    exact ⟨rfl, rfl⟩
  · exact absurd hrun (h err t)

theorem ChecksShapes.get {e : Engine} {shapes : List Shape} {k : σ → InPlace σ Unit} {s : σ}
    (h : ChecksShapes e shapes (k s) s) : ChecksShapes e shapes (MonadState.get >>= k) s := h

/-- Checks on a part of the state, if writing the part back unchanged changes nothing. -/
theorem ChecksShapes.onPart {e : Engine} {shapes : List Shape} {x : InPlace τ Unit}
    (read : σ → τ) {write : τ → σ → σ} {s : σ} (h : ChecksShapes e shapes x (read s))
    (hwrite : write (read s) s = s) : ChecksShapes e shapes (InPlace.onPart read write x) s := by
  unfold ChecksShapes InPlace.onPart at *
  split at h
  · rw [h]
    simp only [hwrite]
  · intro err t hrun
    split at hrun
    · cases hrun
    · rename_i hx
      cases hrun
      exact h _ _ hx

/-! ## Draws -/

/-- The generator after one seed. -/
def afterSeed (g : Random.Generator) : Random.Generator := g.nextSeed.2

/-- If the computation gives a value, it has drawn so many seeds. -/
def Draws (n : Nat) (x : InPlace (Frame τ) α) : Prop :=
  ∀ frame a frame', x frame = .ok a frame' → frame'.generator = afterSeed^[n] frame.generator

theorem Draws.bind {m n : Nat} {x : InPlace (Frame τ) α} {k : α → InPlace (Frame τ) β}
    (hx : Draws m x) (hk : ∀ a, Draws n (k a)) : Draws (n + m) (x >>= k) := by
  intro frame b frame' h
  obtain ⟨a, middle, hrun, hrest⟩ := run_bind_eq_ok h
  rw [hk a _ _ _ hrest, hx _ _ _ hrun, Function.iterate_add_apply]

/-- A part before that draws nothing does not count. -/
theorem Draws.after {n : Nat} {x : InPlace (Frame τ) α} {k : α → InPlace (Frame τ) β}
    (hx : Draws 0 x) (hk : ∀ a, Draws n (k a)) : Draws n (x >>= k) :=
  hx.bind hk

theorem Draws.before {n : Nat} {x : InPlace (Frame τ) α} {k : α → InPlace (Frame τ) β}
    (hx : Draws n x) (hk : ∀ a, Draws 0 (k a)) : Draws n (x >>= k) := by
  have hdraws := hx.bind hk
  rwa [Nat.zero_add] at hdraws

theorem draws_lift (x : Outcome α) : Draws 0 (liftM x : InPlace (Frame τ) α) := by
  intro frame a frame' h
  cases x <;> cases h
  rfl

theorem draws_liftChecked (x : Checked α) : Draws 0 (liftM x : InPlace (Frame τ) α) := by
  intro frame a frame' h
  cases x <;> cases h
  rfl

theorem draws_get : Draws 0 (get : InPlace (Frame τ) (Frame τ)) := by
  intro frame a frame' h
  cases h
  rfl

theorem draws_onOut (x : InPlace (Grid τ) α) : Draws 0 (Frame.onOut x) := by
  intro frame a frame' h
  unfold Frame.onOut onPart at h
  cases hrun : x frame.out <;> rw [hrun] at h <;> cases h
  rfl

theorem snd_of_times_seed {n : Nat} {g : Random.Generator}
    {r : List Random.Seed × Random.Generator}
    (h : (Random.Draw.times Random.Draw.seed n).run g = .ok r) : r.2 = afterSeed^[n] g := by
  induction n generalizing g r with
  | zero =>
      cases h
      rfl
  | succ n ih =>
      have hrun : ((Random.Draw.times Random.Draw.seed n).run (afterSeed g) >>= fun rest =>
          .ok (g.nextSeed.1 :: rest.1, rest.2)) = .ok r := h
      obtain ⟨rest, hrest, hr⟩ := bind_eq_ok_iff.1 hrun
      cases hr
      rw [Function.iterate_succ_apply, ← ih hrest]

end InPlace

/-! ## The functions of the engine -/

namespace Engine

open InPlace

variable {e : Engine}

theorem neverRefuses_fillSlotSeeds {α : Type} (e : Engine) :
    NeverRefuses (Frame.onGenerator e.fillSlotSeeds : InPlace (Frame α) (List Random.Seed)) :=
  ((neverRefuses_lift e.shape.size).bind neverRefuses_fillSeeds).onPart _ _

/-- The seeds of the slots are drawn from the generator, one for each. -/
theorem draws_fillSlotSeeds {α : Type} (e : Engine) :
    Draws (e.shape.moduli * e.shape.levels)
      (Frame.onGenerator e.fillSlotSeeds : InPlace (Frame α) (List Random.Seed)) := by
  intro frame seeds frame' h
  cases hseeds : e.drawSeeds.run frame.generator with
  | error fault =>
      rw [Frame.onGenerator, onPart, fillSlotSeeds_eq_error hseeds] at h
      cases h
  | ok r =>
      rw [Frame.onGenerator, onPart, fillSlotSeeds_eq hseeds] at h
      cases h
      exact snd_of_times_seed (times_of_drawSeeds hseeds)

theorem draws_roundOne (u s : Element) (a : CommonMatrix) :
    Draws (e.shape.moduli * e.shape.levels) (e.roundOneInPlace u s a) := by
  unfold roundOneInPlace
  refine (draws_lift _).after fun _ => draws_get.after fun _ => (draws_lift _).after fun _ => ?_
  exact (draws_fillSlotSeeds e).before fun seeds => draws_onOut _

theorem draws_roundTwo (h : RoundOneShare) (s : Element) (a : CommonMatrix) :
    Draws (e.shape.moduli * e.shape.levels) (e.roundTwoInPlace h s a) := by
  unfold roundTwoInPlace
  refine (draws_lift _).after fun _ => (draws_lift _).after fun _ => draws_get.after fun _ =>
    (draws_lift _).after fun _ => ?_
  exact (draws_fillSlotSeeds e).before fun seeds => draws_onOut _

theorem draws_roundThree (h : RoundTwoShare) (u s : Element) :
    Draws (e.shape.moduli * e.shape.levels) (e.roundThreeInPlace h u s) := by
  unfold roundThreeInPlace
  refine (draws_lift _).after fun _ => draws_get.after fun _ => (draws_lift _).after fun _ => ?_
  exact (draws_fillSlotSeeds e).before fun seeds =>
    (draws_liftChecked _).after fun delta => draws_onOut _

theorem checksShapes_roundOne (u s : Element) (a : CommonMatrix) (frame : Frame Element) :
    ChecksShapes e [a.shape, frame.out.shape] (e.roundOneInPlace u s a) frame := by
  unfold roundOneInPlace
  refine ChecksShapes.requireShape (ChecksShapes.requireShape (NeverRefuses.checksShapes ?_ _ _))
  refine (neverRefuses_fillSlotSeeds e).bind fun seeds => ?_
  exact (neverRefuses_writeSlots _ _).onPart _ _

theorem checksShapes_roundTwo (h : RoundOneShare) (s : Element) (a : CommonMatrix)
    (frame : Frame (Element × Element)) :
    ChecksShapes e [h.shape, a.shape, frame.out.shape] (e.roundTwoInPlace h s a) frame := by
  unfold roundTwoInPlace
  refine ChecksShapes.requireShape (ChecksShapes.requireShape (ChecksShapes.requireShape
    (NeverRefuses.checksShapes ?_ _ _)))
  refine (neverRefuses_fillSlotSeeds e).bind fun seeds => ?_
  exact (neverRefuses_writeSlots _ _).onPart _ _

theorem checksShapes_roundThree (h : RoundTwoShare) (u s : Element) (frame : Frame Element) :
    ChecksShapes e [h.shape, frame.out.shape] (e.roundThreeInPlace h u s) frame := by
  unfold roundThreeInPlace
  refine ChecksShapes.requireShape (ChecksShapes.requireShape (NeverRefuses.checksShapes ?_ _ _))
  refine (neverRefuses_fillSlotSeeds e).bind fun seeds => ?_
  refine (neverRefuses_lift _).bind fun delta => ?_
  exact (neverRefuses_writeSlots _ _).onPart _ _

section Sums

variable {α : Type} [Summand α]

theorem checksShapes_add (a b out : Grid α) :
    ChecksShapes e [a.shape, b.shape, out.shape] (e.addInPlace a b) out := by
  unfold addInPlace
  exact ChecksShapes.requireShape (ChecksShapes.requireShape (ChecksShapes.requireShape
    ((neverRefuses_writeSlots _ _).checksShapes _ _)))

theorem checksShapes_accumulate (total share : Grid α) :
    ChecksShapes e [total.shape, share.shape] (e.accumulateInPlace share) total := by
  unfold accumulateInPlace
  exact ChecksShapes.requireShape (ChecksShapes.requireShape
    ((neverRefuses_writeSlots _ _).checksShapes _ _))

/-! ### The sum of a list -/

/-- Shares of the shape of the engine are added or fault, and the sum keeps the shape. -/
theorem accumulate_cases {total share : Grid α} (htotal : total.shape = e.shape)
    (hshare : share.shape = e.shape) :
    (∃ sum, e.accumulate total share = .ok sum ∧ sum.shape = e.shape) ∨
      ∃ fault, e.accumulate total share = .error (.fault fault) := by
  unfold accumulate
  rw [requireShape_eq htotal, requireShape_eq hshare]
  simp only [ok_bind]
  cases (total.slots.zip share.slots).mapM fun p => Summand.addAssign e.ring p.2 p.1 with
  | ok slots => exact .inl ⟨_, rfl, htotal⟩
  | error fault => exact .inr ⟨fault, rfl⟩

theorem accumulate_refuses {total share : Grid α} (htotal : total.shape = e.shape)
    (hshare : share.shape ≠ e.shape) :
    e.accumulate total share = .error (.error (.shape e.shape share.shape)) := by
  unfold accumulate
  rw [requireShape_eq htotal, ok_bind, requireShape, if_neg hshare]
  rfl

/-- The first share of another shape, if the shares before it are added up without a fault. -/
theorem foldlM_accumulate_refuses {total : Grid α} (htotal : total.shape = e.shape)
    {shares : List (Grid α)} {found : Shape}
    (hfind : (shares.map Grid.shape).find? (fun shape => shape ≠ e.shape) = some found)
    (hadds : ∀ fault, (shares.takeWhile fun share => share.shape = e.shape).foldlM e.accumulate
      total ≠ .error (.fault fault)) :
    shares.foldlM e.accumulate total = .error (.error (.shape e.shape found)) := by
  induction shares generalizing total with
  | nil => cases hfind
  | cons share shares ih =>
      rw [List.foldlM_cons]
      by_cases hshare : share.shape = e.shape
      · rw [List.map_cons, List.find?_cons_of_neg (by simpa using hshare)] at hfind
        rw [List.takeWhile_cons_of_pos (by simpa using hshare)] at hadds
        simp only [List.foldlM_cons] at hadds
        rcases accumulate_cases htotal hshare with ⟨sum, hsum, hshape⟩ | ⟨fault, hfault⟩
        · rw [hsum, ok_bind] at hadds ⊢
          exact ih hshape hfind hadds
        · rw [hfault] at hadds
          exact absurd rfl (hadds fault)
      · rw [List.map_cons, List.find?_cons_of_pos (by simpa using hshare)] at hfind
        cases hfind
        rw [accumulate_refuses htotal hshare]
        rfl

theorem find?_of_foldlM_accumulate {total : Grid α} (htotal : total.shape = e.shape)
    {shares : List (Grid α)} {err : Error}
    (h : shares.foldlM e.accumulate total = .error (.error err)) :
    ∃ found, (shares.map Grid.shape).find? (fun shape => shape ≠ e.shape) = some found ∧
      err = .shape e.shape found := by
  induction shares generalizing total with
  | nil => cases h
  | cons share shares ih =>
      rw [List.foldlM_cons] at h
      by_cases hshare : share.shape = e.shape
      · rw [List.map_cons, List.find?_cons_of_neg (by simpa using hshare)]
        rcases accumulate_cases htotal hshare with ⟨sum, hsum, hshape⟩ | ⟨fault, hfault⟩
        · rw [hsum, ok_bind] at h
          exact ih hshape h
        · rw [hfault] at h
          cases h
      · rw [List.map_cons, List.find?_cons_of_pos (by simpa using hshare)]
        rw [accumulate_refuses htotal hshare] at h
        cases h
        exact ⟨_, rfl, rfl⟩

/-- The sum of a list names the first share of another shape, if the shares before it are added
up without a fault. -/
theorem sumShares_refuses {shares : List (Grid α)} {err : Error}
    (herr : shapeError? e (shares.map Grid.shape) = some err)
    (hadds : ∀ fault, e.sumShares (shares.takeWhile fun share => share.shape = e.shape) ≠
      .error (.fault fault)) :
    e.sumShares shares = .error (.error err) := by
  obtain ⟨found, hfind, rfl⟩ := Option.map_eq_some_iff.1 herr
  cases shares with
  | nil => cases hfind
  | cons first rest =>
      by_cases hfirst : first.shape = e.shape
      · rw [List.map_cons, List.find?_cons_of_neg (by simpa using hfirst)] at hfind
        rw [List.takeWhile_cons_of_pos (by simpa using hfirst)] at hadds
        rw [sumShares, requireShape_eq hfirst, ok_bind] at hadds ⊢
        exact foldlM_accumulate_refuses hfirst hfind hadds
      · rw [List.map_cons, List.find?_cons_of_pos (by simpa using hfirst)] at hfind
        cases hfind
        rw [sumShares, requireShape, if_neg hfirst]
        rfl

/-- A fault among the shares before the first one of another shape is the fault of the sum. -/
theorem sumShares_faults {shares : List (Grid α)} {fault : Fault}
    (hfault : e.sumShares (shares.takeWhile fun share => share.shape = e.shape) =
      .error (.fault fault)) :
    e.sumShares shares = .error (.fault fault) := by
  cases shares with
  | nil => exact hfault
  | cons first rest =>
      by_cases hfirst : first.shape = e.shape
      · rw [List.takeWhile_cons_of_pos (by simpa using hfirst)] at hfault
        rw [sumShares, requireShape_eq hfirst, ok_bind] at hfault ⊢
        rw [← List.takeWhile_append_dropWhile (p := fun share => share.shape = e.shape) (l := rest),
          List.foldlM_append, hfault]
        rfl
      · rw [List.takeWhile_cons_of_neg (by simpa using hfirst)] at hfault
        cases hfault

/-- A sum that refuses a list which is not empty does so for a share of another shape. -/
theorem shapeError?_of_sumShares {shares : List (Grid α)} (hne : shares ≠ []) {err : Error}
    (h : e.sumShares shares = .error (.error err)) :
    shapeError? e (shares.map Grid.shape) = some err := by
  cases shares with
  | nil => exact absurd rfl hne
  | cons first rest =>
      rw [sumShares] at h
      by_cases hfirst : first.shape = e.shape
      · rw [requireShape_eq hfirst, ok_bind] at h
        obtain ⟨found, hfind, rfl⟩ := find?_of_foldlM_accumulate hfirst h
        rw [shapeError?, List.map_cons, List.find?_cons_of_neg (by simpa using hfirst), hfind]
        rfl
      · rw [requireShape, if_neg hfirst] at h
        cases h
        rw [shapeError?, List.map_cons, List.find?_cons_of_pos (by simpa using hfirst)]
        rfl

end Sums

theorem checksShapes_key (two : RoundTwoShare) (three : RoundThreeShare)
    (out : RelinearizationKey) :
    ChecksShapes e [two.shape, three.shape, out.shape] (e.keyInPlace two three) out := by
  unfold keyInPlace
  exact ChecksShapes.requireShape (ChecksShapes.requireShape (ChecksShapes.requireShape
    ((neverRefuses_writeSlots _ _).checksShapes _ _)))

end Engine
end Protocol
end RelinCeremony
