import RelinCeremony.Proofs.Protocol.Engine
import RelinCeremony.Protocol.Aggregation
import RelinCeremony.Protocol.Key
import RelinCeremony.Protocol.Rounds

namespace RelinCeremony

namespace Protocol

/-!
# Containers written in place

The rounds, the sums and the key write over a container of the caller, and a round draws from
a generator of the caller.  Here they do it step by step, on a state that stays as it is when a
step fails: first the shapes are checked, then the seeds are drawn, then the slots are written
one after another.

Without a failure the state ends as the functions of the engine say, `endState` tells.
-/

open RelinCeremony.Ring (Element NegacyclicRing)

/-- A computation that changes a state.  What it has changed stays changed if it fails. -/
abbrev InPlace (σ α : Type) : Type := EStateM (Failure Error) σ α

namespace InPlace

variable {σ τ α β : Type}

/-- A computation that leaves the state alone. -/
def ofOutcome (x : Outcome α) : InPlace σ α := fun s =>
  match x with
  | .ok a => .ok a s
  | .error failure => .error failure s

instance : MonadLift (Except (Failure Error)) (EStateM (Failure Error) σ) where
  monadLift := ofOutcome

/-- A computation on a part of the state. -/
def onPart (read : σ → τ) (write : τ → σ → σ) (x : InPlace τ α) : InPlace σ α := fun s =>
  match x (read s) with
  | .ok a t => .ok a (write t s)
  | .error failure t => .error failure (write t s)

/-- Writes slots one after another, each from the slot before and an operand. -/
def writeEach (f : α → β → Checked α) : List β → InPlace (List α) Unit
  | operand :: operands, old :: olds =>
      match f old operand with
      | .error fault => .error (.fault fault) (old :: olds)
      | .ok slot =>
          match writeEach f operands olds with
          | .ok _ rest => .ok () (slot :: rest)
          | .error failure rest => .error failure (slot :: rest)
  | _, olds => .ok () olds

def writeSlots (f : α → β → Checked α) (operands : List β) : InPlace (Grid α) Unit :=
  onPart Grid.slots (fun slots grid => { grid with slots := slots }) (writeEach f operands)

/-- Draws seeds one after another. -/
def fillSeeds : Nat → InPlace Random.Generator (List Random.Seed)
  | 0 => return []
  | n + 1 => do
      let seed ← modifyGet Random.Generator.nextSeed
      return seed :: (← fillSeeds n)

end InPlace

/-- What a round changes: the share that it writes over and the generator that it draws from. -/
structure Frame (α : Type) where
  out : Grid α
  generator : Random.Generator

namespace Frame

variable {α β : Type}

def onOut (x : InPlace (Grid α) β) : InPlace (Frame α) β :=
  InPlace.onPart Frame.out (fun out frame => { frame with out := out }) x

def onGenerator (x : InPlace Random.Generator β) : InPlace (Frame α) β :=
  InPlace.onPart Frame.generator (fun g frame => { frame with generator := g }) x

end Frame

namespace Engine

open InPlace

/-- One seed for each slot. -/
def fillSlotSeeds (e : Engine) : InPlace Random.Generator (List Random.Seed) := do
  let size ← (e.shape.size : Checked _)
  fillSeeds size

def roundOneInPlace (e : Engine) (u s : Element) (a : CommonMatrix) :
    InPlace (Frame Element) Unit := do
  e.requireShape a
  e.requireShape (← get).out
  let seeds ← Frame.onGenerator e.fillSlotSeeds
  Frame.onOut <| writeSlots
    (fun old ((aSlot, seed), index) => do
      let (i, w) ← e.shape.coordinates index
      e.roundOneSlot u s i w aSlot old seed)
    (a.slots.zip seeds).zipIdx

def roundTwoInPlace (e : Engine) (h : RoundOneShare) (s : Element) (a : CommonMatrix) :
    InPlace (Frame (Element × Element)) Unit := do
  e.requireShape h
  e.requireShape a
  e.requireShape (← get).out
  let seeds ← Frame.onGenerator e.fillSlotSeeds
  Frame.onOut <| writeSlots
    (fun old (hSlot, aSlot, seed) => e.roundTwoSlot s hSlot aSlot e.ring.zero old seed)
    (h.slots.zip (a.slots.zip seeds))

def roundThreeInPlace (e : Engine) (h : RoundTwoShare) (u s : Element) :
    InPlace (Frame Element) Unit := do
  e.requireShape h
  e.requireShape (← get).out
  let seeds ← Frame.onGenerator e.fillSlotSeeds
  let delta ← (e.ring.sub u s e.ring.zero : Checked _)
  Frame.onOut <| writeSlots (fun old (hSlot, seed) => e.roundThreeSlot delta hSlot old seed)
    (h.slots.zip seeds)

def addInPlace {α : Type} [Summand α] (e : Engine) (a b : Grid α) : InPlace (Grid α) Unit := do
  e.requireShape a
  e.requireShape b
  e.requireShape (← get)
  writeSlots (fun old (x, y) => Summand.add e.ring x y old) (a.slots.zip b.slots)

def accumulateInPlace {α : Type} [Summand α] (e : Engine) (share : Grid α) :
    InPlace (Grid α) Unit := do
  e.requireShape (← get)
  e.requireShape share
  writeSlots (fun x y => Summand.addAssign e.ring y x) share.slots

def keyInPlace (e : Engine) (two : RoundTwoShare) (three : RoundThreeShare) :
    InPlace RelinearizationKey Unit := do
  e.requireShape two
  e.requireShape three
  e.requireShape (← get)
  writeSlots (fun old (pair, h) => e.keySlot pair h old) (two.slots.zip three.slots)

end Engine

/-! ## The state at the end -/

namespace InPlace

variable {σ τ α β : Type}

theorem run_bind_ok {x : InPlace σ α} {k : α → InPlace σ β} {s t : σ} {a : α}
    (h : x s = .ok a t) : (x >>= k) s = k a t := by
  show EStateM.bind x k s = k a t
  rw [EStateM.bind, h]

theorem run_bind_error {x : InPlace σ α} {k : α → InPlace σ β} {s t : σ}
    {failure : Failure Error} (h : x s = .error failure t) : (x >>= k) s = .error failure t := by
  show EStateM.bind x k s = .error failure t
  rw [EStateM.bind, h]

/-- The state that a computation ends with, if it does not fail. -/
def endState (x : InPlace σ Unit) (s : σ) : Outcome σ :=
  match x s with
  | .ok _ t => .ok t
  | .error failure _ => .error failure

theorem endState_lift_bind (x : Outcome α) (k : α → InPlace σ Unit) (s : σ) :
    endState (liftM x >>= k) s = x >>= fun a => endState (k a) s := by
  cases x <;> rfl

theorem endState_liftChecked_bind (x : Checked α) (k : α → InPlace σ Unit) (s : σ) :
    endState (liftM x >>= k) s = (liftM x : Outcome α) >>= fun a => endState (k a) s := by
  cases x <;> rfl

theorem endState_get_bind (k : σ → InPlace σ Unit) (s : σ) :
    endState (get >>= k) s = endState (k s) s := rfl

theorem endState_onPart (read : σ → τ) (write : τ → σ → σ) (x : InPlace τ Unit) (s : σ) :
    endState (onPart read write x) s = do return write (← endState x (read s)) s := by
  unfold endState onPart
  cases x (read s) <;> rfl

theorem endState_writeEach (f : α → β → Checked α) (operands : List β) (olds : List α)
    (hlength : olds.length ≤ operands.length) :
    endState (writeEach f operands) olds =
      liftM ((olds.zip operands).mapM fun p => f p.1 p.2) := by
  induction olds generalizing operands with
  | nil => cases operands <;> rfl
  | cons old olds ih =>
      cases operands with
      | nil => simp at hlength
      | cons operand operands =>
          have hrest := ih operands (by simpa using hlength)
          unfold endState at hrest ⊢
          rw [writeEach, List.zip_cons_cons, List.mapM_cons]
          cases hslot : f old operand with
          | error fault => rfl
          | ok slot =>
              simp only [ok_bind]
              -- The slots after this one decide, in place as by value.
              cases hwrite : writeEach f operands olds with
              | ok _ rest =>
                  rw [hwrite] at hrest
                  rw [lift_eq_ok_iff.1 hrest.symm]
                  rfl
              | error failure rest =>
                  rw [hwrite] at hrest
                  cases hmap : (olds.zip operands).mapM fun p => f p.1 p.2 with
                  | ok _ =>
                      rw [hmap] at hrest
                      cases hrest
                  | error fault =>
                      rw [hmap] at hrest
                      cases hrest
                      rfl

theorem endState_writeSlots (f : α → β → Checked α) (operands : List β) (grid : Grid α)
    (hlength : grid.slots.length ≤ operands.length) :
    endState (writeSlots f operands) grid = (do
      let slots ← ((grid.slots.zip operands).mapM fun p => f p.1 p.2 : Checked _)
      return ⟨grid.shape, slots⟩) := by
  rw [writeSlots, endState_onPart, endState_writeEach f operands grid.slots hlength]

theorem fillSeeds_eq {n : Nat} {g : Random.Generator} {r : List Random.Seed × Random.Generator}
    (h : (Random.Draw.times Random.Draw.seed n).run g = .ok r) : fillSeeds n g = .ok r.1 r.2 := by
  induction n generalizing g r with
  | zero =>
      cases h
      rfl
  | succ n ih =>
      have hrun : ((Random.Draw.times Random.Draw.seed n).run g.nextSeed.2 >>= fun rest =>
          .ok (g.nextSeed.1 :: rest.1, rest.2)) = .ok r := h
      obtain ⟨rest, hrest, hr⟩ := bind_eq_ok_iff.1 hrun
      cases hr
      have hseed : (modifyGet Random.Generator.nextSeed : InPlace _ _) g =
          .ok g.nextSeed.1 g.nextSeed.2 := rfl
      rw [fillSeeds, run_bind_ok hseed, run_bind_ok (ih hrest)]
      rfl

end InPlace

namespace Engine

open InPlace

variable {e : Engine} {α : Type}

theorem requireShape_eq_ok_iff {grid : Grid α} {u : Unit} :
    e.requireShape grid = .ok u ↔ grid.shape = e.shape := by
  constructor
  · intro h
    unfold requireShape at h
    split at h
    · assumption
    · cases h
  · intro h
    exact requireShape_eq h

/-- Seeds are drawn in place as they are drawn by value. -/
theorem fillSlotSeeds_eq {g : Random.Generator} {r : List Random.Seed × Random.Generator}
    (h : e.drawSeeds.run g = .ok r) : e.fillSlotSeeds g = .ok r.1 r.2 := by
  unfold drawSeeds at h
  unfold fillSlotSeeds
  cases hsize : e.shape.size with
  | ok size =>
      rw [hsize] at h
      exact fillSeeds_eq h
  | error fault =>
      rw [hsize] at h
      cases h

/-- Drawing fails before the first seed or not at all. -/
theorem fillSlotSeeds_eq_error {g : Random.Generator} {fault : Fault}
    (h : e.drawSeeds.run g = .error fault) : e.fillSlotSeeds g = .error (.fault fault) g := by
  unfold drawSeeds at h
  unfold fillSlotSeeds
  cases hsize : e.shape.size with
  | ok size =>
      rw [hsize] at h
      obtain ⟨r, hr, _⟩ := gives_times_seed size g
      cases hr.symm.trans h
  | error _ =>
      rw [hsize] at h
      cases h
      rfl

theorem endState_fillSlotSeeds_bind (k : List Random.Seed → InPlace (Frame α) Unit)
    (frame : Frame α) :
    endState (Frame.onGenerator e.fillSlotSeeds >>= k) frame = (do
      let r ← (e.drawSeeds.run frame.generator : Checked _)
      endState (k r.1) { frame with generator := r.2 }) := by
  cases hseeds : e.drawSeeds.run frame.generator with
  | ok r =>
      have hfill : Frame.onGenerator e.fillSlotSeeds frame =
          .ok r.1 { frame with generator := r.2 } := by
        rw [Frame.onGenerator, onPart, fillSlotSeeds_eq hseeds]
      unfold endState
      rw [run_bind_ok hfill]
      rfl
  | error fault =>
      have hfill : Frame.onGenerator e.fillSlotSeeds frame = .error (.fault fault) frame := by
        rw [Frame.onGenerator, onPart, fillSlotSeeds_eq_error hseeds]
      unfold endState
      rw [run_bind_error hfill]
      rfl

section Sums

variable [Summand α] {a b out share : Grid α}

theorem endState_addInPlace (ha : a.IsFull) (hb : b.IsFull) (hout : out.IsFull) :
    endState (e.addInPlace a b) out = e.addShares a b out := by
  unfold addInPlace addShares
  simp only [endState_lift_bind, endState_get_bind]
  refine bind_congr_ok fun _ hashape => bind_congr_ok fun _ hbshape =>
    bind_congr_ok fun _ houtshape => ?_
  have hna := ha.length_eq (requireShape_eq_ok_iff.1 hashape)
  have hnb := hb.length_eq (requireShape_eq_ok_iff.1 hbshape)
  have hno := hout.length_eq (requireShape_eq_ok_iff.1 houtshape)
  exact endState_writeSlots _ _ _ (by simp [hna, hnb, hno])

theorem endState_accumulateInPlace (hout : out.IsFull) (hshare : share.IsFull) :
    endState (e.accumulateInPlace share) out = e.accumulate out share := by
  unfold accumulateInPlace accumulate
  simp only [endState_lift_bind, endState_get_bind]
  refine bind_congr_ok fun _ houtshape => bind_congr_ok fun _ hshareshape => ?_
  have hno := hout.length_eq (requireShape_eq_ok_iff.1 houtshape)
  have hns := hshare.length_eq (requireShape_eq_ok_iff.1 hshareshape)
  exact endState_writeSlots _ _ _ (by simp [hns, hno])

end Sums

theorem endState_keyInPlace {two : RoundTwoShare} {three : RoundThreeShare}
    {out : RelinearizationKey} (htwo : two.IsFull) (hthree : three.IsFull) (hout : out.IsFull) :
    endState (e.keyInPlace two three) out = e.relinearizationKey two three out := by
  unfold keyInPlace relinearizationKey
  simp only [endState_lift_bind, endState_get_bind]
  refine bind_congr_ok fun _ htwoshape => bind_congr_ok fun _ hthreeshape =>
    bind_congr_ok fun _ houtshape => ?_
  have hnt := htwo.length_eq (requireShape_eq_ok_iff.1 htwoshape)
  have hnh := hthree.length_eq (requireShape_eq_ok_iff.1 hthreeshape)
  have hno := hout.length_eq (requireShape_eq_ok_iff.1 houtshape)
  exact endState_writeSlots _ _ _ (by simp [hnt, hnh, hno])

section Rounds

variable {u s : Element} {g : Random.Generator}

theorem zipIdx_zip {β γ : Type} (xs : List β) (ys : List γ) :
    (xs.zip ys).zipIdx = (xs.zip ys.zipIdx).map fun p => ((p.1, p.2.1), p.2.2) := by
  refine List.ext_getElem (by simp) fun n hn hn' => ?_
  simp

/-- The seeds that are drawn are as many as the slots. -/
theorem times_of_drawSeeds {r : List Random.Seed × Random.Generator}
    (h : e.drawSeeds.run g = .ok r) :
    (Random.Draw.times Random.Draw.seed (e.shape.moduli * e.shape.levels)).run g = .ok r := by
  unfold drawSeeds at h
  cases hsize : e.shape.size with
  | ok size =>
      rw [hsize] at h
      obtain ⟨_, _, hvalue⟩ := bind_eq_ok_iff.1 hsize
      cases hvalue
      exact h
  | error fault =>
      rw [hsize] at h
      cases h

theorem length_of_drawSeeds {r : List Random.Seed × Random.Generator}
    (h : e.drawSeeds.run g = .ok r) : r.1.length = e.shape.moduli * e.shape.levels :=
  (gives_times_seed _ g).value_unique (times_of_drawSeeds h)

/-- The slots of a share are written while the generator stays as it is. -/
theorem endState_onOut_writeSlots {β : Type} (f : α → β → Checked α) (operands : List β)
    {out : Grid α} (hlength : out.slots.length ≤ operands.length) :
    endState (Frame.onOut (writeSlots f operands)) ⟨out, g⟩ = (do
      let slots ← ((out.slots.zip operands).mapM fun p => f p.1 p.2 : Checked _)
      return ⟨⟨out.shape, slots⟩, g⟩) := by
  rw [Frame.onOut, endState_onPart, endState_writeSlots f operands out hlength, bind_assoc]
  rfl

theorem endState_roundOneInPlace {a : CommonMatrix} {out : RoundOneShare} (ha : a.IsFull)
    (hout : out.IsFull) : endState (e.roundOneInPlace u s a) ⟨out, g⟩ = (do
      let (share, g) ← e.roundOne u s a out g
      return ⟨share, g⟩) := by
  unfold roundOneInPlace roundOne
  simp only [endState_lift_bind, endState_get_bind, endState_fillSlotSeeds_bind, bind_assoc]
  refine bind_congr_ok fun _ hashape => bind_congr_ok fun _ houtshape =>
    bind_congr_ok fun r hr => ?_
  have hna := ha.length_eq (requireShape_eq_ok_iff.1 hashape)
  have hno := hout.length_eq (requireShape_eq_ok_iff.1 houtshape)
  have hns := length_of_drawSeeds (lift_eq_ok_iff.1 hr)
  rw [endState_onOut_writeSlots _ _ (by simp [hna, hno, hns]), zipIdx_zip out.slots, List.mapM_map]
  rfl

theorem endState_roundTwoInPlace {h : RoundOneShare} {a : CommonMatrix} {out : RoundTwoShare}
    (hh : h.IsFull) (ha : a.IsFull) (hout : out.IsFull) :
    endState (e.roundTwoInPlace h s a) ⟨out, g⟩ = (do
      let (share, g) ← e.roundTwo h s a out g
      return ⟨share, g⟩) := by
  unfold roundTwoInPlace roundTwo
  simp only [endState_lift_bind, endState_get_bind, endState_fillSlotSeeds_bind, bind_assoc]
  refine bind_congr_ok fun _ hhshape => bind_congr_ok fun _ hashape =>
    bind_congr_ok fun _ houtshape => bind_congr_ok fun r hr => ?_
  have hnh := hh.length_eq (requireShape_eq_ok_iff.1 hhshape)
  have hna := ha.length_eq (requireShape_eq_ok_iff.1 hashape)
  have hno := hout.length_eq (requireShape_eq_ok_iff.1 houtshape)
  have hns := length_of_drawSeeds (lift_eq_ok_iff.1 hr)
  exact endState_onOut_writeSlots _ _ (by simp [hnh, hna, hno, hns])

theorem endState_roundThreeInPlace {h : RoundTwoShare} {out : RoundThreeShare} (hh : h.IsFull)
    (hout : out.IsFull) : endState (e.roundThreeInPlace h u s) ⟨out, g⟩ = (do
      let (share, g) ← e.roundThree h u s out g
      return ⟨share, g⟩) := by
  unfold roundThreeInPlace roundThree
  simp only [endState_lift_bind, endState_get_bind, endState_fillSlotSeeds_bind,
    endState_liftChecked_bind, bind_assoc]
  refine bind_congr_ok fun _ hhshape => bind_congr_ok fun _ houtshape =>
    bind_congr_ok fun r hr => bind_congr_ok fun delta _ => ?_
  have hnh := hh.length_eq (requireShape_eq_ok_iff.1 hhshape)
  have hno := hout.length_eq (requireShape_eq_ok_iff.1 houtshape)
  have hns := length_of_drawSeeds (lift_eq_ok_iff.1 hr)
  exact endState_onOut_writeSlots _ _ (by simp [hnh, hno, hns])

end Rounds

end Engine
end Protocol
end RelinCeremony
