import Mathlib.Data.List.TakeWhile
import Mathlib.Logic.Function.Basic
import RelinCeremony.Proofs.Protocol.Ceremony
import RelinCeremony.Proofs.Protocol.ShapeChecks
import RelinCeremony.Proofs.Protocol.Slots

namespace RelinCeremony
namespace Protocol

/-!
# Sessions

A session is a sequence of calls of one engine.  The containers, the elements and the
generators of the caller are kept in the registers of a `Store`; a call reads some of them and
writes over others in place.

A call is refused exactly for a container of another shape, or for an empty list of shares, and
then nothing has changed.
-/

open RelinCeremony.Ring (Element NegacyclicRing NoiseSource)

/-- What a caller of an engine holds. -/
structure Store where
  element : Nat → Element
  matrix : Nat → CommonMatrix
  share : (r : Round) → Nat → r.Share
  key : Nat → RelinearizationKey
  generator : Nat → Random.Generator

namespace Store

def setShare (r : Round) (n : Nat) (x : r.Share) (s : Store) : Store :=
  { s with share := Function.update s.share r (Function.update (s.share r) n x) }

def setKey (n : Nat) (x : RelinearizationKey) (s : Store) : Store :=
  { s with key := Function.update s.key n x }

def setGenerator (n : Nat) (g : Random.Generator) (s : Store) : Store :=
  { s with generator := Function.update s.generator n g }

/-- A share with a generator. -/
def frame (r : Round) (out g : Nat) (s : Store) : Frame r.Slot := ⟨s.share r out, s.generator g⟩

def setFrame (r : Round) (out g : Nat) (f : Frame r.Slot) (s : Store) : Store :=
  (s.setShare r out f.out).setGenerator g f.generator

@[simp] theorem setShare_share (s : Store) (r : Round) (n : Nat) :
    s.setShare r n (s.share r n) = s := by
  simp [setShare]

@[simp] theorem setKey_key (s : Store) (n : Nat) : s.setKey n (s.key n) = s := by
  simp [setKey]

@[simp] theorem setFrame_frame (s : Store) (r : Round) (out g : Nat) :
    s.setFrame r out g (s.frame r out g) = s := by
  simp [setFrame, frame, setGenerator]

end Store

/-- A call of an engine, with the registers that it reads and writes. -/
inductive Call where
  | allocateShares (one two three : Nat)
  | allocateKey (out : Nat)
  | roundOne (ephemeral secret matrix out generator : Nat)
  | roundTwo (aggregate secret matrix out generator : Nat)
  | roundThree (aggregate ephemeral secret out generator : Nat)
  /-- The sum of two shares, written over a third. -/
  | add (r : Round) (a b out : Nat)
  /-- A share added to another. -/
  | accumulate (r : Round) (total share : Nat)
  /-- The sum of a list of shares. -/
  | sum (r : Round) (shares : List Nat) (out : Nat)
  | key (two three out : Nat)

namespace Call

open InPlace

/-- A call, executed in place. -/
def exec (e : Engine) : Call → InPlace Store Unit
  | .allocateShares one two three => do
      let (x, y, z) ← (e.zeroShares : Checked _)
      modify fun s => ((s.setShare .one one x).setShare .two two y).setShare .three three z
  | .allocateKey out => do
      let key ← (e.zeroKey : Checked _)
      modify fun s => s.setKey out key
  | .roundOne ephemeral secret matrix out generator => do
      let s ← get
      onPart (Store.frame .one out generator) (Store.setFrame .one out generator)
        (e.roundOneInPlace (s.element ephemeral) (s.element secret) (s.matrix matrix))
  | .roundTwo aggregate secret matrix out generator => do
      let s ← get
      onPart (Store.frame .two out generator) (Store.setFrame .two out generator)
        (e.roundTwoInPlace (s.share .one aggregate) (s.element secret) (s.matrix matrix))
  | .roundThree aggregate ephemeral secret out generator => do
      let s ← get
      onPart (Store.frame .three out generator) (Store.setFrame .three out generator)
        (e.roundThreeInPlace (s.share .two aggregate) (s.element ephemeral) (s.element secret))
  | .add r a b out => do
      let s ← get
      onPart (fun s => s.share r out) (Store.setShare r out)
        (e.addInPlace (s.share r a) (s.share r b))
  | .accumulate r total share => do
      let s ← get
      onPart (fun s => s.share r total) (Store.setShare r total)
        (e.accumulateInPlace (s.share r share))
  | .sum r shares out => do
      let s ← get
      let total ← e.sumShares (shares.map (s.share r))
      modify (Store.setShare r out total)
  | .key two three out => do
      let s ← get
      onPart (fun s => s.key out) (Store.setKey out)
        (e.keyInPlace (s.share .two two) (s.share .three three))

section Equations

variable (e : Engine) (s : Store)

theorem exec_roundOne (u k a out g : Nat) :
    (Call.roundOne u k a out g).exec e s =
      onPart (Store.frame .one out g) (Store.setFrame .one out g)
        (e.roundOneInPlace (s.element u) (s.element k) (s.matrix a)) s := rfl

theorem exec_roundTwo (h k a out g : Nat) :
    (Call.roundTwo h k a out g).exec e s =
      onPart (Store.frame .two out g) (Store.setFrame .two out g)
        (e.roundTwoInPlace (s.share .one h) (s.element k) (s.matrix a)) s := rfl

theorem exec_roundThree (h u k out g : Nat) :
    (Call.roundThree h u k out g).exec e s =
      onPart (Store.frame .three out g) (Store.setFrame .three out g)
        (e.roundThreeInPlace (s.share .two h) (s.element u) (s.element k)) s := rfl

theorem exec_add (r : Round) (a b out : Nat) :
    (Call.add r a b out).exec e s = onPart (fun s => s.share r out) (Store.setShare r out)
      (e.addInPlace (s.share r a) (s.share r b)) s := rfl

theorem exec_accumulate (r : Round) (total share : Nat) :
    (Call.accumulate r total share).exec e s = onPart (fun s => s.share r total)
      (Store.setShare r total) (e.accumulateInPlace (s.share r share)) s := rfl

theorem exec_sum (r : Round) (shares : List Nat) (out : Nat) :
    (Call.sum r shares out).exec e s =
      match e.sumShares (shares.map (s.share r)) with
      | .ok total => .ok () (s.setShare r out total)
      | .error failure => .error failure s := by
  show (liftM (e.sumShares (shares.map (s.share r))) >>= fun total =>
    modify (Store.setShare r out total) : InPlace Store Unit) s = _
  cases e.sumShares (shares.map (s.share r)) <;> rfl

theorem exec_key (two three out : Nat) :
    (Call.key two three out).exec e s = onPart (fun s => s.key out) (Store.setKey out)
      (e.keyInPlace (s.share .two two) (s.share .three three)) s := rfl

end Equations

/-! ## Refusals -/

/-- The shapes of the containers of a call, in the order in which they are checked. -/
def shapes (s : Store) : Call → List Shape
  | .allocateShares .. => []
  | .allocateKey _ => []
  | .roundOne _ _ matrix out _ => [(s.matrix matrix).shape, (s.share .one out).shape]
  | .roundTwo aggregate _ matrix out _ =>
      [(s.share .one aggregate).shape, (s.matrix matrix).shape, (s.share .two out).shape]
  | .roundThree aggregate _ _ out _ => [(s.share .two aggregate).shape, (s.share .three out).shape]
  | .add r a b out => [(s.share r a).shape, (s.share r b).shape, (s.share r out).shape]
  | .accumulate r total share => [(s.share r total).shape, (s.share r share).shape]
  | .sum r shares _ => (shares.map (s.share r)).map Grid.shape
  | .key two three out =>
      [(s.share .two two).shape, (s.share .three three).shape, (s.key out).shape]

/-- Why a call is to be refused: an empty list of shares, or the first container that does not
have the shape of the engine. -/
def refusal? (e : Engine) (s : Store) : Call → Option Error
  | .sum _ [] _ => some (.tooFewValues 0 1)
  | c => shapeError? e (c.shapes s)

/-- The shares that a sum of a list meets before one of another shape are added up without a
fault. -/
def AddsUp (e : Engine) (s : Store) : Call → Prop
  | .sum r shares _ => ∀ fault, e.sumShares ((shares.map (s.share r)).takeWhile fun share =>
      share.shape = e.shape) ≠ .error (.fault fault)
  | _ => True

/-- The generators after a call: a round draws a seed for each slot, the other calls nothing. -/
def generators (e : Engine) (s : Store) : Call → Nat → Random.Generator
  | .roundOne _ _ _ _ g | .roundTwo _ _ _ _ g | .roundThree _ _ _ _ g =>
      Function.update s.generator g (afterSeed^[e.shape.moduli * e.shape.levels] (s.generator g))
  | _ => s.generator

variable {e : Engine} {s s' : Store}

/-- All calls but the sum of a list check their containers first. -/
theorem sum_or_checksShapes (e : Engine) (s : Store) (c : Call) :
    (∃ r shares out, c = .sum r shares out) ∨
      (c.refusal? e s = shapeError? e (c.shapes s) ∧ c.AddsUp e s ∧
        ChecksShapes e (c.shapes s) (c.exec e) s) := by
  cases c with
  | sum r shares out => exact .inl ⟨r, shares, out, rfl⟩
  | allocateShares one two three =>
      refine .inr ⟨rfl, trivial, NeverRefuses.checksShapes ?_ e s⟩
      exact (neverRefuses_lift _).bind fun _ => neverRefuses_modify _
  | allocateKey out =>
      refine .inr ⟨rfl, trivial, NeverRefuses.checksShapes ?_ e s⟩
      exact (neverRefuses_lift _).bind fun _ => neverRefuses_modify _
  | roundOne ephemeral secret matrix out generator =>
      have hchecks := Engine.checksShapes_roundOne (e := e) (s.element ephemeral)
        (s.element secret) (s.matrix matrix) (s.frame .one out generator)
      exact .inr ⟨rfl, trivial, .get (hchecks.onPart (Store.frame .one out generator)
        (s.setFrame_frame .one out generator))⟩
  | roundTwo aggregate secret matrix out generator =>
      have hchecks := Engine.checksShapes_roundTwo (e := e) (s.share .one aggregate)
        (s.element secret) (s.matrix matrix) (s.frame .two out generator)
      exact .inr ⟨rfl, trivial, .get (hchecks.onPart (Store.frame .two out generator)
        (s.setFrame_frame .two out generator))⟩
  | roundThree aggregate ephemeral secret out generator =>
      have hchecks := Engine.checksShapes_roundThree (e := e) (s.share .two aggregate)
        (s.element ephemeral) (s.element secret) (s.frame .three out generator)
      exact .inr ⟨rfl, trivial, .get (hchecks.onPart (Store.frame .three out generator)
        (s.setFrame_frame .three out generator))⟩
  | add r a b out =>
      have hchecks := Engine.checksShapes_add (e := e) (s.share r a) (s.share r b) (s.share r out)
      exact .inr ⟨rfl, trivial, .get (hchecks.onPart (fun t : Store => t.share r out)
        (s.setShare_share r out))⟩
  | accumulate r total share =>
      have hchecks := Engine.checksShapes_accumulate (e := e) (s.share r total) (s.share r share)
      exact .inr ⟨rfl, trivial, .get (hchecks.onPart (fun t : Store => t.share r total)
        (s.setShare_share r total))⟩
  | key two three out =>
      have hchecks := Engine.checksShapes_key (e := e) (s.share .two two) (s.share .three three)
        (s.key out)
      exact .inr ⟨rfl, trivial, .get (hchecks.onPart (fun t : Store => t.key out)
        (s.setKey_key out))⟩

/-- A call is refused for a reason only, and then nothing has changed. -/
theorem refusal?_of_exec {c : Call} {err : Error} (h : c.exec e s = .error (.error err) s') :
    c.refusal? e s = some err ∧ s' = s := by
  rcases sum_or_checksShapes e s c with ⟨r, shares, out, rfl⟩ | ⟨hrefusal, _, hchecks⟩
  · rw [exec_sum] at h
    cases hsum : e.sumShares (shares.map (s.share r)) with
    | ok total =>
        rw [hsum] at h
        cases h
    | error failure =>
        rw [hsum] at h
        cases h
        refine ⟨?_, rfl⟩
        cases shares with
        | nil =>
            cases hsum
            rfl
        | cons first rest => exact Engine.shapeError?_of_sumShares (by simp) hsum
  · rw [hrefusal]
    exact hchecks.eq_of_run h

/-- A reason to refuse a call is named, unless a sum faults before it comes to the reason. -/
theorem exec_of_refusal? {c : Call} {err : Error} (h : c.refusal? e s = some err) :
    (c.AddsUp e s → c.exec e s = .error (.error err) s) ∧
      (¬ c.AddsUp e s → ∃ fault, c.exec e s = .error (.fault fault) s) := by
  rcases sum_or_checksShapes e s c with ⟨r, shares, out, rfl⟩ | ⟨hrefusal, hadds, hchecks⟩
  · rw [exec_sum]
    constructor
    · intro hadds
      cases shares with
      | nil =>
          cases h
          rfl
      | cons first rest => rw [Engine.sumShares_refuses h hadds]
    · intro hfault
      simp only [AddsUp, not_forall, not_not] at hfault
      obtain ⟨fault, hfault⟩ := hfault
      rw [Engine.sumShares_faults hfault]
      exact ⟨fault, rfl⟩
  · rw [hrefusal] at h
    exact ⟨fun _ => hchecks.run_eq h, fun hnot => absurd hadds hnot⟩

/-- A call that is not refused draws the seeds of the slots if it is a round, and nothing
otherwise. -/
theorem generator_of_exec {c : Call} (h : c.exec e s = .ok () s') :
    s'.generator = c.generators e s := by
  cases c with
  | allocateShares one two three =>
      obtain ⟨shares, middle, hshares, hmodify⟩ := run_bind_eq_ok h
      cases hzero : e.zeroShares <;> rw [hzero] at hshares <;> cases hshares
      cases hmodify
      rfl
  | allocateKey out =>
      obtain ⟨key, middle, hkey, hmodify⟩ := run_bind_eq_ok h
      cases hzero : e.zeroKey <;> rw [hzero] at hkey <;> cases hkey
      cases hmodify
      rfl
  | roundOne ephemeral secret matrix out generator =>
      obtain ⟨part, hpart, rfl⟩ := onPart_eq_ok h
      exact congrArg (Function.update s.generator generator)
        (Engine.draws_roundOne _ _ _ _ _ _ hpart)
  | roundTwo aggregate secret matrix out generator =>
      obtain ⟨part, hpart, rfl⟩ := onPart_eq_ok h
      exact congrArg (Function.update s.generator generator)
        (Engine.draws_roundTwo _ _ _ _ _ _ hpart)
  | roundThree aggregate ephemeral secret out generator =>
      obtain ⟨part, hpart, rfl⟩ := onPart_eq_ok h
      exact congrArg (Function.update s.generator generator)
        (Engine.draws_roundThree _ _ _ _ _ _ hpart)
  | add r a b out =>
      rw [exec_add] at h
      obtain ⟨part, _, rfl⟩ := onPart_eq_ok h
      rfl
  | accumulate r total share =>
      rw [exec_accumulate] at h
      obtain ⟨part, _, rfl⟩ := onPart_eq_ok h
      rfl
  | sum r shares out =>
      rw [exec_sum] at h
      cases hsum : e.sumShares (shares.map (s.share r)) <;> rw [hsum] at h <;> cases h
      rfl
  | key two three out =>
      rw [exec_key] at h
      obtain ⟨part, _, rfl⟩ := onPart_eq_ok h
      rfl

/-- Reduced shares are added up without a fault. -/
theorem addsUp_of_reduced (he : e.Valid)
    (hreduced : ∀ r n, (s.share r n).shape = e.shape →
      (s.share r n).Fills e.shape (r.Holds e.ring.Reduced)) (c : Call) : c.AddsUp e s := by
  cases c with
  | sum r shares out =>
      intro fault h
      generalize hmet : (shares.map (s.share r)).takeWhile (fun share => share.shape = e.shape) =
        met at h
      have hfills : ∀ share ∈ met, share.Fills e.shape (r.Holds e.ring.Reduced) := by
        intro share hshare
        rw [← hmet] at hshare
        obtain ⟨n, _, rfl⟩ := List.mem_map.1 ((List.takeWhile_sublist _).mem hshare)
        exact hreduced r n (by simpa using List.mem_takeWhile_imp hshare)
      by_cases hne : met = []
      · rw [hne] at h
        cases h
      · obtain ⟨total, htotal, _⟩ := Engine.gives_sumShares_reduced he hne hfills
        cases htotal.symm.trans h
  | _ => trivial

/-- A call is refused if and only if it has a reason to be: an empty list of shares, or a
container of another shape, of which the first is named.  Then the whole store is as it was.  The
one exception is a sum of a list in which shares that come before the one of another shape
cannot be added up; reduced shares always can.  A round that is not refused draws a seed for each
slot, the other calls draw nothing. -/
theorem shape_errors (e : Engine) (c : Call) (s : Store) :
    (∀ err s', c.exec e s = .error (.error err) s' → c.refusal? e s = some err ∧ s' = s) ∧
    (∀ err, c.refusal? e s = some err →
      (c.AddsUp e s → c.exec e s = .error (.error err) s) ∧
        (¬ c.AddsUp e s → ∃ fault, c.exec e s = .error (.fault fault) s)) ∧
    (∀ s', c.exec e s = .ok () s' → s'.generator = c.generators e s) ∧
    ∀ moduli degree ring source digitBits, NegacyclicRing.build moduli degree = .ok ring →
      Engine.build ring source digitBits = .ok e →
        (∀ r n, (s.share r n).shape = e.shape →
          (s.share r n).Fills e.shape (r.Holds e.ring.Reduced)) → c.AddsUp e s := by
  refine ⟨fun err s' => refusal?_of_exec, fun err => exec_of_refusal?,
    fun s' => generator_of_exec, ?_⟩
  intro moduli degree ring source digitBits hring hengine hreduced
  obtain ⟨hvalid, _, _⟩ := NegacyclicRing.valid_of_build hring
  exact addsUp_of_reduced (Engine.valid_of_build hvalid hengine).1 hreduced c

/-! ## A share of another shape -/

/-- A share of the small engine with one element in all slots. -/
def constantShare (a : Element) : (r : Round) → r.Share
  | .one => ⟨smallEngine.shape, List.replicate 4 a⟩
  | .two => ⟨smallEngine.shape, List.replicate 4 (a, a)⟩
  | .three => ⟨smallEngine.shape, List.replicate 4 a⟩

theorem fills_constantShare {a : Element} (ha : smallRing.Reduced a) (r : Round) :
    (constantShare a r).Fills smallEngine.shape (r.Holds smallRing.Reduced) := by
  cases r with
  | one => exact fills_replicate (Round.holds_one.2 ha)
  | two => exact fills_replicate (Round.holds_two.2 ⟨ha, ha⟩)
  | three => exact fills_replicate (Round.holds_three.2 ha)

/-- A store whose shares are zero but for the first, and have one slot from the third on. -/
def strayStore (first : Element) : Store where
  element _ := smallRing.zero
  matrix _ := smallMatrix
  share r n :=
    if n = 0 then constantShare first r
    else if n = 1 then constantShare smallRing.zero r
    else ⟨⟨1, 1⟩, (constantShare smallRing.zero r).slots.take 1⟩
  key _ := smallOut
  generator n := .chacha8 (.ofWord (.ofNat n))

theorem refusal?_stray (first : Element) :
    (Call.sum .one [0, 1, 2] 3).refusal? smallEngine (strayStore first) =
      some (.shape smallEngine.shape ⟨1, 1⟩) := by
  have hstray : (⟨1, 1⟩ : Shape) ≠ smallEngine.shape := by decide +kernel
  simp [refusal?, shapes, shapeError?, strayStore, constantShare, hstray]

theorem shape_errors_small :
    (Call.sum .one [0, 1, 2] 3).exec smallEngine (strayStore smallRing.zero) =
      .error (.error (.shape smallEngine.shape ⟨1, 1⟩)) (strayStore smallRing.zero) := by
  have hzero := (NegacyclicRing.represents_zero smallEngine_valid.ring.validModuli).reduced
  obtain ⟨_, hrefuse, _, hadds⟩ :=
    shape_errors smallEngine (.sum .one [0, 1, 2] 3) (strayStore smallRing.zero)
  refine (hrefuse _ (refusal?_stray _)).1
    (hadds _ _ _ _ _ build_smallRing build_smallEngine fun r n hshape => ?_)
  simp only [strayStore] at hshape ⊢
  split
  · exact fills_constantShare hzero r
  · split
    · exact fills_constantShare hzero r
    · rw [if_neg ‹_›, if_neg ‹_›] at hshape
      exact absurd hshape (show (⟨1, 1⟩ : Shape) ≠ smallEngine.shape by decide +kernel)

/-- An element that is not reduced modulo 97. -/
def strayElement : Element := ⟨List.replicate 2 (List.replicate 8 100)⟩

/-- With an element that is not reduced in the first share, the sum of the list faults before it
comes to the share of another shape. -/
theorem sum_faults_before_shape :
    (Call.sum .one [0, 1, 2] 3).refusal? smallEngine (strayStore strayElement) =
      some (.shape smallEngine.shape ⟨1, 1⟩) ∧
    (Call.sum .one [0, 1, 2] 3).exec smallEngine (strayStore strayElement) =
      .error (.fault .operandOutOfRange) (strayStore strayElement) := by
  have hslots : ((List.replicate 4 strayElement).zip (List.replicate 4 smallRing.zero)).mapM
      (fun p => Summand.addAssign smallRing p.2 p.1) = .error Fault.operandOutOfRange := by
    decide +kernel
  have hadd : smallEngine.accumulate (constantShare strayElement .one)
      (constantShare smallRing.zero .one) = .error (.fault .operandOutOfRange) := by
    unfold Engine.accumulate
    rw [Engine.requireShape_eq rfl, Engine.requireShape_eq rfl, ok_bind, ok_bind]
    show (liftM (((List.replicate 4 strayElement).zip (List.replicate 4 smallRing.zero)).mapM
      fun p => Summand.addAssign smallRing p.2 p.1) >>= fun _ => _ : Outcome _) = _
    rw [hslots]
    rfl
  have hsum : smallEngine.sumShares
      ([0, 1, 2].map ((strayStore strayElement).share .one)) =
        .error (.fault .operandOutOfRange) := by
    show (smallEngine.requireShape (constantShare strayElement .one) >>= fun _ =>
      List.foldlM _ (constantShare strayElement .one) (constantShare smallRing.zero .one :: _)) = _
    rw [Engine.requireShape_eq rfl, ok_bind, List.foldlM_cons, hadd]
    rfl
  refine ⟨refusal?_stray _, ?_⟩
  rw [exec_sum, hsum]

end Call
end Protocol
end RelinCeremony
