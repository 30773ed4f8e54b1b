import RelinCeremony.Proofs.Protocol.ReducedRounds
import RelinCeremony.Proofs.Protocol.Session

namespace RelinCeremony
namespace Protocol

/-!
# Safety of sessions

A session makes its calls one after another.  As long as all containers have the shape of the
engine and all elements are reduced, no call faults, and what it writes is reduced again: the
invariant is `Store.Reduced`.  Only a sum of an empty list is refused.

The noise source is the one part that may fail.  What it is allowed to do is a parameter: a source
that never fails makes a session that never fails, and the normal noise fails only with a rejection
loop that does not end.
-/

open RelinCeremony.Ring (Element NegacyclicRing NormalSampler)

/-! ## Reduced stores -/

namespace Store

/-- All containers have the shape of the engine, and all elements are reduced. -/
structure Reduced (e : Engine) (s : Store) : Prop where
  element : ∀ n, e.ring.Reduced (s.element n)
  matrix : ∀ n, (s.matrix n).Fills e.shape e.ring.Reduced
  share : ∀ r n, (s.share r n).Fills e.shape (r.Holds e.ring.Reduced)
  key : ∀ n, (s.key n).Fills e.shape (Round.two.Holds e.ring.Reduced)

namespace Reduced

variable {e : Engine} {s : Store}

theorem shareOne (h : s.Reduced e) (n : Nat) :
    Grid.Fills (s.share .one n) e.shape e.ring.Reduced :=
  (h.share .one n).imp fun _ hx => Round.holds_one.1 hx

theorem shareThree (h : s.Reduced e) (n : Nat) :
    Grid.Fills (s.share .three n) e.shape e.ring.Reduced :=
  (h.share .three n).imp fun _ hx => Round.holds_three.1 hx

theorem setShare (h : s.Reduced e) {r : Round} {n : Nat} {x : r.Share}
    (hx : x.Fills e.shape (r.Holds e.ring.Reduced)) : (s.setShare r n x).Reduced e := by
  refine ⟨h.element, h.matrix, fun r' n' => ?_, h.key⟩
  by_cases hr : r' = r
  · subst hr
    by_cases hn : n' = n
    · simpa [Store.setShare, hn] using hx
    · simpa [Store.setShare, hn] using h.share r' n'
  · simpa [Store.setShare, hr] using h.share r' n'

theorem setKey (h : s.Reduced e) {n : Nat} {x : RelinearizationKey}
    (hx : x.Fills e.shape (Round.two.Holds e.ring.Reduced)) : (s.setKey n x).Reduced e := by
  refine ⟨h.element, h.matrix, h.share, fun n' => ?_⟩
  by_cases hn : n' = n
  · simpa [Store.setKey, hn] using hx
  · simpa [Store.setKey, hn] using h.key n'

/-- Generators play no part. -/
theorem setFrame (h : s.Reduced e) {r : Round} {out g : Nat} {f : Frame r.Slot}
    (hf : f.out.Fills e.shape (r.Holds e.ring.Reduced)) : (s.setFrame r out g f).Reduced e :=
  let hshare := h.setShare (n := out) hf
  ⟨hshare.element, hshare.matrix, hshare.share, hshare.key⟩

end Reduced
end Store

/-! ## One call -/

namespace Call

open InPlace

/-- The refusal of a sum of an empty list. -/
def emptySum? : Call → Option Error
  | .sum _ [] _ => some (.tooFewValues 0 1)
  | _ => none

/-- A call with its answer: why it is refused, if it is. -/
def answer (e : Engine) (c : Call) (s : Store) : Checked (Option Error × Store) :=
  match c.exec e s with
  | .ok _ t => .ok (none, t)
  | .error (.error err) t => .ok (some err, t)
  | .error (.fault fault) _ => .error fault

variable {e : Engine} {s : Store} {c : Call} {allowed : Fault → Prop}

theorem answer_of_endState {P : Store → Prop}
    (h : GivesUnless (Failure.IsFault allowed) (endState (c.exec e) s) P) :
    GivesUnless allowed (c.answer e s) fun r => r.1 = none ∧ P r.2 := by
  unfold endState at h
  unfold answer
  cases hexec : c.exec e s with
  | ok _ t =>
      rw [hexec] at h
      exact ⟨rfl, h⟩
  | error failure t =>
      rw [hexec] at h
      cases failure with
      | fault fault => exact h
      | error err => exact h.elim

/-- A call that works on a part of the store, given what it does to that part. -/
theorem answer_of_onPart {τ : Type} {read : Store → τ} {write : τ → Store → Store}
    {x : InPlace τ Unit} {y : Outcome τ} {P : τ → Prop} {Q : Store → Prop}
    (hexec : c.exec e s = onPart read write x s) (hend : endState x (read s) = y)
    (hy : GivesUnless (Failure.IsFault allowed) y P) (hwrite : ∀ t, P t → Q (write t s)) :
    GivesUnless allowed (c.answer e s) fun r => r.1 = none ∧ Q r.2 := by
  have hstate : endState (c.exec e) s = endState (onPart read write x) s := by
    rw [endState, hexec, endState]
  refine answer_of_endState ?_
  rw [hstate, endState_onPart, hend]
  exact hy.bind fun t ht => hwrite t ht

/-- A round, given what it writes. -/
theorem answer_of_round {r : Round} {out g : Nat} {x : InPlace (Frame r.Slot) Unit}
    {y : Outcome (r.Share × Random.Generator)} (h : s.Reduced e)
    (hexec : c.exec e s = onPart (Store.frame r out g) (Store.setFrame r out g) x s)
    (hend : endState x ⟨s.share r out, s.generator g⟩ = do
      let (share, g) ← y
      return ⟨share, g⟩)
    (hy : GivesUnless (Failure.IsFault allowed) y fun p =>
      p.1.Fills e.shape (r.Holds e.ring.Reduced)) :
    GivesUnless allowed (c.answer e s) fun a => a.1 = none ∧ a.2.Reduced e := by
  have hframe : GivesUnless (Failure.IsFault allowed)
      (do let (share, g) ← y; return (⟨share, g⟩ : Frame r.Slot)) fun f =>
        f.out.Fills e.shape (r.Holds e.ring.Reduced) :=
    hy.bind fun p hp => hp
  exact answer_of_onPart hexec hend hframe fun f hf => h.setFrame hf

/-- A call keeps a store reduced, and faults only with a fault of the source. -/
theorem answer_reduced (he : e.Valid) (hsource : e.source.WritesReduced allowed e.ring)
    (h : s.Reduced e) (c : Call) :
    GivesUnless allowed (c.answer e s) fun r => r.1 = c.emptySum? ∧ r.2.Reduced e := by
  cases c with
  | allocateShares one two three =>
      refine answer_of_endState ?_
      unfold exec
      rw [endState_liftChecked_bind]
      refine (GivesUnless.of_gives (Engine.gives_zeroShares he)).lift.bind fun shares hshares => ?_
      obtain ⟨hone, htwo, hthree⟩ := hshares
      refine ((h.setShare ?_).setShare ?_).setShare ?_
      · exact hone.fills fun _ _ _ hx => Round.holds_one.2 hx.reduced
      · exact htwo.fills fun _ _ _ hx => Round.holds_two.2 ⟨hx.1.reduced, hx.2.reduced⟩
      · exact hthree.fills fun _ _ _ hx => Round.holds_three.2 hx.reduced
  | allocateKey out =>
      refine answer_of_endState ?_
      unfold exec
      rw [endState_liftChecked_bind]
      refine (GivesUnless.of_gives (Engine.gives_zeroPairGrid he)).lift.bind fun key hkey => ?_
      exact h.setKey (hkey.fills fun _ _ _ hx => Round.holds_two.2 ⟨hx.1.reduced, hx.2.reduced⟩)
  | roundOne ephemeral secret matrix out generator =>
      have hround := Engine.roundOne_reduced (s.generator generator) he hsource
        (h.element ephemeral) (h.element secret) (h.matrix matrix) (h.shareOne out)
      exact answer_of_round h (exec_roundOne e s ephemeral secret matrix out generator)
        (Engine.endState_roundOneInPlace (h.matrix matrix).isFull (h.shareOne out).isFull)
        (hround.imp fun _ hr => hr.imp fun _ hx => Round.holds_one.2 hx)
  | roundTwo aggregate secret matrix out generator =>
      have hround := Engine.roundTwo_reduced (s.generator generator) he hsource
        (h.shareOne aggregate) (h.element secret) (h.matrix matrix) (h.share .two out)
      exact answer_of_round h (exec_roundTwo e s aggregate secret matrix out generator)
        (Engine.endState_roundTwoInPlace (h.shareOne aggregate).isFull (h.matrix matrix).isFull
          (h.share .two out).isFull) hround
  | roundThree aggregate ephemeral secret out generator =>
      have hround := Engine.roundThree_reduced (s.generator generator) he hsource
        (h.share .two aggregate) (h.element ephemeral) (h.element secret) (h.shareThree out)
      exact answer_of_round h (exec_roundThree e s aggregate ephemeral secret out generator)
        (Engine.endState_roundThreeInPlace (h.share .two aggregate).isFull
          (h.shareThree out).isFull)
        (hround.imp fun _ hr => hr.imp fun _ hx => Round.holds_three.2 hx)
  | add r a b out =>
      refine answer_of_onPart (exec_add e s r a b out)
        (Engine.endState_addInPlace (h.share r a).isFull (h.share r b).isFull
          (h.share r out).isFull)
        (.of_gives (Engine.gives_addShares_reduced he (h.share r a) (h.share r b) (h.share r out)))
        fun sum hsum => ?_
      exact h.setShare hsum
  | accumulate r total share =>
      refine answer_of_onPart (exec_accumulate e s r total share)
        (Engine.endState_accumulateInPlace (h.share r total).isFull (h.share r share).isFull)
        (.of_gives (Engine.gives_accumulate_reduced he (h.share r total) (h.share r share)))
        fun sum hsum => ?_
      exact h.setShare hsum
  | sum r shares out =>
      unfold answer
      rw [exec_sum]
      cases shares with
      | nil => exact ⟨rfl, h⟩
      | cons first rest =>
          have hshares : ∀ share ∈ (first :: rest).map (s.share r),
              share.Fills e.shape (r.Holds e.ring.Reduced) := by
            intro share hshare
            obtain ⟨n, _, rfl⟩ := List.mem_map.1 hshare
            exact h.share r n
          obtain ⟨total, htotal, hfills⟩ := Engine.gives_sumShares_reduced he (by simp) hshares
          rw [htotal]
          exact ⟨rfl, h.setShare hfills⟩
  | key two three out =>
      refine answer_of_onPart (exec_key e s two three out)
        (Engine.endState_keyInPlace (h.share .two two).isFull (h.shareThree three).isFull
          (h.key out).isFull)
        (.of_gives (Engine.gives_relinearizationKey_reduced he (h.share .two two)
          (h.shareThree three) (h.key out))) fun key hkey => ?_
      exact h.setKey hkey

end Call

/-! ## Sessions -/

/-- The calls of a session one after another, with their answers. -/
def session (e : Engine) : List Call → Store → Checked (List (Option Error) × Store)
  | [], s => return ([], s)
  | c :: calls, s => do
      let (answer, s) ← c.answer e s
      let (answers, s) ← session e calls s
      return (answer :: answers, s)

theorem session_reduced {e : Engine} {allowed : Fault → Prop} (he : e.Valid)
    (hsource : e.source.WritesReduced allowed e.ring) (calls : List Call) {s : Store}
    (h : s.Reduced e) :
    GivesUnless allowed (session e calls s) fun r =>
      r.1 = calls.map Call.emptySum? ∧ r.2.Reduced e := by
  -- The store is generalised: each call leaves a reduced one to the rest.
  induction calls generalizing s with
  | nil => exact ⟨rfl, h⟩
  | cons c calls ih =>
      rw [session]
      refine (Call.answer_reduced he hsource h c).bind fun first hfirst => ?_
      refine (ih hfirst.2).bind fun rest hrest => ?_
      exact ⟨by rw [List.map_cons, hfirst.1, hrest.1], hrest.2⟩

/-- A session on containers of the shape of the engine with reduced elements makes all its calls,
but for the sums of empty lists, which are refused, and ends with such containers.  With a source
that writes reduced elements it never faults; with normal noise it faults only if a rejection loop
does not end. -/
theorem session_safe {moduli : List Nat} {degree digitBits : Nat} {ring : NegacyclicRing}
    {source : Ring.NoiseSource} {e : Engine}
    (hring : NegacyclicRing.build moduli degree = .ok ring)
    (hengine : Engine.build ring source digitBits = .ok e) (calls : List Call) (s : Store)
    (hs : s.Reduced e) :
    ((∀ old g, ring.Reduced old →
        Gives ((source.noise ring old).run g) fun r => ring.Reduced r.1) →
      Gives (session e calls s) fun r => r.1 = calls.map Call.emptySum? ∧ r.2.Reduced e) ∧
    ∀ sampler : NormalSampler, source = sampler.source →
      GivesUnless (· = .endlessRejection) (session e calls s) fun r =>
        r.1 = calls.map Call.emptySum? ∧ r.2.Reduced e := by
  obtain ⟨hvalid, _, _⟩ := NegacyclicRing.valid_of_build hring
  obtain ⟨hpos, rfl⟩ := Engine.build_eq_ok_iff.1 hengine
  have he := (Engine.valid_of_build hvalid hengine).1
  constructor
  · intro hwrites
    exact (session_reduced he (fun old hold g => .of_gives (hwrites old g hold)) calls hs).gives
  · rintro sampler rfl
    have hsource : sampler.source.WritesReduced (· = .endlessRejection) ring :=
      NormalSampler.writesReduced (by rfl) sampler hvalid
    exact session_reduced he hsource calls hs

/-! ## A small session -/

def smallStore : Store where
  element n := smallKey (if n = 0 then [1, 0, -1, 1, 0, 0, 1, -1] else [0, 1, 1, 0, -1, 0, 0, 1])
  matrix _ := smallMatrix
  share r _ := Call.constantShare smallRing.zero r
  key _ := smallOut
  generator n := .chacha8 (.ofWord (.ofNat n))

theorem smallStore_reduced : smallStore.Reduced smallEngine where
  element n := smallKey_reduced (by split <;> rfl)
  matrix _ := isRun_small.matrix
  share r _ := Call.fills_constantShare
    (NegacyclicRing.represents_zero smallEngine_valid.ring.validModuli).reduced r
  key _ :=
    have hzero := (NegacyclicRing.represents_zero smallEngine_valid.ring.validModuli).reduced
    fills_replicate (Round.holds_two.2 ⟨hzero, hzero⟩)

/-- The three rounds with sums of each kind, a sum of an empty list, and the key. -/
def smallCalls : List Call :=
  [.allocateShares 0 0 0, .roundOne 0 1 0 1 0, .accumulate .one 0 1, .roundTwo 0 1 0 1 0,
    .sum .two [1, 0] 2, .sum .two [] 0, .roundThree 2 0 1 1 1, .add .three 0 1 2, .allocateKey 0,
    .key 2 2 0]

/-- The small engine with normal noise. -/
def normalEngine : Engine := { smallEngine with source := NormalSampler.standard.source }

theorem session_safe_small :
    (Gives (session smallEngine smallCalls smallStore) fun r =>
      r.1 = [none, none, none, none, none, some (.tooFewValues 0 1), none, none, none, none] ∧
        r.2.Reduced smallEngine) ∧
    GivesUnless (· = .endlessRejection) (session normalEngine smallCalls smallStore) fun r =>
      r.1 = [none, none, none, none, none, some (.tooFewValues 0 1), none, none, none, none] ∧
        r.2.Reduced normalEngine := by
  have hreduced := smallStore_reduced
  constructor
  · refine (session_safe build_smallRing build_smallEngine smallCalls smallStore hreduced).1 ?_
    exact fun old g hold => (Ring.BoundedNoise.isBounded_source _ smallEngine_valid.ring old g
      hold.1).imp fun _ ha => ha.reduced smallEngine_valid.ring
  · have hbuild : Engine.build smallRing NormalSampler.standard.source 30 = .ok normalEngine :=
      Engine.build_eq_ok_iff.2 ⟨by decide, rfl⟩
    have hnormal : smallStore.Reduced normalEngine :=
      ⟨hreduced.element, hreduced.matrix, hreduced.share, hreduced.key⟩
    exact (session_safe build_smallRing hbuild smallCalls smallStore hnormal).2 _ rfl

end Protocol
end RelinCeremony
