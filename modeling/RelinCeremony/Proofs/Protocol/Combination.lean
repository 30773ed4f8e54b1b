import RelinCeremony.Proofs.Protocol.Ceremony
import RelinCeremony.Proofs.Protocol.Slots

namespace RelinCeremony
namespace Protocol

/-!
# Combinations of shares

The shares of a round can be summed in many ways: two shares are added over a third, one is
added to another in place, a list is summed at once, and zero shares can be mixed in.  A
`Combination` is a tree of such steps over the shares of a list.

The value of a combination is the sum of the values of its leaves.  So all combinations that
use every share of the list once give the same share.
-/

open RelinCeremony.Ring (Element NegacyclicRing)

instance {α : Type} : Inhabited (Grid α) := ⟨⟨⟨0, 0⟩, []⟩⟩

instance : (r : Round) → Inhabited r.Slot
  | .one => inferInstanceAs (Inhabited Element)
  | .two => inferInstanceAs (Inhabited (Element × Element))
  | .three => inferInstanceAs (Inhabited Element)

/-- A way to combine the shares of a list. -/
inductive Combination (r : Round) where
  /-- The share with the given number in the list. -/
  | given (index : Nat)
  | zero
  /-- The sum of two combinations, written over a share. -/
  | add (a b : Combination r) (out : r.Share)
  /-- The first combination, with the second added to it. -/
  | accumulate (total added : Combination r)
  /-- The sum of a list of combinations, which is not empty. -/
  | sum (first : Combination r) (rest : List (Combination r))

namespace Combination

variable {r : Round}

mutual

/-- The share that a combination of shares gives. -/
def run (e : Engine) (shares : List r.Share) : Combination r → Outcome r.Share
  | .given index => (Lockstep.read shares index : Checked _)
  | .zero => (e.zeroShare r : Checked _)
  | .add a b out => do e.addShares (← a.run e shares) (← b.run e shares) out
  | .accumulate total added => do e.accumulate (← total.run e shares) (← added.run e shares)
  | .sum first rest => do e.sumShares ((← first.run e shares) :: (← runAll e shares rest))

def runAll (e : Engine) (shares : List r.Share) : List (Combination r) → Outcome (List r.Share)
  | [] => return []
  | c :: cs => do return (← c.run e shares) :: (← runAll e shares cs)

end

mutual

/-- The numbers of the shares that a combination uses, from left to right. -/
def leaves : Combination r → List Nat
  | .given index => [index]
  | .zero => []
  | .add a b _ => a.leaves ++ b.leaves
  | .accumulate total added => total.leaves ++ added.leaves
  | .sum first rest => first.leaves ++ leavesAll rest

def leavesAll : List (Combination r) → List Nat
  | [] => []
  | c :: cs => c.leaves ++ leavesAll cs

end

mutual

/-- The shares that a combination writes over. -/
def outs : Combination r → List r.Share
  | .given _ => []
  | .zero => []
  | .add a b out => out :: (a.outs ++ b.outs)
  | .accumulate total added => total.outs ++ added.outs
  | .sum first rest => first.outs ++ outsAll rest

def outsAll : List (Combination r) → List r.Share
  | [] => []
  | c :: cs => c.outs ++ outsAll cs

end

/-- The combination uses each of so many shares exactly once, and writes over shares of the
engine. -/
structure Covers (e : Engine) (count : Nat) (c : Combination r) : Prop where
  leaves : c.leaves.Perm (List.range count)
  outs : ∀ out ∈ c.outs, out.Fills e.shape (r.Holds e.ring.Fits)

/-! ## Values -/

section Values

variable {e : Engine} {shares : List r.Share}

/-- The classes of the share with the given number, in the slot `(i, w)`. -/
def shareValues (ring : NegacyclicRing) (shares : List r.Share) (i w index : Nat) :
    Fin r.width → ring.Values :=
  r.values ring ((shares.getD index default).slot i w)

/-- The sum of the classes of the leaves. -/
def leafSum (ring : NegacyclicRing) (shares : List r.Share) (leaves : List Nat) (i w : Nat) :
    Fin r.width → ring.Values :=
  (leaves.map (shareValues ring shares i w)).sum

theorem leafSum_append (ring : NegacyclicRing) (shares : List r.Share) (xs ys : List Nat)
    (i w : Nat) :
    leafSum ring shares (xs ++ ys) i w =
      leafSum ring shares xs i w + leafSum ring shares ys i w := by
  simp [leafSum]

theorem fillsAt_values {share : r.Share} (h : share.Fills e.shape (r.Holds e.ring.Reduced)) :
    share.FillsAt e.shape fun i w x =>
      r.Represents e.ring x (r.values e.ring (share.slot i w)) := by
  refine h.fillsAt.imp fun i w x hx => ?_
  rw [← hx.2]
  exact hx.1.represents

mutual

/-- A combination gives the sum of its leaves. -/
theorem gives_run (he : e.Valid)
    (hshares : ∀ share ∈ shares, share.Fills e.shape (r.Holds e.ring.Reduced)) :
    (c : Combination r) → (∀ n ∈ c.leaves, n < shares.length) →
      (∀ out ∈ c.outs, out.Fills e.shape (r.Holds e.ring.Fits)) →
      Gives (c.run e shares) fun x => x.FillsAt e.shape fun i w slot =>
        r.Represents e.ring slot (leafSum e.ring shares c.leaves i w)
  | .given index, hleaves, _ => by
      have hindex : index < shares.length := hleaves index (by simp [leaves])
      refine ⟨shares[index], ?_, ?_⟩
      · rw [run, Lockstep.read_eq hindex]
        rfl
      · have hvalues := fillsAt_values (hshares _ (List.getElem_mem hindex))
        simpa [leaves, leafSum, shareValues, List.getElem?_eq_getElem hindex] using hvalues
  | .zero, _, _ => by
      rw [run]
      refine (Engine.gives_zeroShare he r).lift.imp fun x hx => ?_
      simpa [leaves, leafSum] using hx
  | .add a b out, hleaves, houts => by
      simp only [leaves, outs, List.mem_append, List.mem_cons] at hleaves houts
      have ha := gives_run he hshares a (fun n hn => hleaves n (.inl hn))
        fun o ho => houts o (.inr (.inl ho))
      have hb := gives_run he hshares b (fun n hn => hleaves n (.inr hn))
        fun o ho => houts o (.inr (.inr ho))
      rw [run]
      refine ha.bind fun x hx => hb.bind fun y hy => ?_
      simp only [leaves, leafSum_append]
      exact Engine.gives_addShares (R := r.Represents e.ring)
        (fun _ _ _ _ _ hv hw hold => Round.gives_add he.ring.validModuli hv hw hold) hx hy
        (houts out (.inl rfl))
  | .accumulate total added, hleaves, houts => by
      simp only [leaves, outs, List.mem_append] at hleaves houts
      have htotal := gives_run he hshares total (fun n hn => hleaves n (.inl hn))
        fun o ho => houts o (.inl ho)
      have hadded := gives_run he hshares added (fun n hn => hleaves n (.inr hn))
        fun o ho => houts o (.inr ho)
      rw [run]
      refine htotal.bind fun x hx => hadded.bind fun y hy => ?_
      simp only [leaves, leafSum_append]
      exact Engine.gives_accumulate (R := r.Represents e.ring)
        (fun _ _ _ _ hv hw => Round.gives_addAssign he.ring.validModuli hv hw) hx hy
  | .sum first rest, hleaves, houts => by
      simp only [leaves, outs, List.mem_append] at hleaves houts
      have hfirst := gives_run he hshares first (fun n hn => hleaves n (.inl hn))
        fun o ho => houts o (.inl ho)
      have hrest := gives_runAll he hshares rest (fun n hn => hleaves n (.inr hn))
        fun o ho => houts o (.inr ho)
      rw [run]
      refine hfirst.bind fun x hx => hrest.bind fun ys hys => ?_
      obtain ⟨vs, hsum, hforall⟩ := hys
      have htotal := Engine.gives_sumShares (e := e) (R := r.Represents e.ring)
        (fun _ _ _ _ hv hw => Round.gives_addAssign he.ring.validModuli hv hw)
        (v := fun i w v => v i w) (List.cons_ne_nil _ vs)
        (.cons (b := leafSum e.ring shares first.leaves) hx hforall)
      simpa only [leaves, leafSum_append, hsum, List.map_cons, List.sum_cons] using htotal

theorem gives_runAll (he : e.Valid)
    (hshares : ∀ share ∈ shares, share.Fills e.shape (r.Holds e.ring.Reduced)) :
    (cs : List (Combination r)) → (∀ n ∈ leavesAll cs, n < shares.length) →
      (∀ out ∈ outsAll cs, out.Fills e.shape (r.Holds e.ring.Fits)) →
      Gives (runAll e shares cs) fun xs => ∃ vs : List (Nat → Nat → Fin r.width → e.ring.Values),
        (∀ i w, leafSum e.ring shares (leavesAll cs) i w = (vs.map fun v => v i w).sum) ∧
        List.Forall₂ (fun x v => x.FillsAt e.shape fun i w slot =>
          r.Represents e.ring slot (v i w)) xs vs
  | [], _, _ => ⟨[], rfl, [], by simp [leavesAll, leafSum], .nil⟩
  | c :: cs, hleaves, houts => by
      simp only [leavesAll, outsAll, List.mem_append] at hleaves houts
      have hc := gives_run he hshares c (fun n hn => hleaves n (.inl hn))
        fun o ho => houts o (.inl ho)
      have hcs := gives_runAll he hshares cs (fun n hn => hleaves n (.inr hn))
        fun o ho => houts o (.inr ho)
      rw [runAll]
      refine hc.bind fun x hx => hcs.bind fun xs hxs => ?_
      obtain ⟨vs, hsum, hforall⟩ := hxs
      refine ⟨x :: xs, rfl, leafSum e.ring shares c.leaves :: vs, fun i w => ?_, .cons hx hforall⟩
      simp only [leavesAll, leafSum_append, hsum, List.map_cons, List.sum_cons]

end

/-- The sum of the classes of all shares of a list. -/
def totalValues (ring : NegacyclicRing) (shares : List r.Share) (i w : Nat) :
    Fin r.width → ring.Values :=
  (shares.map fun share => r.values ring (share.slot i w)).sum

/-- The sums of classes are the classes of the sums of residues. -/
theorem totalValues_apply (ring : NegacyclicRing) (shares : List r.Share) (i w : Nat)
    (c : Fin r.width) (j : Fin ring.channels.length) (t : Fin ring.degree) :
    totalValues ring shares i w c j t =
      (((shares.map fun share => (r.component (share.slot i w) c).residue j t).sum : Nat) :
        ZMod (ring.channel j).modulus.value) := by
  unfold totalValues
  induction shares with
  | nil => simp
  | cons share shares ih =>
      simp only [List.map_cons, List.sum_cons, Pi.add_apply, Nat.cast_add, ih]
      rfl

theorem leafSum_range (ring : NegacyclicRing) (shares : List r.Share) (i w : Nat) :
    leafSum ring shares (List.range shares.length) i w = totalValues ring shares i w := by
  have hmap : (List.range shares.length).map (shareValues ring shares i w) =
      shares.map fun share => r.values ring (share.slot i w) := by
    refine List.ext_getElem (by simp) fun n hn hn' => ?_
    have hlt : n < shares.length := by simpa using hn
    simp [shareValues, List.getElem?_eq_getElem hlt]
  rw [leafSum, hmap, totalValues]

/-- A combination that uses every share once gives the sum of all of them. -/
theorem Covers.gives_run (he : e.Valid)
    (hshares : ∀ share ∈ shares, share.Fills e.shape (r.Holds e.ring.Reduced))
    {c : Combination r} (hc : c.Covers e shares.length) :
    Gives (c.run e shares) fun x => x.FillsAt e.shape fun i w slot =>
      r.Represents e.ring slot (totalValues e.ring shares i w) := by
  have hlt : ∀ n ∈ c.leaves, n < shares.length := fun n hn =>
    List.mem_range.1 (hc.leaves.mem_iff.1 hn)
  have hsum : ∀ i w, leafSum e.ring shares c.leaves i w = totalValues e.ring shares i w := by
    intro i w
    rw [← leafSum_range]
    exact (hc.leaves.map _).sum_eq
  refine (Combination.gives_run he hshares c hlt hc.outs).imp fun x hx => ?_
  simpa only [hsum] using hx

/-- Two combinations that use every share once give the same share. -/
theorem Covers.run_eq (he : e.Valid)
    (hshares : ∀ share ∈ shares, share.Fills e.shape (r.Holds e.ring.Reduced))
    {c d : Combination r} (hc : c.Covers e shares.length) (hd : d.Covers e shares.length) :
    c.run e shares = d.run e shares := by
  obtain ⟨x, hx, hxvalues⟩ := hc.gives_run he hshares
  obtain ⟨y, hy, hyvalues⟩ := hd.gives_run he hshares
  rw [hx, hy, hxvalues.ext hyvalues fun _ _ _ _ h h' => h.unique h']

end Values

/-- The combination that adds the shares in the order of the list to a zero share. -/
def inOrder (r : Round) (count : Nat) : Combination r :=
  .sum .zero ((List.range count).map .given)

theorem covers_inOrder (e : Engine) (r : Round) (count : Nat) :
    (inOrder r count).Covers e count := by
  have hall : ∀ indices : List Nat, leavesAll (r := r) (indices.map .given) = indices ∧
      outsAll (r := r) (indices.map .given) = [] := by
    intro indices
    induction indices with
    | nil => exact ⟨rfl, rfl⟩
    | cons n indices ih => simp [leavesAll, outsAll, leaves, outs, ih]
  constructor
  · simp [inOrder, leaves, hall]
  · simp [inOrder, outs, hall]

end Combination

/-! ## The sum, residue by residue -/

/-- In every slot, component, residue and position the share has the sum of the residues of the
shares, modulo the modulus of the channel. -/
def IsSum (e : Engine) {r : Round} (shares : List r.Share) (total : r.Share) : Prop :=
  total.FillsAt e.shape fun i w x => ∀ c, e.ring.Fits (r.component x c) ∧
    ∀ (j : Fin e.ring.channels.length) (t : Fin e.ring.degree),
      (r.component x c).residue j t =
        (shares.map fun share => (r.component (share.slot i w) c).residue j t).sum %
          (e.ring.channel j).modulus.value

theorem isSum_of_represents {e : Engine} (he : e.Valid) {r : Round} {shares : List r.Share}
    {total : r.Share} (h : total.FillsAt e.shape fun i w x =>
      r.Represents e.ring x (Combination.totalValues e.ring shares i w)) :
    IsSum e shares total := by
  refine h.imp fun i w x hx c => ⟨(hx c).1, fun j t => ?_⟩
  have hcell := (hx c).2 j t
  rw [Combination.totalValues_apply] at hcell
  exact hcell.unique (Modulus.represents_mod (he.ring.validModuli j) _)

end Protocol
end RelinCeremony
