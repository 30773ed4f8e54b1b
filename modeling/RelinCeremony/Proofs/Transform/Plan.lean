import RelinCeremony.Proofs.Modulus.Inverse
import RelinCeremony.Proofs.Modulus.Shoup
import RelinCeremony.Proofs.Prime.Sound
import RelinCeremony.Transform.Plan

namespace RelinCeremony
namespace Transform

/-!
# What a plan holds

A plan that is built belongs to a unit `ψ` with `ψ ^ size = -1`: its tables hold the
powers of `ψ` and of its inverse in bit-reversed order.  How the candidates for
the root are drawn plays no part.
-/

theorem two_pow_log2 {n : Nat} (h : Word.isPowerOfTwo n = true) : 2 ^ n.log2 = n := by
  unfold Word.isPowerOfTwo at h
  simp only [Bool.and_eq_true, beq_iff_eq] at h
  exact h.2

/-- A modulus that supports a size is a prime, 1 modulo twice the size, and the size a
power of two from 8 on. -/
theorem supports_of_isSupported {p size : Nat} (h : isSupported p size = .ok true) :
    8 ≤ size ∧ 2 ^ size.log2 = size ∧ p % Word.low (2 * size) = 1 ∧ p.Prime := by
  unfold isSupported at h
  obtain ⟨_, hsize, h⟩ := bind_eq_ok_iff.1 h
  obtain ⟨rest, hrest, h⟩ := bind_eq_ok_iff.1 h
  unfold Word.checkedMod at hrest
  obtain ⟨_, _, hrest⟩ := bind_eq_ok_iff.1 hrest
  cases hrest
  rw [require_eq_ok_iff] at hsize
  have htrue := Except.ok.inj h
  simp only [Bool.and_eq_true, beq_iff_eq] at htrue
  exact ⟨hsize.1, two_pow_log2 hsize.2, htrue.1, Prime.prime_of_isPrime htrue.2⟩

/-! ## The root -/

/-- A root that is found has the order asked for, and is reduced. -/
theorem hasOrder_of_drawRoot {m : Modulus} {size draws root : Nat} {g g' : Random.Generator}
    (hm : m.Valid) (h : (drawRoot m size draws).run g = .ok (some root, g')) :
    hasOrder m root (2 * size) = true ∧ root < m.value := by
  -- Each draw either ends the search or leaves the rest of it.
  induction draws generalizing g with
  | zero => cases h
  | succ draws ih =>
      unfold drawRoot at h
      rw [StateT.run_bind] at h
      obtain ⟨⟨candidate?, g₁⟩, _, h⟩ := bind_eq_ok_iff.1 h
      cases candidate? with
      | none => cases h
      | some candidate =>
          dsimp only at h
          split at h
          case isTrue horder =>
            cases h
            exact ⟨horder, Modulus.pow_lt hm _ _⟩
          case isFalse => exact ih h

/-- The search for a root among the candidates of a generator, which in `findRoot` is the
one with the fixed seed. -/
def findRootFrom (g : Random.Generator) (m : Modulus) (size : Nat) : Checked (Option Nat) := do
  let (root?, _) ← (drawRoot m size 100).run g
  return root?

theorem hasOrder_of_findRootFrom {g : Random.Generator} {m : Modulus} {size root : Nat}
    (hm : m.Valid) (h : findRootFrom g m size = .ok (some root)) :
    hasOrder m root (2 * size) = true ∧ root < m.value := by
  unfold findRootFrom at h
  obtain ⟨⟨root?, g'⟩, hdraw, h⟩ := bind_eq_ok_iff.1 h
  cases h
  exact hasOrder_of_drawRoot hm hdraw

theorem hasOrder_of_findRoot {m : Modulus} {size root : Nat} (hm : m.Valid)
    (h : findRoot m size = .ok (some root)) :
    hasOrder m root (2 * size) = true ∧ root < m.value :=
  hasOrder_of_findRootFrom hm h

/-- Modulo a prime, a number of order `2 * size` has the power `-1` at `size`. -/
theorem pow_size_eq_neg_one {m : Modulus} {size root : Nat} (hm : m.Valid) (hprime : m.value.Prime)
    (h : hasOrder m root (2 * size) = true) : (root : ZMod m.value) ^ size = -1 := by
  have : Fact m.value.Prime := ⟨hprime⟩
  unfold hasOrder at h
  simp only [Bool.and_eq_true, beq_iff_eq, bne_iff_ne, Modulus.pow_eq_one_iff hm] at h
  obtain ⟨hone, hnotOne⟩ := h
  rw [Nat.mul_div_cancel_left size (by decide)] at hnotOne
  have hsquare : (root : ZMod m.value) ^ size * (root : ZMod m.value) ^ size = 1 := by
    rw [← pow_add, ← two_mul, hone]
  -- In a field only 1 and -1 have square 1, and 1 would make the order smaller.
  rcases mul_self_eq_one_iff.1 hsquare with hpos | hneg
  · exact absurd ((Modulus.pow_eq_one_iff hm).2 hpos) hnotOne
  · exact hneg

/-! ## The tables -/

theorem length_geometric (m : Modulus) (ratio count start : Nat) :
    (geometric m ratio count start).length = count := by
  induction count generalizing start with
  | zero => rfl
  | succ count ih => simp [geometric, ih]

theorem represents_geometric {m : Modulus} (hm : m.Valid) {ratio count start i : Nat}
    (hstart : start < m.value) (hi : i < (geometric m ratio count start).length) :
    m.Represents (geometric m ratio count start)[i] (start * (ratio : ZMod m.value) ^ i) := by
  -- The tail of the sequence is the sequence from the next term on.
  induction count generalizing start i with
  | zero => simp [geometric] at hi
  | succ count ih =>
      cases i with
      | zero => simpa [geometric] using Modulus.represents_self hstart
      | succ i =>
          have hnext : m.mul start ratio < m.value := Nat.mod_lt _ hm.pos
          have hterm := ih hnext (i := i) (by simpa [geometric] using hi)
          have hclass : ((m.mul start ratio : Nat) : ZMod m.value) = start * ratio := by
            rw [Modulus.mul, ZMod.natCast_mod, Nat.cast_mul]
          rw [hclass, mul_assoc, ← pow_succ'] at hterm
          simpa [geometric] using hterm

theorem entry_eq {α : Type} {table : List α} {i : Nat} (hi : i < table.length) :
    entry table.toArray i = .ok table[i] := by
  simp [entry, List.getElem?_eq_getElem hi]

/-- A table in bit-reversed order holds the multipliers of its terms, reversed. -/
theorem gives_entry_reversedMultipliers {m : Modulus} (hm : m.Valid) {depth : Nat}
    {terms : List Nat} {table : Array Multiplier} {v : Nat → ZMod m.value}
    (hlength : terms.length = 2 ^ depth)
    (hterms : ∀ i (hi : i < terms.length), m.Represents terms[i] (v i))
    (h : reversedMultipliers m depth terms = .ok table) {i : Nat} (hi : i < 2 ^ depth) :
    Gives (entry table i) fun multiplier => multiplier.Represents m (v (bitReverse depth i)) := by
  unfold reversedMultipliers at h
  obtain ⟨multipliers, hmultipliers, h⟩ := bind_eq_ok_iff.1 h
  cases h
  have hforall := mapM_eq_ok_iff.1 hmultipliers
  have hcount : multipliers.length = 2 ^ depth := by
    rw [← hforall.length_eq, List.length_range]
  have hterm := hforall.get (i := i) (by simpa using hi) (by rw [hcount]; exact hi)
  simp only [List.get_eq_getElem, List.getElem_range] at hterm
  have hreversed : bitReverse depth i < terms.length := by
    rw [hlength]
    exact bitReverse_lt depth i
  rw [entry_eq hreversed] at hterm
  refine ⟨_, entry_eq (by rw [hcount]; exact hi), ?_⟩
  exact (Multiplier.gives_ofResidue hm (hterms _ hreversed)).value_unique hterm

/-! ## Plans -/

namespace Plan

/-- The invariant of a plan for the modulus `m` and the root `ψ`. -/
structure HasRoot (plan : Plan) (m : Modulus) (ψ : (ZMod m.value)ˣ) : Prop where
  modulus_eq : plan.modulus = m
  size_eq : plan.size = 2 ^ plan.depth
  size_le : 8 ≤ plan.size
  pow_size : ψ ^ plan.size = -1
  rootPowers : ∀ i < plan.size, Gives (entry plan.rootPowers i) fun multiplier =>
    multiplier.Represents m (ψ ^ bitReverse plan.depth i : (ZMod m.value)ˣ)
  inversePowers : ∀ i < plan.size, Gives (entry plan.inversePowers i) fun multiplier =>
    multiplier.Represents m (ψ⁻¹ ^ (bitReverse plan.depth i + 1) : (ZMod m.value)ˣ)
  sizeInverse : ∃ v : ZMod m.value, plan.sizeInverse.Represents m v ∧ v * plan.size = 1

/-- The plan of a root, its inverse and the inverse of the size has the root. -/
theorem hasRoot_of_ofRoot {m : Modulus} {size root inverseRoot sizeInverse : Nat} {plan : Plan}
    {ψ : (ZMod m.value)ˣ} (hm : m.Valid) (hsize : 2 ^ size.log2 = size) (hle : 8 ≤ size)
    (hroot : (ψ : ZMod m.value) = root)
    (hinverse : m.Represents inverseRoot (ψ⁻¹ : (ZMod m.value)ˣ)) (hpow : ψ ^ size = -1)
    {v : ZMod m.value} (hv : m.Represents sizeInverse v) (hunit : v * size = 1)
    (h : ofRoot m size root inverseRoot sizeInverse = .ok plan) :
    plan.HasRoot m ψ ∧ plan.size = size := by
  unfold ofRoot at h
  obtain ⟨rootPowers, hrootPowers, h⟩ := bind_eq_ok_iff.1 h
  obtain ⟨inversePowers, hinversePowers, h⟩ := bind_eq_ok_iff.1 h
  obtain ⟨multiplier, hmultiplier, h⟩ := bind_eq_ok_iff.1 h
  cases h
  have hlength : ∀ ratio start, (geometric m ratio size start).length = 2 ^ size.log2 := by
    intro ratio start
    rw [length_geometric, hsize]
  have hone : 1 < m.value := by
    have hthree := hm.three_le
    omega
  refine ⟨⟨rfl, hsize.symm, hle, hpow, ?_, ?_, ?_⟩, rfl⟩
  · intro i hi
    refine gives_entry_reversedMultipliers hm (v := fun i => (ψ ^ i : (ZMod m.value)ˣ))
      (hlength _ _) (fun i hi => ?_) hrootPowers (by rw [hsize]; exact hi)
    have hterm := represents_geometric hm hone hi
    rwa [Nat.cast_one, one_mul, ← hroot, ← Units.val_pow_eq_pow_val] at hterm
  · intro i hi
    refine gives_entry_reversedMultipliers hm (v := fun i => (ψ⁻¹ ^ (i + 1) : (ZMod m.value)ˣ))
      (hlength _ _) (fun i hi => ?_) hinversePowers (by rw [hsize]; exact hi)
    have hterm := represents_geometric hm hinverse.1 hi
    rwa [hinverse.2, ← Units.val_pow_eq_pow_val, ← Units.val_mul, ← pow_succ'] at hterm
  · exact ⟨v, (Multiplier.gives_ofResidue hm hv).value_unique hmultiplier, hunit⟩

/-- The plan with a root among the candidates of a generator. -/
def buildFrom (g : Random.Generator) (m : Modulus) (size : Nat) : Checked (Option Plan) := do
  if !(← isSupported m.value size) then
    return none
  match m.inverse? size with
  | none => return none
  | some sizeInverse =>
    match ← findRootFrom g m size with
    | none => return none
    | some root =>
      match m.inverse? root with
      | none => return none
      | some inverseRoot =>
        return some (← ofRoot m size root inverseRoot sizeInverse)

theorem build_eq_buildFrom (m : Modulus) (size : Nat) :
    build m size = buildFrom rootGenerator m size := rfl

/-- What a plan that is built is made of. -/
theorem ofRoot_of_buildFrom {g : Random.Generator} {m : Modulus} {size : Nat} {plan : Plan}
    (h : buildFrom g m size = .ok (some plan)) :
    isSupported m.value size = .ok true ∧ ∃ sizeInverse root inverseRoot,
      m.inverse? size = some sizeInverse ∧ findRootFrom g m size = .ok (some root) ∧
      m.inverse? root = some inverseRoot ∧
      ofRoot m size root inverseRoot sizeInverse = .ok plan := by
  unfold buildFrom at h
  obtain ⟨supported, hsupported, h⟩ := bind_eq_ok_iff.1 h
  cases supported with
  | false => cases h
  | true =>
      simp only [Bool.not_true, Bool.false_eq_true, if_false] at h
      split at h
      case h_1 => cases h
      case h_2 sizeInverse hsizeInverse =>
        obtain ⟨root?, hfind, h⟩ := bind_eq_ok_iff.1 h
        cases root? with
        | none => cases h
        | some root =>
            dsimp only at h
            split at h
            case h_1 => cases h
            case h_2 inverseRoot hinverseRoot =>
              obtain ⟨built, hbuilt, h⟩ := bind_eq_ok_iff.1 h
              cases h
              exact ⟨hsupported, sizeInverse, root, inverseRoot, hsizeInverse, hfind,
                hinverseRoot, hbuilt⟩

/-- Whatever the candidates were, a plan that is built belongs to a prime that is 1 modulo
twice the size, and the root that was found is its root. -/
theorem hasRoot_of_buildFrom {g : Random.Generator} {m : Modulus} {size : Nat} {plan : Plan}
    (hm : m.Valid) (h : buildFrom g m size = .ok (some plan)) :
    m.value.Prime ∧ m.value % Word.low (2 * size) = 1 ∧
      (∃ root, ∃ ψ : (ZMod m.value)ˣ, findRootFrom g m size = .ok (some root) ∧
        root < m.value ∧ (ψ : ZMod m.value) = root ∧ plan.HasRoot m ψ) ∧ plan.size = size := by
  obtain ⟨hsupported, sizeInverse, root, inverseRoot, hsizeInverse, hfind, hinverseRoot, hbuilt⟩ :=
    ofRoot_of_buildFrom h
  obtain ⟨hle, hsize, hcongruent, hprime⟩ := supports_of_isSupported hsupported
  have : Fact m.value.Prime := ⟨hprime⟩
  obtain ⟨horder, hrootLt⟩ := hasOrder_of_findRootFrom hm hfind
  obtain ⟨hsizeLt, hsizeUnit⟩ := Modulus.represents_inverse hm hprime hsizeInverse
  obtain ⟨hinverseLt, hrootUnit⟩ := Modulus.represents_inverse hm hprime hinverseRoot
  have hpow := pow_size_eq_neg_one hm hprime horder
  let ψ : (ZMod m.value)ˣ := ⟨root, inverseRoot, hrootUnit, by rw [mul_comm]; exact hrootUnit⟩
  obtain ⟨hplan, hplanSize⟩ := hasRoot_of_ofRoot (ψ := ψ) hm hsize hle rfl
    (Modulus.represents_self hinverseLt) (Units.ext hpow)
    (Modulus.represents_self hsizeLt) (by rw [mul_comm]; exact hsizeUnit) hbuilt
  exact ⟨hprime, hcongruent, ⟨root, ψ, hfind, hrootLt, rfl, hplan⟩, hplanSize⟩

/-- A plan that is built belongs to a prime that is 1 modulo twice the size, and has a
root. -/
theorem hasRoot_of_build {m : Modulus} {size : Nat} {plan : Plan} (hm : m.Valid)
    (h : build m size = .ok (some plan)) :
    m.value.Prime ∧ m.value % Word.low (2 * size) = 1 ∧
      (∃ ψ, plan.HasRoot m ψ) ∧ plan.size = size := by
  rw [build_eq_buildFrom] at h
  obtain ⟨hprime, hcongruent, ⟨_, ψ, _, _, _, hplan⟩, hsize⟩ := hasRoot_of_buildFrom hm h
  exact ⟨hprime, hcongruent, ⟨ψ, hplan⟩, hsize⟩

end Plan
end Transform
end RelinCeremony
