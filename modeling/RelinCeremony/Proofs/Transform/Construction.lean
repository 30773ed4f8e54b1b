import RelinCeremony.Proofs.Random.Rejection
import RelinCeremony.Proofs.Transform.Plan

namespace RelinCeremony
namespace Transform

/-!
# The construction of a plan

For a size from 8 to `2 ^ 62` that is a power of two, the construction of a plan gives
an answer: whether a root is found is open, but no draw, table entry or multiplier is
missing.  For greater sizes twice the size vanishes as a word, and the first test
divides by zero.
-/

/-! ## Support -/

theorem low_two_mul {size : Nat} (h : size < 2 ^ 63) : Word.low (2 * size) = 2 * size := by
  rw [Word.low, Nat.mod_eq_of_lt]
  show 2 * size < 2 ^ 64
  omega

theorem gives_isSupported {p size : Nat} (hle : 8 ≤ size) (hpower : Word.isPowerOfTwo size = true)
    (hlt : size < 2 ^ 63) : Gives (isSupported p size) fun _ => True := by
  have hdouble : Word.low (2 * size) ≠ 0 := by
    rw [low_two_mul hlt]
    omega
  unfold isSupported
  rw [require_bind ⟨hle, hpower⟩, Word.checkedMod_eq hdouble]
  exact ⟨_, rfl, trivial⟩

/-- The remainder modulo twice the size is one by zero if twice the size vanishes as a word. -/
theorem isSupported_eq_divisionByZero {size : Nat} (p : Nat) (hle : 8 ≤ size)
    (hpower : Word.isPowerOfTwo size = true) (hdouble : Word.low (2 * size) = 0) :
    isSupported p size = .error .divisionByZero := by
  unfold isSupported Word.checkedMod
  rw [require_bind ⟨hle, hpower⟩, require_bind_of_not (not_not_intro hdouble)]
  rfl

/-! ## The root -/

theorem yields_drawRoot {allowed : Fault → Prop} (m : Modulus) (size draws : Nat) :
    Random.Draw.Yields allowed (drawRoot m size draws) fun _ => True := by
  induction draws with
  | zero => exact Random.Draw.Yields.pure trivial
  | succ draws ih =>
      have hattempt (limit p : UInt64) :
          Random.Draw.Yields allowed (Random.Draw.attemptBelow limit p)
            fun r => ∀ a, r = some a → True :=
        Random.Draw.yields_word.bind fun _ _ => Random.Draw.Yields.pure fun _ _ => trivial
      unfold drawRoot
      refine (Random.Draw.yields_firstAccepted (hattempt _ _) _).bind fun candidate? _ => ?_
      cases candidate? with
      | none => exact Random.Draw.Yields.pure trivial
      | some candidate =>
          dsimp only
          split
          case isTrue => exact Random.Draw.Yields.pure trivial
          case isFalse => exact ih

/-- The search for a root ends, and a root that it finds is reduced. -/
theorem gives_findRoot {m : Modulus} (hm : m.Valid) (size : Nat) :
    Gives (findRoot m size) fun root? => ∀ root, root? = some root → root < m.value := by
  have hyields : Random.Draw.Yields (fun _ => False) (drawRoot m size 100) fun _ => True :=
    yields_drawRoot m size 100
  obtain ⟨⟨root?, g⟩, hrun, _⟩ := (hyields rootGenerator).gives
  have hfind : findRoot m size = .ok root? := by
    unfold findRoot
    rw [hrun]
    rfl
  refine ⟨root?, hfind, fun root hroot => ?_⟩
  rw [hroot] at hfind
  exact (hasOrder_of_findRoot hm hfind).2

/-! ## The tables -/

theorem gives_reversedMultipliers {m : Modulus} (hm : m.Valid) {depth : Nat} {terms : List Nat}
    (hlength : terms.length = 2 ^ depth) (hreduced : ∀ a ∈ terms, a < m.value) :
    Gives (reversedMultipliers m depth terms) fun _ => True := by
  have hentries : Gives ((List.range (2 ^ depth)).mapM fun i => do
      Multiplier.ofResidue m (← entry terms.toArray (bitReverse depth i)))
      fun ys => List.Forall₂ (fun _ _ => True) (List.range (2 ^ depth)) ys := by
    refine gives_mapM fun i _ => ?_
    have hreversed : bitReverse depth i < terms.length := by
      rw [hlength]
      exact bitReverse_lt depth i
    rw [entry_eq hreversed, ok_bind]
    have hterm := hreduced _ (List.getElem_mem hreversed)
    exact (Multiplier.gives_ofResidue hm (Modulus.represents_self hterm)).imp fun _ _ => trivial
  unfold reversedMultipliers
  exact hentries.bind fun _ _ => by simp

theorem lt_of_mem_geometric {m : Modulus} (hm : m.Valid) {ratio count start a : Nat}
    (hstart : start < m.value) (ha : a ∈ geometric m ratio count start) : a < m.value := by
  obtain ⟨i, hi, rfl⟩ := List.getElem_of_mem ha
  exact (represents_geometric hm hstart hi).1

namespace Plan

/-- The plan of reduced numbers is built. -/
theorem gives_ofRoot {m : Modulus} {size root inverseRoot sizeInverse : Nat} (hm : m.Valid)
    (hpower : 2 ^ size.log2 = size) (hinverseRoot : inverseRoot < m.value)
    (hsizeInverse : sizeInverse < m.value) :
    Gives (ofRoot m size root inverseRoot sizeInverse) fun _ => True := by
  have htable {ratio start : Nat} (hstart : start < m.value) :
      Gives (reversedMultipliers m size.log2 (geometric m ratio size start)) fun _ => True :=
    gives_reversedMultipliers hm (by rw [length_geometric, hpower])
      fun _ ha => lt_of_mem_geometric hm hstart ha
  have hone : 1 < m.value := by
    have hthree := hm.three_le
    omega
  have hmultiplier := Multiplier.gives_ofResidue hm (Modulus.represents_self hsizeInverse)
  unfold ofRoot
  exact (htable hone).bind fun _ _ => (htable hinverseRoot).bind fun _ _ =>
    hmultiplier.bind fun _ _ => by simp

/-- Whether or not there is a plan, the construction gives an answer. -/
theorem gives_build {m : Modulus} {size : Nat} (hm : m.Valid) (hle : 8 ≤ size)
    (hpower : Word.isPowerOfTwo size = true) (hlt : size < 2 ^ 63) :
    Gives (build m size) fun _ => True := by
  have hinverse {a r : Nat} (h : m.inverse? a = some r) : r < m.value := by
    unfold Modulus.inverse? at h
    split at h
    case isTrue => cases h
    case isFalse =>
      cases h
      exact Modulus.pow_lt hm _ _
  unfold build
  refine (gives_isSupported hle hpower hlt).bind fun supported _ => ?_
  cases supported with
  | false => simp
  | true =>
      simp only [Bool.not_true, Bool.false_eq_true, if_false]
      split
      case h_1 => simp
      case h_2 sizeInverse hsizeInverse =>
        refine (gives_findRoot hm size).bind fun root? _ => ?_
        cases root? with
        | none => simp
        | some root =>
            dsimp only
            split
            case h_1 => simp
            case h_2 inverseRoot hinverseRoot =>
              refine (gives_ofRoot hm (two_pow_log2 hpower) (hinverse hinverseRoot)
                (hinverse hsizeInverse)).bind fun _ _ => ?_
              simp

end Plan
end Transform
end RelinCeremony
