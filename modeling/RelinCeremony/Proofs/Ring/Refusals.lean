import RelinCeremony.Proofs.Modulus.Construction
import RelinCeremony.Proofs.Ring.Construction
import RelinCeremony.Proofs.Transform.Construction

namespace RelinCeremony
namespace Ring

/-!
# The construction of a ring refuses and does not fault

A ring of a degree below `2 ^ 63` is built or refused, whatever numbers are given as
moduli.  Of the degrees that fit in a word only `2 ^ 63` is left, and there the first
modulus decides: the test for its transform divides by zero, unless the modulus is
refused before.
-/

/-- An admissible number is admitted as a modulus. -/
theorem gives_admitModulus {p : Nat} (h : Modulus.isAdmissible p = true) :
    Gives (admitModulus p) fun m => m.Valid ∧ m.value = p := by
  obtain ⟨_, hbuild, m, rfl, hm⟩ := Modulus.gives_build_of_isAdmissible h
  unfold admitModulus
  rw [hbuild]
  exact ⟨m, rfl, hm⟩

theorem admitModulus_eq_refuse {p : Nat} (h : Modulus.isAdmissible p ≠ true) :
    admitModulus p = Fallible.refuse (.inadmissibleModulus p) := by
  unfold admitModulus
  rw [Modulus.build_eq_none h]
  rfl

namespace NegacyclicRing

/-- The degrees of a ring that fit in a word are below `2 ^ 63`, or `2 ^ 63` itself. -/
theorem eq_of_isDegree {degree : Nat} (h : isDegree degree = true) (hword : degree < 2 ^ 64)
    (hle : 2 ^ 63 ≤ degree) : degree = 2 ^ 63 := by
  unfold isDegree at h
  have hpower := Transform.two_pow_log2 (Bool.and_eq_true_iff.1 h).1
  rw [← hpower] at hword hle ⊢
  have hlt := (Nat.pow_lt_pow_iff_right (by decide)).1 hword
  have hge := (Nat.pow_le_pow_iff_right (by decide)).1 hle
  rw [show degree.log2 = 63 by omega]

/-! ## Degrees below `2 ^ 63` -/

theorem givesUnless_admitChannel {degree : Nat} (hdegree : isDegree degree = true)
    (hlt : degree < 2 ^ 63) (p : Nat) :
    GivesUnless Failure.IsRefusal (admitChannel degree p) fun _ => True := by
  unfold isDegree at hdegree
  simp only [Bool.and_eq_true, decide_eq_true_eq] at hdegree
  unfold admitChannel
  by_cases hp : Modulus.isAdmissible p = true
  · refine (GivesUnless.of_gives (gives_admitModulus hp)).bind fun m hm => ?_
    have hplan := Transform.Plan.gives_build hm.1 hdegree.2 hdegree.1 hlt
    refine (GivesUnless.of_gives (Gives.lift hplan)).bind fun transform? _ => ?_
    cases transform? with
    | none => exact givesUnless_refuse _
    | some transform => trivial
  · rw [admitModulus_eq_refuse hp]
    exact givesUnless_refuse _

theorem givesUnless_completeChannel (product : Nat) (m : Modulus) (transform : Transform.Plan) :
    GivesUnless Failure.IsRefusal (completeChannel product m transform) fun _ => True := by
  unfold completeChannel
  dsimp only
  split
  case h_1 => trivial
  case h_2 => exact givesUnless_refuse _

/-- A ring of a degree below `2 ^ 63` is built or refused. -/
theorem givesUnless_build (moduli : List Nat) {degree : Nat} (hlt : degree < 2 ^ 63) :
    GivesUnless Failure.IsRefusal (build moduli degree) fun _ => True := by
  unfold build
  split
  case isTrue => exact givesUnless_refuse _
  case isFalse hdegree =>
    split
    case isTrue => exact givesUnless_refuse _
    case isFalse =>
      have hdegree' : isDegree degree = true := by simpa using hdegree
      refine (givesUnless_mapM fun p _ => givesUnless_admitChannel hdegree' hlt p).bind
        fun admitted _ => ?_
      refine (givesUnless_mapM fun channel _ =>
        givesUnless_completeChannel _ channel.1 channel.2).bind fun channels _ => ?_
      trivial

/-! ## The degree `2 ^ 63` -/

/-- Twice the degree vanishes as a word, so the transform of an admissible modulus cannot be
asked for. -/
theorem admitChannel_eq_divisionByZero {p : Nat} (h : Modulus.isAdmissible p = true) :
    admitChannel (2 ^ 63) p = .error (.fault .divisionByZero) := by
  obtain ⟨m, hm, _⟩ := gives_admitModulus h
  have hsupported : Transform.isSupported m.value (2 ^ 63) = .error .divisionByZero :=
    Transform.isSupported_eq_divisionByZero m.value (by decide) (by decide) (by decide)
  unfold admitChannel Transform.Plan.build
  rw [hm, ok_bind, hsupported]
  rfl

theorem admitChannel_eq_refuse {degree p : Nat} (h : Modulus.isAdmissible p ≠ true) :
    admitChannel degree p = Fallible.refuse (.inadmissibleModulus p) := by
  unfold admitChannel
  rw [admitModulus_eq_refuse h]
  rfl

/-- The first modulus decides what becomes of a ring of degree `2 ^ 63`. -/
theorem build_two_pow_63 (p : Nat) (moduli : List Nat) :
    build (p :: moduli) (2 ^ 63) =
      if Modulus.isAdmissible p then .error (.fault .divisionByZero)
      else Fallible.refuse (.inadmissibleModulus p) := by
  have hdegree : isDegree (2 ^ 63) = true := by decide
  unfold build
  rw [hdegree, List.mapM_cons]
  by_cases hp : Modulus.isAdmissible p = true
  · rw [admitChannel_eq_divisionByZero hp, if_pos hp]
    rfl
  · rw [admitChannel_eq_refuse hp, if_neg hp]
    rfl

/-- When the construction of a ring faults, and how. -/
theorem build_eq_fault_iff {moduli : List Nat} {degree : Nat} {fault : Fault}
    (hword : degree < 2 ^ 64) :
    build moduli degree = .error (.fault fault) ↔
      degree = 2 ^ 63 ∧ fault = .divisionByZero ∧
        ∃ p, moduli.head? = some p ∧ Modulus.isAdmissible p = true := by
  constructor
  · intro h
    have hle : 2 ^ 63 ≤ degree := by
      by_contra hlt
      exact (givesUnless_build moduli (Nat.not_le.1 hlt)).ne_fault fault h
    have hdegree : isDegree degree = true := by
      by_contra hnot
      unfold build at h
      rw [if_pos (by simpa using hnot)] at h
      cases h
    have heq := eq_of_isDegree hdegree hword hle
    subst heq
    -- The moduli are admitted in order, so nothing behind the first one is looked at.
    cases moduli with
    | nil => cases h
    | cons p moduli =>
        rw [build_two_pow_63] at h
        split at h
        case isTrue hp =>
          cases h
          exact ⟨rfl, rfl, p, rfl, hp⟩
        case isFalse => cases h
  · rintro ⟨rfl, rfl, p, hhead, hp⟩
    cases moduli with
    | nil => cases hhead
    | cons q moduli =>
        cases hhead
        rw [build_two_pow_63, if_pos hp]

end NegacyclicRing
end Ring
end RelinCeremony
