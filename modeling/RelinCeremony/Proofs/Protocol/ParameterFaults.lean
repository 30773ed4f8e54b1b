import RelinCeremony.Proofs.Prime.Search
import RelinCeremony.Proofs.Protocol.Parameters
import RelinCeremony.Proofs.Ring.Refusals

namespace RelinCeremony
namespace Protocol

/-!
# When the construction of parameters faults

A request is answered by parameters or by a refusal, with one exception.  The degree
`2 ^ 63` passes the check of the degree, but twice of it is no word: the search for primes
overflows in computing it, and the test of a given modulus divides by what is left of it.
Both come after the other checks, so a request that fails one of those is refused all the
same.
-/

/-- The checks before the moduli pass: the degree, the digits and the noise are admitted, and
either the moduli are given or their sizes. -/
structure Request.Admitted (request : Request) (sampler : Ring.NormalSampler) : Prop where
  degree : 8 ≤ request.degree ∧ Word.isPowerOfTwo request.degree = true
  digitBits : 0 < request.digitBits ∧ request.digitBits ≤ coveredBits
  deviation : Ring.NormalSampler.build request.deviation = .ok sampler
  exclusive : request.moduli = [] ↔ request.modulusSizes ≠ []

/-- A prime is searched: the first of the sizes is in the range that is searched. -/
def Request.SearchesPrimes (request : Request) : Prop :=
  ∃ bits, request.modulusSizes.head? = some bits ∧ leastModulusBits ≤ bits ∧ bits ≤ coveredBits

/-- The transform of a given modulus is asked for: no modulus is too large, and the first one
is admissible. -/
def Request.ExaminesModulus (request : Request) : Prop :=
  (∀ q ∈ request.moduli, Word.bitLength q ≤ coveredBits) ∧
    ∃ p, request.moduli.head? = some p ∧ Modulus.isAdmissible p = true

namespace Parameters

/-! ## The search for moduli -/

theorem gives_unusedPrime {bits step : Nat} (hstep : step % 2 = 0) (chosen : List Nat)
    (attempts : Nat) {upper : Nat} (hupper : upper ≤ 2 ^ bits ∧ 2 ^ (bits - 1) < upper) :
    Gives (unusedPrime bits step chosen attempts upper) fun _ => True := by
  -- A prime that is chosen already is the next upper bound, and lies in the same range.
  induction attempts generalizing upper with
  | zero => simp [unusedPrime]
  | succ attempts ih =>
      unfold unusedPrime
      refine (Prime.gives_largestBelow hupper hstep).bind fun prime? hprime => ?_
      cases prime? with
      | none => simp
      | some prime =>
          have hbounds := hprime prime rfl
          dsimp only
          split
          case isTrue => exact ih ⟨by omega, hbounds.1⟩
          case isFalse => simp

/-- Moduli of a degree below `2 ^ 63` are found or refused. -/
theorem givesUnless_chooseModuli {degree : Nat} (hlt : degree < 2 ^ 63) (sizes chosen : List Nat) :
    GivesUnless Failure.IsRefusal (chooseModuli degree sizes chosen) fun _ => True := by
  induction sizes generalizing chosen with
  | nil => trivial
  | cons bits sizes ih =>
      have hdouble : 2 * degree < Word.size := by
        unfold Word.size
        omega
      unfold chooseModuli
      split
      case isTrue => exact givesUnless_refuse _
      case isFalse hbits =>
        have hpos : bits ≠ 0 := by
          rintro rfl
          exact hbits rfl
        have hrange : 2 ^ (bits - 1) < 2 ^ bits := Nat.pow_lt_pow_right (by decide) (by omega)
        have hunused : Gives (unusedPrime bits (2 * degree) chosen (chosen.length + 1) (2 ^ bits))
            fun _ => True :=
          gives_unusedPrime (by omega) chosen _ ⟨Nat.le_refl (2 ^ bits), hrange⟩
        rw [Word.checkedMul_eq hdouble, lift_ok, ok_bind]
        refine (GivesUnless.of_gives (Gives.lift hunused)).bind fun prime? _ => ?_
        cases prime? with
        | none => exact givesUnless_refuse _
        | some prime => exact ih _

/-- The first size decides what becomes of a search for the degree `2 ^ 63`. -/
theorem chooseModuli_two_pow_63 (bits : Nat) (sizes chosen : List Nat) :
    chooseModuli (2 ^ 63) (bits :: sizes) chosen =
      if leastModulusBits ≤ bits ∧ bits ≤ coveredBits then .error (.fault .overflow)
      else Fallible.refuse (.parameters (.modulusSize bits)) := by
  unfold chooseModuli
  by_cases hbits : leastModulusBits ≤ bits ∧ bits ≤ coveredBits
  · rw [if_pos hbits, if_neg (by simp [hbits])]
    rfl
  · rw [if_neg hbits, if_pos (by simp; omega)]

/-! ## The rest of the construction -/

/-- The moduli of a request: those given, or primes of the sizes given. -/
def requestedModuli (request : Request) : Outcome (List Nat) :=
  if request.modulusSizes.isEmpty then pure request.moduli
  else chooseModuli request.degree request.modulusSizes []

/-- The rest of the construction, with the moduli at hand. -/
def ofModuli (request : Request) (sampler : Ring.NormalSampler) (moduli : List Nat) :
    Outcome Parameters := do
  checkSizes (moduli.map Word.bitLength)
  let ring ← Fallible.mapError Error.ring (Ring.NegacyclicRing.build moduli request.degree)
  return ⟨ring, moduli.map Word.bitLength, request.digitBits, sampler⟩

theorem checkSizes_of_le {sizes : List Nat} (h : ∀ bits ∈ sizes, bits ≤ coveredBits) :
    checkSizes sizes = .ok () := by
  have hnone : sizes.find? (fun bits => coveredBits < bits) = none := by
    simpa using h
  unfold checkSizes
  rw [hnone]
  rfl

theorem checkSizes_of_not_le {sizes : List Nat} (h : ¬ ∀ bits ∈ sizes, bits ≤ coveredBits) :
    ∃ bits, checkSizes sizes = Fallible.refuse (.parameters (.modulusSize bits)) := by
  cases hfind : sizes.find? (fun bits => coveredBits < bits) with
  | none => exact absurd (by simpa using hfind) h
  | some bits =>
      refine ⟨bits, ?_⟩
      unfold checkSizes
      rw [hfind]

theorem mapError_eq_fault_iff {ε δ α : Type} {embed : ε → δ} {x : Fallible ε α} {fault : Fault} :
    Fallible.mapError embed x = .error (.fault fault) ↔ x = .error (.fault fault) := by
  cases x with
  | ok a => simp [Fallible.mapError]
  | error failure => cases failure <;> simp [Fallible.mapError]

/-- Once the moduli are at hand, only the ring can make the construction fault. -/
theorem ofModuli_eq_fault_iff {request : Request} {sampler : Ring.NormalSampler}
    {moduli : List Nat} {fault : Fault} :
    ofModuli request sampler moduli = .error (.fault fault) ↔
      (∀ q ∈ moduli, Word.bitLength q ≤ coveredBits) ∧
        Ring.NegacyclicRing.build moduli request.degree = .error (.fault fault) := by
  unfold ofModuli
  by_cases hsizes : ∀ q ∈ moduli, Word.bitLength q ≤ coveredBits
  · rw [checkSizes_of_le (by simpa using hsizes), ok_bind, bind_pure_eq_error_iff,
      mapError_eq_fault_iff, and_iff_right hsizes]
  · obtain ⟨bits, hrefused⟩ : ∃ bits, checkSizes (moduli.map Word.bitLength) =
        Fallible.refuse (.parameters (.modulusSize bits)) :=
      checkSizes_of_not_le (by simpa using hsizes)
    rw [hrefused]
    constructor
    · intro h
      cases h
    · rintro ⟨h, _⟩
      exact absurd h hsizes

/-! ## The checks -/

/-- A request that passes the checks comes to its moduli. -/
theorem build_eq_of_admitted {request : Request} {sampler : Ring.NormalSampler}
    (h : request.Admitted sampler) :
    build request = requestedModuli request >>= ofModuli request sampler := by
  have hdegree : ¬ (request.degree < 8 || !Word.isPowerOfTwo request.degree) = true := by
    simpa using h.degree
  have hdigitBits : ¬ (request.digitBits == 0 || coveredBits < request.digitBits) = true := by
    simpa [Nat.pos_iff_ne_zero] using h.digitBits
  have hboth : ¬ (!request.moduli.isEmpty && !request.modulusSizes.isEmpty) = true := by
    have hone : request.modulusSizes ≠ [] → request.moduli = [] := h.exclusive.2
    simpa [not_imp_comm] using hone
  have hneither : ¬ (request.moduli.isEmpty && request.modulusSizes.isEmpty) = true := by
    simpa using h.exclusive.1
  unfold build
  rw [if_neg hdegree, if_neg hdigitBits, h.deviation]
  dsimp only
  rw [if_neg hboth, if_neg hneither]
  unfold requestedModuli
  split <;> rfl

/-- A request that does not pass the checks is refused. -/
theorem admitted_or_refused (request : Request) :
    (∃ sampler, request.Admitted sampler) ∨ ∃ reason, build request = Fallible.refuse reason := by
  unfold build
  by_cases hdegree : (request.degree < 8 || !Word.isPowerOfTwo request.degree) = true
  · rw [if_pos hdegree]
    exact .inr ⟨_, rfl⟩
  by_cases hdigitBits : (request.digitBits == 0 || coveredBits < request.digitBits) = true
  · rw [if_neg hdegree, if_pos hdigitBits]
    exact .inr ⟨_, rfl⟩
  rw [if_neg hdegree, if_neg hdigitBits]
  cases hdeviation : Ring.NormalSampler.build request.deviation with
  | error reason => exact .inr ⟨_, rfl⟩
  | ok sampler =>
      dsimp only
      by_cases hboth : (!request.moduli.isEmpty && !request.modulusSizes.isEmpty) = true
      · rw [if_pos hboth]
        exact .inr ⟨_, rfl⟩
      by_cases hneither : (request.moduli.isEmpty && request.modulusSizes.isEmpty) = true
      · rw [if_neg hboth, if_pos hneither]
        exact .inr ⟨_, rfl⟩
      refine .inl ⟨sampler, ⟨by simpa using hdegree, ?_, hdeviation, ?_⟩⟩
      · simpa [Nat.pos_iff_ne_zero] using hdigitBits
      · have hone : request.moduli = [] ∨ request.modulusSizes = [] := by
          simpa [or_iff_not_imp_left] using hboth
        have hsome : ¬ (request.moduli = [] ∧ request.modulusSizes = []) := by
          simpa using hneither
        exact ⟨fun hmoduli hsizes => hsome ⟨hmoduli, hsizes⟩, hone.resolve_right⟩

/-! ## Faults -/

/-- A request of a degree below `2 ^ 63` is answered by parameters or by a refusal. -/
theorem givesUnless_build (request : Request) (hlt : request.degree < 2 ^ 63) :
    GivesUnless Failure.IsRefusal (build request) fun _ => True := by
  rcases admitted_or_refused request with ⟨sampler, hadmitted⟩ | ⟨reason, hrefused⟩
  · have hmoduli : GivesUnless Failure.IsRefusal (requestedModuli request) fun _ => True := by
      unfold requestedModuli
      split
      case isTrue => trivial
      case isFalse => exact givesUnless_chooseModuli hlt _ _
    rw [build_eq_of_admitted hadmitted]
    refine hmoduli.bind fun moduli _ => GivesUnless.of_ne_fault fun fault hfault => ?_
    have hring := Ring.NegacyclicRing.givesUnless_build moduli hlt
    exact hring.ne_fault fault (ofModuli_eq_fault_iff.1 hfault).2
  · rw [hrefused]
    exact givesUnless_refuse reason

/-- For the degree `2 ^ 63` the first size or the first modulus decides. -/
theorem build_two_pow_63 {request : Request} {sampler : Ring.NormalSampler} {fault : Fault}
    (h : request.Admitted sampler) (hdegree : request.degree = 2 ^ 63) :
    build request = .error (.fault fault) ↔
      fault = .overflow ∧ request.SearchesPrimes ∨
        fault = .divisionByZero ∧ request.ExaminesModulus := by
  rw [build_eq_of_admitted h]
  unfold requestedModuli Request.SearchesPrimes Request.ExaminesModulus
  -- Exactly one of the two lists is empty, and this tells which of the two faults can arise.
  cases hsizes : request.modulusSizes with
  | nil =>
      show ofModuli request sampler request.moduli = .error (.fault fault) ↔ _
      rw [ofModuli_eq_fault_iff,
        Ring.NegacyclicRing.build_eq_fault_iff (by rw [hdegree]; decide)]
      simp only [hdegree, List.head?_nil]
      tauto
  | cons bits sizes =>
      have hnone : request.moduli = [] := h.exclusive.2 (by simp [hsizes])
      rw [hdegree, hnone, List.isEmpty_cons, if_neg (by decide), chooseModuli_two_pow_63]
      split
      case isTrue hbits =>
        constructor
        · intro hfault
          cases hfault
          exact .inl ⟨rfl, bits, rfl, hbits⟩
        · rintro (⟨rfl, _⟩ | ⟨_, _, p, hhead, _⟩)
          · rfl
          · cases hhead
      case isFalse hbits =>
        constructor
        · intro hfault
          cases hfault
        · rintro (⟨_, bits', hhead, hbits'⟩ | ⟨_, _, p, hhead, _⟩)
          · cases hhead
            exact absurd hbits' hbits
          · cases hhead

/-- The only requests that make the construction fault are those of degree `2 ^ 63` that pass
the checks and come to a search for primes, or to the transform of an admissible modulus.
Every other request of a degree that fits in a word is answered. -/
theorem build_faults_iff {request : Request} (hword : request.degree < 2 ^ 64) (fault : Fault) :
    build request = .error (.fault fault) ↔
      request.degree = 2 ^ 63 ∧ (∃ sampler, request.Admitted sampler) ∧
        (fault = .overflow ∧ request.SearchesPrimes ∨
          fault = .divisionByZero ∧ request.ExaminesModulus) := by
  constructor
  · intro h
    have hle : 2 ^ 63 ≤ request.degree := by
      by_contra hlt
      exact (givesUnless_build request (Nat.not_le.1 hlt)).ne_fault fault h
    rcases admitted_or_refused request with ⟨sampler, hadmitted⟩ | ⟨reason, hrefused⟩
    · have hdegree : request.degree = 2 ^ 63 := by
        refine Ring.NegacyclicRing.eq_of_isDegree ?_ hword hle
        simpa [Ring.NegacyclicRing.isDegree] using hadmitted.degree.symm
      exact ⟨hdegree, ⟨sampler, hadmitted⟩, (build_two_pow_63 hadmitted hdegree).1 h⟩
    · rw [hrefused] at h
      cases h
  · rintro ⟨hdegree, ⟨sampler, hadmitted⟩, hmoduli⟩
    exact (build_two_pow_63 hadmitted hdegree).2 hmoduli

/-- A request for one prime of 55 bits, and nothing unusual but the degree. -/
def hugeRequest : Request := { degree := 2 ^ 63, modulusSizes := [55] }

theorem admitted_hugeRequest : hugeRequest.Admitted Ring.NormalSampler.standard :=
  ⟨by decide, by decide, rfl, by simp [hugeRequest]⟩

theorem build_faults_huge :
    hugeRequest.degree < 2 ^ 64 ∧ build hugeRequest = .error (.fault .overflow) := by
  have hword : hugeRequest.degree < 2 ^ 64 := by decide
  have hsearch : hugeRequest.SearchesPrimes := ⟨55, rfl, by decide, by decide⟩
  exact ⟨hword, (build_faults_iff hword .overflow).2
    ⟨rfl, ⟨_, admitted_hugeRequest⟩, .inl ⟨rfl, hsearch⟩⟩⟩

/-- Neither parameters nor a refusal answers the request, although its degree is a power of two
from 8 on. -/
theorem build_hugeRequest_unanswered :
    Word.isPowerOfTwo hugeRequest.degree = true ∧ 8 ≤ hugeRequest.degree ∧
      ¬ GivesUnless Failure.IsRefusal (build hugeRequest) fun _ => True := by
  refine ⟨by decide, by decide, fun hanswered => ?_⟩
  refine hanswered.ne_fault .overflow ?_
  exact (build_two_pow_63 admitted_hugeRequest rfl).2 (.inl ⟨rfl, 55, rfl, by decide, by decide⟩)

end Parameters
end Protocol
end RelinCeremony
