import Mathlib.Data.Finset.Card
import RelinCeremony.Proofs.Prime.Maximal
import RelinCeremony.Proofs.Protocol.ParameterFaults

namespace RelinCeremony
namespace Protocol
namespace Parameters

/-!
# The moduli that are chosen for sizes

For a degree below `2 ^ 63` the moduli of a list of sizes are determined: each is the
greatest prime of its size that is 1 modulo twice the degree and was not chosen for an
earlier size.  Where there is none, or where the size is not searched, the choice is refused
for this size, and the sizes behind it play no part.

The search for one modulus starts again below each chosen prime that it meets.  There are at
most as many of them as chosen primes, so the bound on its attempts is never reached.
-/

/-- The sizes for which moduli are searched. -/
def IsSearchedSize (bits : Nat) : Prop := leastModulusBits ≤ bits ∧ bits ≤ coveredBits

instance (bits : Nat) : Decidable (IsSearchedSize bits) := inferInstanceAs (Decidable (_ ∧ _))

/-- The primes of a size that have a transform of the degree and are not taken. -/
def freePrimes (degree bits : Nat) (taken : List Nat) : Set Nat :=
  Prime.primesBetween (2 * degree) (2 ^ (bits - 1)) (2 ^ bits) \ {p | p ∈ taken}

/-- Each size is searched and has as its modulus the greatest prime that is not taken by an
earlier size. -/
structure IsChoice (degree : Nat) (sizes primes : List Nat) : Prop where
  length_eq : primes.length = sizes.length
  searched : ∀ bits ∈ sizes, IsSearchedSize bits
  greatest : ∀ j (_ : j < sizes.length) (_ : j < primes.length),
    IsGreatest (freePrimes degree sizes[j] (primes.take j)) primes[j]

/-- The sizes before position `j` have their moduli, and the one at `j` has none: it is not
searched, or all primes of its size are taken. -/
def FailsAt (degree : Nat) (sizes : List Nat) (j : Nat) (reason : ParameterError) : Prop :=
  ∃ primes, IsChoice degree (sizes.take j) primes ∧ ∃ _ : j < sizes.length,
    ¬ IsSearchedSize sizes[j] ∧ reason = .modulusSize sizes[j] ∨
      IsSearchedSize sizes[j] ∧ freePrimes degree sizes[j] primes = ∅ ∧
        reason = .tooFewPrimes sizes[j] degree

/-! ## One modulus -/

/-- One attempt to find a prime that is not chosen yet: a chosen prime that is found is the
upper bound of the next attempt. -/
def attemptUnused (bits step : Nat) (chosen : List Nat) (upper : Nat) :
    Checked (Option Nat ⊕ Nat) := do
  match ← Prime.largestBelow bits step upper with
  | none => return .inl none
  | some prime =>
      if chosen.contains prime then return .inr prime else return .inl (some prime)

theorem card_filter_lt_lt {chosen : List Nat} {p upper : Nat} (hp : p ∈ chosen) (hlt : p < upper) :
    (chosen.toFinset.filter (· < p)).card < (chosen.toFinset.filter (· < upper)).card := by
  apply Finset.card_lt_card
  rw [Finset.ssubset_iff_of_subset]
  · exact ⟨p, by simp [hp, hlt], by simp⟩
  · intro q hq
    rw [Finset.mem_filter] at hq ⊢
    exact ⟨hq.1, hq.2.trans hlt⟩

/-- With more attempts than chosen primes below the bound, the bounded search is the search
without a bound on its attempts. -/
theorem loopEnds_unusedPrime {bits step upper : Nat} {chosen : List Nat} {attempts : Nat}
    (h : Prime.Searchable bits step upper)
    (hattempts : (chosen.toFinset.filter (· < upper)).card < attempts) :
    Gives (unusedPrime bits step chosen attempts upper)
      (LoopEnds (attemptUnused bits step chosen) upper) := by
  -- Every attempt that does not end the search uses up one chosen prime.
  induction attempts generalizing upper with
  | zero => omega
  | succ attempts ih =>
      obtain ⟨p?, hsearch, _, hmaximum⟩ := h.gives_largestBelow
      unfold unusedPrime
      rw [hsearch, ok_bind]
      cases p? with
      | none =>
          refine ⟨none, rfl, .done ?_⟩
          rw [attemptUnused, hsearch]
          rfl
      | some p =>
          have hp : p ∈ Prime.primesBetween step (2 ^ (bits - 1)) upper := hmaximum.1
          dsimp only
          by_cases hchosen : chosen.contains p = true
          · rw [if_pos hchosen]
            have hfewer := card_filter_lt_lt (List.contains_iff_mem.1 hchosen) hp.2.2.2
            refine (ih (h.of_mem hp) (by omega)).imp fun r hr => .next ?_ hr
            rw [attemptUnused, hsearch, ok_bind]
            dsimp only
            rw [if_pos hchosen]
            rfl
          · rw [if_neg hchosen]
            refine ⟨some p, rfl, .done ?_⟩
            rw [attemptUnused, hsearch, ok_bind]
            dsimp only
            rw [if_neg hchosen]
            rfl

/-- The search ends at the greatest prime that is not chosen. -/
theorem isMaximum_of_loopEnds_attemptUnused {bits step upper : Nat} {chosen : List Nat}
    {p? : Option Nat} (h : Prime.Searchable bits step upper)
    (hends : LoopEnds (attemptUnused bits step chosen) upper p?) :
    Prime.IsMaximum (Prime.primesBetween step (2 ^ (bits - 1)) upper \ {p | p ∈ chosen}) p? := by
  induction hends with
  | @done upper p? hround =>
      obtain ⟨q?, hsearch, _, hmaximum⟩ := h.gives_largestBelow
      rw [attemptUnused, hsearch, ok_bind] at hround
      cases q? with
      | none =>
          cases hround
          have hempty : Prime.primesBetween step (2 ^ (bits - 1)) upper = ∅ := hmaximum
          show _ \ _ = ∅
          rw [hempty, Set.empty_sdiff]
      | some q =>
          dsimp only at hround
          split at hround
          case isTrue => cases hround
          case isFalse hchosen =>
            cases hround
            have hgreatest : IsGreatest (Prime.primesBetween step (2 ^ (bits - 1)) upper) q :=
              hmaximum
            exact ⟨⟨hgreatest.1, fun hmem => hchosen (List.contains_iff_mem.2 hmem)⟩,
              fun p hp => hgreatest.2 hp.1⟩
  | @next upper upper' p? hround _ ih =>
      obtain ⟨q?, hsearch, _, hmaximum⟩ := h.gives_largestBelow
      rw [attemptUnused, hsearch, ok_bind] at hround
      cases q? with
      | none => cases hround
      | some q =>
          dsimp only at hround
          split at hround
          case isFalse => cases hround
          case isTrue hchosen =>
            cases hround
            have hgreatest : IsGreatest (Prime.primesBetween step (2 ^ (bits - 1)) upper) upper' :=
              hmaximum
            -- The prime that was found is chosen, so nothing is lost below it.
            have hset : Prime.primesBetween step (2 ^ (bits - 1)) upper \ {p | p ∈ chosen} =
                Prime.primesBetween step (2 ^ (bits - 1)) upper' \ {p | p ∈ chosen} := by
              ext p
              constructor
              · rintro ⟨hp, hfree⟩
                have hne : p ≠ upper' := fun heq => hfree (heq ▸ List.contains_iff_mem.1 hchosen)
                have hle : p ≤ upper' := hgreatest.2 hp
                exact ⟨⟨hp.1, hp.2.1, hp.2.2.1, by omega⟩, hfree⟩
              · rintro ⟨hp, hfree⟩
                exact ⟨⟨hp.1, hp.2.1, hp.2.2.1, hp.2.2.2.trans hgreatest.1.2.2.2⟩, hfree⟩
            rw [hset]
            exact ih (h.of_mem hgreatest.1)

theorem searchable_of_isSearchedSize {degree bits : Nat} (hpos : 0 < degree)
    (hbits : IsSearchedSize bits) : Prime.Searchable bits (2 * degree) (2 ^ bits) where
  bits_ge := hbits.1
  bits_le := hbits.2.trans (by decide)
  step_pos := by omega
  step_even := by omega
  lower_lt := by
    have hleast : 10 ≤ bits := hbits.1
    exact Nat.pow_lt_pow_right (by decide) (by omega)
  upper_le := Nat.le_refl _

/-- The modulus of one size is the greatest prime that is not chosen yet. -/
theorem gives_unusedPrime_isMaximum {degree bits : Nat} (hpos : 0 < degree)
    (hbits : IsSearchedSize bits) (chosen : List Nat) :
    Gives (unusedPrime bits (2 * degree) chosen (chosen.length + 1) (2 ^ bits)) fun p? =>
      LoopEnds (attemptUnused bits (2 * degree) chosen) (2 ^ bits) p? ∧
        Prime.IsMaximum (freePrimes degree bits chosen) p? := by
  have hsearchable := searchable_of_isSearchedSize hpos hbits
  have hcard : (chosen.toFinset.filter (· < 2 ^ bits)).card < chosen.length + 1 := by
    have hfilter := Finset.card_filter_le chosen.toFinset (· < 2 ^ bits)
    have hlength := chosen.toFinset_card_le
    omega
  exact (loopEnds_unusedPrime hsearchable hcard).imp fun p? hends =>
    ⟨hends, isMaximum_of_loopEnds_attemptUnused hsearchable hends⟩

/-! ## Choices -/

namespace IsChoice

variable {degree bits p : Nat} {sizes primes primes' : List Nat}

theorem nil (degree : Nat) : IsChoice degree [] [] :=
  ⟨rfl, by simp, fun _ hj => absurd hj (Nat.not_lt_zero _)⟩

/-- A choice goes on with the greatest prime that is not taken. -/
theorem concat (h : IsChoice degree sizes primes) (hbits : IsSearchedSize bits)
    (hp : IsGreatest (freePrimes degree bits primes) p) :
    IsChoice degree (sizes ++ [bits]) (primes ++ [p]) where
  length_eq := by simp [h.length_eq]
  searched := by
    intro size hsize
    rcases List.mem_append.1 hsize with hmem | hlast
    · exact h.searched size hmem
    · rwa [List.mem_singleton.1 hlast]
  greatest := by
    intro j hj hj'
    rw [List.length_append, List.length_singleton] at hj
    rcases Nat.lt_or_eq_of_le (Nat.lt_succ_iff.1 hj) with hbefore | hlast
    · have hprimes : j < primes.length := by
        rw [h.length_eq]
        exact hbefore
      rw [List.getElem_append_left hbefore, List.getElem_append_left hprimes,
        List.take_append_of_le_length (by omega)]
      exact h.greatest j hbefore hprimes
    · have hprimes : j = primes.length := hlast.trans h.length_eq.symm
      subst hprimes
      rw [List.take_left, List.getElem_concat_length rfl]
      rwa [List.getElem_append_right (by omega), List.getElem_singleton]

/-- The moduli of the first sizes are chosen for these sizes. -/
theorem take (h : IsChoice degree sizes primes) (j : Nat) :
    IsChoice degree (sizes.take j) (primes.take j) where
  length_eq := by rw [List.length_take, List.length_take, h.length_eq]
  searched := fun size hsize => h.searched size (List.mem_of_mem_take hsize)
  greatest := by
    intro i hi hi'
    rw [List.length_take] at hi hi'
    rw [List.getElem_take, List.getElem_take, List.take_take, Nat.min_eq_left (by omega)]
    exact h.greatest i (by omega) (by omega)

/-- The sizes determine the choice. -/
theorem unique (h : IsChoice degree sizes primes) (h' : IsChoice degree sizes primes') :
    primes = primes' := by
  -- Moduli at one position are equal if those before them are.
  have hfirst : ∀ j, primes.take j = primes'.take j := by
    intro j
    induction j with
    | zero => rfl
    | succ j ih =>
        by_cases hj : j < sizes.length
        · have hprimes : j < primes.length := by rwa [h.length_eq]
          have hprimes' : j < primes'.length := by rwa [h'.length_eq]
          have hgreatest := h.greatest j hj hprimes
          rw [ih] at hgreatest
          rw [List.take_succ_eq_append_getElem hprimes, List.take_succ_eq_append_getElem hprimes',
            ih, hgreatest.unique (h'.greatest j hj hprimes')]
        · have hlength := h.length_eq
          have hlength' := h'.length_eq
          rwa [List.take_of_length_le (by omega), List.take_of_length_le (by omega),
            ← List.take_of_length_le (l := primes) (i := j) (by omega),
            ← List.take_of_length_le (l := primes') (i := j) (by omega)]
  have hwhole := hfirst sizes.length
  rwa [List.take_of_length_le h.length_eq.le, List.take_of_length_le h'.length_eq.le] at hwhole

/-- No prime is chosen twice. -/
theorem nodup (h : IsChoice degree sizes primes) : primes.Nodup := by
  refine List.pairwise_iff_getElem.2 fun i j hi hj hlt heq => ?_
  have hsizes : j < sizes.length := by
    rw [← h.length_eq]
    exact hj
  have hfree : primes[j] ∉ primes.take j := (h.greatest j hsizes hj).1.2
  refine hfree ?_
  rw [← heq]
  exact List.mem_take_iff_getElem.2 ⟨i, by omega, rfl⟩

/-- A choice leaves none of its positions without a modulus. -/
theorem not_failsAt {i j : Nat} (h : IsChoice degree (sizes.take j) primes) (hij : i < j)
    {reason : ParameterError} : ¬ FailsAt degree sizes i reason := by
  rintro ⟨before, hbefore, hi, hfails⟩
  have hsizes : i < (sizes.take j).length := by
    rw [List.length_take]
    omega
  have hprimes : i < primes.length := by rwa [h.length_eq]
  have htake := h.take i
  rw [List.take_take, Nat.min_eq_left hij.le] at htake
  obtain rfl := hbefore.unique htake
  have hgreatest := h.greatest i hsizes hprimes
  have hsearched := h.searched _ (List.getElem_mem hsizes)
  rw [List.getElem_take] at hgreatest hsearched
  rcases hfails with ⟨hnot, _⟩ | ⟨_, hempty, _⟩
  · exact hnot hsearched
  · rw [hempty] at hgreatest
    exact hgreatest.1

end IsChoice

/-- The choice fails at one position only, for one reason. -/
theorem FailsAt.unique {degree i j : Nat} {sizes : List Nat} {reason reason' : ParameterError}
    (h : FailsAt degree sizes i reason) (h' : FailsAt degree sizes j reason') :
    reason = reason' := by
  obtain ⟨primes, hprimes, hi, hfails⟩ := h
  obtain ⟨primes', hprimes', hj, hfails'⟩ := h'
  rcases Nat.lt_trichotomy i j with hlt | rfl | hgt
  · exact absurd ⟨primes, hprimes, hi, hfails⟩ (hprimes'.not_failsAt hlt)
  · obtain rfl := hprimes.unique hprimes'
    rcases hfails with ⟨hnot, rfl⟩ | ⟨hsearched, _, rfl⟩
    · rcases hfails' with ⟨_, rfl⟩ | ⟨hsearched', _⟩
      · rfl
      · exact absurd hsearched' hnot
    · rcases hfails' with ⟨hnot', _⟩ | ⟨_, _, rfl⟩
      · exact absurd hsearched hnot'
      · rfl
  · exact absurd ⟨primes', hprimes', hj, hfails'⟩ (hprimes.not_failsAt hgt)

/-! ## The choice of the program -/

/-- The choice goes on for the sizes that are left, or fails at the first position where it
has to. -/
theorem givesUnless_chooseModuli_isChoice {degree : Nat} (hpos : 0 < degree)
    (hlt : degree < 2 ^ 63) {done chosen : List Nat} (h : IsChoice degree done chosen)
    (sizes : List Nat) :
    GivesUnless (fun failure => ∃ j reason, FailsAt degree (done ++ sizes) j reason ∧
        failure = .error (.parameters reason))
      (chooseModuli degree sizes chosen) (IsChoice degree (done ++ sizes)) := by
  induction sizes generalizing done chosen with
  | nil =>
      show IsChoice degree (done ++ []) chosen
      rwa [List.append_nil]
  | cons bits sizes ih =>
      have hposition : done.length < (done ++ bits :: sizes).length := by simp
      have hbefore : (done ++ bits :: sizes).take done.length = done := List.take_left' rfl
      have hbits : (done ++ bits :: sizes)[done.length] = bits := by simp
      have hdouble : 2 * degree < Word.size := by
        unfold Word.size
        omega
      unfold chooseModuli
      by_cases hsearched : IsSearchedSize bits
      · have hrange : ¬ (coveredBits < bits || bits < leastModulusBits) = true := by
          simpa using hsearched.symm
        rw [if_neg hrange, Word.checkedMul_eq hdouble, lift_ok, ok_bind]
        obtain ⟨p?, hunused, _, hmaximum⟩ := gives_unusedPrime_isMaximum hpos hsearched chosen
        rw [hunused, lift_ok, ok_bind]
        cases p? with
        | none =>
            refine ⟨done.length, .tooFewPrimes bits degree, ⟨chosen, ?_, hposition, ?_⟩, rfl⟩
            · rwa [hbefore]
            · rw [hbits]
              exact .inr ⟨hsearched, hmaximum, rfl⟩
        | some p =>
            have hnext := ih (h.concat hsearched hmaximum)
            rwa [List.append_assoc, List.singleton_append] at hnext
      · have hrange : (coveredBits < bits || bits < leastModulusBits) = true := by
          unfold IsSearchedSize at hsearched
          simp only [Bool.or_eq_true, decide_eq_true_eq]
          omega
        rw [if_pos hrange]
        refine ⟨done.length, .modulusSize bits, ⟨chosen, ?_, hposition, ?_⟩, rfl⟩
        · rwa [hbefore]
        · rw [hbits]
          exact .inl ⟨hsearched, rfl⟩

theorem chooseModuli_eq_ok_iff {degree : Nat} (hpos : 0 < degree) (hlt : degree < 2 ^ 63)
    {sizes primes : List Nat} :
    chooseModuli degree sizes [] = .ok primes ↔ IsChoice degree sizes primes := by
  have hspec := givesUnless_chooseModuli_isChoice hpos hlt (IsChoice.nil degree) sizes
  rw [List.nil_append] at hspec
  constructor
  · intro h
    rw [h] at hspec
    exact hspec
  · intro h
    cases hchoose : chooseModuli degree sizes [] with
    | ok primes' =>
        rw [hchoose] at hspec
        rw [h.unique hspec]
    | error failure =>
        rw [hchoose] at hspec
        obtain ⟨j, reason, hfails, _⟩ := hspec
        have hj : j < sizes.length := hfails.choose_spec.2.1
        rw [← List.take_length (l := sizes)] at h
        exact absurd hfails (h.not_failsAt hj)

theorem chooseModuli_eq_error_iff {degree : Nat} (hpos : 0 < degree) (hlt : degree < 2 ^ 63)
    {sizes : List Nat} {failure : Failure Error} :
    chooseModuli degree sizes [] = .error failure ↔
      ∃ j reason, FailsAt degree sizes j reason ∧ failure = .error (.parameters reason) := by
  have hspec := givesUnless_chooseModuli_isChoice hpos hlt (IsChoice.nil degree) sizes
  rw [List.nil_append] at hspec
  constructor
  · intro h
    rw [h] at hspec
    exact hspec
  · rintro ⟨j, reason, hfails, rfl⟩
    cases hchoose : chooseModuli degree sizes [] with
    | ok primes =>
        have hchoice := (chooseModuli_eq_ok_iff hpos hlt).1 hchoose
        have hj : j < sizes.length := hfails.choose_spec.2.1
        rw [← List.take_length (l := sizes)] at hchoice
        exact absurd hfails (hchoice.not_failsAt hj)
    | error failure =>
        rw [hchoose] at hspec
        obtain ⟨_, _, hfails', rfl⟩ := hspec
        rw [hfails.unique hfails']

/-! ## The sizes of the moduli -/

theorem bitLength_eq {bits p : Nat} (hlower : 2 ^ (bits - 1) < p) (hupper : p < 2 ^ bits)
    (hbits : 0 < bits) : Word.bitLength p = bits := by
  have hne : p ≠ 0 := (Nat.zero_le _).trans_lt hlower |>.ne'
  have hle := (Nat.le_log2 hne).2 hlower.le
  have hlt := (Nat.log2_lt hne).2 hupper
  rw [Word.bitLength, if_neg hne]
  omega

/-- Chosen moduli have the sizes that they are chosen for. -/
theorem IsChoice.map_bitLength {degree : Nat} {sizes primes : List Nat}
    (h : IsChoice degree sizes primes) : primes.map Word.bitLength = sizes := by
  refine List.ext_getElem (by simp [h.length_eq]) fun j hj hj' => ?_
  rw [List.length_map] at hj
  have hprime := (h.greatest j hj' hj).1.1
  have hleast : 10 ≤ sizes[j] := (h.searched _ (List.getElem_mem hj')).1
  rw [List.getElem_map]
  exact bitLength_eq hprime.2.2.1 hprime.2.2.2 (by omega)

/-- Parameters that are built hold the moduli that are asked for, and their bit lengths. -/
theorem exists_moduli_of_build {request : Request} {par : Parameters}
    (h : build request = .ok par) :
    ∃ moduli, requestedModuli request = .ok moduli ∧ par.moduli = moduli ∧
      par.modulusSizes = moduli.map Word.bitLength := by
  rcases admitted_or_refused request with ⟨sampler, hadmitted⟩ | ⟨reason, hrefused⟩
  · rw [build_eq_of_admitted hadmitted] at h
    obtain ⟨moduli, hmoduli, h⟩ := bind_eq_ok_iff.1 h
    obtain ⟨_, _, h⟩ := bind_eq_ok_iff.1 h
    obtain ⟨ring, hring, h⟩ := bind_eq_ok_iff.1 h
    cases h
    obtain ⟨_, _, hvalues⟩ := Ring.NegacyclicRing.valid_of_build (mapError_eq_ok_iff.1 hring)
    exact ⟨moduli, hmoduli, hvalues, rfl⟩
  · rw [hrefused] at h
    cases h

/-- For a degree below `2 ^ 63` the search for each modulus ends by itself.  The moduli of a list
of sizes are found exactly if each size is searched and has a prime that is 1 modulo twice the
degree and not chosen before; then they are the greatest such primes in turn, all different.
Otherwise the first size without a modulus is refused, for the reason that holds there.
Parameters built for the sizes hold these moduli and report the sizes asked for. -/
theorem chooseModuli_exact {degree : Nat} (hpos : 0 < degree) (hlt : degree < 2 ^ 63)
    (sizes : List Nat) :
    (∀ bits, IsSearchedSize bits → ∀ chosen,
      Gives (unusedPrime bits (2 * degree) chosen (chosen.length + 1) (2 ^ bits))
        (LoopEnds (attemptUnused bits (2 * degree) chosen) (2 ^ bits))) ∧
    (∀ primes, chooseModuli degree sizes [] = .ok primes ↔ IsChoice degree sizes primes) ∧
    (∀ primes, IsChoice degree sizes primes → primes.Nodup) ∧
    (∀ failure, chooseModuli degree sizes [] = .error failure ↔
      ∃ j reason, FailsAt degree sizes j reason ∧ failure = .error (.parameters reason)) ∧
    ∀ request par, request.degree = degree → request.modulusSizes = sizes → sizes ≠ [] →
      build request = .ok par → IsChoice degree sizes par.moduli ∧ par.modulusSizes = sizes := by
  refine ⟨fun bits hbits chosen => ?_, fun primes => chooseModuli_eq_ok_iff hpos hlt,
    fun primes h => h.nodup, fun failure => chooseModuli_eq_error_iff hpos hlt, ?_⟩
  · exact (gives_unusedPrime_isMaximum hpos hbits chosen).imp fun _ h => h.1
  · rintro request par rfl rfl hsizes hbuild
    obtain ⟨moduli, hmoduli, rfl, hlengths⟩ := exists_moduli_of_build hbuild
    rw [requestedModuli, if_neg (by simpa using hsizes)] at hmoduli
    have hchoice := (chooseModuli_eq_ok_iff hpos hlt).1 hmoduli
    rw [hlengths]
    exact ⟨hchoice, hchoice.map_bitLength⟩

/-- For the degree 64 there are two primes of 10 bits, so a third one is refused. -/
theorem chooseModuli_exact_small : 0 < 64 ∧ 64 < 2 ^ 63 ∧
    chooseModuli 64 [10, 10] [] = .ok [769, 641] ∧ IsChoice 64 [10, 10] [769, 641] ∧
    ∃ j, FailsAt 64 [10, 10, 10, 61] j (.tooFewPrimes 10 64) := by
  have hfound : chooseModuli 64 [10, 10] [] = .ok [769, 641] := rfl
  have hrefused : chooseModuli 64 [10, 10, 10, 61] [] =
      Fallible.refuse (.parameters (.tooFewPrimes 10 64)) := rfl
  have hchoice := ((chooseModuli_exact (by decide) (by decide) [10, 10]).2.1 _).1 hfound
  obtain ⟨j, reason, hfails, hreason⟩ :=
    ((chooseModuli_exact (by decide) (by decide) [10, 10, 10, 61]).2.2.2.1 _).1 hrefused
  cases hreason
  exact ⟨by decide, by decide, hfound, hchoice, j, hfails⟩

end Parameters
end Protocol
end RelinCeremony
