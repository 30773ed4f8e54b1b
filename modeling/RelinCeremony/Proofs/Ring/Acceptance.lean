import RelinCeremony.Proofs.Ring.Quotient
import RelinCeremony.Proofs.Ring.Refusals

namespace RelinCeremony
namespace Ring
namespace NegacyclicRing

/-!
# The moduli that make a ring

What a ring asks of its degree and its moduli, on numbers: `Admits`.  A ring is built
over nothing else, and a request that misses a condition is refused.  The idempotents of
a ring that is built solve the congruences of the Chinese remainder theorem; below the
product of the moduli each of them is the only solution.

That the moduli are distinct is not compared anywhere in the construction.  A prime that
stands twice in the list divides its cofactor, and then has no inverse of it.
-/

/-- What a ring asks of its moduli and its degree. -/
structure Admits (moduli : List Nat) (degree : Nat) : Prop where
  degree_eq : ∃ k, degree = 2 ^ k
  degree_le : 8 ≤ degree
  ne_nil : moduli ≠ []
  nodup : moduli.Nodup
  prime : ∀ p ∈ moduli, p.Prime
  lt : ∀ p ∈ moduli, p < 2 ^ 62
  congruent : ∀ p ∈ moduli, p % (2 * degree) = 1

/-- The number is below the product of the moduli, 1 modulo the one at place `i` and 0
modulo the others. -/
def IsIdempotent (moduli : List Nat) (i e : Nat) : Prop :=
  e < moduli.prod ∧ ∀ j (hj : j < moduli.length), e % moduli[j] = if j = i then 1 else 0

instance (moduli : List Nat) (i e : Nat) : Decidable (IsIdempotent moduli i e) :=
  inferInstanceAs (Decidable (_ ∧ _))

def idempotents (ring : NegacyclicRing) : List Nat :=
  ring.channels.map fun channel => channel.idempotent

/-! ## Idempotents -/

variable {ring : NegacyclicRing} {moduli : List Nat} {degree i e : Nat}

theorem isIdempotent_iff (hring : ring.Valid) : IsIdempotent ring.moduli i e ↔
    e < ring.modulus ∧ ∀ j : Fin ring.channels.length,
      (e : ZMod (ring.channel j).modulus.value) = if (j : Nat) = i then 1 else 0 := by
  -- A remainder is 1 or 0 exactly if the class is.
  have hcell (j : Fin ring.channels.length) :
      e % (ring.channel j).modulus.value = (if (j : Nat) = i then 1 else 0) ↔
        (e : ZMod (ring.channel j).modulus.value) = if (j : Nat) = i then 1 else 0 := by
    have hlt : (if (j : Nat) = i then 1 else 0) < (ring.channel j).modulus.value := by
      have hthree := (hring.channel j).modulus.three_le
      split <;> omega
    have hcast : ((if (j : Nat) = i then 1 else 0 : Nat) : ZMod (ring.channel j).modulus.value) =
        if (j : Nat) = i then 1 else 0 := by push_cast; rfl
    rw [← hcast, ZMod.natCast_eq_natCast_iff', Nat.mod_eq_of_lt hlt]
  rw [IsIdempotent, hring.modulus_eq]
  refine and_congr_right fun _ => ⟨fun h j => ?_, fun h j hj => ?_⟩
  · have hremainder := h j (by simp [NegacyclicRing.moduli])
    simp only [NegacyclicRing.moduli, List.getElem_map] at hremainder
    exact (hcell j).1 hremainder
  · have hjc : j < ring.channels.length := by simpa [NegacyclicRing.moduli] using hj
    simp only [NegacyclicRing.moduli, List.getElem_map]
    exact (hcell ⟨j, hjc⟩).2 (h ⟨j, hjc⟩)

/-- At each place there is at most one idempotent. -/
theorem IsIdempotent.unique {e' : Nat} (hring : ring.Valid) (h : IsIdempotent ring.moduli i e)
    (h' : IsIdempotent ring.moduli i e') : e = e' := by
  rw [isIdempotent_iff hring] at h h'
  have hcast := hring.cast_eq_cast_of_forall fun j => (h.2 j).trans (h'.2 j).symm
  exact ((ZMod.natCast_eq_natCast_iff _ _ _).1 hcast).eq_of_lt_of_lt h.1 h'.1

theorem idempotent_lt_of_completeChannel {product : Nat} {m : Modulus}
    {transform : Transform.Plan} {channel : Channel} (hproduct : 0 < product)
    (h : completeChannel product m transform = .ok channel) : channel.idempotent < product := by
  unfold completeChannel at h
  dsimp only at h
  split at h
  case h_1 =>
    cases h
    exact Nat.mod_lt _ hproduct
  case h_2 => cases h

theorem exists_completeChannel_of_build (h : build moduli degree = .ok ring) :
    ∀ channel ∈ ring.channels,
      ∃ m transform, completeChannel moduli.prod m transform = .ok channel := by
  unfold build at h
  split at h
  case isTrue => cases h
  case isFalse =>
    split at h
    case isTrue => cases h
    case isFalse =>
      obtain ⟨admitted, -, h⟩ := bind_eq_ok_iff.1 h
      obtain ⟨channels, hchannels, h⟩ := bind_eq_ok_iff.1 h
      cases h
      have hcomplete := mapM_eq_ok_iff.1 hchannels
      intro channel hmem
      obtain ⟨j, hj, rfl⟩ := List.getElem_of_mem hmem
      exact ⟨_, _, hcomplete.get (hcomplete.length_eq.symm ▸ hj) hj⟩

/-- The idempotents of a ring that is built are those of its moduli. -/
theorem isIdempotent_of_build (h : build moduli degree = .ok ring)
    (hi : i < ring.idempotents.length) : IsIdempotent moduli i ring.idempotents[i] := by
  obtain ⟨hring, -, rfl⟩ := valid_of_build h
  have hic : i < ring.channels.length := by simpa [idempotents] using hi
  obtain ⟨m, transform, hcomplete⟩ :=
    exists_completeChannel_of_build h _ (List.getElem_mem hic)
  rw [← hring.modulus_eq] at hcomplete
  simp only [idempotents, List.getElem_map]
  refine (isIdempotent_iff hring).2
    ⟨idempotent_lt_of_completeChannel hring.modulus_pos hcomplete, fun j => ?_⟩
  refine (hring.cast_idempotent ⟨i, hic⟩ j).trans (if_congr ?_ rfl rfl)
  rw [Fin.ext_iff, eq_comm]

/-! ## Acceptance -/

theorem admits_of_build (hlt : degree < 2 ^ 63) (h : build moduli degree = .ok ring) :
    Admits moduli degree := by
  obtain ⟨hring, rfl, rfl⟩ := valid_of_build h
  have hmember {P : Nat → Prop} (hP : ∀ j, P (ring.channel j).modulus.value) :
      ∀ p ∈ ring.moduli, P p := by
    intro p hp
    obtain ⟨j, rfl⟩ := mem_moduli_iff.1 hp
    exact hP j
  refine ⟨⟨_, hring.degree_eq.symm⟩, hring.degree_le, ?_, hring.nodup,
    hmember fun j => (hring.channel j).prime, hmember fun j => (hring.channel j).modulus.lt,
    hmember fun j => ?_⟩
  · intro hnil
    rw [hnil] at h
    unfold build at h
    split at h <;> cases h
  · rw [← Transform.low_two_mul hlt]
    exact (hring.channel j).congruent

/-- A request that misses a condition is refused. -/
theorem build_refuses_of_not_admits (hlt : degree < 2 ^ 63) (h : ¬ Admits moduli degree) :
    ∃ reason, build moduli degree = Fallible.refuse reason := by
  have hanswer := givesUnless_build moduli hlt
  cases hbuild : build moduli degree with
  | ok ring => exact absurd (admits_of_build hlt hbuild) h
  | error failure =>
      rw [hbuild] at hanswer
      cases failure with
      | fault fault => exact hanswer.elim
      | error reason => exact ⟨reason, rfl⟩

/-- A degree below `2 ^ 63` and any list of moduli make a ring or are refused.  If there is
a ring, the degree is a power of two from 8 on, the list is not empty, and its members are
distinct primes below `2 ^ 62` that are 1 modulo twice the degree; the ring has these moduli,
their product as modulus, and at each place the idempotent of the place.  If the degree or
the list misses one of the conditions, the request is refused. -/
theorem build_exact (moduli : List Nat) {degree : Nat} (hdegree : degree < 2 ^ 63) :
    (∀ ring, build moduli degree = .ok ring →
      Admits moduli degree ∧ ring.degree = degree ∧ ring.moduli = moduli ∧
        ring.modulus = moduli.prod ∧ ring.idempotents.length = moduli.length ∧
        ∀ i (hi : i < ring.idempotents.length), IsIdempotent moduli i ring.idempotents[i]) ∧
    (∀ fault, build moduli degree ≠ .error (.fault fault)) ∧
    (¬ Admits moduli degree → ∃ reason, build moduli degree = Fallible.refuse reason) := by
  refine ⟨fun ring hring => ?_, (givesUnless_build moduli hdegree).ne_fault,
    build_refuses_of_not_admits hdegree⟩
  obtain ⟨hvalid, hringDegree, hmoduli⟩ := valid_of_build hring
  refine ⟨admits_of_build hdegree hring, hringDegree, hmoduli, ?_, ?_,
    fun i hi => isIdempotent_of_build hring hi⟩
  · rw [hvalid.modulus_eq, hmoduli]
  · rw [← hmoduli, idempotents, NegacyclicRing.moduli, List.length_map, List.length_map]

/-- The idempotents modulo 97 and 113 are 10283 and 679.  A modulus that stands in the list
twice, with another one between, is refused. -/
theorem build_exact_small :
    (∃ ring, build [97, 113] 8 = .ok ring ∧ Admits [97, 113] 8 ∧ ring.modulus = 10961 ∧
      ring.idempotents = [10283, 679] ∧ IsIdempotent [97, 113] 0 10283 ∧
      IsIdempotent [97, 113] 1 679) ∧
    ∃ reason, build [97, 113, 97] 8 = Fallible.refuse reason := by
  have hgives : Gives (build [97, 113] 8) fun ring => ring.idempotents = [10283, 679] := by
    decide +kernel
  obtain ⟨ring, hring, hidempotents⟩ := hgives
  obtain ⟨haccepted, -, -⟩ := build_exact [97, 113] (show 8 < 2 ^ 63 by decide)
  obtain ⟨hadmits, -, -, hmodulus, -, hcrt⟩ := haccepted ring hring
  simp only [hidempotents] at hcrt
  obtain ⟨-, -, hrefused⟩ := build_exact [97, 113, 97] (show 8 < 2 ^ 63 by decide)
  refine ⟨⟨ring, hring, hadmits, hmodulus, hidempotents, hcrt 0 (by decide), hcrt 1 (by decide)⟩,
    hrefused fun hadmits => ?_⟩
  exact absurd hadmits.nodup (by decide)

end NegacyclicRing
end Ring
end RelinCeremony
