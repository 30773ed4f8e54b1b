import RelinCeremony.Proofs.Protocol.Ceremony
import RelinCeremony.Proofs.Protocol.Decomposition
import RelinCeremony.Proofs.Protocol.Parameters
import RelinCeremony.Proofs.Ring.Decoding

namespace RelinCeremony
namespace Protocol

/-!
# Relinearization

The key of a run turns a multiple of the square of the secret into a phase.  The digits
of a polynomial `c` are multiplied by the slots of the key and added up; the phase of the
two sums decodes to `c * s ^ 2`, up to the products of the digits by the noise of their
slots.  The statement is about the polynomials themselves, in `Z_Q[x] / (x^n + 1)`.

The polynomials of the keys and of the noise are those with the values of the elements.  Only
the result is decoded.
-/

open RelinCeremony.Ring (Element IsCoefficients NegacyclicRing NoiseSource RingResult)

/-! ## The sums of products -/

section Products

variable {ring : NegacyclicRing}

/-- The digits are lifted to the polynomial that they are the coefficients of. -/
theorem gives_transformOf_digits (hring : ring.Valid) {coefficients : List Nat}
    (hlength : coefficients.length = ring.degree) :
    Gives (ring.transformOf (coefficients.map Int.ofNat)) fun d =>
      ring.Represents d (hring.valuesHom (ring.polynomial coefficients)) := by
  have hmapLength : (coefficients.map Int.ofNat).length = ring.degree := by simpa using hlength
  have hlift := NegacyclicRing.gives_transformOf hring hmapLength
  rw [← hring.valuesHom_integerPolynomial, ← ring.polynomial_eq_integerPolynomial] at hlift
  exact hlift

theorem gives_addProducts (hring : ring.ValidModuli) {d : Element} {slot sums : Element × Element}
    {x y D A B : ring.Values} (hd : ring.Represents d D)
    (hslot : ring.Represents slot.1 (x * 2 ^ 64) ∧ ring.Represents slot.2 (y * 2 ^ 64))
    (hsums : ring.Represents sums.1 A ∧ ring.Represents sums.2 B) :
    Gives (addProducts ring d slot sums) fun r =>
      ring.Represents r.1 (A + D * x) ∧ ring.Represents r.2 (B + D * y) := by
  obtain ⟨first, hfirst, hfirstValues⟩ :=
    NegacyclicRing.gives_mulMontgomeryAdd_radix hring hslot.1 hd hsums.1
  obtain ⟨second, hsecond, hsecondValues⟩ :=
    NegacyclicRing.gives_mulMontgomeryAdd_radix hring hslot.2 hd hsums.2
  have hproducts : addProducts ring d slot sums = .ok (first, second) := by
    rw [addProducts, hfirst, ok_bind, hsecond]
    rfl
  rw [mul_comm x D] at hfirstValues
  rw [mul_comm y D] at hsecondValues
  exact ⟨_, hproducts, hfirstValues, hsecondValues⟩

/-- The numbers of the slots run through all coordinates. -/
theorem sum_map_range_coordinates {V : Type} [AddCommMonoid V] (f : Nat → Nat → V)
    (rows columns : Nat) :
    ((List.range (rows * columns)).map fun n => f (n / columns) (n % columns)).sum =
      ∑ i ∈ Finset.range rows, ∑ w ∈ Finset.range columns, f i w := by
  show ∑ n ∈ Finset.range (rows * columns), f (n / columns) (n % columns) = _
  -- One more row adds one more inner sum, at the end of the range.
  induction rows with
  | zero => simp
  | succ rows ih =>
      rw [Nat.succ_mul, Finset.sum_range_add, ih, Finset.sum_range_succ]
      congr 1
      refine Finset.sum_congr rfl fun w hw => ?_
      have hlt : w < columns := Finset.mem_range.1 hw
      rw [Nat.mul_comm, Nat.mul_add_div (by omega), Nat.div_eq_of_lt hlt, Nat.add_zero,
        Nat.mul_add_mod, Nat.mod_eq_of_lt hlt]

/-- The values of the digits of a polynomial times a family of values over the slots. -/
noncomputable def digitSum (hring : ring.Valid) (levels digitBits : Nat) (coefficients : List Nat)
    (x : Nat → Nat → ring.Values) : ring.Values :=
  ∑ i ∈ Finset.range ring.channels.length, ∑ w ∈ Finset.range levels,
    hring.valuesHom (ring.polynomial
      (digits (ring.moduli.getD i 0) digitBits w coefficients)) * x i w

/-- The slots of a key with given values, multiplied by the digits and added up. -/
theorem gives_relinearize (hring : ring.Valid) {levels digitBits : Nat} {key : RelinearizationKey}
    {coefficients : List Nat} {x y : Nat → Nat → ring.Values}
    (hlength : coefficients.length = ring.degree)
    (hkey : key.FillsAt ⟨ring.channels.length, levels⟩ fun i w slot =>
      ring.Represents slot.1 (x i w * 2 ^ 64) ∧ ring.Represents slot.2 (y i w * 2 ^ 64)) :
    Gives (relinearize ring digitBits key coefficients) fun sums =>
      ring.Represents sums.1 (digitSum hring levels digitBits coefficients x) ∧
      ring.Represents sums.2 (digitSum hring levels digitBits coefficients y) := by
  let D : Nat × Nat → ring.Values := fun p => hring.valuesHom (ring.polynomial
    (digits (ring.moduli.getD p.1 0) digitBits p.2 coefficients))
  unfold relinearize
  refine Gives.bind hkey.gives_entries.lift fun entries hentries => ?_
  have hsum : ∀ z : Nat → Nat → ring.Values,
      (entries.map fun entry => D entry.1 * z entry.1.1 entry.1.2).sum =
        digitSum hring levels digitBits coefficients z := by
    intro z
    rw [digitSum, ← sum_map_range_coordinates fun i w => D (i, w) * z i w]
    have hmap := congrArg (List.map fun p => D p * z p.1 p.2) hentries.1
    rw [List.map_map, List.map_map] at hmap
    exact congrArg List.sum hmap
  rw [← hsum x, ← hsum y]
  -- The invariant: the sums so far are those over the entries that are done.
  apply gives_foldlM entries (P := fun done (sums : Element × Element) =>
    ring.Represents sums.1 (done.map fun entry => D entry.1 * x entry.1.1 entry.1.2).sum ∧
    ring.Represents sums.2 (done.map fun entry => D entry.1 * y entry.1.1 entry.1.2).sum)
  · have hzero := NegacyclicRing.represents_zero hring.validModuli
    exact ⟨hzero, hzero⟩
  · intro done entry sums hentry hsums
    have hdigits : (digits (ring.moduli.getD entry.1.1 0) digitBits entry.1.2
        coefficients).length = ring.degree := by simpa [digits] using hlength
    refine (gives_transformOf_digits hring hdigits).bind fun d hd => ?_
    have hproducts := gives_addProducts hring.validModuli hd (hentries.2 entry hentry).2.2 hsums
    simpa only [List.map_append, List.sum_append, List.map_cons, List.map_nil, List.sum_cons,
      List.sum_nil, add_zero] using hproducts.lift

end Products

/-! ## The polynomials of a run -/

section Polynomials

variable {ring : NegacyclicRing}

/-- The sum of the secrets as a polynomial: the one with the sum of their values out of Montgomery
form. -/
noncomputable def secretPolynomial (hring : ring.Valid) (parties : List Party) : ring.Quotient :=
  hring.polynomialOf (parties.map fun p => plain ring p.secret).sum

/-- The polynomials with the sums over the parties of their keys as values, and of their noise in
the slot `(i, w)`. -/
noncomputable def polynomialSums (hring : ring.Valid) (parties : List Party)
    (noises : List PartyNoise) (i w : Nat) : Contribution ring.Quotient :=
  (sums ring parties noises i w).map hring.polynomialOf

/-- Secrets that are lifted from integers add up to the sum of their polynomials. -/
theorem secretPolynomial_of_keys (hring : ring.Valid) {parties : List Party}
    {keys : List (List Int)}
    (hkeys : List.Forall₂ (fun p v => v.length = ring.degree ∧ ring.keyOf v = .ok p.secret)
      parties keys) :
    secretPolynomial hring parties = (keys.map ring.integerPolynomial).sum := by
  rw [secretPolynomial, map_list_sum, List.map_map]
  induction hkeys with
  | nil => rfl
  | cons hkey _ ih =>
      rw [List.map_cons, List.map_cons, List.sum_cons, List.sum_cons, ih, Function.comp_apply,
        plain_of_keyOf hring hkey.1 hkey.2, hring.polynomialOf_evaluations]

theorem keyNoise_polynomialSums (hring : ring.Valid) (parties : List Party)
    (noises : List PartyNoise) (i w : Nat) :
    (polynomialSums hring parties noises i w).keyNoise =
      hring.polynomialOf (sums ring parties noises i w).keyNoise :=
  Contribution.keyNoise_map hring.polynomialOf _

theorem values_zero (hring : ring.Valid) : ring.values ring.zero = 0 :=
  (NegacyclicRing.represents_zero hring.validModuli).values_eq

/-- Without noise the key has none. -/
theorem keyNoise_eq_zero (hring : ring.Valid) {shape : Shape} {parties : List Party}
    {noises : List PartyNoise}
    (hnoiseless : ∀ noise ∈ noises, noise.Fills shape (· = ring.zero)) {i w : Nat}
    (hi : i < shape.moduli) (hw : w < shape.levels) :
    (sums ring parties noises i w).keyNoise = 0 := by
  have hsum : ∀ read : PartyNoise → Element, (∀ noise ∈ noises, read noise = ring.zero) →
      (noises.map fun noise => ring.values (read noise)).sum = 0 := by
    intro read hread
    refine List.sum_eq_zero fun x hx => ?_
    obtain ⟨noise, hnoise, rfl⟩ := List.mem_map.1 hx
    rw [hread noise hnoise, values_zero hring]
  -- Every term of the noise is a sum of zeros, or a product by one.
  have hone := hsum (fun noise => noise.one.slot i w) fun noise hnoise =>
    ((hnoiseless noise hnoise).one.fillsAt.slot hi hw).1
  have htwoFirst := hsum (fun noise => (noise.two.slot i w).1) fun noise hnoise =>
    ((hnoiseless noise hnoise).two.fillsAt.slot hi hw).1.1
  have htwoSecond := hsum (fun noise => (noise.two.slot i w).2) fun noise hnoise =>
    ((hnoiseless noise hnoise).two.fillsAt.slot hi hw).1.2
  have hthree := hsum (fun noise => noise.three.slot i w) fun noise hnoise =>
    ((hnoiseless noise hnoise).three.fillsAt.slot hi hw).1
  simp only [Contribution.keyNoise, sums, hone, htwoFirst, htwoSecond, hthree, mul_zero, add_zero]

theorem polynomialOf_digitSum (hring : ring.Valid) (levels digitBits : Nat)
    (coefficients : List Nat) (x : Nat → Nat → ring.Values) :
    hring.polynomialOf (digitSum hring levels digitBits coefficients x) =
      ∑ i ∈ Finset.range ring.channels.length, ∑ w ∈ Finset.range levels,
        ring.polynomial (digits (ring.moduli.getD i 0) digitBits w coefficients) *
          hring.polynomialOf (x i w) := by
  simp only [digitSum, map_sum, map_mul, NegacyclicRing.Valid.polynomialOf_valuesHom]

end Polynomials

/-! ## The phase -/

/-- The digits times the values of the key have the phase `c * s ^ 2` and noise. -/
theorem digitSum_key {ring : NegacyclicRing} (hring : ring.Valid)
    (hmoduli : ∀ q ∈ ring.moduli, q < 2 ^ coveredBits) {digitBits levels : Nat}
    (hlevels : coveredBits ≤ levels * digitBits) (coefficients : List Nat)
    {A : Nat → Nat → ring.Values} {c : Nat → Nat → Contribution ring.Values} {S : ring.Values}
    (hsecret : ∀ i w, (c i w).secret = S) :
    digitSum hring levels digitBits coefficients
        (fun i w => ((c i w).key (ring.gadget i (w * digitBits)) (A i w)).1) +
      S * digitSum hring levels digitBits coefficients
        (fun i w => ((c i w).key (ring.gadget i (w * digitBits)) (A i w)).2) =
      hring.valuesHom (ring.polynomial coefficients) * S ^ 2 +
        digitSum hring levels digitBits coefficients fun i w => (c i w).keyNoise := by
  rw [← sum_digits_gadget hring hmoduli hlevels coefficients]
  simp only [digitSum, Finset.mul_sum, Finset.sum_mul, ← Finset.sum_add_distrib]
  refine Finset.sum_congr rfl fun i _ => Finset.sum_congr rfl fun w _ => ?_
  have hphase := (c i w).key_phase (ring.gadget i (w * digitBits)) (A i w)
  rw [hsecret] at hphase
  linear_combination hring.valuesHom (ring.polynomial
    (digits (ring.moduli.getD i 0) digitBits w coefficients)) * hphase

/-- The phase of a run has the values of `c * s ^ 2` and noise. -/
theorem gives_phase {e : Engine} (he : e.Valid) (hmoduli : ∀ q ∈ e.ring.moduli, q < 2 ^ coveredBits)
    {a : CommonMatrix} {parties : List Party} {noises : List PartyNoise} {out : RelinearizationKey}
    (hrun : IsRun e a parties noises out) {c : List Nat} (hlength : c.length = e.ring.degree) :
    Gives (e.ceremony a parties out) fun t =>
      Gives (relinearize e.ring e.digitBits t.key c) fun products =>
        Gives (sumElements e.ring (parties.map Party.secret)) fun s =>
          Gives (e.ring.mulMontgomeryAdd s products.2 products.1) fun phase =>
            e.ring.Represents phase
              (he.ring.valuesHom (e.ring.polynomial c) *
                  (parties.map fun p => plain e.ring p.secret).sum ^ 2 +
                digitSum he.ring e.levels e.digitBits c fun i w =>
                  (sums e.ring parties noises i w).keyNoise) := by
  obtain ⟨t, ht, hvalues⟩ := gives_ceremony he hrun
  obtain ⟨products, hproducts, hfirst, hsecond⟩ := gives_relinearize he.ring hlength hvalues.key
  obtain ⟨s, hs, hsecret⟩ := hrun.gives_secret he
  obtain ⟨phase, hphase, hrepresents⟩ := NegacyclicRing.gives_mulMontgomeryAdd_radix
    he.ring.validModuli (hsecret 0 0) hsecond hfirst
  have hkey := digitSum_key he.ring hmoduli he.coveredBits_le c
    (A := fun i w => e.ring.values (a.slot i w)) (c := sums e.ring parties noises)
    (S := (parties.map fun p => plain e.ring p.secret).sum) fun _ _ => rfl
  rw [← hkey]
  exact ⟨t, ht, products, hproducts, s, hs, phase, hphase, hrepresents⟩

/-- The polynomial with the values of the phase is `c * s ^ 2` and noise. -/
theorem polynomialOf_phase {ring : NegacyclicRing} (hring : ring.Valid) (levels digitBits : Nat)
    (parties : List Party) (noises : List PartyNoise) (c : List Nat) :
    hring.polynomialOf (hring.valuesHom (ring.polynomial c) *
        (parties.map fun p => plain ring p.secret).sum ^ 2 +
      digitSum hring levels digitBits c fun i w => (sums ring parties noises i w).keyNoise) =
      ring.polynomial c * secretPolynomial hring parties ^ 2 +
        ∑ i ∈ Finset.range ring.channels.length, ∑ w ∈ Finset.range levels,
          ring.polynomial (digits (ring.moduli.getD i 0) digitBits w c) *
            (polynomialSums hring parties noises i w).keyNoise := by
  rw [map_add, map_mul, map_pow, hring.polynomialOf_valuesHom, polynomialOf_digitSum]
  simp only [keyNoise_polynomialSums, secretPolynomial]

/-- Every run gives a key by which the digits of any polynomial `c` become a phase that decodes
to `c * s ^ 2` plus the products of the digits by the noise of their slots; without noise it
decodes to `c * s ^ 2`. -/
theorem relinearize_decodes {request : Request} {par : Parameters} {source : NoiseSource}
    {e : Engine} (hpar : Parameters.build request = .ok par)
    (hengine : Engine.build par.ring source par.digitBits = .ok e) {a : CommonMatrix}
    {parties : List Party} {noises : List PartyNoise} {out : RelinearizationKey}
    (hrun : IsRun e a parties noises out) {c : List Nat} (hlength : c.length = par.ring.degree) :
    ∃ hring : par.ring.Valid, Gives (e.ceremony a parties out) fun t =>
      Gives (relinearize par.ring par.digitBits t.key c) fun products =>
        Gives (sumElements par.ring (parties.map Party.secret)) fun s =>
          Gives (par.ring.mulMontgomeryAdd s products.2 products.1) fun phase =>
            Gives (par.ring.decode phase) fun d =>
              IsCoefficients par.ring.degree par.ring.moduli.prod d ∧
              par.ring.polynomial d =
                par.ring.polynomial c * secretPolynomial hring parties ^ 2 +
                  ∑ i ∈ Finset.range par.ring.channels.length, ∑ w ∈ Finset.range e.levels,
                    par.ring.polynomial
                      (digits (par.ring.moduli.getD i 0) par.digitBits w c) *
                    (polynomialSums hring parties noises i w).keyNoise ∧
              ((∀ noise ∈ noises, noise.Fills e.shape (· = par.ring.zero)) →
                par.ring.polynomial d =
                  par.ring.polynomial c * secretPolynomial hring parties ^ 2) := by
  obtain ⟨hvalid, hmoduli, _, _⟩ := Parameters.valid_of_build hpar
  obtain ⟨he, heRing, heBits⟩ := Engine.valid_of_build hvalid hengine
  rw [← heRing] at hlength hmoduli ⊢
  rw [← heBits]
  obtain ⟨t, ht, products, hproducts, s, hs, phase, hphase, hvalues⟩ :=
    gives_phase he hmoduli hrun hlength
  obtain ⟨d, hd, hdlength, hlt, hdvalues⟩ := he.ring.gives_decode hvalues
  have hidentity : e.ring.polynomial d =
      e.ring.polynomial c * secretPolynomial he.ring parties ^ 2 +
        ∑ i ∈ Finset.range e.ring.channels.length, ∑ w ∈ Finset.range e.levels,
          e.ring.polynomial (digits (e.ring.moduli.getD i 0) e.digitBits w c) *
            (polynomialSums he.ring parties noises i w).keyNoise := by
    rw [← polynomialOf_phase, ← hdvalues, he.ring.polynomialOf_valuesHom]
  rw [he.ring.modulus_eq] at hlt
  refine ⟨he.ring, t, ht, products, hproducts, s, hs, phase, hphase, d, hd, ⟨hdlength, hlt⟩,
    hidentity, fun hnoiseless => ?_⟩
  rw [hidentity, add_eq_left]
  refine Finset.sum_eq_zero fun i hi => Finset.sum_eq_zero fun w hw => ?_
  have hnone : (sums e.ring parties noises i w).keyNoise = 0 :=
    keyNoise_eq_zero he.ring hnoiseless (Finset.mem_range.1 hi) (Finset.mem_range.1 hw)
  rw [keyNoise_polynomialSums, hnone, map_zero, mul_zero]

/-! ## The key of the small run -/

def smallRequest : Request := { degree := 8, digitBits := 30, moduli := [97, 113] }

def smallParameters : Parameters :=
  ⟨smallRing, [7, 7], 30, Ring.NormalSampler.standard⟩

theorem build_smallRequest : Parameters.build smallRequest = .ok smallParameters := by
  -- Every check passes; what is left is the ring.
  have hbuild : Parameters.build smallRequest = (do
      let ring ← Fallible.mapError Error.ring (NegacyclicRing.build [97, 113] 8)
      return ⟨ring, [7, 7], 30, Ring.NormalSampler.standard⟩) := rfl
  rw [hbuild, build_smallRing]
  rfl

/-- A polynomial with coefficients below the product of the moduli. -/
def smallPolynomial : List Nat := [1, 10960, 0, 97, 113, 9506, 5, 10000]

/-- The coefficients of the two secrets of the small run. -/
def smallSecrets : List (List Int) := [[1, 0, -1, 1, 0, 0, 1, -1], [0, 1, 1, -1, 1, 0, -1, 0]]

theorem secretPolynomial_small (hring : smallRing.Valid) :
    secretPolynomial hring smallParties = (smallSecrets.map smallRing.integerPolynomial).sum := by
  have hdegree := (NegacyclicRing.valid_of_build build_smallRing).2.1
  apply secretPolynomial_of_keys
  exact .cons ⟨hdegree.symm, keyOf_smallKey rfl⟩ (.cons ⟨hdegree.symm, keyOf_smallKey rfl⟩ .nil)

/-- In the small run the secret has the coefficients of the two keys. -/
theorem relinearize_decodes_small :
    Parameters.build smallRequest = .ok smallParameters ∧
      Engine.build smallRing smallSource 30 = .ok smallEngine ∧
      IsRun smallEngine smallMatrix smallParties smallNoises smallOut ∧
      smallPolynomial.length = 8 ∧
      ∃ hring : smallRing.Valid,
        secretPolynomial hring smallParties =
          (smallSecrets.map smallRing.integerPolynomial).sum ∧
        Gives (smallEngine.ceremony smallMatrix smallParties smallOut) fun t =>
          Gives (relinearize smallRing 30 t.key smallPolynomial) fun products =>
            Gives (sumElements smallRing (smallParties.map Party.secret)) fun s =>
              Gives (smallRing.mulMontgomeryAdd s products.2 products.1) fun phase =>
                Gives (smallRing.decode phase) fun d =>
                  IsCoefficients smallRing.degree smallRing.moduli.prod d ∧
                  smallRing.polynomial d =
                    smallRing.polynomial smallPolynomial *
                        secretPolynomial hring smallParties ^ 2 +
                      ∑ i ∈ Finset.range smallRing.channels.length, ∑ w ∈ Finset.range 2,
                        smallRing.polynomial
                          (digits (smallRing.moduli.getD i 0) 30 w smallPolynomial) *
                        (polynomialSums hring smallParties smallNoises i w).keyNoise ∧
                  ((∀ noise ∈ smallNoises, noise.Fills smallEngine.shape (· = smallRing.zero)) →
                    smallRing.polynomial d = smallRing.polynomial smallPolynomial *
                      secretPolynomial hring smallParties ^ 2) := by
  have hlength : smallPolynomial.length = smallRing.degree :=
    (NegacyclicRing.valid_of_build build_smallRing).2.1.symm
  obtain ⟨hring, hrelinearize⟩ :=
    relinearize_decodes build_smallRequest build_smallEngine isRun_small hlength
  exact ⟨build_smallRequest, build_smallEngine, isRun_small, rfl, hring,
    secretPolynomial_small hring, hrelinearize⟩

end Protocol
end RelinCeremony
