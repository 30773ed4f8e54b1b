import RelinCeremony.Proofs.Ring.Negacyclic
import RelinCeremony.Proofs.Ring.Quotient

namespace RelinCeremony
namespace Ring

/-!
# Decoding is an isomorphism of rings

A reduced element in transformed form decodes to a list of coefficients from 0 to `Q - 1`.
Every such list comes from exactly one reduced element, and the operations on elements are
the operations of `Z_Q[x] / (x^n + 1)` on the lists: sums and differences coefficient by
coefficient, and the Montgomery product with a factor in Montgomery form is the negacyclic
product.

The lists are compared as lists of numbers.  The quotient ring of `Proofs.Ring.Quotient` only
serves to find them.
-/

/-! ## Lists of coefficients -/

/-- The list has `size` coefficients below `modulus`. -/
def IsCoefficients (size modulus : Nat) (c : List Nat) : Prop :=
  c.length = size ∧ ∀ x ∈ c, x < modulus

instance (size modulus : Nat) (c : List Nat) : Decidable (IsCoefficients size modulus c) :=
  inferInstanceAs (Decidable (_ ∧ _))

/-- The coefficients of a list as a family of integers. -/
def integers (size : Nat) (c : List Nat) : Fin size → Int := fun t => (c.getD t 0 : Nat)

/-- The least non-negative residues of a family of integers. -/
def leastResidues (modulus : Nat) {size : Nat} (v : Fin size → Int) : List Nat :=
  List.ofFn fun t => (v t % (modulus : Int)).toNat

section Lists

variable {size modulus : Nat} {xs : List Nat}

theorem cast_toNat_emod (hpos : 0 < modulus) (x : Int) :
    (((x % (modulus : Int)).toNat : Nat) : Int) = x % modulus :=
  Int.toNat_of_nonneg (Int.emod_nonneg x (by omega))

theorem isCoefficients_leastResidues (hpos : 0 < modulus) (v : Fin size → Int) :
    IsCoefficients size modulus (leastResidues modulus v) := by
  constructor
  · simp [leastResidues]
  · intro x hx
    obtain ⟨t, rfl⟩ := (List.mem_ofFn' _ _).1 hx
    show (v t % (modulus : Int)).toNat < modulus
    have hlt : v t % (modulus : Int) < modulus := Int.emod_lt_of_pos _ (by omega)
    have hcast := cast_toNat_emod hpos (v t)
    omega

/-- Coefficients below the modulus are their own residues. -/
theorem leastResidues_integers (h : IsCoefficients size modulus xs) :
    leastResidues modulus (integers size xs) = xs := by
  refine List.ext_getElem (by simp [leastResidues, h.1]) fun t ht ht' => ?_
  have hlt : xs[t] < modulus := h.2 _ (List.getElem_mem ht')
  simp only [leastResidues, integers, List.getElem_ofFn, List.getD_eq_getElem _ _ ht']
  rw [← Int.natCast_mod, Int.toNat_natCast, Nat.mod_eq_of_lt hlt]

/-- Residues belong to the classes of the integers modulo every divisor of the modulus. -/
theorem cast_leastResidues {p : Nat} (hpos : 0 < modulus) (hdvd : p ∣ modulus)
    (v : Fin size → Int) (t : Fin size) :
    (((leastResidues modulus v).getD t 0 : Nat) : ZMod p) = (v t : Int) := by
  have hget : (leastResidues modulus v).getD t 0 = (v t % (modulus : Int)).toNat := by
    simp [leastResidues]
  rw [hget, ← Int.cast_natCast, cast_toNat_emod hpos, ZMod.intCast_eq_intCast_iff]
  exact (Int.mod_modEq _ _).of_dvd (by exact_mod_cast hdvd)

end Lists

/-! ## Decoding integer polynomials -/

namespace NegacyclicRing
namespace Valid

variable {ring : NegacyclicRing} {a : Element} {c : List Nat}

theorem valuesHom_polynomial_integers (hring : ring.Valid) (c : List Nat) :
    hring.valuesHom (ring.polynomial c) = hring.integerValues (integers ring.degree c) := by
  rw [valuesHom_polynomial, integerValues]
  congr 1
  funext j t
  simp only [integers, Int.cast_natCast]

/-- Coefficients below the modulus are determined by their classes in the channels. -/
theorem eq_leastResidues (hring : ring.Valid) {v : Fin ring.degree → Int} {xs : List Nat}
    (hxs : IsCoefficients ring.degree ring.modulus xs)
    (h : ∀ j (t : Fin ring.degree),
      ((xs.getD t 0 : Nat) : ZMod (ring.channel j).modulus.value) = (v t : Int)) :
    xs = leastResidues ring.modulus v := by
  have hresidues := isCoefficients_leastResidues hring.modulus_pos v
  refine List.ext_getElem (hxs.1.trans hresidues.1.symm) fun t ht ht' => ?_
  have htd : t < ring.degree := by
    rw [← hxs.1]
    exact ht
  have hcast := hring.cast_eq_cast_of_forall (a := xs[t]) (b := (leastResidues ring.modulus v)[t])
    fun j => by
      have hleft := h j ⟨t, htd⟩
      have hright := cast_leastResidues hring.modulus_pos (hring.channel j).dvd v ⟨t, htd⟩
      rw [List.getD_eq_getElem _ _ ht] at hleft
      rw [List.getD_eq_getElem _ _ ht'] at hright
      exact hleft.trans hright.symm
  have hmod := (ZMod.natCast_eq_natCast_iff _ _ _).1 hcast
  exact hmod.eq_of_lt_of_lt (hxs.2 _ (List.getElem_mem ht)) (hresidues.2 _ (List.getElem_mem ht'))

/-- An element with the values of an integer polynomial decodes to its residues. -/
theorem decode_eq_leastResidues (hring : ring.Valid) {v : Fin ring.degree → Int}
    (ha : ring.Represents a (hring.integerValues v)) :
    ring.decode a = .ok (leastResidues ring.modulus v) := by
  obtain ⟨xs, hxs, hlength, hlt, hvalues⟩ := hring.gives_decode ha
  rw [valuesHom_polynomial_integers] at hvalues
  have hclasses := hring.evaluations_injective hvalues
  rw [hxs, hring.eq_leastResidues (v := v) ⟨hlength, hlt⟩ fun j t => ?_]
  have hclass := congrFun (congrFun hclasses j) t
  simpa only [integers, Int.cast_natCast] using hclass

/-- A reduced element has the values of the polynomial that it decodes to. -/
theorem represents_of_decode (hring : ring.Valid) (ha : ring.Reduced a)
    (h : ring.decode a = .ok c) :
    ring.Represents a (hring.integerValues (integers ring.degree c)) := by
  have hvalues := ((hring.gives_decode ha.represents).value_unique h).2.2
  rw [valuesHom_polynomial_integers] at hvalues
  rw [hvalues]
  exact ha.represents

theorem gives_decode_isCoefficients (hring : ring.Valid) (ha : ring.Reduced a) :
    Gives (ring.decode a) (IsCoefficients ring.degree ring.modulus) :=
  (hring.gives_decode ha.represents).imp fun _ hc => ⟨hc.1, hc.2.1⟩

/-- Coefficients are decoded from exactly one reduced element: the transform of their
residues. -/
theorem existsUnique_decode (hring : ring.Valid) (hc : IsCoefficients ring.degree ring.modulus c) :
    ∃! a, ring.Reduced a ∧ ring.decode a = .ok c := by
  obtain ⟨b, _, hb⟩ := gives_ofNats hring.validModuli hc.1
  obtain ⟨a, _, ha⟩ := hring.gives_forward hb
  have hvalues := hring.valuesHom_polynomial c
  rw [valuesHom_polynomial_integers] at hvalues
  rw [← hvalues] at ha
  have hdecode := hring.decode_eq_leastResidues ha
  rw [leastResidues_integers hc] at hdecode
  refine ⟨a, ⟨ha.reduced, hdecode⟩, ?_⟩
  rintro a' ⟨hreduced, hdecode'⟩
  exact (hring.represents_of_decode hreduced hdecode').unique ha

end Valid

/-! ## The operations -/

/-- The element is reduced and decodes to the residues of the integers. -/
def DecodesTo (ring : NegacyclicRing) (modulus : Nat) {size : Nat} (v : Fin size → Int)
    (a : Element) : Prop :=
  ring.Reduced a ∧ ring.decode a = .ok (leastResidues modulus v)

theorem decodesTo_of_represents {ring : NegacyclicRing} (hring : ring.Valid) {a : Element}
    {v : Fin ring.degree → Int} (ha : ring.Represents a (hring.integerValues v)) :
    ring.DecodesTo ring.modulus v a :=
  ⟨ha.reduced, hring.decode_eq_leastResidues ha⟩

/-- Decoding takes the reduced elements of a ring that is built one-to-one onto the lists of `n`
coefficients below `Q`, the product of the moduli, and the operations on elements to sums,
differences and negacyclic products of coefficients modulo `Q`.  The products are those with a
factor in Montgomery form. -/
theorem decode_isomorphism {moduli : List Nat} {degree : Nat} {ring : NegacyclicRing}
    (hring : build moduli degree = .ok ring) :
    (∀ a, ring.Reduced a → Gives (ring.decode a) (IsCoefficients degree moduli.prod)) ∧
    (∀ c, IsCoefficients degree moduli.prod c → ∃! a, ring.Reduced a ∧ ring.decode a = .ok c) ∧
    ∀ a b o out, ring.Reduced a → ring.Reduced b → ring.Reduced o → ring.Fits out →
      ∀ x y z, ring.decode a = .ok x → ring.decode b = .ok y → ring.decode o = .ok z →
        Gives (ring.add a b out)
          (ring.DecodesTo moduli.prod (integers degree x + integers degree y)) ∧
        Gives (ring.addAssign b o)
          (ring.DecodesTo moduli.prod (integers degree z + integers degree y)) ∧
        Gives (ring.sub a b out)
          (ring.DecodesTo moduli.prod (integers degree x - integers degree y)) ∧
        Gives (ring.toMontgomery a) fun m =>
          let product := negacyclicProduct (integers degree x) (integers degree y)
          Gives (ring.mulMontgomery m b out) (ring.DecodesTo moduli.prod product) ∧
          Gives (ring.mulMontgomeryAdd m b o)
            (ring.DecodesTo moduli.prod (integers degree z + product)) ∧
          Gives (ring.mulMontgomerySub m b o)
            (ring.DecodesTo moduli.prod (integers degree z - product)) := by
  obtain ⟨hvalid, rfl, rfl⟩ := valid_of_build hring
  rw [← hvalid.modulus_eq]
  refine ⟨fun a ha => hvalid.gives_decode_isCoefficients ha,
    fun c hc => hvalid.existsUnique_decode hc, ?_⟩
  intro a b o out ha hb ho hout x y z hx hy hz
  have hmoduli := hvalid.validModuli
  have hA := hvalid.represents_of_decode ha hx
  have hB := hvalid.represents_of_decode hb hy
  have hO := hvalid.represents_of_decode ho hz
  refine ⟨?_, ?_, ?_, ?_⟩
  · refine (gives_add hmoduli hA hB hout).imp fun r hr => decodesTo_of_represents hvalid ?_
    rw [hvalid.integerValues_add]
    exact hr
  · refine (gives_addAssign hmoduli hB hO).imp fun r hr => decodesTo_of_represents hvalid ?_
    rw [hvalid.integerValues_add]
    exact hr
  · refine (gives_sub hmoduli hA hB hout).imp fun r hr => decodesTo_of_represents hvalid ?_
    rw [hvalid.integerValues_sub]
    exact hr
  · refine (gives_toMontgomery hmoduli hA).imp fun m hm => ⟨?_, ?_, ?_⟩
    · refine (gives_mulMontgomery_radix hmoduli hm hB hout).imp fun r hr =>
        decodesTo_of_represents hvalid ?_
      rw [hvalid.integerValues_negacyclicProduct]
      exact hr
    · refine (gives_mulMontgomeryAdd_radix hmoduli hm hB hO).imp fun r hr =>
        decodesTo_of_represents hvalid ?_
      rw [hvalid.integerValues_add, hvalid.integerValues_negacyclicProduct]
      exact hr
    · refine (gives_mulMontgomerySub_radix hmoduli hm hB hO).imp fun r hr =>
        decodesTo_of_represents hvalid ?_
      rw [hvalid.integerValues_sub, hvalid.integerValues_negacyclicProduct]
      exact hr

/-- Modulo 97 * 113 and `x^8 + 1`, the elements of `5 + x^7` and `3 + x` have the difference
`2 - x + x^7` and the product `14 + 5 x + 3 x^7`. -/
theorem decode_isomorphism_small : ∃ ring a b, build [97, 113] 8 = .ok ring ∧
    ring.Reduced a ∧ ring.decode a = .ok [5, 0, 0, 0, 0, 0, 0, 1] ∧
    ring.Reduced b ∧ ring.decode b = .ok [3, 1, 0, 0, 0, 0, 0, 0] ∧
    Gives (ring.sub a b ring.zero) (fun r =>
      ring.decode r = .ok [2, 10960, 0, 0, 0, 0, 0, 1]) ∧
    Gives (ring.toMontgomery a) fun m => Gives (ring.mulMontgomery m b ring.zero) fun r =>
      ring.decode r = .ok [14, 5, 0, 0, 0, 0, 0, 3] := by
  -- Only that there is a ring is computed; its elements come from the theorem.
  have hgives : Gives (build [97, 113] 8) fun _ => True := by decide +kernel
  obtain ⟨ring, hring, _⟩ := hgives
  obtain ⟨_, honto, hoperations⟩ := decode_isomorphism hring
  obtain ⟨a, ⟨ha, hx⟩, _⟩ := honto [5, 0, 0, 0, 0, 0, 0, 1] (by decide)
  obtain ⟨b, ⟨hb, hy⟩, _⟩ := honto [3, 1, 0, 0, 0, 0, 0, 0] (by decide)
  obtain ⟨_, _, hsub, hproducts⟩ :=
    hoperations a b a ring.zero ha hb ha ring.fits_zero _ _ _ hx hy hx
  refine ⟨ring, a, b, hring, ha, hx, hb, hy, hsub.imp fun r hr => ?_,
    hproducts.imp fun m hm => hm.1.imp fun r hr => ?_⟩
  · rw [hr.2]
    decide
  · rw [hr.2]
    decide

end NegacyclicRing
end Ring
end RelinCeremony
