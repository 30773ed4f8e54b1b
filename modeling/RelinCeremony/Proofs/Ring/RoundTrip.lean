import RelinCeremony.Proofs.Ring.Decoding

namespace RelinCeremony
namespace Ring
namespace NegacyclicRing

/-!
# Coefficients in transport

Elements travel as lists of coefficients from 0 to `Q - 1`.  They are written by remainders in
the channels and read by the idempotents, and reading undoes writing: what is read are the least
residues modulo `Q` of what was written, and what is read from a reduced element writes it
again.  No transform takes part, so all this holds for elements in either form.
-/

/-! ## Least residues of lists -/

section Lists

variable {size modulus : Nat}

theorem leastResidues_getD {c : List Int} (hlength : c.length = size) :
    leastResidues modulus (fun t : Fin size => c.getD t 0) =
      c.map fun x => (x % (modulus : Int)).toNat := by
  refine List.ext_getElem (by simp [leastResidues, hlength]) fun t ht ht' => ?_
  have htc : t < c.length := by simpa using ht'
  simp only [leastResidues, List.getElem_ofFn, List.getElem_map, List.getD_eq_getElem _ _ htc]

theorem leastResidues_integers_eq_map {c : List Nat} (hlength : c.length = size) :
    leastResidues modulus (integers size c) = c.map (· % modulus) := by
  refine List.ext_getElem (by simp [leastResidues, hlength]) fun t ht ht' => ?_
  have htc : t < c.length := by simpa using ht'
  simp only [leastResidues, integers, List.getElem_ofFn, List.getElem_map,
    List.getD_eq_getElem _ _ htc]
  rw [← Int.natCast_mod, Int.toNat_natCast]

end Lists

/-! ## Reading and writing -/

variable {ring : NegacyclicRing} {a : Element} {c : List Nat}

namespace Valid

/-- An element with the classes of integers is read as their least residues. -/
theorem toNats_eq_leastResidues (hring : ring.Valid) {v : Fin ring.degree → Int}
    (ha : ring.Represents a fun _ t => (v t : Int)) :
    ring.toNats a = .ok (leastResidues ring.modulus v) := by
  obtain ⟨c, hc, hlength, hlt, hclasses⟩ := gives_toNats hring ha
  rw [hc, hring.eq_leastResidues ⟨hlength, hlt⟩ hclasses]

theorem toNats_of_ofNats (hring : ring.Valid) (hlength : c.length = ring.degree) :
    Gives (ring.ofNats c) fun a =>
      ring.Reduced a ∧ ring.toNats a = .ok (c.map (· % ring.modulus)) := by
  refine (gives_ofNats hring.validModuli hlength).imp fun a ha => ⟨ha.reduced, ?_⟩
  have hread := hring.toNats_eq_leastResidues (v := integers ring.degree c) (a := a) (by
    simpa only [integers, Int.cast_natCast] using ha)
  rw [hread, leastResidues_integers_eq_map hlength]

theorem toNats_of_ofInts (hring : ring.Valid) {c : List Int} (hlength : c.length = ring.degree) :
    Gives (ring.ofInts c) fun a => ring.Reduced a ∧
      ring.toNats a = .ok (c.map fun x => (x % (ring.modulus : Int)).toNat) := by
  refine (gives_ofInts hring.validModuli hlength).imp fun a ha => ⟨ha.reduced, ?_⟩
  rw [hring.toNats_eq_leastResidues ha, leastResidues_getD hlength]

/-- What is read from a reduced element writes the element again. -/
theorem ofNats_of_toNats (hring : ring.Valid) (ha : ring.Reduced a) :
    Gives (ring.toNats a) fun c =>
      IsCoefficients ring.degree ring.modulus c ∧ ring.ofNats c = .ok a := by
  refine (gives_toNats hring ha.represents).imp fun c hc => ⟨⟨hc.1, hc.2.1⟩, ?_⟩
  obtain ⟨b, hwrite, hb⟩ := gives_ofNats hring.validModuli hc.1
  -- Both elements are the reduced one of the same classes.
  have hvalues : ring.Represents b (ring.values a) := by
    have hclasses : (fun _ t => (c.getD t 0 : Nat) : ring.Values) = ring.values a := by
      funext j t
      exact hc.2.2 j t
    rwa [← hclasses]
  rw [hwrite, hvalues.unique ha.represents]

end Valid

theorem ofNats_refuses (hlength : c.length ≠ ring.degree) :
    ring.ofNats c = Fallible.refuse .foreignCoefficients := by
  rw [ofNats, if_neg hlength]

theorem ofInts_refuses {c : List Int} (hlength : c.length ≠ ring.degree) :
    ring.ofInts c = Fallible.refuse .foreignCoefficients := by
  rw [ofInts, if_neg hlength]

/-- In a ring that is built, with `n` columns and the product `Q` of the moduli: `n` natural
numbers of any size come back reduced modulo `Q`; a reduced element is read as coefficients below
`Q` that write it again; `n` signed integers come back as their representatives from 0 to
`Q - 1`; and lists of any other length are refused. -/
theorem transport_round_trip {moduli : List Nat} {degree : Nat} {ring : NegacyclicRing}
    (hring : build moduli degree = .ok ring) :
    (∀ c : List Nat, c.length = degree → Gives (ring.ofNats c) fun a =>
      ring.Reduced a ∧ ring.toNats a = .ok (c.map (· % moduli.prod))) ∧
    (∀ a, ring.Reduced a → Gives (ring.toNats a) fun c =>
      IsCoefficients degree moduli.prod c ∧ ring.ofNats c = .ok a) ∧
    (∀ c : List Int, c.length = degree → Gives (ring.ofInts c) fun a =>
      ring.Reduced a ∧ ring.toNats a = .ok (c.map fun x => (x % (moduli.prod : Int)).toNat)) ∧
    (∀ c : List Nat, c.length ≠ degree → ring.ofNats c = Fallible.refuse .foreignCoefficients) ∧
    ∀ c : List Int, c.length ≠ degree → ring.ofInts c = Fallible.refuse .foreignCoefficients := by
  obtain ⟨hvalid, rfl, rfl⟩ := valid_of_build hring
  rw [← hvalid.modulus_eq]
  exact ⟨fun c => hvalid.toNats_of_ofNats, fun a => hvalid.ofNats_of_toNats,
    fun c => hvalid.toNats_of_ofInts, fun c => ofNats_refuses, fun c => ofInts_refuses⟩

/-- Modulo 97 * 113 = 10961: a number above the modulus comes back as its remainder, and `-1`
as 10960. -/
theorem transport_round_trip_small : ∃ ring a b, build [97, 113] 8 = .ok ring ∧
    ring.ofNats [10961, 10962, 3, 0, 0, 0, 0, 7] = .ok a ∧
    ring.toNats a = .ok [0, 1, 3, 0, 0, 0, 0, 7] ∧
    ring.Reduced a ∧ Gives (ring.toNats a) (fun c => ring.ofNats c = .ok a) ∧
    ring.ofInts [-1, 5, 0, 0, 0, 0, 0, 0] = .ok b ∧
    ring.toNats b = .ok [10960, 5, 0, 0, 0, 0, 0, 0] ∧
    ring.ofNats [1] = Fallible.refuse .foreignCoefficients := by
  have hgives : Gives (build [97, 113] 8) fun _ => True := by decide +kernel
  obtain ⟨ring, hring, _⟩ := hgives
  obtain ⟨hnats, hread, hints, hrefused, _⟩ := transport_round_trip hring
  obtain ⟨a, ha, hreduced, hreada⟩ := hnats [10961, 10962, 3, 0, 0, 0, 0, 7] rfl
  obtain ⟨b, hb, _, hreadb⟩ := hints [-1, 5, 0, 0, 0, 0, 0, 0] rfl
  exact ⟨ring, a, b, hring, ha, hreada, hreduced, (hread a hreduced).imp fun _ h => h.2, hb, hreadb,
    hrefused [1] (by decide)⟩

end NegacyclicRing
end Ring
end RelinCeremony
