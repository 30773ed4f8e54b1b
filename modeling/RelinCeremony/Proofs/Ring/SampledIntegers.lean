import RelinCeremony.Proofs.Ring.RoundTrip
import RelinCeremony.Proofs.Ring.Sampler

namespace RelinCeremony
namespace Ring

/-!
# Sampled elements hold the integers drawn

A sampler draws one vector of integers, reduces it in every channel on its own and transforms
the rows.  Whatever the moduli and whatever stood in the element before, the way back leads to
the vector: in each channel to its remainders, so the channels agree on one vector of integers,
and over all channels to its least residues modulo `Q`.

The integers may be larger than the moduli, and larger than `Q`.
-/

open RelinCeremony.Random

namespace NegacyclicRing

variable {ring : NegacyclicRing} {a : Element} {xs : List Int}

/-- The reduced element comes from the integers: back from the transform it has their remainders
in every channel, and it decodes to their least residues modulo the product of the moduli. -/
structure ComesFrom (ring : NegacyclicRing) (moduli : List Nat) (xs : List Int) (a : Element) :
    Prop where
  reduced : ring.Reduced a
  remainders : Gives (ring.backward a) fun b =>
    ∀ i (hi : i < moduli.length) t (ht : t < xs.length), (b.residue i t : Int) = xs[t] % moduli[i]
  decode_eq : ring.decode a = .ok (xs.map fun x => (x % (moduli.prod : Int)).toNat)

theorem Represents.residue_eq_emod {v : ring.Values} {n : Int}
    (ha : ring.Represents a v) (j : Fin ring.channels.length) (t : Fin ring.degree)
    (h : v j t = (n : ZMod (ring.channel j).modulus.value)) :
    (a.residue j t : Int) = n % (ring.channel j).modulus.value := by
  obtain ⟨hlt, hclass⟩ := ha.2 j t
  rw [h, ← Int.cast_natCast, ZMod.intCast_eq_intCast_iff] at hclass
  rw [← hclass, Int.emod_eq_of_lt (by omega) (by exact_mod_cast hlt)]

theorem Valid.comesFrom (hring : ring.Valid) (hlength : xs.length = ring.degree)
    (ha : ring.Represents a (hring.evaluations (ring.classes xs))) :
    ring.ComesFrom ring.moduli xs a := by
  refine ⟨ha.reduced, (hring.gives_backward ha).imp fun b hb i hi t ht => ?_, ?_⟩
  · have hic : i < ring.channels.length := by simpa [moduli] using hi
    have hclass : ring.classes xs ⟨i, hic⟩ ⟨t, ht.trans_eq hlength⟩ = (xs[t] : Int) := by
      rw [classes, List.getD_eq_getElem _ _ ht]
    simp only [moduli, List.getElem_map]
    exact hb.residue_eq_emod _ _ hclass
  · rw [hring.decode_eq_leastResidues (v := fun t => xs.getD t 0) ha, leastResidues_getD hlength,
      hring.modulus_eq]

/-- Integers that are written over an element and transformed. -/
theorem Valid.gives_forward_writeInts (hring : ring.Valid) (hlength : xs.length = ring.degree)
    {out : Element} (hout : ring.Fits out) :
    Gives (do ring.forward (← ring.writeInts xs out)) (ring.ComesFrom ring.moduli xs) :=
  (gives_writeInts hring.validModuli hlength hout).bind fun _ ha =>
    (hring.gives_forward ha).imp fun _ hb => hring.comesFrom hlength hb

end NegacyclicRing

/-! ## Normal noise -/

/-- The integers that the normal noise is made of. -/
def NormalSampler.coefficients (s : NormalSampler) (size : Nat) : Draw (List Int) :=
  Draw.times (Draw.boundedNormal 0.0 s.deviation s.bound) size

namespace NormalSampler

variable {s : NormalSampler} {ring : NegacyclicRing} {out : Element} {g : Generator}

theorem noise_eq (s : NormalSampler) (ring : NegacyclicRing) (out : Element) :
    s.noise ring out = (do
      let xs ← s.coefficients ring.degree
      ring.forward (← ring.writeInts xs out)) :=
  rfl

theorem length_coefficients {size : Nat} {r : List Int × Generator}
    (h : (s.coefficients size).run g = .ok r) : r.1.length = size := by
  have hnormal : Draw.Yields (fun _ => True) (Draw.boundedNormal 0.0 s.deviation s.bound)
      fun _ => True := Draw.yields_boundedNormal trivial 0.0 s.deviation s.bound
  have hyields : Draw.Yields (fun _ => True) (s.coefficients size) fun xs => xs.length = size :=
    (Draw.yields_times hnormal size).imp fun _ hxs => hxs.1
  have hrun := hyields g
  rwa [h] at hrun

/-- The noise writes the integers that are drawn, and draws nothing else. -/
theorem run_noise {xs : List Int} {g' : Generator} {a : Element}
    (hdraw : (s.coefficients ring.degree).run g = .ok (xs, g'))
    (hwrite : (do ring.forward (← ring.writeInts xs out)) = .ok a) :
    (s.noise ring out).run g = .ok (a, g') := by
  obtain ⟨written, hwritten, hforward⟩ := bind_eq_ok_iff.1 hwrite
  rw [noise_eq]
  simp only [StateT.run_bind, hdraw, hwritten, hforward, run_lift_ok, ok_bind]

theorem run_noise_of_fault {fault : Fault}
    (hdraw : (s.coefficients ring.degree).run g = .error fault) :
    (s.noise ring out).run g = .error fault := by
  rw [noise_eq, StateT.run_bind, hdraw]
  rfl

end NormalSampler

/-! ## Ternary elements -/

theorem toNat_emod_of_ternary {modulus : Nat} (hpos : 0 < modulus) {x : Int}
    (hx : x = -1 ∨ x = 0 ∨ x = 1) :
    (x % (modulus : Int)).toNat = 0 ∨ (x % (modulus : Int)).toNat = 1 ∨
      (x % (modulus : Int)).toNat = modulus - 1 := by
  rcases hx with rfl | rfl | rfl
  · rw [← Int.add_emod_right, Int.emod_eq_of_lt (by omega) (by omega)]
    omega
  · exact .inl rfl
  · rcases Nat.lt_or_ge 1 modulus with hlt | hle
    · rw [Int.emod_eq_of_lt (by omega) (by omega)]
      exact .inr (.inl rfl)
    · obtain rfl : modulus = 1 := by omega
      exact .inl rfl

/-- A ternary element is the transform of ternary integers in Montgomery form. -/
theorem gives_sampleTernary {ring : NegacyclicRing} (hring : ring.Valid) {p : Float}
    {draw : Draw (List Int)} (h : ternaryVector ring.degree p = .ok draw) (g : Generator) :
    Gives (draw.run g) fun r => r.1.length = ring.degree ∧ (∀ x ∈ r.1, x = -1 ∨ x = 0 ∨ x = 1) ∧
      ∃ a, sampleTernary ring p g = .ok (a, r.2) ∧
        ring.Represents a (hring.evaluations (ring.classes r.1) * 2 ^ 64) := by
  have hdraw : draw = Draw.times (Draw.ternary (threshold (.ofFloat p))) ring.degree := by
    unfold ternaryVector at h
    split at h
    case isTrue => exact (Except.ok.inj h).symm
    case isFalse => cases h
  obtain ⟨r, hr, hlength, hternary⟩ := hdraw ▸
    (Draw.yields_times (Draw.yields_ternary (threshold (.ofFloat p))) ring.degree g).gives
  refine ⟨r, hr, hlength, hternary, ?_⟩
  obtain ⟨written, hwritten, hclasses⟩ := NegacyclicRing.gives_ofInts hring.validModuli hlength
  obtain ⟨transformed, hforward, hvalues⟩ := hring.gives_forward hclasses
  obtain ⟨a, hform, ha⟩ := NegacyclicRing.gives_toMontgomery hring.validModuli hvalues
  refine ⟨a, ?_, ha⟩
  unfold sampleTernary
  simp only [h, hr, hwritten, hforward, hform, lift_ok, ok_bind]
  rfl

/-- Let a ring be built, with `n` columns and the product `Q` of the moduli.  From `n` integers of
any size, written over any element of the ring and transformed, comes an element that decodes
to the integers modulo `Q`.  The normal noise does this with the integers that it draws, and
passes a fault of the draw on.  A ternary element, taken out of Montgomery form, comes from the
integers that are drawn for it, each -1, 0 or 1, so it decodes to numbers that are 0, 1 or
`Q - 1`; it is refused only where the draw is. -/
theorem sampled_comesFrom {moduli : List Nat} {degree : Nat} {ring : NegacyclicRing}
    (hring : NegacyclicRing.build moduli degree = .ok ring) :
    (∀ xs : List Int, xs.length = degree → ∀ out, ring.Fits out →
      Gives (do ring.forward (← ring.writeInts xs out)) (ring.ComesFrom moduli xs)) ∧
    (∀ (s : NormalSampler) out g, ring.Fits out →
      (∀ xs g', (s.coefficients degree).run g = .ok (xs, g') → xs.length = degree ∧
        ∃ a, (s.noise ring out).run g = .ok (a, g') ∧ ring.ComesFrom moduli xs a) ∧
      ∀ fault, (s.coefficients degree).run g = .error fault →
        (s.noise ring out).run g = .error fault) ∧
    ∀ p g,
      (∀ draw, ternaryVector degree p = .ok draw → Gives (draw.run g) fun (xs, g') =>
        xs.length = degree ∧ (∀ x ∈ xs, x = -1 ∨ x = 0 ∨ x = 1) ∧
        ∃ a, sampleTernary ring p g = .ok (a, g') ∧ Gives (ring.ofMontgomery a) fun b =>
          ring.ComesFrom moduli xs b ∧
          Gives (ring.decode b) fun ys => ∀ y ∈ ys, y = 0 ∨ y = 1 ∨ y = moduli.prod - 1) ∧
      ∀ reason, ternaryVector degree p = .error reason →
        sampleTernary ring p g = Fallible.refuse (.probability p reason) := by
  obtain ⟨hvalid, rfl, rfl⟩ := NegacyclicRing.valid_of_build hring
  refine ⟨fun xs hlength out hout => hvalid.gives_forward_writeInts hlength hout,
    fun s out g hout => ⟨?_, ?_⟩, fun p g => ⟨?_, ?_⟩⟩
  · intro xs g' hdraw
    have hlength := NormalSampler.length_coefficients hdraw
    obtain ⟨a, hwrite, ha⟩ := hvalid.gives_forward_writeInts hlength hout
    exact ⟨hlength, a, NormalSampler.run_noise hdraw hwrite, ha⟩
  · exact fun fault hdraw => NormalSampler.run_noise_of_fault hdraw
  · intro draw hdraw
    obtain ⟨⟨xs, g'⟩, hrun, hlength, hternary, a, hsample, ha⟩ :=
      gives_sampleTernary hvalid hdraw g
    refine ⟨(xs, g'), hrun, hlength, hternary, a, hsample, ?_⟩
    refine (NegacyclicRing.gives_ofMontgomery_radix hvalid.validModuli ha).imp fun b hb => ?_
    have hcomes := hvalid.comesFrom hlength hb
    refine ⟨hcomes, _, hcomes.decode_eq, fun y hy => ?_⟩
    obtain ⟨x, hx, rfl⟩ := List.mem_map.1 hy
    rw [← hvalid.modulus_eq]
    exact toNat_emod_of_ternary hvalid.modulus_pos (hternary x hx)
  · intro reason hdraw
    unfold sampleTernary
    rw [hdraw]

/-- Modulo 97 * 113 = 10961 all three elements decode to what they come from: the least and
the greatest integer of 64 bits among others, written over residues that are not below the
moduli; a normal draw; and a ternary draw. -/
theorem sampled_comesFrom_small : ∃ ring, NegacyclicRing.build [97, 113] 8 = .ok ring ∧
    Gives (do
      let out := Element.mk (List.replicate 2 (List.replicate 8 (2 ^ 64 - 1)))
      ring.forward (← ring.writeInts [-2 ^ 63, 2 ^ 63 - 1, 10961, -1, 98, 0, 0, 0] out))
      (fun a => ring.decode a = .ok [10494, 466, 0, 10960, 98, 0, 0, 0]) ∧
    Gives ((NormalSampler.noise ⟨3.2, 19⟩ ring ring.zero).run
        (.ofScript [0x8000000000000005, 0xc000000000000005, 0x4000000000000007,
          0x6000000000000009]))
      (fun r => ring.decode r.1 = .ok [0, 5, 10956, 10959, 3, 0, 10955, 2]) ∧
    Gives (sampleTernary ring 0.5
        (.ofScript [1, 0x8000000000000001, 0xffffffff, 0x7fffffffffffffff]))
      fun r => Gives (ring.ofMontgomery r.1) fun b =>
        ring.decode b = .ok [10960, 1, 0, 1, 0, 10960, 1, 10960] := by
  have hgives : Gives (NegacyclicRing.build [97, 113] 8) fun ring =>
      ring.Fits ⟨List.replicate 2 (List.replicate 8 (2 ^ 64 - 1))⟩ := by decide +kernel
  obtain ⟨ring, hring, hfits⟩ := hgives
  obtain ⟨hwrite, hnoise, hternary⟩ := sampled_comesFrom hring
  refine ⟨ring, hring, ?_, ?_, ?_⟩
  · refine (hwrite _ rfl _ hfits).imp fun a ha => ha.decode_eq.trans ?_
    decide +kernel
  · have hdraw : Gives ((NormalSampler.coefficients ⟨3.2, 19⟩ 8).run
        (.ofScript [0x8000000000000005, 0xc000000000000005, 0x4000000000000007,
          0x6000000000000009]))
        fun r => r.1 = [0, 5, -5, -2, 3, 0, -6, 2] := by decide +kernel
    obtain ⟨⟨xs, g'⟩, hrun, rfl⟩ := hdraw
    obtain ⟨_, a, ha, hcomes⟩ := (hnoise _ _ _ ring.fits_zero).1 _ _ hrun
    refine ⟨_, ha, hcomes.decode_eq.trans ?_⟩
    decide +kernel
  · have hdraw : Gives ((Draw.times (Draw.ternary (threshold (.ofFloat 0.5))) 8).run
        (.ofScript [1, 0x8000000000000001, 0xffffffff, 0x7fffffffffffffff]))
        fun r => r.1 = [-1, 1, 0, 1, 0, -1, 1, -1] := by decide +kernel
    have haccepted : ternaryVector 8 0.5 =
        .ok (Draw.times (Draw.ternary (threshold (.ofFloat 0.5))) 8) := if_pos (by decide +kernel)
    obtain ⟨⟨xs, g'⟩, hrun, _, _, a, ha, hcomes⟩ := (hternary 0.5 _).1 _ haccepted
    obtain rfl := hdraw.value_unique hrun
    refine ⟨_, ha, hcomes.imp fun b hb => hb.1.decode_eq.trans ?_⟩
    decide +kernel

end Ring
end RelinCeremony
