import RelinCeremony.Proofs.Grid
import RelinCeremony.Proofs.Random.Rejection
import RelinCeremony.Proofs.Ring.Construction
import RelinCeremony.Protocol.Engine

namespace RelinCeremony
namespace Protocol
namespace Engine

/-!
# What an engine holds

An engine that is built has a digit size from 1 on and just as many levels as cover 60
bits.  The shift of a level is below 60, so it is never reduced, and the number of
slots fits in a word.
-/

/-- The invariant of an engine. -/
structure Valid (e : Engine) : Prop where
  ring : e.ring.Valid
  digitBits_pos : 0 < e.digitBits
  levels_eq : e.levels = (coveredBits + e.digitBits - 1) / e.digitBits

/-- An engine is built for every digit size but zero. -/
theorem build_eq_ok_iff {ring : Ring.NegacyclicRing} {source : Ring.NoiseSource}
    {digitBits : Nat} {e : Engine} : build ring source digitBits = .ok e ↔
      0 < digitBits ∧ e = ⟨ring, source, digitBits, (coveredBits + digitBits - 1) / digitBits⟩ := by
  unfold build levelCount
  constructor
  · intro h
    obtain ⟨levels, hlevels, h⟩ := bind_eq_ok_iff.1 h
    obtain ⟨_, hpos, hlevels⟩ := bind_eq_ok_iff.1 hlevels
    rw [require_eq_ok_iff] at hpos
    cases hlevels
    cases h
    exact ⟨hpos, rfl⟩
  · rintro ⟨hpos, rfl⟩
    rw [require_bind hpos]
    rfl

theorem valid_of_build {ring : Ring.NegacyclicRing} {source : Ring.NoiseSource} {digitBits : Nat}
    {e : Engine} (hring : ring.Valid) (h : build ring source digitBits = .ok e) :
    e.Valid ∧ e.ring = ring ∧ e.digitBits = digitBits := by
  obtain ⟨hpos, rfl⟩ := build_eq_ok_iff.1 h
  exact ⟨⟨hring, hpos, rfl⟩, rfl, rfl⟩

namespace Valid

variable {e : Engine}

/-- The noise source of an engine plays no part in its invariant. -/
theorem withSource (he : e.Valid) (source : Ring.NoiseSource) :
    ({ e with source := source } : Engine).Valid :=
  ⟨he.ring, he.digitBits_pos, he.levels_eq⟩

theorem coveredBits_le (he : e.Valid) : coveredBits ≤ e.levels * e.digitBits := by
  have hdigit := he.digitBits_pos
  have hdiv := Nat.div_add_mod (coveredBits + e.digitBits - 1) e.digitBits
  have hmod := Nat.mod_lt (coveredBits + e.digitBits - 1) hdigit
  rw [he.levels_eq, Nat.mul_comm]
  omega

theorem shift_lt (he : e.Valid) {w : Nat} (hw : w < e.levels) : w * e.digitBits < coveredBits := by
  rw [he.levels_eq, Nat.lt_iff_add_one_le, Nat.le_div_iff_mul_le he.digitBits_pos,
    Nat.succ_mul] at hw
  have hdigit := he.digitBits_pos
  omega

theorem levels_le (he : e.Valid) : e.levels ≤ coveredBits := by
  rcases Nat.eq_zero_or_pos e.levels with hzero | hpos
  · omega
  · have hshift := he.shift_lt (w := e.levels - 1) (by omega)
    have hle : e.levels - 1 ≤ (e.levels - 1) * e.digitBits :=
      Nat.le_mul_of_pos_right _ he.digitBits_pos
    omega

theorem checkedMul_shift (he : e.Valid) {w : Nat} (hw : w < e.levels) :
    Word.checkedMul w e.digitBits = .ok (w * e.digitBits) ∧
      w * e.digitBits % 2 ^ 32 = w * e.digitBits := by
  have hshift := he.shift_lt hw
  have hword : w * e.digitBits < Word.size := by
    unfold coveredBits at hshift
    exact hshift.trans (by decide)
  refine ⟨Word.checkedMul_eq hword, ?_⟩
  unfold coveredBits at hshift
  exact Nat.mod_eq_of_lt (by omega)

theorem size_shape (he : e.Valid) : e.shape.size = .ok (e.shape.moduli * e.shape.levels) := by
  have hlevels := he.levels_le
  have hword : e.shape.moduli * e.shape.levels < Word.size := by
    calc e.shape.moduli * e.shape.levels ≤ 2 ^ 58 * 60 :=
          Nat.mul_le_mul he.ring.length_channels_le hlevels
      _ < Word.size := by decide
  rw [Shape.size, Word.checkedMul_eq hword]

end Valid

/-! ## Seeds -/

/-- Seeds are drawn without fail, as many as asked for. -/
theorem gives_times_seed (count : Nat) (g : Random.Generator) :
    Gives ((Random.Draw.times Random.Draw.seed count).run g) fun r => r.1.length = count := by
  have hseed : ∀ g, Gives (Random.Draw.seed.run g) fun _ => True := fun g =>
    ⟨g.nextSeed, rfl, trivial⟩
  exact (Random.Draw.gives_times (fun _ => True) hseed count g).imp fun r hr => hr.1

theorem gives_drawSeeds {e : Engine} (he : e.Valid) (g : Random.Generator) :
    Gives (e.drawSeeds.run g) fun r => r.1.length = e.shape.moduli * e.shape.levels := by
  have hdraw : e.drawSeeds.run g =
      (Random.Draw.times Random.Draw.seed (e.shape.moduli * e.shape.levels)).run g := by
    unfold drawSeeds
    rw [he.size_shape]
    rfl
  rw [hdraw]
  exact gives_times_seed _ g

theorem requireShape_eq {α : Type} {e : Engine} {grid : Grid α} (h : grid.shape = e.shape) :
    e.requireShape grid = .ok () := by
  rw [requireShape, if_pos h]
  rfl

end Engine
end Protocol
end RelinCeremony
