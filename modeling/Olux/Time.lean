import Olux.Basic

namespace Olux.Time

-- The wall clock: the offset to the monotonic clock, the time of the last fold, what is left to be
-- slewed, the frequency correction, and the two carries.
structure Clock where
  offset : Int
  last : Nat
  slewLeft : Int
  freqPpb : Int
  freqRem : Int
  slewRem : Int

structure Ok (c : Clock) : Prop where
  last : c.last ≠ 0
  freq : |c.freqPpb| ≤ 500000
  freqRem : |c.freqRem| < 1000000000
  slewRem : 0 ≤ c.slewRem ∧ c.slewRem < 1000000

-- What is left of a slew after a maximum of `m`.
def clip (left m : Int) : Int := if 0 ≤ left then max 0 (left - m) else min 0 (left + m)

-- The clock `c'` is `e` ns behind `c`.
structure After (c : Clock) (e : Int) (c' : Clock) : Prop where
  ok : Ok c'
  nonneg : 0 ≤ e
  last : (c'.last : Int) = c.last + e
  freq : c'.freqPpb = c.freqPpb
  exact : 1000000000 * (c'.offset + c'.slewLeft) + c'.freqRem =
    1000000000 * (c.offset + c.slewLeft) + c.freqRem + e * c.freqPpb
  left : c'.slewLeft = clip c.slewLeft ((c.slewRem + e * 500) / 1000000)
  carry : c'.slewLeft ≠ 0 → c'.slewRem = (c.slewRem + e * 500) % 1000000

variable {c c' : Clock} {now : Nat} {e d : Int}

theorem After.refl (h : Ok c) : After c 0 c := by
  have hrem := h.slewRem
  refine ⟨h, Int.le_refl 0, by omega, rfl, by omega, ?_, fun _ => by omega⟩
  unfold clip
  omega

end Olux.Time
