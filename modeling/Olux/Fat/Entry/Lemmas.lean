import Olux.Fat.Entry
import Olux.Fat.Table.Lemmas

namespace Olux.Fat

open Olux.Lib

variable {g : Geom} {D : Dir} {name : List UInt8} {sn : Vector UInt8 11}

def Plain (b : UInt8) : Prop := b ≠ 0 ∧ b ≠ 0xE5 ∧ b ≠ 46

instance (b : UInt8) : Decidable (Plain b) := inferInstanceAs (Decidable (_ ∧ _))

theorem deStart_deSetStart {c : Nat} (hc : valid g c) (e : De) : deStart g (deSetStart g e c) = c := by
  have hlt := (valid_iff.mp hc).2
  have hmax := g.nclus_lt
  unfold deStart deSetStart
  by_cases h32 : g.type = .fat32
  · simp only [if_pos h32, UInt16.toNat_ofNat']
    omega
  have hsmall : g.nclus < 65525 := Nat.lt_of_not_le fun hbig => h32 (type_fat32.mpr hbig)
  simp only [if_neg h32, UInt16.toNat_ofNat']
  omega

end Olux.Fat
