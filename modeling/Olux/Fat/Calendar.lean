import Olux.Fat.Time

namespace Olux.Fat

-- Day `j` of the year `y`, from 1 March of a multiple of 400 on: year `k` of the four years `q` of the century `c`.
structure InEra (doe y c q k j : Nat) : Prop where
  century : c < 4
  four : q < 25
  year : k < 4
  day : j < 365 + k / 3
  -- the last year of a century is no leap year, but in the last century
  last : q = 24 → j = 365 → c = 3
  doe_eq : doe = 36524 * c + 1461 * q + 365 * k + j
  year_eq : y = 100 * c + 4 * q + k

theorem exists_inEra {doe : Nat} (h : doe < 146097) : ∃ y c q k j, InEra doe y c q k j := by
  obtain ⟨c, r, hc, hr, rfl⟩ : ∃ c r, c < 4 ∧ r < 36524 + c / 3 ∧ doe = 36524 * c + r :=
    ⟨min (doe / 36524) 3, doe - 36524 * min (doe / 36524) 3, by omega, by omega, by omega⟩
  obtain ⟨k, j, hk, hj, hs⟩ : ∃ k j, k < 4 ∧ j < 365 + k / 3 ∧ r % 1461 = 365 * k + j :=
    ⟨min (r % 1461 / 365) 3, r % 1461 - 365 * min (r % 1461 / 365) 3, by omega, by omega, by omega⟩
  exact ⟨_, c, r / 1461, k, j, hc, by omega, hk, hj, by omega, by omega, rfl⟩

section civil

variable {doe y c q k j : Nat} (h : InEra doe y c q k j)
include h

theorem InEra.carry : ∃ e ≤ j, j < 365 + e ∧ doe / 1460 = 25 * c + q + e := by
  have ⟨hc, hq, hk, hj, hl, hd, _⟩ := h
  by_cases he : 24 * c + q + 365 * k + j < 1460
  · exact ⟨0, by omega, by clear hd; omega, by omega⟩
  · exact ⟨1, by clear hd; omega, by clear hd; omega, by omega⟩

theorem InEra.century_div : doe / 36524 = c + doe / 146096 := by
  have ⟨hc, hq, hk, hj, hl, hd, _⟩ := h
  have : 1461 * q + 365 * k + j < 36524 ∨ c = 3 ∧ 1461 * q + 365 * k + j = 36524 := by clear hd; omega
  clear hl hj hk hq
  obtain hl | ⟨rfl, hl⟩ := this
  · have h1 : doe < 146096 := by omega
    rw [Nat.div_eq_of_lt h1]
    omega
  · omega

theorem InEra.yoe_eq : (doe - doe / 1460 + doe / 36524 - doe / 146096) / 365 = y := by
  obtain ⟨e, h1, h2, h3⟩ := h.carry
  have hd := h.doe_eq
  have h4 : doe - doe / 1460 + doe / 36524 - doe / 146096 = 365 * (100 * c + 4 * q + k) + (j - e) := by
    rw [h3, h.century_div]
    omega
  rw [h4, Nat.mul_add_div (by decide), Nat.div_eq_of_lt (by omega), h.year_eq, Nat.add_zero]

theorem InEra.doy_eq : 365 * y + y / 4 - y / 100 + j = doe := by
  have ⟨_, _, _, _, _, _, _⟩ := h
  have h1 : y / 4 = 25 * c + q := by omega
  have h2 : y / 100 = c := by omega
  rw [h1, h2]
  omega

end civil

def Leap (y : Nat) : Prop :=
  y % 4 = 0 ∧ (y % 100 ≠ 0 ∨ y % 400 = 0)

instance (y : Nat) : Decidable (Leap y) :=
  inferInstanceAs (Decidable (_ ∧ _))

def monthDays (y m : Nat) : Nat :=
  if m = 2 then if Leap y then 29 else 28
  else if m = 4 ∨ m = 6 ∨ m = 9 ∨ m = 11 then 30
  else 31

theorem monthDays_le (y m : Nat) : monthDays y m ≤ 31 := by
  unfold monthDays
  split <;> split <;> decide

def Gregorian (y m d : Nat) : Prop :=
  1 ≤ m ∧ m ≤ 12 ∧ 1 ≤ d ∧ d ≤ monthDays y m

section month

variable {y j mp m d : Nat} (hj : j < 366) (hmp : mp = (5 * j + 2) / 153)
  (hm : m = if mp < 10 then mp + 3 else mp - 9) (hd : d = j - (153 * mp + 2) / 5 + 1)
include hj hmp hm hd

theorem month_gregorian (hl : j = 365 → Leap (y + 1)) : Gregorian (y + if m ≤ 2 then 1 else 0) m d := by
  have h12 : mp < 12 := by omega
  have hm' : m = mp + 3 ∧ mp < 10 ∨ m = mp - 9 ∧ 10 ≤ mp := by split at hm <;> omega
  refine ⟨by omega, by omega, by omega, ?_⟩
  unfold monthDays
  split
  · rw [if_pos (show m ≤ 2 by omega)]
    split
    · omega
    rename_i hn
    have : j ≠ 365 := fun h => hn (hl h)
    omega
  · split <;> omega

theorem month_days (hy : y ≤ 2107) : daysFromCivil (y + if m ≤ 2 then 1 else 0) m d =
    (y / 400 * 146097 + (365 * (y % 400) + y % 400 / 4 - y % 400 / 100 + j) : Nat) - 719468 := by
  have h12 : mp < 12 := by omega
  have h1 : (y + if m ≤ 2 then 1 else 0) - (if m ≤ 2 then 1 else 0) = y := by omega
  have h2 : (if m > 2 then m - 3 else m + 9) = mp := by split at hm <;> split <;> omega
  have h3 : (153 * mp + 2) / 5 + d - 1 = j := by omega
  have h4 : y - y / 400 * 400 = y % 400 := by omega
  simp only [daysFromCivil, h1, h2, h3, h4]
  omega

end month

theorem InEra.leap {doe y c q k j era : Nat} (h : InEra doe y c q k j) (hj : j = 365) : Leap (y + era * 400 + 1) := by
  have ⟨_, _, _, _, _, _, _⟩ := h
  unfold Leap
  omega

section instant

theorem pack_date {y x : Nat} (h0 : 1980 ≤ y) (h1 : y ≤ 2107) :
    UInt16.ofInt (((if (y : Int) > 2107 then 2107 else (y : Int)) - 1980) * 2 ^ 9 + x) = UInt16.ofNat ((y - 1980) * 2 ^ 9 + x) := by
  have h : ((y : Int) - 1980) * 2 ^ 9 + x = ((y - 1980) * 2 ^ 9 + x : Nat) := by omega
  rw [if_neg (by omega), h]
  refine UInt16.toNat_inj.mp ?_
  simp only [UInt16.ofInt, UInt16.toNat_ofNat']
  omega

theorem InEra.bounds {z y c q k j m : Nat} (h : InEra (z % 146097) y c q k j) (h0 : 723120 ≤ z) (h1 : z ≤ 769870)
    (hm : m ≤ 2 ↔ 306 ≤ j) : 1980 ≤ y + z / 146097 * 400 + (if m ≤ 2 then 1 else 0) ∧
      y + z / 146097 * 400 + (if m ≤ 2 then 1 else 0) ≤ 2107 := by
  have ⟨_, _, _, _, _, hd, hy⟩ := h
  have : z / 146097 = 4 ∧ 138732 ≤ z % 146097 ∨ z / 146097 = 5 ∧ z % 146097 ≤ 39385 := by omega
  simp only [hm]
  split <;> omega

variable {t : Int} (h0 : 315532800 ≤ t) (h1 : t ≤ 4354819199)
include h0 h1

theorem unixToFat_eq : ∃ y m d, Gregorian y m d ∧ 1980 ≤ y ∧ y ≤ 2107 ∧ daysFromCivil y m d = t / 86400 ∧
    unixToFat t = (UInt16.ofNat ((y - 1980) * 2 ^ 9 + (m * 2 ^ 5 + d)),
      UInt16.ofNat (t.toNat % 86400 / 3600 * 2 ^ 11 + t.toNat % 86400 / 60 % 60 * 2 ^ 5 + t.toNat % 86400 % 60 / 2)) := by
  obtain ⟨n, rfl⟩ := Int.eq_ofNat_of_zero_le (by omega : 0 ≤ t)
  obtain ⟨z, hz⟩ : ∃ z, z = n / 86400 + 719468 := ⟨_, rfl⟩
  obtain ⟨yoe, c, q, k, j, he⟩ := exists_inEra (Nat.mod_lt z (by decide : 146097 > 0))
  have hj : j < 366 := by have := he.day; have := he.year; omega
  obtain ⟨mp, hmp⟩ : ∃ mp, mp = (5 * j + 2) / 153 := ⟨_, rfl⟩
  obtain ⟨m, hm⟩ : ∃ m, m = if mp < 10 then mp + 3 else mp - 9 := ⟨_, rfl⟩
  obtain ⟨y, hy⟩ : ∃ y, y = yoe + z / 146097 * 400 := ⟨_, rfl⟩
  have hm2 : m ≤ 2 ↔ 306 ≤ j := by split at hm <;> omega
  obtain ⟨g1, g2⟩ := he.bounds (by omega) (by omega) hm2
  rw [← hy] at g1 g2
  refine ⟨y + if m ≤ 2 then 1 else 0, m, j - (153 * mp + 2) / 5 + 1,
    month_gregorian hj hmp hm rfl fun h => hy ▸ he.leap h, g1, g2, ?_, ?_⟩
  · have hyoe : yoe < 400 := by have ⟨_, _, _, _, _, _, _⟩ := he; omega
    have h4 : y / 400 = z / 146097 := by omega
    have h5 : y % 400 = yoe := by omega
    rw [month_days hj hmp hm rfl (by omega), h4, h5, he.doy_eq]
    omega
  have hmod : z - z / 146097 * 146097 = z % 146097 := by omega
  have hb : Int.bmod (y : Nat) (2 ^ 32) = y := Int.bmod_eq_of_le (by omega) (by omega)
  have h6 : (y : Int) + (if m ≤ 2 then 1 else 0) = (y + if m ≤ 2 then 1 else 0 : Nat) := by split <;> rfl
  simp only [unixToFat, if_neg (by omega : ¬ (n : Int) < 315532800), Int.toNat_natCast, ← hz, hmod, he.yoe_eq,
    Nat.sub_eq_of_eq_add' he.doy_eq.symm, ← hmp, ← hm, ← hy, hb]
  rw [h6, pack_date g1 g2]

theorem fatToUnix_unixToFat : fatToUnix (unixToFat t).1 (unixToFat t).2 = t - t % 2 ∧
    ∃ y m d, Gregorian y m d ∧ 1980 ≤ y ∧ y ≤ 2107 ∧ (unixToFat t).1.toNat = (y - 1980) * 2 ^ 9 + (m * 2 ^ 5 + d) := by
  obtain ⟨y, m, d, hg, hy0, hy1, hdays, heq⟩ := unixToFat_eq h0 h1
  have ⟨hm0, hm1, hd0, hd1⟩ := hg
  have hd31 := Nat.le_trans hd1 (monthDays_le y m)
  have hdate : (UInt16.ofNat ((y - 1980) * 2 ^ 9 + (m * 2 ^ 5 + d))).toNat = (y - 1980) * 2 ^ 9 + (m * 2 ^ 5 + d) :=
    UInt16.toNat_ofNat_of_lt' (show _ < 2 ^ 16 by omega)
  rw [heq]
  refine ⟨?_, y, m, d, hg, hy0, hy1, hdate⟩
  have htime := UInt16.toNat_ofNat_of_lt' (show t.toNat % 86400 / 3600 * 2 ^ 11 + t.toNat % 86400 / 60 % 60 * 2 ^ 5 +
    t.toNat % 86400 % 60 / 2 < 2 ^ 16 by omega)
  have e1 : 1980 + ((y - 1980) * 2 ^ 9 + (m * 2 ^ 5 + d)) / 2 ^ 9 = y := by omega
  have e2 : ((y - 1980) * 2 ^ 9 + (m * 2 ^ 5 + d)) / 2 ^ 5 % 2 ^ 4 = m := by omega
  have e3 : ((y - 1980) * 2 ^ 9 + (m * 2 ^ 5 + d)) % 2 ^ 5 = d := by omega
  simp only [fatToUnix, hdate, htime, e1, e2, e3, hdays]
  rw [if_neg (by omega), if_neg (by omega)]
  omega

end instant

theorem fatToUnix_unixToFat_leap_day : (315532800 : Int) ≤ 951868799 ∧ (951868799 : Int) ≤ 4354819199 ∧
    fatToUnix (unixToFat 951868799).1 (unixToFat 951868799).2 = 951868798 :=
  ⟨by decide, by decide, (fatToUnix_unixToFat (by decide) (by decide)).1⟩

end Olux.Fat
