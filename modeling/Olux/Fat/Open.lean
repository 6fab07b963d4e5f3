import Olux.Fat.Table.Lemmas

namespace Olux.Fat

-- What `fat_open` computes from the boot sector. `tot` and `fatSecs` are its counts of sectors.
structure Opened where
  type : FatType
  bps : Nat
  cs : Nat
  nfats : Nat
  fatsz : Nat
  rootBytes : Nat
  nclus : Nat
  fatOff : Nat
  rootOff : Nat
  dataOff : Nat
  tot : Nat
  fatSecs : Nat

def openType (nclus : Nat) : FatType := if nclus < 4085 then .fat12 else if nclus < 65525 then .fat16 else .fat32

def FatType.width : FatType → Nat
  | .fat12 => 3
  | .fat16 => 4
  | .fat32 => 8

def openBoot (b : Nat → UInt8) (devsize : Nat) : Option Opened :=
  let bps := le16 b 11
  let spc := (b 13).toNat
  let rsvd := le16 b 14
  let nfats := (b 16).toNat
  let rootEnts := le16 b 17
  let tot := if le16 b 19 ≠ 0 then le16 b 19 else le32 b 32
  let fatSecs := if le16 b 22 ≠ 0 then le16 b 22 else le32 b 36
  let rootSecs := (rootEnts * 32 + bps - 1) / bps
  let dataSec := rsvd + nfats * fatSecs + rootSecs
  let nclus := (tot - dataSec) / spc % 2 ^ 32
  let type := openType nclus
  let fatsz := fatSecs * bps % 2 ^ 32
  if b 510 ≠ 0x55 ∨ b 511 ≠ 0xAA then none
  else if (bps ≠ 512 ∧ bps ≠ 1024 ∧ bps ≠ 2048 ∧ bps ≠ 4096) ∨ spc = 0 ∨ spc &&& (spc - 1) ≠ 0 ∨ rsvd = 0 ∨ nfats = 0 ∨
      4 < nfats ∨ fatSecs = 0 ∨ tot = 0 then none
  else if 64 * 1024 < bps * spc then none
  else if tot ≤ dataSec then none
  else if type = .fat32 ∧ rootEnts ≠ 0 then none
  else if type ≠ .fat32 ∧ rootEnts = 0 then none
  else if fatsz < (nclus + 2) % 2 ^ 32 * type.width / 2 then none
  else if type = .fat32 ∧ ¬ (2 ≤ le32 b 44 ∧ le32 b 44 < (nclus + 2) % 2 ^ 32) then none
  else if 0 < devsize ∧ devsize < tot * bps then none
  else
    some
      { type, bps, cs := bps * spc, nfats, fatsz, rootBytes := rootSecs * bps, nclus, tot, fatSecs
        fatOff := rsvd * bps
        rootOff := rsvd * bps + nfats * fatsz
        dataOff := rsvd * bps + nfats * fatsz + rootSecs * bps }

def FatType.entryEnd : FatType → Nat → Nat
  | .fat12, c => c + c / 2 + 2
  | .fat16, c => c * 2 + 2
  | .fat32, c => c * 4 + 4

def FatType.bad : FatType → Nat
  | .fat12 => 0xFF7
  | .fat16 => 0xFFF7
  | .fat32 => 0x0FFFFFF7

structure Opened.Sound (v : Opened) : Prop where
  size : v.fatsz = v.fatSecs * v.bps
  entries : ∀ c ≤ v.nclus + 1, v.type.entryEnd c ≤ v.fatsz
  flushed : ∀ c ≤ v.nclus + 1, ∀ o < v.type.entryEnd c, o / v.bps < v.fatsz / v.bps
  fats : v.fatOff + v.nfats * v.fatsz ≤ v.rootOff
  root : v.rootOff + v.rootBytes ≤ v.dataOff
  data : v.dataOff + v.nclus * v.cs ≤ v.tot * v.bps
  marks : ∀ m, v.type.bad ≤ m → ¬ (2 ≤ m ∧ m < v.nclus + 2)

structure Opened.Checked (v : Opened) : Prop where
  bps : 0 < v.bps
  type : v.type = openType v.nclus
  size : v.fatsz = v.fatSecs * v.bps % 2 ^ 32
  table : (v.nclus + 2) * v.type.width / 2 ≤ v.fatsz
  root : v.rootOff = v.fatOff + v.nfats * v.fatsz
  data : v.dataOff = v.rootOff + v.rootBytes
  inside : v.dataOff + v.nclus * v.cs ≤ v.tot * v.bps

theorem data_inside {tot rsvd nfats secs size root bps spc : Nat} (hsize : size ≤ secs * bps)
    (htot : rsvd + nfats * secs + root < tot) : rsvd * bps + nfats * size + root * bps +
      (tot - (rsvd + nfats * secs + root)) / spc * (bps * spc) ≤ tot * bps := by
  have hclus := Nat.mul_le_mul_right bps (Nat.div_mul_le_self (tot - (rsvd + nfats * secs + root)) spc)
  have hfats := Nat.mul_le_mul_left nfats hsize
  have hsplit : tot * bps = (tot - (rsvd + nfats * secs + root)) * bps + (rsvd * bps + nfats * (secs * bps) + root * bps) := by
    rw [← Nat.mul_assoc, ← Nat.add_mul, ← Nat.add_mul, ← Nat.add_mul, Nat.sub_add_cancel (Nat.le_of_lt htot)]
  have hcomm : (tot - (rsvd + nfats * secs + root)) / spc * (bps * spc) =
      (tot - (rsvd + nfats * secs + root)) / spc * spc * bps := by
    rw [Nat.mul_assoc, Nat.mul_comm spc bps]
  omega

theorem openBoot_checked {b : Nat → UInt8} {devsize : Nat} {v : Opened} (h : openBoot b devsize = some v) : v.Checked := by
  unfold openBoot at h
  extract_lets bps spc rsvd nfats rootEnts tot fatSecs rootSecs dataSec nclus type fatsz at h
  have htot : tot < 2 ^ 32 := by
    unfold tot
    split
    · exact (le16_lt 19).trans (by decide)
    · exact le32_lt 32
  have hdataSec : dataSec = rsvd + nfats * fatSecs + rootSecs := rfl
  have hnclus : nclus = (tot - dataSec) / spc :=
    Nat.mod_eq_of_lt ((Nat.div_le_self ..).trans_lt ((Nat.sub_le ..).trans_lt htot))
  have htype : type = openType nclus := rfl
  have hfatsz : fatsz = fatSecs * bps % 2 ^ 32 := rfl
  clear_value bps spc rsvd nfats tot fatSecs rootSecs dataSec nclus type fatsz
  split_ifs at h with hsig hfields hcs hdata hroot hroot' htable hclus hdev
  cases h
  have hpos : 0 < nfats * fatSecs := Nat.mul_pos (by omega) (by omega)
  have hle := Nat.div_le_self (tot - dataSec) spc
  rw [Nat.mod_eq_of_lt (by omega)] at htable
  refine ⟨by dsimp only; omega, htype, hfatsz, Nat.le_of_not_lt htable, rfl, rfl, ?_⟩
  dsimp only
  rw [hnclus, hdataSec]
  exact data_inside (hfatsz ▸ Nat.mod_le ..) (hdataSec ▸ Nat.lt_of_not_le hdata)

-- A volume that is accepted is sound unless the size of the table wraps around, the last entry
-- of a FAT12 ends one byte behind the table, or a FAT32 has a cluster with the number of a mark.
theorem opened_sound_iff (b : Nat → UInt8) (devsize : Nat) (v : Opened) (h : openBoot b devsize = some v) :
    v.Sound ↔ v.fatSecs * v.bps < 2 ^ 32 ∧ (v.type = .fat12 → v.nclus % 2 = 1 → (v.nclus + 2) * 3 / 2 < v.fatsz) ∧
      (v.type = .fat32 → v.nclus + 2 ≤ 0x0FFFFFF7) := by
  have hv := openBoot_checked h
  have htype := hv.type
  have htable := hv.table
  constructor
  · intro hs
    refine ⟨?_, fun hty hodd => ?_, fun hty => ?_⟩
    · have hlt := Nat.mod_lt (v.fatSecs * v.bps) (show 0 < 2 ^ 32 by decide)
      rwa [← hv.size, hs.size] at hlt
    · have hlast := hs.entries (v.nclus + 1) (Nat.le_refl _)
      rw [hty, FatType.entryEnd] at hlast
      omega
    · have hmark := hs.marks 0x0FFFFFF7 (by rw [hty]; decide)
      omega
  rintro ⟨hwrap, hlast, hmarks⟩
  have hsize : v.fatsz = v.fatSecs * v.bps := hv.size.trans (Nat.mod_eq_of_lt hwrap)
  have hentries : ∀ c ≤ v.nclus + 1, v.type.entryEnd c ≤ v.fatsz := by
    intro c hc
    cases hty : v.type with
    | fat12 =>
      have hlast := hlast hty
      simp only [hty, FatType.width, FatType.entryEnd] at htable ⊢
      omega
    | _ =>
      simp only [hty, FatType.width, FatType.entryEnd] at htable ⊢
      omega
  refine ⟨hsize, hentries, fun c hc o ho => ?_, hv.root.ge, hv.data.ge, hv.inside, fun m hm hvalid => ?_⟩
  · rw [hsize, Nat.mul_div_cancel _ hv.bps, Nat.div_lt_iff_lt_mul hv.bps, ← hsize]
    exact ho.trans_le (hentries c hc)
  unfold openType at htype
  split_ifs at htype
  all_goals
    rw [htype] at hm hmarks
    simp only [FatType.bad] at hm
  · omega
  · omega
  · have hle := hmarks rfl
    omega

def smallBoot (low : UInt8) : Nat → UInt8
  | 12 | 20 | 22 => 2
  | 13 | 14 | 16 => 1
  | 17 => 16
  | 19 => low
  | 510 => 0x55
  | 511 => 0xAA
  | _ => 0

theorem opened_sound_small : ∃ v, openBoot (smallBoot 172) 0 = some v ∧ v.Sound :=
  ⟨_, rfl, (opened_sound_iff (smallBoot 172) 0 _ rfl).mpr ⟨by decide, by decide, by decide⟩⟩

theorem last_entry_outside : ∃ v, openBoot (smallBoot 173) 0 = some v ∧ v.nclus = 681 ∧ v.fatsz = 1024 ∧
    v.type.entryEnd 682 = 1025 ∧ ¬ v.Sound :=
  ⟨_, rfl, rfl, rfl, rfl, fun h => absurd (h.entries 682 (by decide)) (by decide)⟩

end Olux.Fat
