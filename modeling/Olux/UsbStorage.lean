import Olux.Basic

namespace Olux.UsbStorage

def MAX_XFER : Nat := 65536

-- The results of the transfers of one command, and how much its data stage has put into the buffer.
-- The status is the one read last, `signed` if signature and tag are right. The residue is not used.
structure Answer where
  gone : Bool
  cbw : Int
  data : Int
  moved : Nat
  csw : Int
  again : Int
  signed : Bool
  status : UInt8
  counted : 0 ≤ data → moved = data

def scsi (a : Answer) : Int :=
  if a.gone then -ENODEV
  else if a.cbw ≠ 31 then (if a.cbw < 0 then a.cbw else - EIO)
  else if a.data < 0 ∧ a.data ≠ -EPIPE then a.data
  else
    let r := if a.csw = -EPIPE then a.again else a.csw
    if r ≠ 13 ∨ a.signed = false ∨ a.status = 2 then (if r < 0 then r else - EIO)
    else if a.status ≠ 0 then 1 else 0

def Answer.filled (a : Answer) (len : Nat) : Nat := if a.gone ∨ a.cbw ≠ 31 then 0 else min a.moved len

-- For each byte the command and the byte of the disk it is from, none for what was there before.
abbrev Buf := Nat → Option (Nat × Nat)

-- The driver's buffer, and the caller's by the bytes of the disk that are to be read.
structure St where
  cmds : Nat
  buf : Buf
  out : Buf

-- The attempts that are left: the command that is taken for good. `base` is the first byte it names.
def attempts (dev : Nat → Answer) (base len : Nat) : Nat → Nat → Buf → Option (Nat × Buf)
  | 0, _, _ => none
  | k + 1, c, buf =>
    let buf := fun o => if o < (dev c).filled len then some (c, base + o) else buf o
    if scsi (dev c) = 0 then some (c, buf)
    else if scsi (dev c) = -ENODEV then none
    -- request_sense is a command with a buffer of its own
    else attempts dev base len k (if scsi (dev c) = 1 then c + 2 else c + 1) buf

def partSize (per count : Nat) : Nat := min count (MAX_XFER / 512) - min count (MAX_XFER / 512) % per

def readLoop (dev : Nat → Answer) (per : Nat) : Nat → Nat → Nat → St → Option (Except Int St)
  | _, _, 0, s => some (.ok s)
  | 0, _, _ + 1, _ => none
  | fuel + 1, sector, count + 1, s =>
    let n := partSize per (count + 1)
    let base := 512 * (sector / per % 2 ^ 32 * per)
    match attempts dev base (512 * n) 3 s.cmds s.buf with
    | none => some (.error (- EIO))
    | some (c, buf) =>
      readLoop dev per fuel (sector + n) (count + 1 - n)
        { cmds := c + 1
          buf
          out := fun a => if 512 * sector ≤ a ∧ a < 512 * (sector + n) then buf (a - 512 * sector) else s.out a }

def msdRw (dev : Nat → Answer) (per fuel sector count : Nat) : Option (Except Int St) :=
  if sector % per ≠ 0 ∨ count % per ≠ 0 then some (.error (-EINVAL))
  else readLoop dev per fuel sector count ⟨0, fun _ => none, fun _ => none⟩

-- The device has got the command, its data stage has ended, and a status has come for it.
def Answer.Answered (a : Answer) : Prop :=
  a.gone = false ∧ a.cbw = 31 ∧ (0 ≤ a.data ∨ a.data = -EPIPE) ∧ (if a.csw = -EPIPE then a.again else a.csw) = 13 ∧
    a.signed = true

-- The status that the device has sent is that the command passed.
def Answer.Passed (a : Answer) : Prop := a.Answered ∧ a.status = 0

instance (a : Answer) : Decidable a.Answered := inferInstanceAs (Decidable (_ ∧ _))
instance (a : Answer) : Decidable a.Passed := inferInstanceAs (Decidable (_ ∧ _))

-- A byte of the caller's buffer is from a command for its sector that passed.
def Genuine (dev : Nat → Answer) (x : Option (Nat × Nat)) (a : Nat) : Prop := ∃ c, x = some (c, a) ∧ (dev c).Passed

-- The first command that passes, of the attempts from `c` on.
def passing (dev : Nat → Answer) : Nat → Nat → Option Nat
  | 0, _ => none
  | k + 1, c =>
    if (dev c).Passed then some c
    else if scsi (dev c) = -ENODEV then none
    else passing dev k (if scsi (dev c) = 1 then c + 2 else c + 1)

-- The device sends all the data with each command that passes, and the block numbers have 32 bits.
def Complete (dev : Nat → Answer) (per : Nat) : Nat → Nat → Nat → Nat → Prop
  | _, _, 0, _ => True
  | 0, _, _ + 1, _ => True
  | fuel + 1, sector, count + 1, c =>
    let n := partSize per (count + 1)
    ∀ c', passing dev 3 c = some c' → (512 * n ≤ (dev c').moved ∧ sector / per < 2 ^ 32) ∧
      Complete dev per fuel (sector + n) (count + 1 - n) (c' + 1)

variable {dev : Nat → Answer}

theorem scsi_eq_zero_iff (a : Answer) : scsi a = 0 ↔ a.Passed := by
  unfold scsi Answer.Passed Answer.Answered ENODEV EIO
  dsimp only
  by_cases hgone : a.gone = true
  · simp [hgone]
  rw [if_neg hgone]
  by_cases hcbw : a.cbw = 31
  swap
  · simp only [hcbw, ne_eq, not_false_eq_true, if_true, false_and, and_false, iff_false]
    split <;> omega
  simp only [hcbw, ne_eq, not_true_eq_false, if_false]
  by_cases hdata : a.data < 0 ∧ ¬ a.data = -EPIPE
  · rw [if_pos hdata]
    exact iff_of_false (by omega) fun h => by have := h.1.2.2.1; omega
  rw [if_neg hdata]
  generalize (if a.csw = -EPIPE then a.again else a.csw) = r
  have hend : 0 ≤ a.data ∨ a.data = -EPIPE := by omega
  by_cases hbad : r ≠ 13 ∨ a.signed = false ∨ a.status = 2
  · rw [if_pos hbad]
    refine iff_of_false (by split <;> omega) ?_
    rintro ⟨⟨-, -, -, hr, hsigned⟩, hstatus⟩
    rcases hbad with hbad | hbad | hbad
    · exact hbad hr
    · rw [hsigned] at hbad
      cases hbad
    · rw [hstatus] at hbad
      cases hbad
  rw [if_neg hbad]
  simp only [ne_eq, not_or, not_not, Bool.not_eq_false] at hbad
  by_cases hstatus : a.status = 0
  · simp [hstatus, hgone, hend, hbad.1, hbad.2.1]
  · simp [hstatus]

-- What is there from commands that passed is from in front of `place`.
def Stale (dev : Nat → Answer) (x : Option (Nat × Nat)) (place : Nat) : Prop :=
  ∀ c a, x = some (c, a) → (dev c).Passed → a < place

theorem attempts_spec {place base len k n c : Nat} {buf buf' : Buf} (hs : ∀ o, Stale dev (buf o) place)
    (h : attempts dev base len k n buf = some (c, buf')) :
    passing dev k n = some c ∧ (dev c).Passed ∧ (∀ o < (dev c).filled len, buf' o = some (c, base + o)) ∧
      ∀ o, (dev c).filled len ≤ o → Stale dev (buf' o) place := by
  induction k generalizing n buf with
  | zero => cases h
  | succ k ih =>
  simp only [attempts] at h
  rw [passing]
  split at h
  · rename_i hpass
    rw [scsi_eq_zero_iff] at hpass
    cases h
    refine ⟨if_pos hpass, hpass, fun o ho => if_pos ho, fun o ho => ?_⟩
    dsimp only
    rw [if_neg (Nat.not_lt.mpr ho)]
    exact hs o
  rename_i hfail
  rw [scsi_eq_zero_iff] at hfail
  rw [if_neg hfail]
  split at h
  · cases h
  rename_i hthere
  rw [if_neg hthere]
  refine ih (fun o => ?_) h
  split
  · intro c a heq hpass
    cases heq
    exact absurd hpass hfail
  · exact hs o

theorem Answer.Passed.filled_eq {a : Answer} (h : a.Passed) (len : Nat) : a.filled len = min a.moved len := by
  rw [Answer.filled, if_neg]
  simp [h.1.1, h.1.2.1]

theorem filled_le (a : Answer) (len : Nat) : a.filled len ≤ len := by
  unfold Answer.filled
  split
  · exact Nat.zero_le len
  · exact Nat.min_le_right ..

theorem part_genuine_iff {place base len c : Nat} {buf : Buf} (hlen : 0 < len)
    (hpass : (dev c).Passed) (hnew : ∀ o < (dev c).filled len, buf o = some (c, base + o))
    (hold : ∀ o, (dev c).filled len ≤ o → Stale dev (buf o) place) :
    (∀ o < len, Genuine dev (buf o) (place + o)) ↔ (dev c).filled len = len ∧ base = place := by
  constructor
  · intro h
    have hfull : (dev c).filled len = len := by
      refine Nat.le_antisymm (filled_le _ _) (Nat.le_of_not_lt fun hlt => ?_)
      obtain ⟨c', heq, hpass'⟩ := h _ hlt
      have := hold _ (Nat.le_refl _) c' _ heq hpass'
      omega
    obtain ⟨c', heq, -⟩ := h 0 hlen
    rw [hnew 0 (hfull.symm ▸ hlen)] at heq
    cases heq
    exact ⟨hfull, rfl⟩
  · rintro ⟨hfull, rfl⟩ o ho
    exact ⟨c, hnew o (hfull.symm ▸ ho), hpass⟩

theorem partSize_spec {per count : Nat} (hper : per ∈ [1, 2, 4, 8]) (hpos : 0 < count) (hcount : count % per = 0) :
    0 < partSize per count ∧ partSize per count ≤ count ∧ partSize per count % per = 0 ∧
      (count - partSize per count) % per = 0 := by
  simp only [List.mem_cons, List.not_mem_nil, or_false] at hper
  unfold partSize MAX_XFER
  rcases hper with rfl | rfl | rfl | rfl <;> omega

theorem block_fits_iff {per sector : Nat} (hper : per ∈ [1, 2, 4, 8]) (hsector : sector % per = 0) :
    512 * (sector / per % 2 ^ 32 * per) = 512 * sector ↔ sector / per < 2 ^ 32 := by
  simp only [List.mem_cons, List.not_mem_nil, or_false] at hper
  rcases hper with rfl | rfl | rfl | rfl <;> omega

theorem readLoop_spec {per fuel sector count : Nat} (hper : per ∈ [1, 2, 4, 8]) (hsector : sector % per = 0)
    (hcount : count % per = 0) {s t : St} (h : readLoop dev per fuel sector count s = some (.ok t))
    (hs : ∀ o, Stale dev (s.buf o) (512 * sector)) :
    (∀ a < 512 * sector, t.out a = s.out a) ∧
      ((∀ a, 512 * sector ≤ a → a < 512 * (sector + count) → Genuine dev (t.out a) a) ↔
        Complete dev per fuel sector count s.cmds) := by
  induction fuel generalizing sector count s with
  | zero =>
    cases count with
    | succ count => cases h
    | zero =>
      cases h
      exact ⟨fun _ _ => rfl, iff_of_true (fun a _ _ => by omega) trivial⟩
  | succ fuel ih =>
  cases count with
  | zero =>
    cases h
    exact ⟨fun _ _ => rfl, iff_of_true (fun a _ _ => by omega) trivial⟩
  | succ count =>
  unfold readLoop at h
  obtain ⟨hpos, hle, hmod, hrest⟩ := partSize_spec hper (Nat.succ_pos count) hcount
  have hfits := block_fits_iff hper hsector
  have hbase : 512 * (sector / per % 2 ^ 32 * per) ≤ 512 * sector :=
    Nat.mul_le_mul_left 512 (Nat.le_trans (Nat.mul_le_mul_right per (Nat.mod_le ..)) (Nat.div_mul_le_self ..))
  unfold Complete
  generalize partSize per (count + 1) = n at h hpos hle hmod hrest ⊢
  generalize 512 * (sector / per % 2 ^ 32 * per) = base at h hfits hbase
  have hend : 512 * (sector + n + (count + 1 - n)) = 512 * (sector + (count + 1)) := by omega
  have hnext : (sector + n) % per = 0 := by rw [Nat.add_mod, hsector, hmod, Nat.zero_mod]
  dsimp only at h ⊢
  split at h
  · cases h
  rename_i c buf hattempts
  obtain ⟨hfirst, hpass, hnew, hold⟩ := attempts_spec hs hattempts
  have hpart := part_genuine_iff (Nat.mul_pos (by decide) hpos) hpass hnew hold
  rw [hfits, hpass.filled_eq, min_eq_right_iff] at hpart
  have hstale : ∀ o, Stale dev (buf o) (512 * (sector + n)) := by
    intro o c' a heq hpass'
    by_cases ho : o < (dev c).filled (512 * n)
    · have hlt := filled_le (dev c) (512 * n)
      cases (hnew o ho).symm.trans heq
      omega
    · have := hold o (Nat.le_of_not_lt ho) c' a heq hpass'
      omega
  obtain ⟨hkeep, hiff⟩ := ih hnext hrest h hstale
  rw [hend] at hiff
  dsimp only at hkeep hiff
  refine ⟨fun a ha => ?_, ?_⟩
  · rw [hkeep a (by omega), if_neg (by omega)]
  simp only [hfirst, Option.some.injEq, forall_eq']
  rw [← hpart, ← hiff]
  refine ⟨fun hall => ⟨fun o ho => ?_, fun a hge => hall a (by omega)⟩, fun ⟨hhere, hlater⟩ a hge hlt => ?_⟩
  · have := hall (512 * sector + o) (by omega) (by omega)
    rwa [hkeep _ (by omega), if_pos (by omega), Nat.add_sub_cancel_left] at this
  by_cases ha : a < 512 * (sector + n)
  · rw [hkeep a ha, if_pos ⟨hge, ha⟩]
    have := hhere (a - 512 * sector) (by omega)
    rwa [Nat.add_sub_cancel' hge] at this
  · exact hlater a (Nat.le_of_not_lt ha) hlt

-- A read that returns 0 has given the device's bytes iff the device sends all the data with each command
-- that passes, and the number of its first block is not cut off.
theorem read_genuine_iff (per : Nat) (hper : per ∈ [1, 2, 4, 8]) (dev : Nat → Answer) (fuel sector count : Nat) (s : St)
    (h : msdRw dev per fuel sector count = some (.ok s)) :
    (∀ a, 512 * sector ≤ a → a < 512 * (sector + count) → Genuine dev (s.out a) a) ↔
      Complete dev per fuel sector count 0 := by
  unfold msdRw at h
  split at h
  · cases h
  · exact (readLoop_spec hper (by omega) (by omega) h (fun _ _ _ heq => by cases heq)).2

def passes (n : Nat) : Answer := ⟨false, 31, n, n, 13, 0, true, 0, fun _ => rfl⟩

-- The first command is refused, and the next one passes after the sense data has been read.
def retried (c : Nat) : Answer := if c = 0 then { passes 0 with status := 1 } else passes 1024

theorem read_genuine_retried : ∃ s, msdRw retried 1 2 40 2 = some (.ok s) ∧
    ∀ a, 512 * 40 ≤ a → a < 512 * (40 + 2) → Genuine retried (s.out a) a := by
  refine ⟨_, rfl, (read_genuine_iff 1 (by decide) retried 2 40 2 _ rfl).mpr fun c hc => ?_⟩
  cases hc
  exact ⟨by decide, trivial⟩

theorem short_data_stage_passes : ∃ s, msdRw (fun _ => passes 512) 1 2 40 2 = some (.ok s) ∧ s.out (512 * 41) = none ∧
    ¬ ∀ a, 512 * 40 ≤ a → a < 512 * (40 + 2) → Genuine (fun _ => passes 512) (s.out a) a := by
  refine ⟨_, rfl, rfl, fun h => ?_⟩
  obtain ⟨c, heq, -⟩ := h (512 * 41) (by decide) (by decide)
  cases heq

end Olux.UsbStorage
