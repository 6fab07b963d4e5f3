import Olux.Basic
import Olux.Lib.Bytes

namespace Olux.Ext4

open Olux.Lib

-- What `ext4_open` has accepted, and what malloc and the device answer at each level of a lookup.
structure Mount where
  log : Nat
  log_le : log ≤ 6
  blocksCount : Nat
  inodesCount : Nat
  filetype : Bool
  malloc : Nat → Bool
  read : (level blk : Nat) → Option (List UInt8)

variable (e : Mount)

def Mount.bs : Nat := 1024 * 2 ^ e.log

def le32 (buf : List UInt8) (off : Nat) : Nat := leField buf off 4

def spanLoop (per : Nat) : Nat → Nat
  | 0 => 1
  | n + 1 => spanLoop per n * per % 2 ^ 32

-- The offsets that are read from block buffers, and the block found or the error. The levels count from 0.
def mapIndirect (e : Mount) (level blk idx : Nat) : List Nat × Except Int Nat :=
  if blk = 0 then ([], .ok 0)
  else if e.malloc level = false then ([], .error (-ENOMEM))
  else if e.blocksCount ≤ blk then ([], .error (- EIO))
  else match e.read level blk with
  | none => ([], .error (- EIO))
  | some buf =>
    let span := spanLoop (e.bs / 4) level
    let off := idx / span * 4
    let next := le32 buf off
    match level with
    | 0 => ([off], if next < e.blocksCount then .ok next else .error (- EIO))
    | level + 1 => (off :: (mapIndirect e level next (idx % span)).1, (mapIndirect e level next (idx % span)).2)

def bmap (iblock : List UInt8) (lblk : Nat) : List Nat × Except Int Nat :=
  let per := e.bs / 4
  if lblk > 0xffffffff then ([], .error (-EFBIG))
  else if lblk < 12 then
    ([], if le32 iblock (lblk * 4) < e.blocksCount then .ok (le32 iblock (lblk * 4)) else .error (- EIO))
  else if lblk - 12 < per then mapIndirect e 0 (le32 iblock 48) (lblk - 12)
  else if lblk - 12 - per < per * per then mapIndirect e 1 (le32 iblock 52) (lblk - 12 - per)
  else mapIndirect e 2 (le32 iblock 56) (lblk - 12 - per - per * per)

variable {e : Mount} {level blk idx : Nat}

theorem Mount.per_le : e.bs / 4 ≤ 2 ^ 14 := by
  have h : 2 ^ e.log ≤ 2 ^ 6 := Nat.pow_le_pow_right (by decide) e.log_le
  unfold Mount.bs
  omega

theorem Mount.bs_eq : e.bs = 4 * (e.bs / 4) := by
  unfold Mount.bs
  omega

theorem Mount.per_pos : 0 < e.bs / 4 := by
  have h := Nat.two_pow_pos e.log
  unfold Mount.bs
  omega

theorem spanLoop_eq (h : level ≤ 2) : spanLoop (e.bs / 4) level = (e.bs / 4) ^ level := by
  have hper := e.per_le
  have hmul : e.bs / 4 * (e.bs / 4) ≤ 2 ^ 14 * 2 ^ 14 := Nat.mul_le_mul hper hper
  match level, h with
  | 0, _ => rfl
  | 1, _ =>
    simp only [spanLoop, Nat.one_mul, Nat.pow_one]
    omega
  | 2, _ =>
    have h1 : e.bs / 4 % 2 ^ 32 = e.bs / 4 := Nat.mod_eq_of_lt (by omega)
    simp only [spanLoop, Nat.one_mul, Nat.pow_two, h1]
    exact Nat.mod_eq_of_lt (by omega)

theorem mapIndirect_offs (e : Mount) (level blk idx : Nat) : (mapIndirect e level blk idx).1 = [] ∨
    ∃ rest, (mapIndirect e level blk idx).1 = idx / spanLoop (e.bs / 4) level * 4 :: rest ∧
      (rest = [] ∨ ∃ l next, level = l + 1 ∧ rest = (mapIndirect e l next (idx % spanLoop (e.bs / 4) level)).1) := by
  rw [mapIndirect.eq_def e level blk idx]
  split
  · exact .inl rfl
  split
  · exact .inl rfl
  split
  · exact .inl rfl
  split
  · exact .inl rfl
  cases level with
  | zero => exact .inr ⟨[], rfl, .inl rfl⟩
  | succ level => exact .inr ⟨_, rfl, .inr ⟨level, _, rfl, rfl⟩⟩

theorem mapIndirect_within (hl : level ≤ 2) (h : idx < (e.bs / 4) ^ (level + 1)) :
    ∀ off ∈ (mapIndirect e level blk idx).1, off ≤ e.bs - 4 := by
  induction level using Nat.strongRecOn generalizing blk idx with
  | ind level ih =>
  have hbs := e.bs_eq
  have hdiv : idx / (e.bs / 4) ^ level < e.bs / 4 := Nat.div_lt_of_lt_mul h
  obtain hnil | ⟨rest, hcons, hrest⟩ := mapIndirect_offs e level blk idx
  · simp [hnil]
  rw [hcons, spanLoop_eq hl, List.forall_mem_cons]
  refine ⟨by omega, ?_⟩
  obtain rfl | ⟨l, next, rfl, rfl⟩ := hrest
  · simp
  · rw [spanLoop_eq hl]
    exact ih l (by omega) (by omega) (Nat.mod_lt _ (Nat.pow_pos e.per_pos))

theorem mapIndirect_past (h : (e.bs / 4) ^ 3 ≤ idx) (hne : (mapIndirect e 2 blk idx).1 ≠ []) :
    ∃ off ∈ (mapIndirect e 2 blk idx).1, e.bs - 4 < off := by
  obtain ⟨rest, hcons, _⟩ := (mapIndirect_offs e 2 blk idx).resolve_left hne
  have hdiv : e.bs / 4 ≤ idx / (e.bs / 4) ^ 2 :=
    (Nat.le_div_iff_mul_le (Nat.pow_pos e.per_pos)).mpr (by rwa [← Nat.pow_succ'])
  have hbs := e.bs_eq
  have hpos := e.per_pos
  rw [hcons, spanLoop_eq (by decide)]
  exact ⟨_, List.mem_cons_self, by omega⟩

-- Nothing is read from the block of this level.
def Unread (e : Mount) (level blk : Nat) : Prop :=
  blk = 0 ∨ e.malloc level = false ∨ e.blocksCount ≤ blk ∨ e.read level blk = none

theorem mapIndirect_nil_iff (idx : Nat) : (mapIndirect e level blk idx).1 = [] ↔ Unread e level blk := by
  rw [mapIndirect.eq_def e level blk idx]
  split
  · rename_i h
    exact iff_of_true rfl (.inl h)
  rename_i hblk
  split
  · rename_i h
    exact iff_of_true rfl (.inr (.inl h))
  rename_i hmalloc
  split
  · rename_i h
    exact iff_of_true rfl (.inr (.inr (.inl h)))
  rename_i hcount
  split
  · rename_i h
    exact iff_of_true rfl (.inr (.inr (.inr h)))
  rename_i hread
  refine iff_of_false ?_ ?_
  · cases level with
    | zero => simp
    | succ level => simp
  · simp [Unread, hblk, hmalloc, hcount, hread]

theorem bmap_within_iff (iblock : List UInt8) (lblk : Nat) :
    (∀ off ∈ (bmap e iblock lblk).1, off ≤ e.bs - 4) ↔
      lblk < 12 + e.bs / 4 + e.bs / 4 * (e.bs / 4) + (e.bs / 4) ^ 3 ∨ 0xffffffff < lblk ∨ Unread e 2 (le32 iblock 56) := by
  simp only [bmap]
  split
  · rename_i hbig
    exact iff_of_true (by simp) (.inr (.inl hbig))
  rename_i hbig
  split
  · exact iff_of_true (by simp) (.inl (by omega))
  split
  · exact iff_of_true (mapIndirect_within (by decide) (by rwa [Nat.zero_add, Nat.pow_one])) (.inl (by omega))
  split
  · exact iff_of_true (mapIndirect_within (by decide) (by rwa [Nat.pow_two])) (.inl (by omega))
  by_cases hlt : lblk < 12 + e.bs / 4 + e.bs / 4 * (e.bs / 4) + (e.bs / 4) ^ 3
  · exact iff_of_true (mapIndirect_within (Nat.le_refl 2) (show _ < (e.bs / 4) ^ 3 by omega)) (.inl hlt)
  rw [or_iff_right hlt, or_iff_right hbig, ← mapIndirect_nil_iff (lblk - 12 - e.bs / 4 - e.bs / 4 * (e.bs / 4))]
  refine ⟨fun h => ?_, fun h => by simp [h]⟩
  by_contra hne
  obtain ⟨off, hmem, hoff⟩ := mapIndirect_past (by omega) hne
  have := h off hmem
  omega

def small : Mount where
  log := 0
  log_le := by decide
  blocksCount := 2 ^ 32
  inodesCount := 16
  filetype := true
  malloc _ := true
  read _ _ := some (List.replicate 1024 1)

theorem bmap_behind_block : ∃ off ∈ (bmap small (List.replicate 60 1) 16843020).1, ¬ off ≤ small.bs - 4 :=
  ⟨1024, by decide, by decide⟩

end Olux.Ext4
