import Olux.Exec
import Olux.Vm.Vma.Lemmas

namespace Olux.Exec

open Olux.Lib Function List Option
open Olux.Vm

variable {ph : List Phdr}

variable (files : Nat → Nat → UInt8)

-- The byte that fill_page leaves at an address of an area: `files` are the bytes of the files by
-- offset, zero behind the end.
def fillByte (v : Vma) (addr : Nat) : UInt8 :=
  let va := alignDown addr PAGE_SIZE
  let delta := sub64 va v.start
  match v.file with
  | none => 0
  | some f =>
    if v.fileBytes ≤ delta then 0
    else if addr - va < min PAGE_SIZE (v.fileBytes - delta) then files f (add64 (add64 v.fileOff delta) (addr - va))
    else 0

def lowest (ph : List Phdr) : Nat :=
  (ph.filter fun p => p.type = PT_LOAD).foldl (fun lo p => min lo (alignDown p.vaddr.toNat PAGE_SIZE)) (2 ^ 64 - 1)

def biasOf (eh : Ehdr) (ph : List Phdr) (baseHint : Nat) : Nat :=
  if eh.type = ET_DYN then sub64 baseHint (lowest ph) else 0

def Phdr.InUser (p : Phdr) (bias : Nat) : Prop :=
  p.type = PT_LOAD → p.memsz ≠ 0 → USER_MIN_ADDR ≤ p.addr bias ∧ p.addr bias + p.memsz.toNat ≤ USER_VA_END

-- What load_elf is to leave: areas in user space that do not overlap, and the bytes of the segments.
structure Loaded (files : Nat → Nat → UInt8) (f bias : Nat) (ph : List Phdr) (old new : List Vma) : Prop where
  range : ∀ v ∈ new, v ∈ old ∨ USER_MIN_ADDR ≤ v.start ∧ v.start < v.stop ∧ v.stop ≤ USER_VA_END
  apart : new.Pairwise fun v w => v.stop ≤ w.start ∨ w.stop ≤ v.start
  bytes : ∀ p ∈ ph, p.type = PT_LOAD → ∀ i < p.memsz.toNat,
    (vmaFind (add64 (p.addr bias) i) new).map (fun v => fillByte files v (add64 (p.addr bias) i)) =
      some (if i < p.filesz.toNat then files f (add64 p.offset.toNat i) else 0)

def Phdr.vma (p : Phdr) (f bias : Nat) : Vma :=
  { start := p.start bias, stop := p.stop bias, flags := segmentFlags p.flags, file := some f,
    fileOff := sub64 p.offset.toNat (p.lead bias), fileBytes := add64 (p.lead bias) p.filesz.toNat, ioBase := 0 }

theorem add64_add64 {a b c d e : Nat} (h : a + b + c = d + e) : add64 (add64 a b) c = add64 d e := by
  unfold add64
  rw [Nat.mod_add_mod, h]

section

variable {p : Phdr} {f bias : Nat}

theorem lead_eq (p : Phdr) (bias : Nat) : p.lead bias = p.addr bias - p.start bias ∧ p.lead bias < PAGE_SIZE ∧
    p.start bias ≤ p.addr bias := by
  have hb := alignDown_bounds (p.addr bias)
  have hlt : p.addr bias < 2 ^ 64 := Nat.mod_lt _ (by decide)
  have heq : p.lead bias = p.addr bias - p.start bias := sub64_of_le hb.1 hlt
  refine ⟨heq, ?_, hb.1⟩
  rw [heq]
  unfold Phdr.start
  omega

theorem stop_bounds (h : p.addr bias + p.memsz.toNat ≤ USER_VA_END) :
    p.addr bias + p.memsz.toNat ≤ p.stop bias ∧ p.stop bias ≤ USER_VA_END := by
  have hva : USER_VA_END = 2 ^ 39 := rfl
  have hsum : add64 (p.addr bias) p.memsz.toNat = p.addr bias + p.memsz.toNat := add64_of_lt (by omega)
  unfold Phdr.stop
  rw [hsum]
  unfold alignUp PAGE_SIZE
  omega

theorem vma_ok (hmin : USER_MIN_ADDR ≤ p.addr bias) (hmax : p.addr bias + p.memsz.toNat ≤ USER_VA_END)
    (hsize : 0 < p.memsz.toNat) : (p.vma f bias).Ok USER_MIN_ADDR := by
  obtain ⟨-, -, hle⟩ := lead_eq p bias
  obtain ⟨hend, hstop⟩ := stop_bounds hmax
  refine ⟨?_, Nat.lt_of_le_of_lt hle (by change p.addr bias < p.stop bias; omega), hstop, alignDown_dvd _, alignUp_dvd _⟩
  change USER_MIN_ADDR ≤ alignDown (p.addr bias) PAGE_SIZE
  unfold alignDown PAGE_SIZE
  unfold USER_MIN_ADDR at *
  omega

theorem page_byte (g : Nat → UInt8) (filesz : Nat) {a i va start lead off : Nat} (hl : lead = a - start) (hle : start ≤ a)
    (hlead : lead ≤ off) (hstart : start ≤ va) (hva : va ≤ a + i) (hpage : a + i < va + PAGE_SIZE) :
    (if lead + filesz ≤ va - start then 0
      else if a + i - va < min PAGE_SIZE (lead + filesz - (va - start)) then
        g (add64 (add64 (off - lead) (va - start)) (a + i - va))
      else 0) = if i < filesz then g (add64 off i) else 0 := by
  have hsum : off - lead + (va - start) + (a + i - va) = off + i := by omega
  rw [add64_add64 hsum]
  by_cases hif : i < filesz
  · rw [if_neg (by omega), if_pos (by omega), if_pos hif]
  rw [if_neg hif]
  split
  · rfl
  · rw [if_neg (by omega)]

theorem fillByte_segment (hmax : p.addr bias + p.memsz.toNat ≤ USER_VA_END)
    (hfile : p.filesz.toNat ≤ p.memsz.toNat) (hlead : p.lead bias ≤ p.offset.toNat) {i : Nat} (hi : i < p.memsz.toNat) :
    fillByte files (p.vma f bias) (p.addr bias + i) =
      if i < p.filesz.toNat then files f (add64 p.offset.toNat i) else 0 := by
  have hva : USER_VA_END < 2 ^ 63 := by decide
  obtain ⟨hl, hlt, hle⟩ := lead_eq p bias
  have hb := alignDown_bounds (p.addr bias + i)
  have hstart : p.start bias ≤ alignDown (p.addr bias + i) PAGE_SIZE :=
    Nat.mul_le_mul_right _ (Nat.div_le_div_right (Nat.le_add_right ..))
  have hdelta : sub64 (alignDown (p.addr bias + i) PAGE_SIZE) (p.start bias) =
      alignDown (p.addr bias + i) PAGE_SIZE - p.start bias := sub64_of_le hstart (by omega)
  have hpage : PAGE_SIZE < 2 ^ 63 := by decide
  have hbytes : add64 (p.lead bias) p.filesz.toNat = p.lead bias + p.filesz.toNat := add64_of_lt (by omega)
  have hfirst : sub64 p.offset.toNat (p.lead bias) = p.offset.toNat - p.lead bias := sub64_of_le hlead p.offset.toNat_lt
  have hbyte := page_byte (files f) p.filesz.toNat hl hle hlead hstart hb.1 hb.2
  rw [← hdelta, ← hbytes, ← hfirst] at hbyte
  exact hbyte

end

structure Bounded (ph : List Phdr) (lo hi : Nat) : Prop where
  file : ∀ p ∈ ph, p.type = PT_LOAD → p.filesz.toNat ≤ p.memsz.toNat
  low : ∀ p ∈ ph, p.type = PT_LOAD → lo ≤ p.vaddr.toNat
  high : ∀ p ∈ ph, p.type = PT_LOAD → add64 p.vaddr.toNat p.memsz.toNat ≤ hi

theorem bounds_spec {lo hi : Nat} {r : Nat × Nat} (h : bounds ph lo hi = some r) (hhi : hi < 2 ^ 64) :
    r.1 = (ph.filter fun p => p.type = PT_LOAD).foldl (fun lo p => min lo (alignDown p.vaddr.toNat PAGE_SIZE)) lo ∧
      (r.1 ≤ lo ∧ hi ≤ r.2 ∧ r.2 < 2 ^ 64) ∧ Bounded ph r.1 r.2 := by
  induction ph generalizing lo hi with
  | nil =>
    cases h
    exact ⟨rfl, ⟨Nat.le_refl _, Nat.le_refl _, hhi⟩, nofun, nofun, nofun⟩
  | cons p rest ih =>
  unfold bounds at h
  by_cases hp : p.type = PT_LOAD
  · rw [if_neg (not_not.mpr hp)] at h
    split at h
    · cases h
    rename_i hsize
    split at h
    · cases h
    have hend : add64 p.vaddr.toNat p.memsz.toNat < 2 ^ 64 := Nat.mod_lt _ (by decide)
    have hpage := (alignDown_bounds p.vaddr.toNat).1
    obtain ⟨hlo, hr, hall⟩ := ih h (Nat.max_lt.mpr ⟨hhi, hend⟩)
    rw [filter_cons_of_pos (by simpa using hp), foldl_cons]
    refine ⟨hlo, by omega, fun q hq hload => ?_, fun q hq hload => ?_, fun q hq hload => ?_⟩
    · rcases mem_cons.mp hq with rfl | hq
      · exact UInt64.le_iff_toNat_le.mp (UInt64.not_lt.mp hsize)
      · exact hall.file q hq hload
    · rcases mem_cons.mp hq with rfl | hq
      · omega
      · exact hall.low q hq hload
    · rcases mem_cons.mp hq with rfl | hq
      · omega
      · exact hall.high q hq hload
  rw [if_pos hp] at h
  obtain ⟨hlo, hr, hall⟩ := ih h hhi
  rw [filter_cons_of_neg (by simpa using hp)]
  have hrest : ∀ q ∈ p :: rest, q.type = PT_LOAD → q ∈ rest := by
    intro q hq hload
    rcases mem_cons.mp hq with rfl | hq
    · exact absurd hload hp
    · exact hq
  exact ⟨hlo, hr, fun q hq hload => hall.file q (hrest q hq hload) hload,
    fun q hq hload => hall.low q (hrest q hq hload) hload, fun q hq hload => hall.high q (hrest q hq hload) hload⟩

-- What the one check of the sums `lo` and `hi` gives for a segment whose own sum does not wrap.
theorem Bounded.inUser {lo hi bias : Nat} (hb : Bounded ph lo hi) (hhi : hi < 2 ^ 64) (hmin : USER_MIN_ADDR ≤ add64 lo bias)
    (hmax : add64 hi bias ≤ USER_VA_END) (hle : add64 lo bias ≤ add64 hi bias) {p : Phdr} (hp : p ∈ ph)
    (hwhole : p.vaddr.toNat + p.memsz.toNat < 2 ^ 64) : p.InUser bias := by
  intro hload _
  have hlow := hb.low p hp hload
  have hhigh := hb.high p hp hload
  rw [add64_of_lt hwhole] at hhigh
  unfold Phdr.addr
  unfold add64 at *
  omega

theorem mapVma_vmas {s s' : Space} {start stop off n : Nat} {flags : VmFlags} {file : Option Nat}
    (h : mapVma s start stop flags file off n = (true, s')) :
    s'.mm.vmas = vmaInsert ⟨start, stop, flags, file, off, n, 0⟩ s.mm.vmas := by
  unfold mapVma at h
  split at h
  · cases h
  rename_i s1 hk
  cases h
  have hvmas : s1.mm.vmas = s.mm.vmas := congrArg (fun r : Bool × Space => r.2.mm.vmas) hk.symm
  exact congrArg _ hvmas

theorem loadSegments_vmas {f bias phdr phdr' : Nat} {eh : Ehdr} {s s' : Space}
    (h : loadSegments f eh bias ph phdr s = (0, phdr', s')) (hok : VmasOk USER_MIN_ADDR s.mm.vmas)
    (huser : ∀ p ∈ ph, p.InUser bias) :
    VmasOk USER_MIN_ADDR s'.mm.vmas ∧ (∀ v ∈ s.mm.vmas, v ∈ s'.mm.vmas) ∧
      ∀ p ∈ ph, p.type = PT_LOAD → p.memsz ≠ 0 → p.vma f bias ∈ s'.mm.vmas ∧ p.lead bias ≤ p.offset.toNat := by
  induction ph generalizing phdr s with
  | nil =>
    cases h
    exact ⟨hok, fun _ h => h, nofun⟩
  | cons p rest ih =>
  have hrest : ∀ q ∈ rest, q.InUser bias := fun q hq => huser q (mem_cons_of_mem _ hq)
  unfold loadSegments at h
  dsimp only at h
  split at h
  · rename_i hskip
    obtain ⟨hok', hold, hall⟩ := ih h hok hrest
    refine ⟨hok', hold, fun q hq hload hsize => ?_⟩
    rcases mem_cons.mp hq with rfl | hq
    · rcases hskip with hskip | hskip
      · exact absurd hload hskip
      · exact absurd hskip hsize
    · exact hall q hq hload hsize
  rename_i hskip
  obtain ⟨hload, hsize⟩ := not_or.mp hskip
  have hload := not_not.mp hload
  split at h
  · cases h
  rename_i hlead
  split at h
  · cases h
  rename_i hnone
  split at h
  · cases h
  rename_i s1 hmap
  have hvmas := mapVma_vmas hmap
  obtain ⟨hmin, hmax⟩ := huser p mem_cons_self hload hsize
  have hpos : 0 < p.memsz.toNat := Nat.pos_of_ne_zero fun h0 => hsize (UInt64.toNat_inj.mp h0)
  have hapart := vmaFindIntersect_eq_none hok (not_isSome_iff_eq_none.mp hnone)
  have hok1 : VmasOk USER_MIN_ADDR s1.mm.vmas := hvmas ▸ vmaInsert_ok hok (vma_ok (f := f) hmin hmax hpos) hapart
  obtain ⟨hok', hold, hall⟩ := ih h hok1 hrest
  refine ⟨hok', fun v hv => hold v (hvmas ▸ mem_vmaInsert.mpr (.inr hv)), fun q hq hload hsize => ?_⟩
  rcases mem_cons.mp hq with rfl | hq
  · exact ⟨hold _ (hvmas ▸ mem_vmaInsert.mpr (.inl rfl)), Nat.le_of_not_lt hlead⟩
  · exact hall q hq hload hsize

theorem loaded_of_inUser {f bias : Nat} {old new : List Vma}
    (hok : VmasOk USER_MIN_ADDR new) (huser : ∀ p ∈ ph, p.InUser bias)
    (hfile : ∀ p ∈ ph, p.type = PT_LOAD → p.filesz.toNat ≤ p.memsz.toNat)
    (hall : ∀ p ∈ ph, p.type = PT_LOAD → p.memsz ≠ 0 → p.vma f bias ∈ new ∧ p.lead bias ≤ p.offset.toNat) :
    Loaded files f bias ph old new := by
  refine ⟨fun v hv => .inr ⟨(hok.each v hv).min, (hok.each v hv).lt, (hok.each v hv).max⟩, hok.sorted.imp fun h => .inl h,
    fun p hp hload i hi => ?_⟩
  have hsize : p.memsz ≠ 0 := by
    rintro h0
    rw [h0] at hi
    exact Nat.not_lt_zero i hi
  obtain ⟨-, hmax⟩ := huser p hp hload hsize
  obtain ⟨hmem, hlead⟩ := hall p hp hload hsize
  have hva : USER_VA_END < 2 ^ 63 := by decide
  obtain ⟨-, -, hle⟩ := lead_eq p bias
  obtain ⟨hend, -⟩ := stop_bounds hmax
  rw [add64_of_lt (by omega), vmaFind_of_contains hok hmem ⟨Nat.le_trans hle (Nat.le_add_right ..), by
    change p.addr bias + i < p.stop bias; omega⟩, map_some,
    fillByte_segment files hmax (hfile p hp hload) hlead hi]

theorem inUser_of_loaded {files : Nat → Nat → UInt8} {f bias : Nat} {old new : List Vma}
    (hok : VmasOk USER_MIN_ADDR old) (h : Loaded files f bias ph old new) : ∀ p ∈ ph, p.InUser bias := by
  intro p hp hload hsize
  have hpos : 0 < p.memsz.toNat := Nat.pos_of_ne_zero fun h0 => hsize (UInt64.toNat_inj.mp h0)
  have hin : ∀ i < p.memsz.toNat, USER_MIN_ADDR ≤ add64 (p.addr bias) i ∧ add64 (p.addr bias) i < USER_VA_END := by
    intro i hi
    have hbyte := h.bytes p hp hload i hi
    cases hfind : vmaFind (add64 (p.addr bias) i) new with
    | none =>
      rw [hfind] at hbyte
      cases hbyte
    | some v =>
    obtain ⟨hv, hlo, hhi⟩ := vmaFind_mem hfind
    rcases h.range v hv with hold | ⟨hmin, -, hmax⟩
    · have hmin := (hok.each v hold).min
      have hmax := (hok.each v hold).max
      omega
    · omega
  have haddr : add64 (p.addr bias) 0 = p.addr bias := Nat.mod_mod ..
  obtain ⟨hmin, hlt⟩ := haddr ▸ hin 0 hpos
  refine ⟨hmin, Nat.le_of_not_lt fun hover => ?_⟩
  have hva : USER_VA_END < 2 ^ 63 := by decide
  have hlast := (hin (USER_VA_END - p.addr bias) (by omega)).2
  rw [add64_of_lt (by omega)] at hlast
  omega

-- A successful load_elf leaves what it should iff the segments whose `p_vaddr + p_memsz` wraps lie
-- in user space where they are loaded. For the others this follows from the check of `lo` and `hi`.
theorem load_elf_exact_iff {f : Nat} {eh : Ehdr} {ph : List Phdr} {baseHint : Nat}
    {s s' : Space} {out : Option LoadedElf} (hok : VmasOk USER_MIN_ADDR s.mm.vmas)
    (h : loadElf f eh ph baseHint s = (0, out, s')) :
    Loaded files f (biasOf eh (ph.take eh.phnum.toNat) baseHint) (ph.take eh.phnum.toNat) s.mm.vmas s'.mm.vmas ↔
      ∀ p ∈ ph.take eh.phnum.toNat, 2 ^ 64 ≤ p.vaddr.toNat + p.memsz.toNat →
        p.InUser (biasOf eh (ph.take eh.phnum.toNat) baseHint) := by
  refine ⟨fun hloaded p hp _ => inUser_of_loaded hok hloaded p hp, fun hwrap => ?_⟩
  unfold loadElf at h
  dsimp only at h
  split at h
  · cases h
  rename_i lo hi hbounds
  obtain ⟨hlo, ⟨-, -, hhi⟩, hb⟩ := bounds_spec hbounds (by decide)
  have hbias : (if eh.type = ET_DYN then sub64 baseHint lo else 0) = biasOf eh (ph.take eh.phnum.toNat) baseHint := by
    unfold biasOf lowest
    rw [← hlo]
  rw [hbias] at h
  split at h
  · cases h
  split at h
  · cases h
  rename_i hrange
  simp only [not_or, Nat.not_lt] at hrange
  have huser : ∀ p ∈ ph.take eh.phnum.toNat, p.InUser (biasOf eh (ph.take eh.phnum.toNat) baseHint) := fun p hp =>
    (Nat.lt_or_ge (p.vaddr.toNat + p.memsz.toNat) (2 ^ 64)).elim
      (hb.inUser hhi hrange.1 hrange.2.1 hrange.2.2 hp) (hwrap p hp)
  split at h
  · rename_i phdr s1 hseg
    cases h
    obtain ⟨hok', -, hall⟩ := loadSegments_vmas hseg hok huser
    exact loaded_of_inUser files hok' huser hb.file hall
  · rename_i r phdr s1 hr hseg
    exact absurd (Prod.mk.inj h).1 hr

def header : Ehdr := ⟨[0x7f, 0x45, 0x4c, 0x46, 2, 1, 1, 0], ET_EXEC, EM_AARCH64, 0x10000, 64, 56, 2⟩

def emptySpace : Space where
  frame := fun _ => ⟨true, 0, fun _ => 0⟩
  mm := ⟨1, fun _ => none, [], 0, 0, 0, 0, 0⟩
  supply := ⟨[], [true, true], [], true, 0⟩
  panicked := false

def text : Phdr := ⟨PT_LOAD, 5, 0, 0x10000, 0x200, 0x200⟩

def data : Phdr := ⟨PT_LOAD, 6, 0x1200, 0x20200, 0x100, 0x2000⟩

theorem eta_zero : ∀ r : Int × Option LoadedElf × Space, r.1 = 0 → r = (0, r.2.1, r.2.2)
  | (_, _, _), rfl => rfl

theorem load_elf_exact_two : ∃ out s', loadElf 3 header [text, data] 0 emptySpace = (0, out, s') ∧
    ∀ files, Loaded files 3 0 [text, data] [] s'.mm.vmas := by
  have hload : (loadElf 3 header [text, data] 0 emptySpace).1 = 0 := by decide
  have heq := eta_zero _ hload
  refine ⟨_, _, heq, fun files => ?_⟩
  refine (load_elf_exact_iff files (.nil _) heq).mpr fun p hp hwrap => ?_
  have hp : p = text ∨ p = data := by simpa [header] using hp
  rcases hp with rfl | rfl <;> exact absurd hwrap (by decide)

def wrapped : Phdr := ⟨PT_LOAD, 6, 0, 0x20000, 0, 0xffffffffffff0000⟩

theorem wrapped_segment_loads : checkEhdr header = 0 ∧ (loadElf 3 header [text, wrapped] 0 emptySpace).1 = 0 ∧
    ∀ files, ¬ Loaded files 3 0 [text, wrapped] [] (loadElf 3 header [text, wrapped] 0 emptySpace).2.2.mm.vmas := by
  refine ⟨by decide, by decide, fun files h => ?_⟩
  have hmem : wrapped.vma 3 0 ∈ (loadElf 3 header [text, wrapped] 0 emptySpace).2.2.mm.vmas := by decide
  rcases h.range _ hmem with hin | ⟨-, hlt, -⟩
  · cases hin
  · exact absurd hlt (by decide)

end Olux.Exec
