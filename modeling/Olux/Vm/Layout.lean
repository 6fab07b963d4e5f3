import Olux.Vm.Mmap
import Olux.Vm.Vma.Lemmas

namespace Olux.Vm

open Olux.Lib

variable {mm mm' : Mm}

def Mm.bare (mm : Mm) : Mm := { mm with pgd := fun _ => none, rssPages := 0 }

structure MmOk (lo : Nat) (mm : Mm) : Prop where
  vmas : VmasOk lo mm.vmas
  le_brkStart : lo ≤ mm.brkStart
  brkStart_le : mm.brkStart ≤ mm.brk
  brk_lt : mm.brk + (PAGE_SIZE - 1) < 2 ^ 64
  mmapBase_dvd : PAGE_SIZE ∣ mm.mmapBase
  mmapBase_le : mm.mmapBase ≤ USER_VA_END
  le_stackTop : USER_MIN_ADDR + USER_STACK_MAX ≤ mm.stackTop
  stackTop_lt : mm.stackTop < 2 ^ 64

def mmapAddr (addr : Nat) (flags : UInt32) : Nat :=
  if has flags (MAP_FIXED ||| MAP_FIXED_NOREPLACE) then addr else alignDown addr PAGE_SIZE

def mmapAccepts (prot flags : UInt32) (file : Option File) : Bool :=
  match if has flags MAP_ANONYMOUS then none else file with
  | none => true
  | some f => match f.kind with
    | .framebuffer _ _ => true
    | .other => false
    | .regular _ => !(decide (flags &&& MAP_TYPE = MAP_SHARED) && has prot PROT_WRITE)

def MmapFits (addr len : Nat) (prot flags : UInt32) (file : Option File) (off : Nat) : Prop :=
  mmapCheck len flags off = 0 →
  (has flags (MAP_FIXED ||| MAP_FIXED_NOREPLACE) = true → addr % PAGE_SIZE = 0) →
  mmapAccepts prot flags file = true →
  mmapAddr addr flags + alignUp len PAGE_SIZE < 2 ^ 64

def MremapFits (mm : Mm) (old oldLen newLen : Nat) (flags : UInt32) : Prop :=
  ∀ v, vmaFind old mm.vmas = some v → old % PAGE_SIZE = 0 → v.flags.io = false → has flags MREMAP_FIXED = false →
    add64 old (alignUp oldLen PAGE_SIZE) ≤ v.stop → alignUp oldLen PAGE_SIZE < alignUp newLen PAGE_SIZE →
    (add64 old (alignUp oldLen PAGE_SIZE) = v.stop → old + alignUp newLen PAGE_SIZE < 2 ^ 64) ∧
      (has flags MREMAP_MAYMOVE = true → USER_MIN_ADDR + alignUp newLen PAGE_SIZE < 2 ^ 64)

def BrkFits (mm : Mm) (nbrk : Nat) : Prop :=
  mm.brkStart ≤ nbrk →
  nbrk + (PAGE_SIZE - 1) < 2 ^ 64 ∧
    (alignUp mm.brk PAGE_SIZE < alignUp nbrk PAGE_SIZE → alignUp nbrk PAGE_SIZE ≤ USER_VA_END ∨
      (vmaFindIntersect (alignUp mm.brk PAGE_SIZE) (add64 (alignUp nbrk PAGE_SIZE) PAGE_SIZE) mm.vmas).isSome = true)

def Call.Fits (mm : Mm) : Call → Prop
  | .mmap addr len prot flags file off => MmapFits addr.toNat len.toNat prot flags file off.toNat
  | .mremap old oldLen newLen flags => MremapFits mm old.toNat oldLen.toNat newLen.toNat flags
  | .brk nbrk => BrkFits mm nbrk.toNat
  | .munmap _ _ => True
  | .mprotect _ _ _ => True
  | .fault _ _ _ => True

theorem MmOk.setVmas {lo : Nat} (h : MmOk lo mm) {l : List Vma} (hl : VmasOk lo l)
    (he : mm'.bare = { mm.bare with vmas := l }) : MmOk lo mm' := by
  have hv : mm'.vmas = l := by simpa [Mm.bare] using congrArg Mm.vmas he
  have h1 : mm'.brkStart = mm.brkStart := by simpa [Mm.bare] using congrArg Mm.brkStart he
  have h2 : mm'.brk = mm.brk := by simpa [Mm.bare] using congrArg Mm.brk he
  have h3 : mm'.mmapBase = mm.mmapBase := by simpa [Mm.bare] using congrArg Mm.mmapBase he
  have h4 : mm'.stackTop = mm.stackTop := by simpa [Mm.bare] using congrArg Mm.stackTop he
  exact ⟨hv ▸ hl, h1 ▸ h.le_brkStart, h1 ▸ h2 ▸ h.brkStart_le, h2 ▸ h.brk_lt, h3 ▸ h.mmapBase_dvd,
    h3 ▸ h.mmapBase_le, h4 ▸ h.le_stackTop, h4 ▸ h.stackTop_lt⟩

theorem MmOk.of_bare {lo : Nat} (h : MmOk lo mm) (he : mm'.bare = mm.bare) : MmOk lo mm' :=
  h.setVmas h.vmas he

theorem MmOk.of_refcount {lo : Nat} (h : MmOk lo mm) (n : Nat) : MmOk lo { mm with refcount := n } :=
  ⟨h.vmas, h.le_brkStart, h.brkStart_le, h.brk_lt, h.mmapBase_dvd, h.mmapBase_le, h.le_stackTop, h.stackTop_lt⟩

-- What the page tables and the frames go through leaves the rest alone.

variable (s : Space)

@[simp] theorem setPte_bare (va : Nat) (e : Pte) : (s.setPte va e).mm.bare = s.mm.bare := rfl

@[simp] theorem setFrame_bare (p : Nat) (f : Frame) : (s.setFrame p f).mm.bare = s.mm.bare := rfl

@[simp] theorem addRss_bare : s.addRss.mm.bare = s.mm.bare := rfl

@[simp] theorem subRss_bare : s.subRss.mm.bare = s.mm.bare := rfl

@[simp] theorem setVmas_bare (l : List Vma) : (s.setVmas l).mm.bare = { s.mm.bare with vmas := l } := rfl

@[simp] theorem kmalloc_bare : (kmalloc s).2.mm.bare = s.mm.bare := rfl

@[simp] theorem freePage_bare (p : Nat) : (freePage s p).mm.bare = s.mm.bare := rfl

@[simp] theorem pagePut_bare (p : Nat) : (pagePut s p).mm.bare = s.mm.bare := by
  unfold pagePut
  split <;> rfl

@[simp] theorem allocPage_bare (zero : Bool) : (allocPage s zero).2.mm.bare = s.mm.bare := by
  unfold allocPage
  split
  · rfl
  simp only
  split
  · rfl
  · split <;> rfl

@[simp] theorem tableL2_bare (x : Slot) : (tableL2 s x).2.mm.bare = s.mm.bare := by
  unfold tableL2 allocTable
  split
  · rfl
  · cases s.supply.table.1 <;> rfl

@[simp] theorem tableL3_bare (x : Slot) : (tableL3 s x).2.mm.bare = s.mm.bare := by
  unfold tableL3 allocTable
  split
  · rfl
  split
  · rfl
  · cases s.supply.table.1 <;> rfl

@[simp] theorem userPte_bare (va : Nat) : (userPte s va).2.mm.bare = s.mm.bare := by
  have h := tableL2_bare s (slot va)
  unfold userPte
  split
  · rename_i heq
    rwa [heq] at h
  rename_i t heq
  rw [heq] at h
  exact (tableL3_bare t (slot va)).trans h

@[simp] theorem releasePte_bare (e : Pte) : (releasePte s e).mm.bare = s.mm.bare := by
  unfold releasePte
  split <;> simp

@[simp] theorem zapPte_bare (va : Nat) : (zapPte s va).mm.bare = s.mm.bare := by
  simp only [zapPte]
  split <;> simp

@[simp] theorem zapRange_bare (va stop : Nat) : (zapRange s va stop).mm.bare = s.mm.bare := by
  fun_induction zapRange s va stop <;> simp_all

@[simp] theorem fillPage_bare (v : Vma) (va p : Nat) : (fillPage s v va p).2.mm.bare = s.mm.bare := by
  simp only [fillPage]
  split
  · rfl
  split
  · rfl
  · split <;> rfl

@[simp] theorem faultNew_bare (v : Vma) (va : Nat) : (faultNew s v va).2.mm.bare = s.mm.bare := by
  have halloc := allocPage_bare s true
  unfold faultNew
  split
  · rfl
  split
  · rename_i heq
    rwa [heq] at halloc
  rename_i p t heq
  rw [heq] at halloc
  have hfill := fillPage_bare t v va p
  simp only
  split <;> simpa using hfill.trans halloc

@[simp] theorem faultWrite_bare (v : Vma) (va : Nat) (old : Pte) :
    (faultWrite s v va old).2.mm.bare = s.mm.bare := by
  have halloc := allocPage_bare s false
  unfold faultWrite
  split
  · rfl
  split
  · rfl
  split
  · rename_i heq
    rwa [heq] at halloc
  rename_i p t heq
  rw [heq] at halloc
  simp only
  split <;> simpa using halloc

@[simp] theorem faultIn_bare (v : Vma) (va : Nat) (write : Bool) :
    (faultIn s v va write).2.mm.bare = s.mm.bare := by
  have huser := userPte_bare s va
  unfold faultIn
  split
  · rename_i heq
    rwa [heq] at huser
  rename_i t heq
  rw [heq] at huser
  simp only
  split
  · simpa using huser
  · split <;> simpa using huser

@[simp] theorem faultAllowed_bare (v : Vma) (va : Nat) (write exec : Bool) :
    (faultAllowed s v va write exec).2.mm.bare = s.mm.bare := by
  unfold faultAllowed
  split
  · rfl
  split
  · rfl
  split
  · rfl
  · exact faultIn_bare s v va write

@[simp] theorem protectPte_bare (flags : VmFlags) (s : Space) (va : Nat) :
    (protectPte flags s va).mm.bare = s.mm.bare := by
  unfold protectPte
  simp only
  split
  · rfl
  · split <;> rfl

theorem foldl_protectPte_bare (flags : VmFlags) (l : List Nat) (s : Space) :
    (l.foldl (protectPte flags) s).mm.bare = s.mm.bare := by
  induction l generalizing s with
  | nil => rfl
  | cons va rest ih => exact (ih _).trans (protectPte_bare flags s va)

theorem movePtes_bare (src dst : Nat) (l : List Nat) (s : Space) : (movePtes src dst l s).2.mm.bare = s.mm.bare := by
  induction l generalizing s with
  | nil => rfl
  | cons off rest ih =>
  have huser := userPte_bare s (add64 dst off)
  simp only [movePtes]
  split
  · exact ih s
  split
  · rename_i heq
    rwa [heq] at huser
  rename_i t heq
  rw [heq] at huser
  exact (ih _).trans huser

def Mm.fixed (mm : Mm) : Mm := { mm.bare with vmas := [] }

theorem fixed_of_bare (h : mm'.bare = mm.bare) : mm'.fixed = mm.fixed := by
  simp only [Mm.fixed, h]

@[simp] theorem setVmas_fixed (l : List Vma) : (s.setVmas l).mm.fixed = s.mm.fixed := rfl

variable (start stop : Nat)

theorem mapVma_fixed (flags : VmFlags) (file : Option Nat) (off bytes : Nat) :
    (mapVma s start stop flags file off bytes).2.mm.fixed = s.mm.fixed := by
  simp only [mapVma, kmalloc]
  cases s.supply.object.1 <;> rfl

theorem forRange_bare (f : Vma → Space → Option Vma × Space)
    (hf : ∀ v s, (f v s).2.mm.bare = s.mm.bare) (l : List Vma) (s : Space) :
    (forRange start stop f l s).2.2.mm.bare = s.mm.bare := by
  refine forRange_rule start stop f (fun _ t => t.mm.bare = s.mm.bare) ?_ ?_ ?_ [] l s rfl
  · exact fun _ t ht => ht
  · exact fun _ _ _ _ _ _ _ _ ht => ht
  · exact fun _ v _ t _ _ _ ht => (hf v t).trans ht

theorem unmapRegion_bare :
    (unmapRegion s start stop).2.mm.bare = { s.mm.bare with vmas := (unmapRegion s start stop).2.mm.vmas } := by
  have h := forRange_bare start stop (fun v s => (none, zapRange s v.start v.stop))
    (fun v s => zapRange_bare s v.start v.stop) s.mm.vmas s
  rw [← h]
  rfl

theorem unmapRegion_fixed : (unmapRegion s start stop).2.mm.fixed = s.mm.fixed := by
  rw [Mm.fixed, unmapRegion_bare]
  rfl

theorem growBrk_fixed (oldEnd newEnd : Nat) : (growBrk s oldEnd newEnd).2.mm.fixed = s.mm.fixed := by
  unfold growBrk
  split
  · rfl
  split
  · split
    · rfl
    · exact mapVma_fixed ..
  · exact mapVma_fixed ..

theorem vmas_of_bare (h : mm'.bare = mm.bare) : mm'.vmas = mm.vmas := by
  simpa [Mm.bare] using congrArg Mm.vmas h

theorem brkStart_of_fixed (h : mm'.fixed = mm.fixed) : mm'.brkStart = mm.brkStart := by
  simpa [Mm.fixed, Mm.bare] using congrArg Mm.brkStart h

end Olux.Vm
