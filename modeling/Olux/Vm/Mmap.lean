import Olux.Vm.Fault

namespace Olux.Vm

open Olux.Lib

def PROT_READ : UInt32 := 1
def PROT_WRITE : UInt32 := 2
def PROT_EXEC : UInt32 := 4
def MAP_SHARED : UInt32 := 0x01
def MAP_PRIVATE : UInt32 := 0x02
def MAP_TYPE : UInt32 := 0x0f
def MAP_FIXED : UInt32 := 0x10
def MAP_ANONYMOUS : UInt32 := 0x20
def MAP_POPULATE : UInt32 := 0x8000
def MAP_FIXED_NOREPLACE : UInt32 := 0x100000
def MREMAP_MAYMOVE : UInt32 := 1
def MREMAP_FIXED : UInt32 := 2

-- The only file with an mmap operation is the framebuffer.
inductive FileKind where
  | framebuffer (size phys : Nat)
  | regular (size : Nat)
  | other

structure File where
  id : Nat
  kind : FileKind

def protToVm (prot : UInt32) : VmFlags :=
  { read := has prot PROT_READ || has prot PROT_WRITE || has prot PROT_EXEC
    write := has prot PROT_WRITE
    exec := has prot PROT_EXEC }

def fbMmap (size phys : Nat) (v : Vma) (off : Nat) : Option Vma :=
  if size ≤ off ∨ sub64 (alignUp size PAGE_SIZE) off < sub64 v.stop v.start then none
  else some { v with flags := { v.flags with io := true, nc := true }, ioBase := add64 phys off }

def mmapHint (mm : Mm) (addr alen : Nat) : Nat :=
  let hint := alignDown addr PAGE_SIZE
  if hint = 0 ∨ hint < USER_MIN_ADDR ∨ USER_VA_END < add64 hint alen ∨
      (vmaFindIntersect hint (add64 hint alen) mm.vmas).isSome then mmGetUnmappedArea mm alen
  else hint

variable (s : Space)

variable (addr alen : Nat)

def mmapPlace (flags : UInt32) : Except Int Nat × Space :=
  if has flags (MAP_FIXED ||| MAP_FIXED_NOREPLACE) then
    if addr % PAGE_SIZE ≠ 0 then (.error (-EINVAL), s)
    else if addr < USER_MIN_ADDR ∨ USER_VA_END < add64 addr alen then (.error (-ENOMEM), s)
    else if (vmaFindIntersect addr (add64 addr alen) s.mm.vmas).isSome then
      if has flags MAP_FIXED_NOREPLACE then (.error (-EEXIST), s)
      else
        match unmapRegion s addr (add64 addr alen) with
        | (r, s) => if r ≠ 0 then (.error r, s) else (.ok addr, s)
    else (.ok addr, s)
  else if mmapHint s.mm addr alen = 0 then (.error (-ENOMEM), s)
  else (.ok (mmapHint s.mm addr alen), s)

def mmapBacked (vmf : VmFlags) (prot flags : UInt32) (file : Option Nat)
    (off fileBytes : Nat) : Int × Space :=
  match mapVma s addr (add64 addr alen) vmf file off fileBytes with
  | (false, s) => (-ENOMEM, s)
  | (true, s) =>
    (addr, if has flags MAP_POPULATE then (mmPopulate s addr alen (has prot PROT_WRITE)).2 else s)

def mmapDevice (vmf : VmFlags) (size phys off : Nat) : Int × Space :=
  match mapVma s addr (add64 addr alen) vmf none 0 0 with
  | (false, s) => (-ENOMEM, s)
  | (true, s) =>
    match vmaFind addr s.mm.vmas with
    | none => (0, { s with panicked := true })
    | some v =>
      match fbMmap size phys v off with
      | none => (-EINVAL, (unmapRegion s addr (add64 addr alen)).2)
      | some w => (addr, s.setVmas (vmaModify addr (fun _ => w) s.mm.vmas))

def mmapAt (prot flags : UInt32) (file : Option File) (off : Nat) : Int × Space :=
  let vmf := { protToVm prot with shared := flags &&& MAP_TYPE = MAP_SHARED }
  match if has flags MAP_ANONYMOUS then none else file with
  | none => mmapBacked s addr alen vmf prot flags none 0 0
  | some f =>
    match f.kind with
    | .framebuffer size phys => mmapDevice s addr alen vmf size phys off
    | .other => (-ENODEV, s)
    | .regular size =>
      if flags &&& MAP_TYPE = MAP_SHARED ∧ has prot PROT_WRITE then (-EOPNOTSUPP, s)
      else
        let fbytes := if size ≤ off then 0 else min alen (size - off)
        mmapBacked s addr alen { vmf with shared := false } prot flags (some f.id) off fbytes

def mmapCheck (len : Nat) (flags : UInt32) (off : Nat) : Int :=
  if len = 0 then -EINVAL
  else if off % PAGE_SIZE ≠ 0 then -EINVAL
  else if alignUp len PAGE_SIZE < len ∨ USER_VA_END < alignUp len PAGE_SIZE then -ENOMEM
  else if flags &&& MAP_TYPE ≠ MAP_SHARED ∧ flags &&& MAP_TYPE ≠ MAP_PRIVATE then -EINVAL
  else 0

def doMmap (addr len : Nat) (prot flags : UInt32) (file : Option File) (off : Nat) : Int × Space :=
  if mmapCheck len flags off ≠ 0 then (mmapCheck len flags off, s)
  else
    match mmapPlace s addr (alignUp len PAGE_SIZE) flags with
    | (.error e, s) => (e, s)
    | (.ok addr, s) => mmapAt s addr (alignUp len PAGE_SIZE) prot flags file off

def doMunmap (addr len : Nat) : Int × Space :=
  if addr % PAGE_SIZE ≠ 0 ∨ len = 0 then (-EINVAL, s)
  else
    let stop := add64 addr (alignUp len PAGE_SIZE)
    if USER_VA_END < stop ∨ stop < addr then (-EINVAL, s) else unmapRegion s addr stop

def pageIsShared (e : Pte) : Bool := !e.swShared && decide (1 < (s.frame e.frame).refcount)

def protectPte (flags : VmFlags) (s : Space) (va : Nat) : Space :=
  let old := s.mm.pte va
  if old.valid = false then s
  else
    let nv := { pteProt flags old.frame with swShared := old.swShared, swCow := old.swCow }
    if old.swCow || (!flags.shared && pageIsShared s old) then s.setPte va { nv with rdonly := true, swCow := true }
    else s.setPte va nv

def protectVma (prot : UInt32) (v : Vma) (s : Space) : Option Vma × Space :=
  let flags := { v.flags with
    read := (protToVm prot).read, write := (protToVm prot).write, exec := (protToVm prot).exec }
  (some { v with flags := flags }, (pagesFrom v.start v.stop).foldl (protectPte flags) s)

theorem vmaFind_lt_stop {addr : Nat} {l : List Vma} {v : Vma} (h : vmaFind addr l = some v) : addr < v.stop := by
  induction l with
  | nil => cases h
  | cons w rest ih =>
  rw [vmaFind] at h
  split at h
  · cases h
  split at h
  · cases h
    assumption
  · exact ih h

def rangeMapped (vmas : List Vma) (a stop : Nat) : Bool :=
  if a < stop then
    match _h : vmaFind a vmas with
    | none => false
    | some v => rangeMapped vmas v.stop stop
  else true
termination_by stop - a
decreasing_by
  have := vmaFind_lt_stop _h
  omega

def doMprotect (addr len : Nat) (prot : UInt32) : Int × Space :=
  if addr % PAGE_SIZE ≠ 0 then (-EINVAL, s)
  else
    let stop := add64 addr (alignUp len PAGE_SIZE)
    if stop < addr then (-EINVAL, s)
    else if rangeMapped s.mm.vmas addr stop = false then (-ENOMEM, s)
    else
      let (ok, l, s) := forRange addr stop (protectVma prot) s.mm.vmas s
      (if ok then 0 else -ENOMEM, s.setVmas l)

def movePtes (src dst : Nat) : List Nat → Space → Bool × Space
  | [], s => (true, s)
  | off :: rest, s =>
    let e := s.mm.pte (add64 src off)
    if e.valid = false then movePtes src dst rest s
    else
      match userPte s (add64 dst off) with
      | (false, s) => (false, s)
      | (true, s) => movePtes src dst rest ((s.setPte (add64 dst off) e).setPte (add64 src off) zeroPte)

def mremapMove (v : Vma) (old oldLen newLen : Nat) : Int × Space :=
  let dst := mmGetUnmappedArea s.mm newLen
  if dst = 0 then (-ENOMEM, s)
  else
    let delta := sub64 old v.start
    let fileBytes := if delta < v.fileBytes then v.fileBytes - delta else 0
    match mapVma s dst (add64 dst newLen) v.flags v.file (add64 v.fileOff delta) fileBytes with
    | (false, s) => (-ENOMEM, s)
    | (true, s) =>
      match movePtes old dst (pagesFrom 0 oldLen) s with
      | (false, s) => (-ENOMEM, s)
      | (true, s) => (dst, (unmapRegion s old (add64 old oldLen)).2)

def doMremap (old oldLen newLen : Nat) (flags : UInt32) : Int × Space :=
  if old % PAGE_SIZE ≠ 0 ∨ newLen = 0 then (-EINVAL, s)
  else
    let oldLen := alignUp oldLen PAGE_SIZE
    let newLen := alignUp newLen PAGE_SIZE
    match vmaFind old s.mm.vmas with
    | none => (-EFAULT, s)
    | some v =>
      if v.stop < add64 old oldLen ∨ v.flags.io then (-EFAULT, s)
      else if has flags MREMAP_FIXED then (-EINVAL, s)
      else if newLen ≤ oldLen then
        (old, if newLen < oldLen then (doMunmap s (add64 old newLen) (oldLen - newLen)).2 else s)
      else if add64 old oldLen = v.stop ∧ (vmaFindIntersect v.stop (add64 old newLen) s.mm.vmas).isNone ∧
          add64 old newLen ≤ USER_VA_END then
        (old, s.setVmas (vmaModify old (fun w => { w with stop := add64 old newLen }) s.mm.vmas))
      else if has flags MREMAP_MAYMOVE = false then (-ENOMEM, s)
      else mremapMove s v old oldLen newLen

def heapFlags : VmFlags := { read := true, write := true }

def Space.setBrk (brk : Nat) : Space := { s with mm := { s.mm with brk := brk } }

def growBrk (oldEnd newEnd : Nat) : Bool × Space :=
  if (vmaFindIntersect oldEnd (add64 newEnd PAGE_SIZE) s.mm.vmas).isSome then (false, s)
  else
    match if s.mm.brkStart < oldEnd then vmaFind (sub64 oldEnd PAGE_SIZE) s.mm.vmas else none with
    | some v =>
      if v.stop = oldEnd ∧ v.file = none ∧ v.flags = heapFlags then
        (true, s.setVmas (vmaModify (sub64 oldEnd PAGE_SIZE) (fun w => { w with stop := newEnd }) s.mm.vmas))
      else mapVma s oldEnd newEnd heapFlags none 0 0
    | none => mapVma s oldEnd newEnd heapFlags none 0 0

def doBrk (nbrk : Nat) : Int × Space :=
  if nbrk < s.mm.brkStart then (s.mm.brk, s)
  else
    let oldEnd := alignUp s.mm.brk PAGE_SIZE
    let newEnd := alignUp nbrk PAGE_SIZE
    if oldEnd < newEnd then
      match growBrk s oldEnd newEnd with
      | (false, s) => (s.mm.brk, s)
      | (true, s) => (nbrk, s.setBrk nbrk)
    else if newEnd < oldEnd then (nbrk, (unmapRegion s newEnd oldEnd).2.setBrk nbrk)
    else (nbrk, s.setBrk nbrk)

inductive Call where
  | mmap (addr len : UInt64) (prot flags : UInt32) (file : Option File) (off : UInt64)
  | munmap (addr len : UInt64)
  | mprotect (addr len : UInt64) (prot : UInt32)
  | mremap (old oldLen newLen : UInt64) (flags : UInt32)
  | brk (nbrk : UInt64)
  | fault (addr : UInt64) (write exec : Bool)

def Call.run : Call → Int × Space
  | .mmap addr len prot flags file off => doMmap s addr.toNat len.toNat prot flags file off.toNat
  | .munmap addr len => doMunmap s addr.toNat len.toNat
  | .mprotect addr len prot => doMprotect s addr.toNat len.toNat prot
  | .mremap old oldLen newLen flags => doMremap s old.toNat oldLen.toNat newLen.toNat flags
  | .brk nbrk => doBrk s nbrk.toNat
  | .fault addr write exec => handleMmFault s addr.toNat write exec

end Olux.Vm
