import Olux.Vm.Fault

namespace Olux.Exec

open Olux.Lib
open Olux.Vm

def ELFCLASS64 : UInt8 := 2
def ELFDATA2LSB : UInt8 := 1
def ET_EXEC : UInt16 := 2
def ET_DYN : UInt16 := 3
def EM_AARCH64 : UInt16 := 183
def PT_LOAD : UInt32 := 1
def PT_PHDR : UInt32 := 6
def PF_X : UInt32 := 1
def PF_W : UInt32 := 2
def PF_R : UInt32 := 4
def SIZEOF_PHDR : Nat := 56

structure Ehdr where
  ident : List UInt8
  type : UInt16
  machine : UInt16
  entry : UInt64
  phoff : UInt64
  phentsize : UInt16
  phnum : UInt16

structure Phdr where
  type : UInt32
  flags : UInt32
  offset : UInt64
  vaddr : UInt64
  filesz : UInt64
  memsz : UInt64

structure LoadedElf where
  entry : Nat
  loadBias : Nat
  phdr : Nat
  phnum : Nat
  phent : Nat
  stop : Nat
  start : Nat

def checkEhdr (e : Ehdr) : Int :=
  if e.ident.take 4 ≠ [0x7f, 0x45, 0x4c, 0x46] ∨ e.ident.getD 4 0 ≠ ELFCLASS64 ∨ e.ident.getD 5 0 ≠ ELFDATA2LSB ∨
      e.machine ≠ EM_AARCH64 then -ENOEXEC
  else if e.type ≠ ET_EXEC ∧ e.type ≠ ET_DYN then -ENOEXEC
  else if e.phentsize.toNat ≠ SIZEOF_PHDR ∨ e.phnum = 0 ∨ e.phnum > 64 then -ENOEXEC
  else 0

def bounds : List Phdr → Nat → Nat → Option (Nat × Nat)
  | [], lo, hi => some (lo, hi)
  | p :: rest, lo, hi =>
    if p.type ≠ PT_LOAD then bounds rest lo hi
    else if p.filesz > p.memsz then none
    else if sub64 p.vaddr.toNat p.offset.toNat % PAGE_SIZE ≠ 0 then none
    else bounds rest (min lo (alignDown p.vaddr.toNat PAGE_SIZE)) (max hi (add64 p.vaddr.toNat p.memsz.toNat))

def segmentFlags (flags : UInt32) : VmFlags :=
  { read := has flags PF_R || has flags PF_W || has flags PF_X, write := has flags PF_W, exec := has flags PF_X }

def Phdr.addr (p : Phdr) (bias : Nat) : Nat := add64 p.vaddr.toNat bias

def Phdr.start (p : Phdr) (bias : Nat) : Nat := alignDown (p.addr bias) PAGE_SIZE

def Phdr.stop (p : Phdr) (bias : Nat) : Nat := alignUp (add64 (p.addr bias) p.memsz.toNat) PAGE_SIZE

def Phdr.lead (p : Phdr) (bias : Nat) : Nat := sub64 (p.addr bias) (p.start bias)

def findPhdr (eh : Ehdr) (bias : Nat) (p : Phdr) (phdr : Nat) : Nat :=
  if phdr = 0 ∧ p.offset ≤ eh.phoff ∧
      add64 eh.phoff.toNat (eh.phnum.toNat * SIZEOF_PHDR) ≤ add64 p.offset.toNat p.filesz.toNat then
    add64 (p.addr bias) (sub64 eh.phoff.toNat p.offset.toNat)
  else phdr

def loadSegments (f : Nat) (eh : Ehdr) (bias : Nat) : List Phdr → Nat → Space → Int × Nat × Space
  | [], phdr, s => (0, phdr, s)
  | p :: rest, phdr, s =>
    let phdr := if p.type = PT_PHDR then p.addr bias else phdr
    if p.type ≠ PT_LOAD ∨ p.memsz = 0 then loadSegments f eh bias rest phdr s
    else if p.offset.toNat < p.lead bias then (-ENOEXEC, phdr, s)
    else if (vmaFindIntersect (p.start bias) (p.stop bias) s.mm.vmas).isSome then (-ENOEXEC, phdr, s)
    else
      match mapVma s (p.start bias) (p.stop bias) (segmentFlags p.flags) (some f)
        (sub64 p.offset.toNat (p.lead bias)) (add64 (p.lead bias) p.filesz.toNat) with
      | (false, s) => (-ENOMEM, phdr, s)
      | (true, s) => loadSegments f eh bias rest (findPhdr eh bias p phdr) s

-- `ph` is the table of program headers as read_ehdr has read it.
def loadElf (f : Nat) (eh : Ehdr) (ph : List Phdr) (baseHint : Nat) (s : Space) : Int × Option LoadedElf × Space :=
  let ph := ph.take eh.phnum.toNat
  match bounds ph (2 ^ 64 - 1) 0 with
  | none => (-ENOEXEC, none, s)
  | some (lo, hi) =>
    if hi ≤ lo then (-ENOEXEC, none, s)
    else
      let bias := if eh.type = ET_DYN then sub64 baseHint lo else 0
      if add64 lo bias < USER_MIN_ADDR ∨ add64 hi bias > USER_VA_END ∨ add64 hi bias < add64 lo bias then
        (-ENOEXEC, none, s)
      else
        match loadSegments f eh bias ph 0 s with
        | (0, phdr, s) =>
          (0, some ⟨add64 eh.entry.toNat bias, bias, phdr, eh.phnum.toNat, SIZEOF_PHDR, add64 hi bias, add64 lo bias⟩, s)
        | (r, _, s) => (r, none, s)

end Olux.Exec
