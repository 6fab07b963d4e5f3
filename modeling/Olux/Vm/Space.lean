import Olux.Basic
import Olux.Lib.Word

namespace Olux.Vm

open Olux.Lib

def PT_ENTRIES : Nat := 512
def L1_SIZE : Nat := 2 ^ 30
def L2_SIZE : Nat := 2 ^ 21

structure VmFlags where
  read : Bool := false
  write : Bool := false
  exec : Bool := false
  shared : Bool := false
  io : Bool := false
  growsdown : Bool := false
  nc : Bool := false
deriving DecidableEq

-- `struct vma`; an open file is known by its number, and its reference count is left out.
structure Vma where
  start : Nat
  stop : Nat
  flags : VmFlags
  file : Option Nat
  fileOff : Nat
  fileBytes : Nat
  ioBase : Nat
deriving DecidableEq

inductive MemAttr where
  | normal
  | normalNC
  | deviceNGnRE

-- A level 3 entry.
structure Pte where
  valid : Bool
  attr : MemAttr
  rdonly : Bool
  uxn : Bool
  swCow : Bool
  swShared : Bool
  swWrite : Bool
  frame : Nat

def zeroPte : Pte :=
  { valid := false, attr := .normal, rdonly := false, uxn := false, swCow := false, swShared := false,
    swWrite := false, frame := 0 }

def pteProt (flags : VmFlags) (frame : Nat) : Pte :=
  { valid := true
    attr := if flags.io then (if flags.nc then .normalNC else .deviceNGnRE) else .normal
    rdonly := !flags.write
    uxn := !flags.exec
    swCow := false
    swShared := false
    swWrite := flags.write
    frame := frame }

abbrev L3Table := Fin PT_ENTRIES → Pte
abbrev L2Table := Fin PT_ENTRIES → Option L3Table
abbrev Pgd := Fin PT_ENTRIES → Option L2Table

@[ext]
structure Slot where
  l1 : Fin PT_ENTRIES
  l2 : Fin PT_ENTRIES
  l3 : Fin PT_ENTRIES
deriving DecidableEq

def slot (va : Nat) : Slot :=
  { l1 := ⟨va / L1_SIZE % PT_ENTRIES, Nat.mod_lt _ (by decide)⟩
    l2 := ⟨va / L2_SIZE % PT_ENTRIES, Nat.mod_lt _ (by decide)⟩
    l3 := ⟨va / PAGE_SIZE % PT_ENTRIES, Nat.mod_lt _ (by decide)⟩ }

def Pgd.entry (pgd : Pgd) (x : Slot) : Pte :=
  match pgd x.l1 with
  | none => zeroPte
  | some l2 => match l2 x.l2 with
    | none => zeroPte
    | some l3 => l3 x.l3

def Pgd.hasTable (pgd : Pgd) (x : Slot) : Bool :=
  match pgd x.l1 with
  | none => false
  | some l2 => (l2 x.l2).isSome

def Pgd.store (pgd : Pgd) (x : Slot) (e : Pte) : Pgd :=
  match pgd x.l1 with
  | none => pgd
  | some l2 => match l2 x.l2 with
    | none => pgd
    | some l3 => Function.update pgd x.l1 (some (Function.update l2 x.l2 (some (Function.update l3 x.l3 e))))

-- `struct mm`, without the fields that only exec and procfs read.
structure Mm where
  refcount : Nat
  pgd : Pgd
  vmas : List Vma
  brkStart : Nat
  brk : Nat
  mmapBase : Nat
  stackTop : Nat
  rssPages : Nat

def Mm.pte (mm : Mm) (va : Nat) : Pte := mm.pgd.entry (slot va)

def Mm.setPte (mm : Mm) (va : Nat) (e : Pte) : Mm := { mm with pgd := mm.pgd.store (slot va) e }

structure Frame where
  free : Bool
  refcount : Nat
  data : Nat → UInt8

-- What the allocators, the file system and the random source answer to the calls of one operation, in order.
structure Supply where
  pages : List (Option Nat)
  objects : List Bool
  reads : List (Except Nat (List UInt8))
  asid : Bool
  random : Nat

structure Space where
  frame : Nat → Frame
  mm : Mm
  supply : Supply
  panicked : Bool

variable (s : Space)

def Space.setFrame (p : Nat) (f : Frame) : Space :=
  { s with frame := Function.update s.frame p f }

def Space.setPte (va : Nat) (e : Pte) : Space := { s with mm := s.mm.setPte va e }

def Space.addRss : Space := { s with mm := { s.mm with rssPages := s.mm.rssPages + 1 } }

def Space.subRss : Space := { s with mm := { s.mm with rssPages := s.mm.rssPages - 1 } }

def allocPage (zero : Bool) : Option Nat × Space :=
  match s.supply.pages with
  | [] => (none, s)
  | answer :: rest =>
    let s := { s with supply := { s.supply with pages := rest } }
    match answer with
    | none => (none, s)
    | some p =>
      if (s.frame p).free then
        (some p, s.setFrame p { free := false, refcount := 1, data := if zero then fun _ => 0 else (s.frame p).data })
      else (none, s)

def freePage (p : Nat) : Space := s.setFrame p { s.frame p with free := true, refcount := 0 }

def pageGet (p : Nat) : Space :=
  s.setFrame p { s.frame p with refcount := (s.frame p).refcount + 1 }

def pagePut (p : Nat) : Space :=
  match (s.frame p).refcount with
  | 0 => { s with panicked := true }
  | 1 => freePage s p
  | n + 2 => s.setFrame p { s.frame p with refcount := n + 1 }

def Supply.table (u : Supply) : Bool × Supply :=
  match u.pages with
  | [] => (false, u)
  | answer :: rest => (answer.isSome, { u with pages := rest })

def Supply.object (u : Supply) : Bool × Supply :=
  match u.objects with
  | [] => (false, u)
  | ok :: rest => (ok, { u with objects := rest })

def allocTable : Bool × Space := (s.supply.table.1, { s with supply := s.supply.table.2 })

def kmalloc : Bool × Space := (s.supply.object.1, { s with supply := s.supply.object.2 })

def tableL2 (x : Slot) : Bool × Space :=
  match s.mm.pgd x.l1 with
  | some _ => (true, s)
  | none =>
    match allocTable s with
    | (false, s) => (false, s)
    | (true, s) => (true, { s with mm := { s.mm with pgd := Function.update s.mm.pgd x.l1 (some fun _ => none) } })

def tableL3 (x : Slot) : Bool × Space :=
  match s.mm.pgd x.l1 with
  | none => (false, s)
  | some l2 => match l2 x.l2 with
    | some _ => (true, s)
    | none =>
      match allocTable s with
      | (false, s) => (false, s)
      | (true, s) =>
        let l2 := Function.update l2 x.l2 (some fun _ => zeroPte)
        (true, { s with mm := { s.mm with pgd := Function.update s.mm.pgd x.l1 (some l2) } })

def userPte (va : Nat) : Bool × Space :=
  match tableL2 s (slot va) with
  | (false, s) => (false, s)
  | (true, s) => tableL3 s (slot va)

def releasePte (e : Pte) : Space :=
  if e.valid && !e.swShared then (pagePut s e.frame).subRss else s

def zapPte (va : Nat) : Space :=
  let e := s.mm.pte va
  if e.valid then releasePte (s.setPte va zeroPte) e else s

def zapRange (s : Space) (va stop : Nat) : Space :=
  if va < stop then
    match s.mm.pgd (slot va).l1 with
    | none => zapRange s (alignDown va L1_SIZE + L1_SIZE) stop
    | some l2 => match l2 (slot va).l2 with
      | none => zapRange s (alignDown va L2_SIZE + L2_SIZE) stop
      | some _ => zapRange (zapPte s va) (va + PAGE_SIZE) stop
  else s
termination_by stop - va
decreasing_by
  all_goals simp only [alignDown, L1_SIZE, L2_SIZE, PAGE_SIZE]; omega

def entries : List (Fin PT_ENTRIES) := List.finRange PT_ENTRIES

def freeTables : Space :=
  entries.foldl (fun s i => match s.mm.pgd i with
    | none => s
    | some l2 => entries.foldl (fun s j => match l2 j with
      | none => s
      | some l3 => entries.foldl (fun s k => releasePte s (l3 k)) s) s) s

end Olux.Vm
