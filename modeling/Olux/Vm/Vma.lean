import Olux.Vm.Space

namespace Olux.Vm

open Olux.Lib

def USER_STACK_MAX : Nat := 8 * 2 ^ 20
def USER_MMAP_GAP : Nat := 256 * 2 ^ 20
def USER_STACK_TOP_BASE : Nat := 0x7ff0000000
def USER_MIN_ADDR : Nat := 0x10000

def add64 (a b : Nat) : Nat := (a + b) % 2 ^ 64
def sub64 (a b : Nat) : Nat := (a + 2 ^ 64 - b) % 2 ^ 64

def vmaFind (addr : Nat) : List Vma → Option Vma
  | [] => none
  | v :: rest => if addr < v.start then none else if addr < v.stop then some v else vmaFind addr rest

def vmaFindIntersect (start stop : Nat) : List Vma → Option Vma
  | [] => none
  | v :: rest =>
    if stop ≤ v.start then none else if start < v.stop then some v else vmaFindIntersect start stop rest

def vmaModify (addr : Nat) (f : Vma → Vma) : List Vma → List Vma
  | [] => []
  | v :: rest =>
    if addr < v.start then v :: rest
    else if addr < v.stop then f v :: rest
    else v :: vmaModify addr f rest

def vmaModifyIntersect (start stop : Nat) (f : Vma → Vma) : List Vma → List Vma
  | [] => []
  | v :: rest =>
    if stop ≤ v.start then v :: rest
    else if start < v.stop then f v :: rest
    else v :: vmaModifyIntersect start stop f rest

def vmaInsert (nv : Vma) : List Vma → List Vma
  | [] => [nv]
  | v :: rest => if nv.start < v.start then nv :: v :: rest else v :: vmaInsert nv rest

def Vma.lower (v : Vma) (addr : Nat) : Vma :=
  { v with stop := addr, fileBytes := min v.fileBytes (sub64 addr v.start) }

def Vma.upper (v : Vma) (addr : Nat) : Vma :=
  let delta := sub64 addr v.start
  { v with
    start := addr
    fileOff := add64 v.fileOff delta
    fileBytes := if delta < v.fileBytes then v.fileBytes - delta else 0
    ioBase := if v.flags.io then add64 v.ioBase delta else v.ioBase }

def Space.setVmas (s : Space) (vmas : List Vma) : Space := { s with mm := { s.mm with vmas := vmas } }

def mapVma (s : Space) (start stop : Nat) (flags : VmFlags) (file : Option Nat) (off fileBytes : Nat) : Bool × Space :=
  match kmalloc s with
  | (false, s) => (false, s)
  | (true, s) =>
    let v : Vma :=
      { start := start, stop := stop, flags := flags, file := file, fileOff := off, fileBytes := fileBytes, ioBase := 0 }
    (true, s.setVmas (vmaInsert v s.mm.vmas))

theorem vmaFindIntersect_start_lt {start stop : Nat} {l : List Vma} {v : Vma}
    (h : vmaFindIntersect start stop l = some v) : v.start < stop := by
  induction l with
  | nil => cases h
  | cons w rest ih =>
  rw [vmaFindIntersect] at h
  split at h
  · cases h
  split at h
  · cases h
    omega
  · exact ih h

def unmappedBelow (mm : Mm) (len top : Nat) : Nat :=
  if top < add64 USER_MIN_ADDR len then 0
  else
    let cand := sub64 top len
    match _h : vmaFindIntersect cand top mm.vmas with
    | some v => unmappedBelow mm len v.start
    | none =>
      if _hb : cand < add64 (USER_MMAP_GAP / 4) mm.brk ∧ mm.brkStart < top then
        if mm.brkStart ≤ mm.brk then 0 else unmappedBelow mm len mm.brkStart
      else cand
termination_by top
decreasing_by
  · exact vmaFindIntersect_start_lt _h
  · exact _hb.2

def mmGetUnmappedArea (mm : Mm) (len : Nat) : Nat := unmappedBelow mm (alignUp len PAGE_SIZE) mm.mmapBase

-- The list walk that `unmap_region` and `do_mprotect` share: areas are split at the two ends of the range, and `f`
-- drops or changes each area inside it.
def forRange (start stop : Nat) (f : Vma → Space → Option Vma × Space) (l : List Vma) (s : Space) :
    Bool × List Vma × Space :=
  match l with
  | [] => (true, [], s)
  | v :: rest =>
    if v.stop ≤ start then
      let (ok, l, s) := forRange start stop f rest s
      (ok, v :: l, s)
    else if stop ≤ v.start then (true, v :: rest, s)
    else if v.start < start then
      match kmalloc s with
      | (false, s) => (false, v :: rest, s)
      | (true, s) =>
        let (ok, l, s) := forRange start stop f (v.upper start :: rest) s
        (ok, v.lower start :: l, s)
    else if stop < v.stop then
      match kmalloc s with
      | (false, s) => (false, v :: rest, s)
      | (true, s) =>
        let (kept, s) := f (v.lower stop) s
        let (ok, l, s) := forRange start stop f (v.upper stop :: rest) s
        (ok, kept.toList ++ l, s)
    else
      let (kept, s) := f v s
      let (ok, l, s) := forRange start stop f rest s
      (ok, kept.toList ++ l, s)
termination_by l.length + l.countP (·.start < start) + l.countP (·.start < stop)
decreasing_by
  all_goals
    simp only [List.length_cons, List.countP_cons, Vma.upper, decide_eq_true_eq]
    repeat' split
    all_goals omega

def unmapRegion (s : Space) (start stop : Nat) : Int × Space :=
  let (ok, l, s) := forRange start stop (fun v s => (none, zapRange s v.start v.stop)) s.mm.vmas s
  (if ok then 0 else -ENOMEM, s.setVmas l)

end Olux.Vm
