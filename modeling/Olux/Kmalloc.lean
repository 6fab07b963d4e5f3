import Olux.Basic
import Olux.Lib.Dyadic
import Olux.Lib.Threaded

namespace Olux.Kmalloc

open Lib

def PAGE_OFFSET : Nat := 0xffffff8000000000
def NR_CLASSES : Nat := 8
def MIN_SHIFT : Nat := 4
def FREE_MAGIC : Nat := 0xf4eef4eef4eef4ee

-- What kmalloc asks of the page allocator: it hands out blocks of pages that are apart from
-- all the others in use.
structure Pager where
  State : Type
  used : State → Block → Prop
  alloc : State → UInt32 → Nat → Option Nat × State
  free : State → Block → State
  apart : ∀ {s b c}, used s b → used s c → b ≠ c → b.Disjoint c
  alloc_some : ∀ {s gfp o pfn s'}, alloc s gfp o = (some pfn, s') →
    ¬ used s ⟨pfn, o⟩ ∧ ∀ b, used s' b ↔ b = ⟨pfn, o⟩ ∨ used s b
  alloc_none : ∀ {s gfp o s'}, alloc s gfp o = (none, s') → ∀ b, used s' b ↔ used s b
  free_used : ∀ {s b}, used s b → ∀ c, used (free s b) c ↔ used s c ∧ c ≠ b

-- The fields of `struct page` that belong to kmalloc, with one for each of its two flags.
structure Page where
  slab : Bool
  compound : Bool
  order : Nat
  slabClass : Nat
  slabInuse : Nat
  freelist : Nat

structure SlabClass where
  partialPages : List Nat
  pages : Nat

structure St (G : Pager) where
  pager : G.State
  page : Nat → Page
  classes : Nat → SlabClass
  mem : Nat → Nat

inductive Fault
  | crash (msg : String)
  -- a loop that does not end
  | hang

def classSize (ci : Nat) : Nat := 2 ^ (ci + MIN_SHIFT)

def pageAddress (pfn : Nat) : Nat := PAGE_OFFSET + pfn * PAGE_SIZE

def virtToPage (va : Nat) : Nat := (va - PAGE_OFFSET) / PAGE_SIZE

def sizeClass (size : Nat) : Option Nat := (List.range NR_CLASSES).find? fun ci => size ≤ classSize ci

def store (a v : Nat) (mem : Nat → Nat) : Nat → Nat := fun b => if b = a then v else mem b

variable {G : Pager}

def setPage (pfn : Nat) (p : Page) (s : St G) : St G :=
  { s with page := fun q => if q = pfn then p else s.page q }

def setClass (ci : Nat) (c : SlabClass) (s : St G) : St G :=
  { s with classes := fun k => if k = ci then c else s.classes k }

def allocPages (gfp : UInt32) (order : Nat) (s : St G) : Except Fault (Option Nat × St G) :=
  match G.alloc s.pager gfp order with
  | (none, pager) => .ok (none, { s with pager })
  | (some pfn, pager) =>
    if (List.range (2 ^ order)).any fun i => (s.page (pfn + i)).slab then .error (.crash "page_alloc: allocated page has flags")
    else .ok (some pfn, { setPage pfn { s.page pfn with order } s with pager })

def carve (sz base : Nat) : Nat → Nat → (Nat → Nat) → Nat × (Nat → Nat)
  | 0, head, mem => (head, mem)
  | k + 1, head, mem => carve sz base k (base + k * sz) (store (base + k * sz + 8) FREE_MAGIC (store (base + k * sz) head mem))

def slabbed (ci pfn : Nat) (s : St G) : St G :=
  let r := carve (classSize ci) (pageAddress pfn) (PAGE_SIZE / classSize ci) 0 s.mem
  let c := s.classes ci
  setClass ci ⟨pfn :: c.partialPages, c.pages + 1⟩
    (setPage pfn { s.page pfn with slab := true, slabClass := ci, slabInuse := 0, freelist := r.1 } { s with mem := r.2 })

def newSlab (ci : Nat) (s : St G) : Except Fault (Option Nat × St G) := do
  match ← allocPages 0 0 s with
  | (none, s) => return (none, s)
  | (some pfn, s) => return (some pfn, slabbed ci pfn s)

-- The order of a large allocation. The shift is of 64 bits, so for a size above 2^63 there is
-- none and the loop goes on for ever.
def orderFor (size : Nat) : Option Nat := (List.range 64).find? fun o => size ≤ (PAGE_SIZE * 2 ^ o) % 2 ^ 64

def zero (a n : Nat) (mem : Nat → Nat) : Nat → Nat := fun b => if a ≤ b ∧ b + 8 ≤ a + n then 0 else mem b

def kmallocLarge (size : Nat) (gfp : UInt32) (clear : Bool) (s : St G) : Except Fault (Nat × St G) :=
  match orderFor size with
  | none => .error .hang
  | some order => do
    match ← allocPages gfp order s with
    | (none, s) => return (0, s)
    | (some pfn, s) =>
      let s := setPage pfn { s.page pfn with compound := true, order } s
      return (pageAddress pfn, { s with mem := if clear then zero (pageAddress pfn) size s.mem else s.mem })

def taken (ci pfn : Nat) (clear : Bool) (s : St G) : St G :=
  let p := s.page pfn
  let c := s.classes ci
  let s' := setPage pfn { p with freelist := s.mem p.freelist, slabInuse := p.slabInuse + 1 } s
  let s' := if s.mem p.freelist = 0 then setClass ci { c with partialPages := c.partialPages.erase pfn } s' else s'
  { s' with mem := if clear then zero p.freelist (classSize ci) s.mem else store (p.freelist + 8) 0 s.mem }

def takeObj (ci pfn : Nat) (clear : Bool) (s : St G) : Except Fault (Nat × St G) :=
  let obj := (s.page pfn).freelist
  if s.mem (obj + 8) ≠ FREE_MAGIC then .error (.crash "kmalloc: corrupted free object")
  else .ok (obj, taken ci pfn clear s)

def kmalloc (size : Nat) (gfp : UInt32) (clear : Bool) (s : St G) : Except Fault (Nat × St G) :=
  if size = 0 then .ok (0, s)
  else
    match sizeClass size with
    | none => kmallocLarge size gfp clear s
    | some ci =>
      match (s.classes ci).partialPages with
      | pfn :: _ => takeObj ci pfn clear s
      | [] => do
        match ← newSlab ci s with
        | (none, s) => return (0, s)
        | (some pfn, s) => takeObj ci pfn clear s

def put (ptr pfn : Nat) (s : St G) : St G :=
  let p := s.page pfn
  let c := s.classes p.slabClass
  setClass p.slabClass { c with partialPages := if p.freelist = 0 then pfn :: c.partialPages else c.partialPages }
    (setPage pfn { p with freelist := ptr, slabInuse := p.slabInuse - 1 }
      { s with mem := store (ptr + 8) FREE_MAGIC (store ptr p.freelist s.mem) })

def dropPage (pfn : Nat) (s : St G) : St G :=
  let p := s.page pfn
  let c := s.classes p.slabClass
  { setClass p.slabClass ⟨c.partialPages.erase pfn, c.pages - 1⟩ (setPage pfn { p with slab := false } s) with
    pager := G.free s.pager ⟨pfn, 0⟩ }

def putObj (ptr pfn : Nat) (s : St G) : St G :=
  let s' := put ptr pfn s
  if (s'.page pfn).slabInuse = 0 ∧ (s'.classes (s'.page pfn).slabClass).pages > 1 then dropPage pfn s' else s'

def kfree (ptr : Nat) (s : St G) : Except Fault (St G) :=
  if ptr = 0 then .ok s
  else
    let pfn := virtToPage ptr
    let p := s.page pfn
    if p.compound then
      .ok { setPage pfn { p with compound := false } s with pager := G.free s.pager ⟨pfn, p.order⟩ }
    else if !p.slab then .error (.crash "kfree: not a kmalloc pointer")
    else if ptr % classSize p.slabClass ≠ 0 then .error (.crash "kfree: misaligned pointer")
    else if s.mem (ptr + 8) = FREE_MAGIC then
      -- probably freed before: the page's list tells
      match scan s.mem ptr (PAGE_SIZE / classSize p.slabClass + 1) p.freelist with
      | none => .error .hang
      | some true => .error (.crash "kfree: double free")
      | some false => .ok (putObj ptr pfn s)
    else .ok (putObj ptr pfn s)

end Olux.Kmalloc
