import Olux.Lib.Dyadic
import Olux.Memblock

namespace Olux.PageAlloc

open Olux.Lib Olux.Memblock

def GFP_DMA : UInt32 := 0x2
def GFP_DMA32 : UInt32 := 0x4

def PAGE_STRUCT : Nat := 40

-- `struct page`, with one field for each PG_* flag. The slab fields belong to kmalloc.
structure Page where
  reserved : Bool
  buddy : Bool
  slab : Bool
  compound : Bool
  refcount : Int
  order : Nat

-- `struct zone` without its fixed limits. Lists of page frame numbers, first entry first.
structure Zone where
  free : Nat → List Nat
  nrFree : Nat → Nat
  freePages : Nat
  managedPages : Nat

abbrev ZoneId := Fin 3

def startPfn : ZoneId → Nat
  | 0 => 0
  | 1 => 2 ^ 18
  | 2 => 2 ^ 20

def endPfn : ZoneId → Nat
  | 0 => 2 ^ 18
  | 1 => 2 ^ 20
  | 2 => 2 ^ 64 - 1

structure Pages where
  basePfn : Nat
  pfns : Nat
  page : Nat → Page
  zone : ZoneId → Zone

variable (s : Pages)

def Pages.setPage (pfn : Nat) (p : Page) : Pages :=
  { s with page := Function.update s.page pfn p }

variable (z : ZoneId)

def Pages.setZone (v : Zone) : Pages :=
  { s with zone := Function.update s.zone z v }

def Pages.pfnValid (pfn : Nat) : Prop := s.basePfn ≤ pfn ∧ pfn < s.basePfn + s.pfns

instance (s : Pages) (pfn : Nat) : Decidable (s.pfnValid pfn) := inferInstanceAs (Decidable (_ ∧ _))

def pfnZone (pfn : Nat) : ZoneId :=
  if startPfn 2 ≤ pfn then 2 else if startPfn 1 ≤ pfn then 1 else 0

variable (pfn order : Nat)

def addFree : Pages :=
  let v := s.zone z
  (s.setPage pfn { s.page pfn with buddy := true, order := order }).setZone z
    { v with
      free := Function.update v.free order (pfn :: v.free order)
      nrFree := Function.update v.nrFree order (v.nrFree order + 1) }

def delFree : Pages :=
  let v := s.zone z
  (s.setPage pfn { s.page pfn with buddy := false }).setZone z
    { v with
      free := Function.update v.free order ((v.free order).erase pfn)
      nrFree := Function.update v.nrFree order (v.nrFree order - 1) }

def coalesce (z : ZoneId) : Nat → Pages → Nat → Nat → Pages
  | 0, s, pfn, order => addFree s z pfn order
  | n + 1, s, pfn, order =>
    let buddy := pfn ^^^ 2 ^ order
    if ¬s.pfnValid buddy ∨ buddy < startPfn z ∨ endPfn z ≤ buddy then addFree s z pfn order
    else if (s.page buddy).buddy = false ∨ (s.page buddy).order ≠ order then addFree s z pfn order
    else coalesce z n (delFree s z buddy order) (pfn ^^^ (pfn &&& 2 ^ order)) (order + 1)

def Pages.addFreePages (n : Nat) : Pages :=
  s.setZone z { s.zone z with freePages := (s.zone z).freePages + n }

def Pages.subFreePages (n : Nat) : Pages :=
  s.setZone z { s.zone z with freePages := (s.zone z).freePages - n }

def freeBlock : Pages :=
  coalesce (pfnZone pfn) (MAX_ORDER - 1 - order)
    (s.addFreePages (pfnZone pfn) (2 ^ order)) pfn order

def split (z : ZoneId) (pfn order : Nat) : Nat → Pages → Pages
  | 0, s => s
  | n + 1, s => split z pfn order n (addFree s z (pfn + 2 ^ (order + n)) (order + n))

def allocFrom (s : Pages) (z : ZoneId) (order : Nat) : Nat → Nat → Option Nat × Pages
  | _, 0 => (none, s)
  | k, n + 1 =>
    match (s.zone z).free (order + k) with
    | [] => allocFrom s z order (k + 1) n
    | pfn :: _ =>
      let s' := split z pfn order k (delFree s z pfn (order + k))
      (some pfn, s'.subFreePages z (2 ^ order))

def allocBlock (order : Nat) : Option Nat × Pages :=
  allocFrom s z order 0 (MAX_ORDER - order)

def topZone (gfp : UInt32) : ZoneId :=
  if gfp &&& GFP_DMA ≠ 0 then 0 else if gfp &&& GFP_DMA32 ≠ 0 then 1 else 2

def allocZones (s : Pages) (order : Nat) : List ZoneId → Option Nat × Pages
  | [] => (none, s)
  | z :: rest =>
    match allocBlock s z order with
    | (some pfn, s') => (some pfn, s')
    | (none, s') => allocZones s' order rest

def zonesFrom : ZoneId → List ZoneId
  | 0 => [0]
  | 1 => [1, 0]
  | 2 => [2, 1, 0]

def Pages.setRefcount (n : Int) : Pages :=
  { s with page := fun x =>
      if pfn ≤ x ∧ x < pfn + 2 ^ order then { s.page x with refcount := n } else s.page x }

-- `alloc_pages`; no result at all is the panic on a page that is still marked.
def allocPages (gfp : UInt32) (order : Nat) : Option (Option Nat × Pages) :=
  if MAX_ORDER ≤ order then some (none, s)
  else match allocZones s order (zonesFrom (topZone gfp)) with
    | (none, s') => some (none, s')
    | (some pfn, s') =>
      if (List.range (2 ^ order)).any fun i => (s'.page (pfn + i)).reserved || (s'.page (pfn + i)).slab then none
      else
        let t := s'.setRefcount pfn order 1
        some (some pfn, t.setPage pfn { t.page pfn with order := order })

def freePages : Option Pages :=
  if (s.page pfn).buddy || (s.page pfn).reserved then none
  else some (freeBlock (s.setRefcount pfn order 0) pfn order)

def emptyZone : Zone := { free := fun _ => [], nrFree := fun _ => 0, freePages := 0, managedPages := 0 }

def reservedPage : Page :=
  { reserved := true, buddy := false, slab := false, compound := false, refcount := 0, order := 0 }

def ramFrames (m : MemMap) : List Nat :=
  (m.memory.flatMap fun r =>
    (List.range (r.size / PAGE_SIZE)).map fun i => (r.base + i * PAGE_SIZE) / PAGE_SIZE).filter
      fun pfn => !memblockIsReserved m (pfn * PAGE_SIZE)

def handOver (pfn : Nat) : Pages :=
  let z := pfnZone pfn
  let s := s.setPage pfn { s.page pfn with reserved := false, buddy := false, slab := false, compound := false }
  let s := s.setZone z { s.zone z with managedPages := (s.zone z).managedPages + 1 }
  freeBlock s pfn 0

def pageAllocInit (m : MemMap) : Option (Pages × MemMap) :=
  let start := memblockStart m / PAGE_SIZE
  let pfns := memblockEnd m / PAGE_SIZE - start
  match memblockAlloc m (alignUp (pfns * PAGE_STRUCT) PAGE_SIZE) PAGE_SIZE (2 ^ 64 - 1) with
  | none => none
  | some (pa, m') =>
    if pa = 0 then none
    else
      let s : Pages := { basePfn := start, pfns := pfns, page := fun _ => reservedPage, zone := fun _ => emptyZone }
      some ((ramFrames m').foldl handOver s, m')

inductive Op where
  | alloc (gfp : UInt32) (order : Nat)
  | free (b : Block)

structure System where
  pages : Pages
  live : List Block

def step (s : System) : Op → Option System
  | .alloc gfp order =>
    (allocPages s.pages gfp order).map fun
      | (none, p) => { s with pages := p }
      | (some pfn, p) => { pages := p, live := ⟨pfn, order⟩ :: s.live }
  | .free b =>
    if b ∈ s.live then (freePages s.pages b.base b.order).map fun p => { pages := p, live := s.live.erase b }
    else some s

def run (s : System) : List Op → Option System
  | [] => some s
  | op :: rest => (step s op).bind fun s' => run s' rest

end Olux.PageAlloc
