import Olux.Basic
import Olux.Lib.Word

namespace Olux.Memblock

open Olux.Lib

def MEMBLOCK_MAX : Nat := 64

structure Region where
  base : Nat
  size : Nat
deriving DecidableEq

structure MemMap where
  memory : List Region := []
  reserved : List Region := []
deriving DecidableEq

def absorb (base last : Nat) : List Region → Nat × Nat × List Region
  | [] => (base, last, [])
  | r :: rest =>
    if (r.base + r.size) % 2 ^ 64 < base ∨ last < r.base then
      let (b, e, kept) := absorb base last rest
      (b, e, r :: kept)
    else absorb (min base r.base) (max last ((r.base + r.size) % 2 ^ 64)) rest

def place (new : Region) : List Region → List Region
  | [] => [new]
  | r :: rest => if r.base < new.base then r :: place new rest else new :: r :: rest

def insert (l : List Region) (base size : Nat) : Option (List Region) :=
  if size = 0 then some l
  else
    let (b, e, kept) := absorb base ((base + size) % 2 ^ 64) l
    if kept.length = MEMBLOCK_MAX then none
    else some (place ⟨b, (e + 2 ^ 64 - b) % 2 ^ 64⟩ kept)

variable (m : MemMap)

def memblockAdd (base size : Nat) : Option MemMap :=
  let b := alignUp base PAGE_SIZE
  let e := alignDown ((base + size) % 2 ^ 64) PAGE_SIZE
  if b < e then (insert m.memory b (e - b)).map fun l => { m with memory := l } else some m

def memblockReserve (base size : Nat) : Option MemMap :=
  let b := alignDown base PAGE_SIZE
  let e := alignUp ((base + size) % 2 ^ 64) PAGE_SIZE
  (insert m.reserved b ((e + 2 ^ 64 - b) % 2 ^ 64)).map fun l => { m with reserved := l }

def memblockIsReserved (pa : Nat) : Bool :=
  m.reserved.any fun r => r.base ≤ pa && pa - r.base < r.size

def conflict (reserved : List Region) (cand size : Nat) : Option Region :=
  reserved.find? fun r => cand < (r.base + r.size) % 2 ^ 64 && r.base < (cand + size) % 2 ^ 64

theorem conflict_base_lt {reserved : List Region} {cand size : Nat} {r : Region}
    (h : conflict reserved cand size = some r) : r.base < cand + size := by
  have hr := List.find?_some h
  simp only [Bool.and_eq_true, decide_eq_true_eq] at hr
  exact Nat.lt_of_lt_of_le hr.2 (Nat.mod_le _ _)

def searchDown (reserved : List Region) (lo size align cand : Nat) : Option Nat :=
  if lo ≤ cand then
    match _h : conflict reserved cand size with
    | none => some cand
    | some r =>
      if _hb : r.base < size then none
      else searchDown reserved lo size align (alignDown (r.base - size) align)
  else none
termination_by cand
decreasing_by
  have := conflict_base_lt _h
  have := Nat.div_mul_le_self (r.base - size) align
  simp only [alignDown]
  omega

def searchRegions (reserved : List Region) (size align limit : Nat) : List Region → Option Nat
  | [] => none
  | r :: rest =>
    let hi := min ((r.base + r.size) % 2 ^ 64) limit
    if hi ≤ r.base ∨ hi - r.base < size then searchRegions reserved size align limit rest
    else match searchDown reserved r.base size align (alignDown (hi - size) align) with
      | some cand => some cand
      | none => searchRegions reserved size align limit rest

def memblockAlloc (size align limit : Nat) : Option (Nat × MemMap) :=
  let size := alignUp size PAGE_SIZE
  match searchRegions m.reserved size align limit m.memory.reverse with
  | none => some (0, m)
  | some cand => (memblockReserve m cand size).map fun m' => (cand, m')

def memblockStart : Nat := (m.memory.head?.map (·.base)).getD 0

def memblockEnd : Nat :=
  (m.memory.getLast?.map fun r => (r.base + r.size) % 2 ^ 64).getD 0

inductive BootCall where
  | add (base size : UInt64)
  | reserve (base size : UInt64)

def boot (m : MemMap) : List BootCall → Option MemMap
  | [] => some m
  | .add base size :: rest => (memblockAdd m base.toNat size.toNat).bind fun m' => boot m' rest
  | .reserve base size :: rest => (memblockReserve m base.toNat size.toNat).bind fun m' => boot m' rest

end Olux.Memblock
