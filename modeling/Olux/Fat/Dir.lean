import Olux.Fat.Table

namespace Olux.Fat

open Olux.Lib

def MAX_DIR_ENTRIES : Nat := 65536

def A_RO : UInt8 := 0x01
def A_VOLUME : UInt8 := 0x08
def A_DIR : UInt8 := 0x10
def A_ARCH : UInt8 := 0x20
def A_LFN : UInt8 := 0x0F

structure De where
  name : Vector UInt8 11
  attr : UInt8
  ntres : UInt8
  ctimeTenth : UInt8
  ctime : UInt16
  cdate : UInt16
  adate : UInt16
  clusHi : UInt16
  mtime : UInt16
  mdate : UInt16
  clusLo : UInt16
  size : UInt32

namespace De

def raw (e : De) : List UInt8 :=
  e.name.toList ++ [e.attr, e.ntres, e.ctimeTenth] ++ bytes2 e.ctime.toNat ++ bytes2 e.cdate.toNat ++
    bytes2 e.adate.toNat ++ bytes2 e.clusHi.toNat ++ bytes2 e.mtime.toNat ++ bytes2 e.mdate.toNat ++
    bytes2 e.clusLo.toNat ++ bytes4 e.size.toNat

def ofBytes (p : Nat → UInt8) (o : Nat) : De where
  name := Vector.ofFn fun i => p (o + i.val)
  attr := p (o + 11)
  ntres := p (o + 12)
  ctimeTenth := p (o + 13)
  ctime := UInt16.ofNat (le16 p (o + 14))
  cdate := UInt16.ofNat (le16 p (o + 16))
  adate := UInt16.ofNat (le16 p (o + 18))
  clusHi := UInt16.ofNat (le16 p (o + 20))
  mtime := UInt16.ofNat (le16 p (o + 22))
  mdate := UInt16.ofNat (le16 p (o + 24))
  clusLo := UInt16.ofNat (le16 p (o + 26))
  size := UInt32.ofNat (le32 p (o + 28))

def zero : De := ⟨Vector.replicate 11 0, 0, 0, 0, 0, 0, 0, 0, 0, 0, 0, 0⟩

def isDir (e : De) : Bool := e.attr &&& A_DIR ≠ 0

end De

-- The first byte of a name marks what its slot is: free (0xE5), the end (0) or in use.
abbrev lead (name : Vector UInt8 11) : UInt8 := name[0]

abbrev setLead (name : Vector UInt8 11) (c : UInt8) : Vector UInt8 11 := name.set 0 c

def DOT : Vector UInt8 11 := #v[46, 32, 32, 32, 32, 32, 32, 32, 32, 32, 32]
def DOTDOT : Vector UInt8 11 := #v[46, 46, 32, 32, 32, 32, 32, 32, 32, 32, 32]

def isDot (e : De) : Bool := lead e.name = 46 && (e.name = DOT || e.name = DOTDOT)

def live (e : De) : Bool :=
  lead e.name ≠ 0 && lead e.name ≠ 0xE5 && e.attr ≠ A_LFN && e.attr &&& A_VOLUME = 0 && !isDot e

-- A directory in memory: its first cluster (0 is the fixed root of FAT12 and FAT16), its
-- slots and the clusters of its chain.
structure Dir where
  clus : Nat
  e : List De
  cl : List Nat

variable (g : Geom)

def deStart (e : De) : Nat :=
  (if g.type = .fat32 then e.clusHi.toNat * 2 ^ 16 else 0) + e.clusLo.toNat

def deSetStart (e : De) (c : Nat) : De :=
  { e with
    clusLo := UInt16.ofNat c
    clusHi := if g.type = .fat32 then UInt16.ofNat (c / 2 ^ 16) else 0 }

def rootClus : Nat := if g.type = .fat32 then g.rootClus else 0

def per : Nat := g.cs / 32

def maxClus : Nat := (MAX_DIR_ENTRIES + per g - 1) / per g

def slotsAt (p : Nat → UInt8) (o n : Nat) : List De := (List.range n).map fun i => De.ofBytes p (o + i * 32)

def dirLoad (clus : Nat) (s : St) : Except Int Dir :=
  if clus = 0 then
    if g.type = .fat32 then .error (- ESTALE)
    else .ok ⟨0, slotsAt s.dev g.rootOff g.rootEnts, []⟩
  else if !valid g clus then .error (- ESTALE)
  else
    -- past the first cluster, which is valid, the walk ends where `next` is 0
    let cl := clustersFrom g s (maxClus g) clus
    .ok ⟨clus, cl.flatMap fun c => slotsAt s.dev (clusOff g c) (per g), cl⟩

def dirEntOff (d : Dir) (i : Nat) : Nat :=
  if d.clus = 0 then g.rootOff + i * 32
  else clusOff g (d.cl.getD (i / per g) 0) + i % per g * 32

def dirWriteLoop (d : Dir) : Nat → Nat → Nat → Prog St Int Unit
  | 0, _, _ => pure ()
  | k + 1, a, b =>
    if a < b then do
      let per := if d.clus = 0 then d.e.length else per g
      let stop := min ((a / per + 1) * per) b
      devWrite g (dirEntOff g d a) (((d.e.drop a).take (stop - a)).flatMap De.raw)
      dirWriteLoop d k stop b
    else pure ()

def dirWrite (d : Dir) (a b : Nat) : Prog St Int Unit := dirWriteLoop g d (b - a) a b

def zeroCluster (c : Nat) : Prog St Int Unit := devWrite g (clusOff g c) (List.replicate g.cs 0)

def dirExtend (d : Dir) : Prog St Int Dir :=
  if d.clus = 0 ∨ d.e.length + per g > MAX_DIR_ENTRIES then .fail (- ENOSPC)
  else do
    let c ← .act (allocCluster g (d.cl.getLast?.getD 0))
    if c = 0 then .fail (- ENOSPC)
    else do
      zeroCluster g c
      pure { d with e := d.e ++ List.replicate (per g) De.zero, cl := d.cl ++ [c] }

def freeRun (n count : Nat) : List De → Nat → Nat → Option Nat
  | [], _, _ => none
  | e :: es, i, run =>
    if lead e.name = 0 then
      if n - i ≥ count then some i else none
    else if lead e.name = 0xE5 then
      if run + 1 = count then some (i + 1 - count) else freeRun n count es (i + 1) (run + 1)
    else freeRun n count es (i + 1) 0

def dirAllocLoop (count : Nat) : Nat → Dir → Prog St Int (Dir × Nat)
  | 0, _ => .fail (- ENOSPC)
  | k + 1, d =>
    match freeRun d.e.length count d.e 0 0 with
    | some first => pure (d, first)
    | none => do
      let d ← dirExtend g d
      dirAllocLoop count k d

def dirAlloc (d : Dir) (count : Nat) : Prog St Int (Dir × Nat) := dirAllocLoop g count (MAX_DIR_ENTRIES + 1) d

end Olux.Fat
