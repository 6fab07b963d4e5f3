import Olux.Basic
import Olux.Lib.Prog

namespace Olux.Fat

open Olux.Lib

inductive FatType where
  | fat12
  | fat16
  | fat32
deriving DecidableEq

-- What `fat_open` reads from the boot sector and checks; no operation changes it.
structure Geom where
  ro : Bool
  bps : Nat
  cs : Nat
  nfats : Nat
  fatsz : Nat
  rootEnts : Nat
  rootBytes : Nat
  nclus : Nat
  rootClus : Nat
  fatOff : Nat
  cs_pow : ∃ k, 9 ≤ k ∧ k ≤ 16 ∧ cs = 2 ^ k
  bps_pos : 0 < bps
  rootEnts_lt : rootEnts < 2 ^ 16
  root_fits : rootEnts * 32 ≤ rootBytes
  nclus_lt : nclus + 2 ≤ 2 ^ 30
  root_valid : 65525 ≤ nclus → 2 ≤ rootClus ∧ rootClus < nclus + 2

structure Cache where
  start : Nat
  n : Nat
  c : Nat

structure Nent where
  ino : Nat
  dclus : Nat
  idx : Nat

-- The server's memory and the device. `times` are the answers the clock has still to give.
structure St where
  fat : Nat → UInt8
  fatDirty : Nat → Bool
  fatChanged : Bool
  freeCount : Nat
  nextFree : Nat
  ccache : Cache
  nt : List Nent
  times : List Int
  dev : Nat → UInt8

namespace Geom

variable (g : Geom)

def type : FatType :=
  if g.nclus < 4085 then .fat12 else if g.nclus < 65525 then .fat16 else .fat32

def rootOff : Nat := g.fatOff + g.nfats * g.fatsz

def dataOff : Nat := g.rootOff + g.rootBytes

end Geom

variable (p : Nat → UInt8)

def bytesAt (o len : Nat) : List UInt8 := (List.range len).map fun k => p (o + k)

def putBytes (o : Nat) (bytes : List UInt8) : Nat → UInt8 := fun x =>
  if o ≤ x then bytes.getD (x - o) (p x) else p x

def le16 (o : Nat) : Nat := (p o).toNat + 2 ^ 8 * (p (o + 1)).toNat

def le32 (o : Nat) : Nat :=
  (p o).toNat + 2 ^ 8 * (p (o + 1)).toNat + 2 ^ 16 * (p (o + 2)).toNat + 2 ^ 24 * (p (o + 3)).toNat

def bytes2 (v : Nat) : List UInt8 := [UInt8.ofNat v, UInt8.ofNat (v / 2 ^ 8)]

def bytes4 (v : Nat) : List UInt8 :=
  [UInt8.ofNat v, UInt8.ofNat (v / 2 ^ 8), UInt8.ofNat (v / 2 ^ 16), UInt8.ofNat (v / 2 ^ 24)]

variable (g : Geom)

def commit (dev : Nat → UInt8) (s : St) : St := { s with dev }

def devWrite (off : Nat) (buf : List UInt8) : Prog St Int Unit :=
  if g.ro then .fail (- EROFS) else .update fun s => commit (putBytes s.dev off buf) s

def valid (c : Nat) : Bool := decide (2 ≤ c) && decide (c < g.nclus + 2)

def eocMin : Nat :=
  match g.type with
  | .fat32 => 0x0FFFFFF8
  | .fat16 => 0xFFF8
  | .fat12 => 0xFF8

def eoc : Nat :=
  match g.type with
  | .fat32 => 0x0FFFFFFF
  | .fat16 => 0xFFFF
  | .fat12 => 0xFFF

def bad : Nat :=
  match g.type with
  | .fat32 => 0x0FFFFFF7
  | .fat16 => 0xFFF7
  | .fat12 => 0xFF7

def fatGet (s : St) (c : Nat) : Nat :=
  match g.type with
  | .fat32 => le32 s.fat (c * 4) % 2 ^ 28
  | .fat16 => le16 s.fat (c * 2)
  | .fat12 =>
    let v := le16 s.fat (c + c / 2)
    if c % 2 = 1 then v / 2 ^ 4 else v % 2 ^ 12

def markDirty (o len : Nat) (s : St) : St :=
  { s with
    fatDirty := fun sec => decide (o / g.bps ≤ sec ∧ sec ≤ (o + len - 1) / g.bps) || s.fatDirty sec
    fatChanged := true }

def fatSet (c v : Nat) (s : St) : St :=
  match g.type with
  | .fat32 =>
    let v := v % 2 ^ 28 + le32 s.fat (c * 4) / 2 ^ 28 * 2 ^ 28
    markDirty g (c * 4) 4 { s with fat := putBytes s.fat (c * 4) (bytes4 v) }
  | .fat16 => markDirty g (c * 2) 2 { s with fat := putBytes s.fat (c * 2) (bytes2 v) }
  | .fat12 =>
    let o := c + c / 2
    let w := le16 s.fat o
    let w := if c % 2 = 1 then w % 2 ^ 4 + v % 2 ^ 12 * 2 ^ 4 else w / 2 ^ 12 * 2 ^ 12 + v % 2 ^ 12
    markDirty g o 2 { s with fat := putBytes s.fat o (bytes2 w) }

def next (s : St) (c : Nat) : Nat := if valid g (fatGet g s c) then fatGet g s c else 0

def later (err r : Except Int Unit) : Except Int Unit :=
  match r with
  | .ok () => err
  | .error e => .error e

def flushCopy (sec : Nat) (p : Except Int Unit × St) (k : Nat) : Except Int Unit × St :=
  let r := devWrite g (g.fatOff + k * g.fatsz + sec * g.bps) (bytesAt p.2.fat (sec * g.bps) g.bps) p.2
  (later p.1 r.1, r.2)

def flushSector (p : Except Int Unit × St) (sec : Nat) : Except Int Unit × St :=
  if p.2.fatDirty sec then
    let q := (List.range g.nfats).foldl (flushCopy g sec) p
    (q.1, { q.2 with fatDirty := fun x => if x = sec then false else q.2.fatDirty x })
  else p

def fatFlush : Prog St Int Unit := fun s =>
  if s.fatChanged then
    let q := (List.range (g.fatsz / g.bps)).foldl (flushSector g) (.ok (), s)
    (q.1, { q.2 with fatChanged := false })
  else (.ok (), s)

def findFree (s : St) : Option Nat :=
  ((List.range g.nclus).map fun i =>
    if s.nextFree + i ≥ g.nclus + 2 then s.nextFree + i - g.nclus else s.nextFree + i).find?
      fun c => fatGet g s c = 0

def allocCluster (prev : Nat) (s : St) : Nat × St :=
  match findFree g s with
  | none => (0, s)
  | some c =>
    let s := fatSet g c (eoc g) s
    let s := if prev = 0 then s else fatSet g prev c s
    (c, { s with
      freeCount := s.freeCount - 1
      nextFree := if c + 1 ≥ g.nclus + 2 then 2 else c + 1 })

def freeLoop : Nat → Nat → St → St
  | 0, _, s => s
  | steps + 1, c, s =>
    if valid g c then
      let v := fatGet g s c
      if v = 0 then s
      else
        let s := fatSet g c 0 s
        freeLoop steps (if valid g v then v else 0) { s with freeCount := (s.freeCount + 1) % 2 ^ 32 }
    else s

def freeChain (c : Nat) (s : St) : St :=
  let s := freeLoop g g.nclus c s
  { s with ccache := { s.ccache with start := 0 } }

def nextLoop (s : St) : Nat → Nat → Nat
  | 0, c => c
  | k + 1, c => if c = 0 then 0 else nextLoop s k (next g s c)

def nthCluster (start n : Nat) (s : St) : Nat × St :=
  let c :=
    if s.ccache.start = start ∧ s.ccache.n ≤ n ∧ valid g s.ccache.c then
      nextLoop g s (n - s.ccache.n) s.ccache.c
    else nextLoop g s n start
  (c, if c = 0 then s else { s with ccache := ⟨start, n, c⟩ })

def clustersFrom (s : St) : Nat → Nat → List Nat
  | 0, _ => []
  | k + 1, c => if valid g c then c :: clustersFrom s k (next g s c) else []

def chainLen (s : St) (start : Nat) : Nat := (clustersFrom g s g.nclus start).length

def clusOff (c : Nat) : Nat := g.dataOff + (c - 2) * g.cs

def growLoop : Nat → Nat → Nat → Nat → St → Nat × Nat × St
  | 0, len, _, start, s => (len, start, s)
  | k + 1, len, last, start, s =>
    let r := allocCluster g last s
    if r.1 = 0 then (len, start, r.2)
    else growLoop k (len + 1) r.1 (if last = 0 then r.1 else start) r.2

def chainGrow (start need : Nat) (s : St) : Nat × Nat × St :=
  let l := clustersFrom g s g.nclus start
  growLoop g (need - l.length) l.length (l.getLast?.getD 0) start s

def chainTrim (start keep : Nat) (s : St) : Nat × St :=
  if !valid g start then (0, s)
  else if keep = 0 then (0, freeChain g start s)
  else
    let r := nthCluster g start (keep - 1) s
    if r.1 = 0 then (start, r.2)
    else
      let rest := next g r.2 r.1
      let s := fatSet g r.1 (eoc g) r.2
      let s := if rest = 0 then s else freeChain g rest s
      (start, { s with ccache := { s.ccache with start := 0 } })

end Olux.Fat
