import Olux.Basic

namespace Olux.Bcache

def SECTOR_SIZE : Nat := 512
def BCACHE_BLOCK : Nat := 4096
def BCACHE_HASH : Nat := 1024
def FLUSH_INTERVAL : Nat := 5 * 10 ^ 9

-- A whole disk, of less than 2^64 bytes. `addr` is where its structure lies in memory.
structure Disk where
  nrSectors : Nat
  readonly : Bool
  addr : Nat
  fits : nrSectors * SECTOR_SIZE < 2 ^ 64

-- The disks, and what they and the rest of the kernel answer: whether the request that a disk
-- gets at some moment fails, what a request that fails leaves behind, whether there is memory,
-- and the time.
structure Sys where
  disk : Nat → Disk
  maxBufs : Nat
  io : Nat → Nat → Int
  flush : Nat → Nat → Int
  junk : Nat → Nat → UInt8
  alloc : Nat → Bool
  ktime : Nat → Nat
  maxBufs_ge : 256 ≤ maxBufs

structure Blkdev (S : Sys) where
  whole : Nat
  start : Nat
  nrSectors : Nat
  inside : start + nrSectors ≤ (S.disk whole).nrSectors

structure Buf where
  disk : Nat
  block : Nat
  data : Nat → UInt8
  valid : Bool
  dirty : Bool
  dirtiedAt : Nat
  users : Nat

-- Buffers are numbered, `fresh` is a number that is not in use. `lru` has the most recently
-- used first. `tick` counts the moments, `dev` is what the disks hold.
structure St where
  bufs : Nat → Buf
  hash : Nat → List Nat
  lru : List Nat
  nbufs : Nat
  ndirty : Nat
  fresh : Nat
  tick : Nat
  dev : Nat → Nat → UInt8

variable (S : Sys)

variable (d block : Nat)

def hkey : Nat := ((((S.disk d).addr >>> 6) ^^^ block) % 2 ^ 32) % BCACHE_HASH

def setBuf (b : Nat) (x : Buf) (s : St) : St := { s with bufs := fun c => if c = b then x else s.bufs c }

def sectorsOf : Nat :=
  min (BCACHE_BLOCK / SECTOR_SIZE) ((S.disk d).nrSectors - block * (BCACHE_BLOCK / SECTOR_SIZE))

def hasBlock : Bool := block * (BCACHE_BLOCK / SECTOR_SIZE) < (S.disk d).nrSectors

-- `disk_io` for writing. A request that fails may have written anything to the block.
def diskWrite (data : Nat → UInt8) (s : St) : Int × St :=
  if !hasBlock S d block then (- EIO, s)
  else
    let r := S.io s.tick d
    let new : Nat → UInt8 := if r = 0 then data else S.junk s.tick
    let lo := block * BCACHE_BLOCK
    let hi := lo + sectorsOf S d block * SECTOR_SIZE
    (r, { s with
      tick := s.tick + 1
      dev := fun e p => if e = d ∧ lo ≤ p ∧ p < hi then new (p - lo) else s.dev e p })

def diskRead (data : Nat → UInt8) (s : St) : Int × (Nat → UInt8) × St :=
  if !hasBlock S d block then (- EIO, data, s)
  else
    let r := S.io s.tick d
    let new : Nat → UInt8 := if r = 0 then fun o => s.dev d (block * BCACHE_BLOCK + o) else S.junk s.tick
    (r, (fun o => if o < sectorsOf S d block * SECTOR_SIZE then new o else data o), { s with tick := s.tick + 1 })

def writeback (b : Nat) (s : St) : Int × St :=
  let x := s.bufs b
  if !x.dirty then (0, s)
  else
    let (r, s) := diskWrite S x.disk x.block x.data s
    if r = 0 then (r, { setBuf b { x with dirty := false } s with ndirty := s.ndirty - 1 }) else (r, s)

def lookup (s : St) : Option Nat :=
  (s.hash (hkey S d block)).find? fun b => (s.bufs b).disk = d ∧ (s.bufs b).block = block

def victim (s : St) : Option Nat := s.lru.reverse.find? fun b => (s.bufs b).users = 0

def remove (b : Nat) (s : St) : St :=
  let k := hkey S (s.bufs b).disk (s.bufs b).block
  { s with
    hash := fun j => if j = k then (s.hash j).erase b else s.hash j
    lru := s.lru.erase b
    nbufs := s.nbufs - 1 }

def install (d block b : Nat) (s : St) : St :=
  let k := hkey S d block
  { setBuf b { s.bufs b with disk := d, block, valid := false, dirty := false, users := 0 } s with
    hash := fun j => if j = k then b :: s.hash j else s.hash j
    lru := b :: s.lru
    nbufs := s.nbufs + 1 }

def allocBuf (s : St) : Option Nat × St :=
  if S.alloc s.tick then
    (some s.fresh, { setBuf s.fresh { s.bufs s.fresh with data := S.junk s.tick } s with
      tick := s.tick + 1
      fresh := s.fresh + 1 })
  else (none, { s with tick := s.tick + 1 })

def claimBuf (s : St) : Option Nat × St :=
  if s.nbufs ≥ S.maxBufs then
    match victim s with
    | some v =>
      let (r, s) := writeback S v s
      if r ≠ 0 then (none, s) else (some v, remove S v s)
    | none => allocBuf S s
  else allocBuf S s

def fill (read : Bool) (b : Nat) (s : St) : Option Nat × St :=
  let x := s.bufs b
  if read && !x.valid then
    let (r, data, s) := diskRead S d block x.data s
    if r ≠ 0 then (none, setBuf b { x with data } s)
    else (some b, setBuf b { x with data, valid := true, users := x.users + 1 } s)
  else (some b, setBuf b { x with users := x.users + 1 } s)

def getblk (read : Bool) (s : St) : Option Nat × St :=
  match lookup S d block s with
  | some b => fill S d block read b { s with lru := b :: s.lru.erase b }
  | none =>
    match claimBuf S s with
    | (none, s) => (none, s)
    | (some b, s) => fill S d block read b (install S d block b s)

def store (b bo chunk : Nat) (buf : Nat → UInt8) (s : St) : St :=
  let x := s.bufs b
  let data := fun o => if bo ≤ o ∧ o < bo + chunk then buf (o - bo) else x.data o
  if x.dirty then setBuf b { x with data, valid := true, users := x.users - 1 } s
  else
    { setBuf b { x with data, valid := true, dirty := true, dirtiedAt := S.ktime s.tick, users := x.users - 1 } s with
      tick := s.tick + 1
      ndirty := s.ndirty + 1 }

def release (b : Nat) (s : St) : St := setBuf b { s.bufs b with users := (s.bufs b).users - 1 } s

def chunkAt (base n done : Nat) : Nat := min (n - done) (BCACHE_BLOCK - (base + done) % BCACHE_BLOCK)

def blockFor (d base n : Nat) (src : Option (Nat → UInt8)) (done : Nat) (s : St) : Option Nat × St :=
  getblk S d ((base + done) / BCACHE_BLOCK) (!(src.isSome && chunkAt base n done = BCACHE_BLOCK)) s

-- One turn of the loop of `cached_rw`: the bytes it copies out, none without a buffer.
def rwTurn (d base n : Nat) (src : Option (Nat → UInt8)) (done : Nat) (s : St) : Option (List UInt8) × St :=
  let bo := (base + done) % BCACHE_BLOCK
  let chunk := chunkAt base n done
  match blockFor S d base n src done s with
  | (none, s) => (none, s)
  | (some b, s) =>
    match src with
    | some buf => (some [], store S b bo chunk (fun i => buf (done + i)) s)
    | none => (some ((List.range chunk).map fun i => (s.bufs b).data (bo + i)), release b s)

def rwLoop (d base n : Nat) (src : Option (Nat → UInt8)) : Nat → Nat → List UInt8 → St → Bool × Nat × List UInt8 × St
  | 0, done, out, s => (true, done, out, s)
  | k + 1, done, out, s =>
    if done < n then
      match rwTurn S d base n src done s with
      | (none, s) => (false, done, out, s)
      | (some bytes, s) => rwLoop d base n src k (done + chunkAt base n done) (out ++ bytes) s
    else (true, done, out, s)

def cachedRw {S : Sys} (bd : Blkdev S) (n off : Nat) (src : Option (Nat → UInt8)) (s : St) : Int × List UInt8 × St :=
  let limit := bd.nrSectors * SECTOR_SIZE
  if off ≥ limit then (0, [], s)
  else
    let n := min n (limit - off)
    if src.isSome && (S.disk bd.whole).readonly then (- EROFS, [], s)
    else
      match rwLoop S bd.whole (bd.start * SECTOR_SIZE + off) n src n 0 [] s with
      | (all, done, out, s) => (if !all && done = 0 then - EIO else done, out, s)

def syncTurn (only : Option Nat) (olderThan : Nat) : Int × St → Nat → Int × St := fun (err, s) b =>
  let x := s.bufs b
  if x.dirty && (only.isNone || only = some x.disk) && (olderThan = 0 || x.dirtiedAt ≤ olderThan) then
    let (r, s) := writeback S b s
    (if r ≠ 0 then r else err, s)
  else (err, s)

def syncDisk (only : Option Nat) (olderThan : Nat) (s : St) : Int × St :=
  s.lru.foldl (syncTurn S only olderThan) (0, s)

def bdevSync {S : Sys} (bd : Blkdev S) (s : St) : Int × St :=
  let (r, s) := syncDisk S (some bd.whole) 0 s
  let f := S.flush s.tick bd.whole
  (if r = 0 then f else r, { s with tick := s.tick + 1 })

def flusher (s : St) : St :=
  let now := S.ktime s.tick
  let s' := { s with tick := s.tick + 1 }
  if s.ndirty ≠ 0 ∧ now > FLUSH_INTERVAL then (syncDisk S none (now - FLUSH_INTERVAL) s').2 else s'

inductive Op
  | read (bd : Blkdev S) (n off : Nat)
  | write (bd : Blkdev S) (buf : List UInt8) (off : Nat)
  | sync (bd : Blkdev S)
  | flush

structure Answer where
  ret : Int
  bytes : List UInt8

def step (s : St) : Op S → Answer × St
  | .read bd n off =>
    let (r, out, s) := cachedRw bd n off none s
    (⟨r, out⟩, s)
  | .write bd buf off =>
    let (r, _, s) := cachedRw bd buf.length off (some fun i => buf.getD i 0) s
    (⟨r, []⟩, s)
  | .sync bd =>
    let (r, s) := bdevSync bd s
    (⟨r, []⟩, s)
  | .flush => (⟨0, []⟩, flusher S s)

def boot (dev : Nat → Nat → UInt8) : St where
  bufs _ := ⟨0, 0, fun _ => 0, false, false, 0, 0⟩
  hash _ := []
  lru := []
  nbufs := 0
  ndirty := 0
  fresh := 0
  tick := 0
  dev := dev

end Olux.Bcache
