import Olux.Basic

namespace Olux.Tmpfs

abbrev Page := Nat → UInt8

-- A regular file: the size and the block count of the inode, and the slot
-- array of its node (`npages` is the length).
structure Inode where
  size : Nat
  blocks : Nat
  pages : List (Option Page)

def Inode.fresh : Inode := ⟨0, 0, []⟩

structure Mount (n : Nat) where
  maxPages : Nat
  usedPages : Nat
  inodes : Fin n → Inode

def Mount.fresh (maxPages n : Nat) : Mount n := ⟨maxPages, 0, fun _ => Inode.fresh⟩

def Inode.slot (i : Inode) (p : Nat) : Option Page := i.pages.getD p none

def freeSlots : Nat → Nat → List (Option Page) → Nat → List (Option Page) × Nat
  | 0, _, pages, used => (pages, used)
  | n + 1, p, pages, used =>
    match pages.getD p none with
    | some _ => freeSlots n (p + 1) (pages.set p none) (used - 1)
    | none => freeSlots n (p + 1) pages used

def countBlocks (pages : List (Option Page)) (n : Nat) : Nat :=
  (pages.take n).countP Option.isSome * (PAGE_SIZE / 512)

def zeroFrom (pg : Page) (o : Nat) : Page := fun k => if o ≤ k then 0 else pg k

def zeroTail (pages : List (Option Page)) (size keep : Nat) : List (Option Page) :=
  if size % PAGE_SIZE ≠ 0 ∧ keep ≠ 0 ∧ keep ≤ pages.length then
    match pages.getD (keep - 1) none with
    | some pg => pages.set (keep - 1) (some (zeroFrom pg (size % PAGE_SIZE)))
    | none => pages
  else pages

def truncatePages (i : Inode) (used size : Nat) : Inode × Nat :=
  let keep := (size + PAGE_SIZE - 1) / PAGE_SIZE
  let (pages, used) := freeSlots (i.pages.length - keep) keep i.pages used
  let pages := zeroTail pages size keep
  (⟨size, countBlocks pages (min keep pages.length), pages⟩, used)

def ensureSlots (i : Inode) (idx : Nat) : Inode :=
  if idx < i.pages.length then i
  else
    let nn := max (max (idx + 1) (i.pages.length * 2)) 8
    { i with pages := i.pages ++ List.replicate (nn - i.pages.length) none }

-- What the loops meet at each value of `done`: whether the slot array and a
-- page can be allocated, and after how many bytes the copy of the chunk faults,
-- if it does.
structure Env where
  slots : Nat → Bool
  page : Nat → Bool
  fault : Nat → Option Nat

def Env.good : Env := ⟨fun _ => true, fun _ => true, fun _ => none⟩

def tmpfsSetattr {n : Nat} (m : Mount n) (f : Fin n) (size : Nat) : Mount n :=
  let i := m.inodes f
  if size < i.size then
    let (i, used) := truncatePages i m.usedPages size
    { m with usedPages := used, inodes := Function.update m.inodes f i }
  else { m with inodes := Function.update m.inodes f { i with size := size } }

def readChunk (i : Inode) (off chunk : Nat) : List UInt8 :=
  (List.range chunk).map fun k =>
    match i.slot (off / PAGE_SIZE) with
    | some pg => pg (off % PAGE_SIZE + k)
    | none => 0

def readLoop (e : Env) (i : Inode) (pos total : Nat) : Nat → Nat → List UInt8 → Bool × List UInt8
  | 0, _, out => (true, out)
  | fuel + 1, done, out =>
    if done < total then
      let off := pos + done
      let chunk := min (total - done) (PAGE_SIZE - off % PAGE_SIZE)
      if (e.fault done).isSome then (false, out)
      else readLoop e i pos total fuel (done + chunk) (out ++ readChunk i off chunk)
    else (true, out)

def tmpfsRead {n : Nat} (e : Env) (m : Mount n) (f : Fin n) (len pos : Nat) : Int × Nat × List UInt8 :=
  let i := m.inodes f
  if i.size ≤ pos then (0, pos, [])
  else
    let total := min len (i.size - pos)
    let (ok, out) := readLoop e i pos total total 0 []
    if ok then (out.length, pos + out.length, out)
    else if out.length ≠ 0 then (out.length, pos, out)
    else (- EFAULT, pos, [])

def overlay (pg : Page) (po : Nat) (data : List UInt8) : Page := fun o =>
  if po ≤ o ∧ o < po + data.length then data.getD (o - po) 0 else pg o

inductive Ended where
  | err (r : Int)
  | wrote (done : Nat)

def tooEarly (done : Nat) (r : Int) : Ended := if done = 0 then .err r else .wrote done

def writeLoop (e : Env) (maxPages : Nat) (buf : List UInt8) (pos : Nat) : Nat → Nat → Inode → Nat → Ended × Inode × Nat
  | 0, done, i, used => (.wrote done, i, used)
  | fuel + 1, done, i, used =>
    if done < buf.length then
      let off := pos + done
      let idx := off / PAGE_SIZE
      let po := off % PAGE_SIZE
      let chunk := min (buf.length - done) (PAGE_SIZE - po)
      let data := (buf.drop done).take chunk
      if idx ≥ i.pages.length ∧ e.slots done = false then (.wrote done, i, used)
      else
        let i := ensureSlots i idx
        match i.slot idx with
        | some pg =>
          match e.fault done with
          | some stored =>
            (tooEarly done (- EFAULT), { i with
              pages := i.pages.set idx (some (overlay pg po (data.take stored))) }, used)
          | none =>
            writeLoop e maxPages buf pos fuel (done + chunk)
              { i with pages := i.pages.set idx (some (overlay pg po data)) } used
        | none =>
          if maxPages ≤ used then (tooEarly done (- ENOSPC), i, used)
          else if e.page done = false then (tooEarly done (- ENOSPC), i, used)
          else
            let i := { i with blocks := i.blocks + PAGE_SIZE / 512 }
            match e.fault done with
            | some stored =>
              (tooEarly done (- EFAULT), { i with
                pages := i.pages.set idx (some (overlay (fun _ => 0) po (data.take stored))) }, used + 1)
            | none =>
              writeLoop e maxPages buf pos fuel (done + chunk)
                { i with pages := i.pages.set idx (some (overlay (fun _ => 0) po data)) } (used + 1)
    else (.wrote done, i, used)

def tmpfsWrite {n : Nat} (e : Env) (m : Mount n) (f : Fin n) (append : Bool) (buf : List UInt8) (pos : Nat) :
    (Int × Nat) × Mount n :=
  let i := m.inodes f
  let pos := if append then i.size else pos
  let (ended, i, used) := writeLoop e m.maxPages buf pos buf.length 0 i m.usedPages
  match ended with
  | .err r => ((r, pos), { m with usedPages := used, inodes := Function.update m.inodes f i })
  | .wrote done =>
    let pos := pos + done
    ((done, pos), { m with
      usedPages := used, inodes := Function.update m.inodes f { i with size := max i.size pos } })

end Olux.Tmpfs
