import Olux.Fat.Ops

namespace Olux.Fat

open Olux.Lib

-- The state of a repair: the clusters that are claimed, and what was put right.
structure Fsck where
  st : St
  used : Nat → Bool
  fixFiles : Nat
  fixDirs : Nat

namespace Fsck

def setUsed (c : Nat) (k : Fsck) : Fsck := { k with used := fun x => decide (x = c) || k.used x }

end Fsck

variable (g : Geom)

-- Claims the chain of a directory, and cuts it where it runs into a claimed cluster.
def claimLoop : Nat → Nat → Nat → Fsck → Fsck
  | 0, _, _, k => k
  | n + 1, prev, c, k =>
    if valid g c then
      if k.used c then
        { k with
          st := if prev = 0 then k.st else fatSet g prev (eoc g) k.st
          fixDirs := k.fixDirs + 1 }
      else claimLoop n c (next g k.st c) (k.setUsed c)
    else k

def claimDir (clus : Nat) (k : Fsck) : Fsck := if clus = 0 then k else claimLoop g (g.nclus + 1) 0 clus k

def fileLoop : Nat → Nat → Nat → Nat → Fsck → Nat × Nat × Fsck
  | 0, _, cnt, prev, k => (cnt, prev, k)
  | n + 1, c, cnt, prev, k =>
    if valid g c && !k.used c then fileLoop n (next g k.st c) (cnt + 1) c (k.setUsed c) else (cnt, prev, k)

def fsckWrite (d : Dir) (i : Nat) (e : De) (k : Fsck) : Dir × Fsck :=
  let d := { d with e := d.e.set i e }
  (d, { k with st := (dirWrite g d i (i + 1) k.st).2 })

def fileSave (d : Dir) (i : Nat) (e : De) (k : Fsck) (changed : Bool) : Dir × Fsck :=
  if changed then
    let (d, k) := fsckWrite g d i e k
    (d, { k with fixFiles := k.fixFiles + 1 })
  else (d, k)

def fsckFile (d : Dir) (i : Nat) (e : De) (k : Fsck) : Dir × Fsck :=
  let start := deStart g e
  let need := clustersFor g e.size.toNat
  let (cnt, prev, k) := fileLoop g need start 0 0 k
  let changed := decide (cnt < need)
  let e := if cnt < need then { e with size := UInt32.ofNat (cnt * g.cs) } else e
  let (e, k, changed) :=
    if cnt = 0 ∧ start ≠ 0 then (deSetStart g e 0, k, true)
    else if prev ≠ 0 ∧ fatGet g k.st prev < eocMin g then
      -- the rest of the chain becomes a lost chain
      (e, { k with st := fatSet g prev (eoc g) k.st }, true)
    else (e, k, changed)
  fileSave g d i e k changed

def fsckSlots (sub : Option (Nat → Fsck → Fsck)) : List De → Nat → Dir → Fsck → Fsck
  | [], _, _, k => k
  | e :: es, i, d, k =>
    if lead e.name = 0 then k
    else if !live e then fsckSlots sub es (i + 1) d k
    else if e.isDir then
      match sub with
      | some sub =>
        if !valid g (deStart g e) || k.used (deStart g e) then
          -- an unusable directory entry
          let (d, k) := fsckWrite g d i { e with name := setLead e.name 0xE5 } k
          fsckSlots (some sub) es (i + 1) d { k with fixDirs := k.fixDirs + 1 }
        else fsckSlots (some sub) es (i + 1) d (sub (deStart g e) k)
      | none =>
        let (d, k) := fsckWrite g d i { e with name := setLead e.name 0xE5 } k
        fsckSlots none es (i + 1) d { k with fixDirs := k.fixDirs + 1 }
    else
      let (d, k) := fsckFile g d i e k
      fsckSlots sub es (i + 1) d k

def fsckTree (sub : Option (Nat → Fsck → Fsck)) (clus : Nat) (k : Fsck) : Fsck :=
  let k := claimDir g clus k
  match dirLoad g clus k.st with
  | .error _ => k
  | .ok d => fsckSlots g sub d.e 0 d k

def fsckDir : Nat → Nat → Fsck → Fsck
  | 0 => fsckTree g none
  | n + 1 => fsckTree g (some (fsckDir n))

def freeLost (used : Nat → Bool) (s : St) (c : Nat) : St :=
  let v := fatGet g s c
  if v ≠ 0 ∧ v ≠ bad g ∧ !used c then fatSet g c 0 s else s

def fsckWalk (s : St) : Fsck := fsckDir g 65 (rootClus g) ⟨s, fun _ => false, 0, 0⟩

def fsck : Prog St Int Unit := fun s =>
  let k := fsckWalk g s
  (.ok (), (fatFlush g (((List.range g.nclus).map (· + 2)).foldl (freeLost g k.used) k.st)).2)

end Olux.Fat
