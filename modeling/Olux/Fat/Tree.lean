import Olux.Fat.Ops

namespace Olux.Fat

open Olux.Lib

variable (g : Geom)

def opCreate (dino : Nat) (name : List UInt8) (mode : UInt32) : Prog St Int Found :=
  if g.ro then .fail (- EROFS)
  else if mode &&& S_IFMT ≠ 0 ∧ mode &&& S_IFMT ≠ S_IFREG then .fail (- EPERM)
  else do
    let d ← openDir g dino
    match dirFind d name with
    | some _ => .fail (- EEXIST)
    | none => do
      let t ← .act (newEntry (A_ARCH ||| if mode &&& 0o222 ≠ 0 then 0 else A_RO))
      let r ← .attempt (dirAdd g d name t)
      let f ← .attempt (fatFlush g)
      let (d, idx) ← .query fun _ => firstError r f
      let p : Loc := ⟨d.clus, idx⟩
      let de := d.e.getD idx De.zero
      .update (ntSet (inoOf g p de) p)
      let a ← .read (fillAttr g (inoOf g p de) (some de))
      pure ⟨p, a⟩

def dotdotStart (clus : Nat) : Nat := if clus = rootClus g then 0 else clus

def dotEntries (e : De) (c parent : Nat) : List De :=
  [deSetStart g { e with name := DOT } c, deSetStart g { e with name := DOTDOT } (dotdotStart g parent)]

def opMkdir (dino : Nat) (name : List UInt8) : Prog St Int Found :=
  if g.ro then .fail (- EROFS)
  else do
    let d ← openDir g dino
    if (dirFind d name).isSome then .fail (- EEXIST)
    else do
      .query fun _ => checkName name
      let c ← .act (allocCluster g 0)
      if c = 0 then .fail (- ENOSPC)
      else do
        let r ← .attempt (do
          let e ← .act (newEntry A_DIR)
          devWrite g (clusOff g c) ((dotEntries g e c d.clus).flatMap De.raw ++ List.replicate (g.cs - 64) 0)
          let t ← .act (newEntry A_DIR)
          dirAdd g d name (deSetStart g t c))
        if r.isOk then pure ()
        else .update fun s =>
          let s := fatSet g c 0 s
          { s with freeCount := (s.freeCount + 1) % 2 ^ 32 }
        let f ← .attempt (fatFlush g)
        let (d, idx) ← .query fun _ => firstError r f
        let p : Loc := ⟨d.clus, idx⟩
        .update (ntSet c p)
        let a ← .read (fillAttr g c (some (d.e.getD idx De.zero)))
        pure ⟨p, a⟩

-- An entry may be taken away: a file where a file is wanted, an empty directory where a directory is.
def removable (e : De) (wantDir : Bool) : Prog St Int Unit :=
  if wantDir && !e.isDir then .fail (- ENOTDIR)
  else if !wantDir && e.isDir then .fail (- EISDIR)
  else if e.isDir then do
    let c ← .query (dirLoad g (deStart g e))
    if dirEmpty c then pure () else .fail (- ENOTEMPTY)
  else pure ()

def dropEntry (d : Dir) (e : Ent) : Prog St Int Dir := do
  let start := deStart g (d.e.getD e.idx De.zero)
  let d ← dirRemove g d e
  if valid g start then .update (freeChain g start) else pure ()
  .update (ntRelocate ⟨d.clus, e.idx⟩ none)
  pure d

def removeEntry (dino : Nat) (name : List UInt8) (wantDir : Bool) : Prog St Int Loc :=
  if g.ro then .fail (- EROFS)
  else do
    let d ← openDir g dino
    match dirFind d name with
    | none => .fail (- ENOENT)
    | some e => do
      removable g (d.e.getD e.idx De.zero) wantDir
      let d ← dropEntry g d e
      fatFlush g
      pure ⟨d.clus, e.idx⟩

def opUnlink (dino : Nat) (name : List UInt8) : Prog St Int Loc := removeEntry g dino name false

def opRmdir (dino : Nat) (name : List UInt8) : Prog St Int Loc := removeEntry g dino name true

def dirWithinLoop (outer : Nat) (s : St) : Nat → Nat → Bool
  | 0, _ => false
  | k + 1, inner =>
    if inner = rootClus g ∨ inner = 0 then false
    else if inner = outer then true
    else
      match dirLoad g inner s with
      | .error _ => false
      | .ok d =>
        dirWithinLoop outer s k
          (if 1 < d.e.length ∧ lead (d.e.getD 1 De.zero).name = 46 then deStart g (d.e.getD 1 De.zero) else 0)

def dirWithin (inner outer : Nat) (s : St) : Bool := dirWithinLoop g outer s 256 inner

structure Renamed where
  src : Loc
  dst : Loc
  gone : Option Loc
deriving DecidableEq

-- What `op_rename` does with an entry that has the new name already: `src` is the slot of the
-- renamed entry when both are in one directory.
def replaceTarget (nd : Dir) (nname : List UInt8) (sdir : Bool) (src : Option Nat) : Prog St Int (Dir × Option Loc) :=
  match dirFind nd nname with
  | none => pure (nd, none)
  | some dst =>
    if src = some dst.idx then pure (nd, none)
    else do
      removable g (nd.e.getD dst.idx De.zero) sdir
      let nd ← dropEntry g nd dst
      pure (nd, some ⟨nd.clus, dst.idx⟩)

def setDotdot (start parent : Nat) : Prog St Int Unit := do
  match ← .attempt (.query (dirLoad g start)) with
  | .error _ => pure ()
  | .ok c =>
    if 1 < c.e.length ∧ lead (c.e.getD 1 De.zero).name = 46 then
      dirWrite g { c with e := c.e.set 1 (deSetStart g (c.e.getD 1 De.zero) (dotdotStart g parent)) } 1 2
    else pure ()

-- The two directories of a rename; when they are one, `nd` is `od` itself.
def renameDirs (odino ndino : Nat) : Prog St Int (Dir × Dir) := do
  let od ← openDir g odino
  let nd ← if odino = ndino then pure od else openDir g ndino
  pure (od, if od.clus = nd.clus then od else nd)

-- What is left of `op_rename` once the entry is in the slot `nidx` of `nd` too.
def renameFinish (same : Prop) [Decidable same] (od nd : Dir) (s : De) (src : Ent) (nidx : Nat) (gone : Option Loc) :
    Prog St Int Renamed := do
  let oldIno := inoOf g ⟨od.clus, src.idx⟩ s
  let od ← dirRemove g (if same then nd else od) src
  let nd := if same then od else nd
  let p : Loc := ⟨nd.clus, nidx⟩
  .update (ntRelocate ⟨od.clus, src.idx⟩ (some p))
  .update (ntSet oldIno p)
  .update (ntSet (inoOf g p (nd.e.getD nidx De.zero)) p)
  let r ← .attempt (if s.isDir ∧ ¬same then setDotdot g (deStart g s) nd.clus else pure ())
  let f ← .attempt (fatFlush g)
  .query fun _ => (firstError r f).map fun _ => ⟨⟨od.clus, src.idx⟩, p, gone⟩

def opRename (odino : Nat) (oname : List UInt8) (ndino : Nat) (nname : List UInt8) : Prog St Int Renamed :=
  if g.ro then .fail (- EROFS)
  else do
    let (od, nd) ← renameDirs g odino ndino
    let same := od.clus = nd.clus
    match dirFind od oname with
    | none => .fail (- ENOENT)
    | some src => do
      let s := od.e.getD src.idx De.zero
      let inside ← .read fun t => s.isDir && !decide same && dirWithin g nd.clus (deStart g s) t
      if inside then .fail (- EINVAL)
      else do
        .query fun _ => checkName nname
        let (nd, gone) ← replaceTarget g nd nname s.isDir (if same then some src.idx else none)
        let (nd, nidx) ← dirAdd g nd nname s
        renameFinish g same od nd s src nidx gone

structure Req where
  valid : UInt32
  mode : UInt32
  uid : UInt32
  gid : UInt32
  size : Nat
  atime : Int
  mtime : Int

def setMode (q : Req) (e : De) : De :=
  if q.valid &&& UFS_ATTR_MODE = 0 then e
  else if q.mode &&& 0o222 ≠ 0 then { e with attr := e.attr &&& ~~~A_RO }
  else { e with attr := e.attr ||| A_RO }

def setTimes (q : Req) (e : De) : De :=
  let e := if q.valid &&& UFS_ATTR_MTIME = 0 then e
    else { e with mdate := (unixToFat q.mtime).1, mtime := (unixToFat q.mtime).2 }
  if q.valid &&& UFS_ATTR_ATIME = 0 then e else { e with adate := (unixToFat q.atime).1 }

def opSetattr (ino : Nat) (q : Req) : Prog St Int Attr := do
  let n ← nodeGet g ino
  if n.root then .read (fillAttr g ino none)
  else if g.ro then .fail (- EROFS)
  else if q.valid &&& UFS_ATTR_UID ≠ 0 ∧ q.uid ≠ 0 ∨ q.valid &&& UFS_ATTR_GID ≠ 0 ∧ q.gid ≠ 0 then .fail (- EPERM)
  else do
    let n ←
      if q.valid &&& UFS_ATTR_SIZE = 0 then pure n
      else if nodeIsdir n then .fail (- EISDIR)
      else fileResize g n q.size
    let n := n.setE (setTimes q (setMode q n.e))
    nodeSave g n
    .read (fillAttr g ino (some n.e))

end Olux.Fat
