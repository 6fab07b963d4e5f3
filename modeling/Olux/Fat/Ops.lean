import Olux.Fat.Node

namespace Olux.Fat

open Olux.Lib

def MAX_FILE : Nat := 0xFFFFFFFF

def UFS_ATTR_MODE : UInt32 := 1
def UFS_ATTR_UID : UInt32 := 2
def UFS_ATTR_GID : UInt32 := 4
def UFS_ATTR_SIZE : UInt32 := 8
def UFS_ATTR_ATIME : UInt32 := 16
def UFS_ATTR_MTIME : UInt32 := 32

variable (g : Geom)

def clustersFor (bytes : Nat) : Nat := (bytes + g.cs - 1) / g.cs

def clustersFor32 (bytes : Nat) : Nat := (bytes + g.cs - 1) % 2 ^ 32 / g.cs

def writeLoop (start : Nat) : Nat → Nat → List UInt8 → Prog St Int Unit
  | 0, _, _ => pure ()
  | k + 1, off, buf =>
    if buf = [] then pure ()
    else do
      let c ← .act (nthCluster g start (off / g.cs))
      if c = 0 then .fail (- EIO)
      else do
        let co := off % g.cs
        let chunk := min (g.cs - co) buf.length
        devWrite g (clusOff g c + co) (buf.take chunk)
        writeLoop start k (off + chunk) (buf.drop chunk)

-- Writes `buf` at `off`; a NULL buffer of the source is one of zeros. A step writes a byte at least.
def writeRange (start off : Nat) (buf : List UInt8) : Prog St Int Unit := writeLoop g start buf.length off buf

def firstError {α : Type} (r : Except Int α) (f : Except Int Unit) : Except Int α :=
  match r, f with
  | .error e, _ => .error e
  | .ok _, .error e => .error e
  | .ok a, .ok () => .ok a

def saveFile (n : Node) (e : De) (start : Nat) (r : Except Int Unit) : Prog St Int Node := do
  let e := deSetStart g e start
  if valid g start then .update (ntSet start n.loc) else pure ()
  let e ← .act (touch e true)
  let n := n.setE e
  let w ← .attempt (nodeSave g n)
  let f ← .attempt (fatFlush g)
  .query fun _ => (firstError r (firstError w f)).map fun _ => n

def fileResize (n : Node) (size : Nat) : Prog St Int Node :=
  let old := n.e.size.toNat
  let start := deStart g n.e
  let need := clustersFor g size
  if size > MAX_FILE then .fail (- EFBIG)
  else if size > old then do
    let grown ← .act fun s => let r := chainGrow g start need s; ((r.1, r.2.1), r.2.2)
    if grown.1 < need then do
      let start ← .act (chainTrim g grown.2 (clustersFor32 g old))
      saveFile g n n.e start (.error (- ENOSPC))
    else do
      let r ← .attempt (writeRange g grown.2 old (List.replicate (size - old) 0))
      saveFile g n (if r.isOk then { n.e with size := UInt32.ofNat size } else n.e) grown.2 r
  else do
    let start ← .act (chainTrim g start need)
    saveFile g n { n.e with size := UInt32.ofNat size } start (.ok ())

structure Found where
  loc : Loc
  attr : Attr

def opLookup (dino : Nat) (name : List UInt8) : Prog St Int Found := do
  let d ← openDir g dino
  match dirFind d name with
  | none => .fail (- ENOENT)
  | some e => do
    let p : Loc := ⟨d.clus, e.idx⟩
    let de := d.e.getD e.idx De.zero
    .update (ntSet (inoOf g p de) p)
    let a ← .read (fillAttr g (inoOf g p de) (some de))
    pure ⟨p, a⟩

def readLoop (start off len : Nat) : Nat → List UInt8 → Prog St Int (List UInt8)
  | 0, buf => pure buf
  | k + 1, buf =>
    if buf.length < len then do
      let c ← .act (nthCluster g start ((off + buf.length) / g.cs))
      if c = 0 then pure buf
      else do
        let co := (off + buf.length) % g.cs
        let chunk := min (g.cs - co) (len - buf.length)
        let part ← .read fun s => bytesAt s.dev (clusOff g c + co) chunk
        readLoop start off len k (buf ++ part)
    else pure buf

def opRead (ino off len : Nat) : Prog St Int (List UInt8 × Attr) := do
  let n ← nodeGet g ino
  if nodeIsdir n then .fail (- EISDIR)
  else do
    let size := n.e.size.toNat
    let a ← .read (fillAttr g ino (some n.e))
    if off ≥ size then pure ([], a)
    else do
      let len := min len (size - off)
      let buf ← readLoop g (deStart g n.e) off len len []
      pure (buf, a)

def writeFile (n : Node) (off : Nat) (buf : List UInt8) (start : Nat) : Prog St Int (Nat × Attr) := do
  let size := n.e.size.toNat
  let stop := off + buf.length
  let r ← .attempt (do
    if off > size then writeRange g start size (List.replicate (off - size) 0) else pure ()
    writeRange g start off buf)
  let n ← saveFile g n (if r.isOk ∧ stop > size then { n.e with size := UInt32.ofNat stop } else n.e) start r
  let a ← .read (fillAttr g n.ino (some n.e))
  pure (buf.length, a)

def opWrite (ino off : Nat) (buf : List UInt8) : Prog St Int (Nat × Attr) :=
  if g.ro then .fail (- EROFS)
  else do
    let n ← nodeGet g ino
    if nodeIsdir n then .fail (- EISDIR)
    else if n.e.attr &&& A_RO ≠ 0 then .fail (- EACCES)
    else if off ≥ MAX_FILE then .fail (- EFBIG)
    else do
      let buf := buf.take (MAX_FILE - off)
      let stop := off + buf.length
      let grown ← .act fun s =>
        let r := chainGrow g (deStart g n.e) (clustersFor g stop) s; ((r.1, r.2.1), r.2.2)
      if grown.1 * g.cs < stop then
        if grown.1 * g.cs ≤ off then do
          let _ ← .act (chainTrim g grown.2 (clustersFor32 g n.e.size.toNat))
          let _ ← .attempt (fatFlush g)
          .fail (- ENOSPC)
        else writeFile g n off (buf.take (grown.1 * g.cs - off)) grown.2
      else writeFile g n off buf grown.2

end Olux.Fat
