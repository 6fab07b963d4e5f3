import Olux.Fat.Entry
import Olux.Fat.Time

namespace Olux.Fat

open Olux.Lib

def ROOT_INO : Nat := 1
def POS_FLAG : Nat := 2 ^ 62
def NT_MAX : Nat := 65536

structure Loc where
  dclus : Nat
  idx : Nat
deriving DecidableEq

def ntFind (nt : List Nent) (ino : Nat) : Option Loc :=
  (nt.find? fun e => e.ino = ino).map fun e => ⟨e.dclus, e.idx⟩

def ntSet (ino : Nat) (p : Loc) (s : St) : St :=
  if (ntFind s.nt ino).isSome then
    { s with nt := s.nt.map fun e => if e.ino = ino then ⟨ino, p.dclus, p.idx⟩ else e }
  else { s with nt := ⟨ino, p.dclus, p.idx⟩ :: if s.nt.length ≥ NT_MAX then [] else s.nt }

def ntRelocate (o : Loc) (n : Option Loc) (s : St) : St :=
  { s with
    nt := s.nt.filterMap fun e =>
      if e.dclus = o.dclus ∧ e.idx = o.idx then n.map fun p => ⟨e.ino, p.dclus, p.idx⟩ else some e }

variable (g : Geom)

-- Slots are numbered below 2^16 and clusters below 2^30, so that the sum is the source's `|`.
def inoOf (p : Loc) (e : De) : Nat :=
  if valid g (deStart g e) then deStart g e else POS_FLAG + p.dclus * 2 ^ 16 + p.idx

def scanDir (c : Nat) : List De → Nat → List Nat → List Nat → Option Nat × List Nat × List Nat
  | [], _, q, seen => (none, q, seen)
  | e :: es, i, q, seen =>
    if lead e.name = 0 then (none, q, seen)
    else if !live e then scanDir c es (i + 1) q seen
    else if deStart g e = c then (some i, q, seen)
    else if e.isDir && valid g (deStart g e) && !seen.contains (deStart g e) then
      scanDir c es (i + 1) (q ++ [deStart g e]) (deStart g e :: seen)
    else scanDir c es (i + 1) q seen

def scanLoop (c : Nat) (s : St) : Nat → List Nat → List Nat → Except Int Loc
  | 0, _, _ => .error (- ESTALE)
  | _ + 1, [], _ => .error (- ESTALE)
  | k + 1, dc :: q, seen =>
    match dirLoad g dc s with
    | .error _ => scanLoop c s k q seen
    | .ok d =>
      match scanDir g c d.e 0 q seen with
      | (some i, _, _) => .ok ⟨dc, i⟩
      | (none, q, seen) => scanLoop c s k q seen

-- The entry that owns cluster `c`, found by walking the tree. No directory is queued twice.
def scanFor (c : Nat) (s : St) : Except Int Loc := scanLoop g c s (g.nclus + 2) [rootClus g] []

structure Node where
  ino : Nat
  root : Bool
  loc : Loc
  d : Dir

namespace Node

def e (n : Node) : De := n.d.e.getD n.loc.idx De.zero

def setE (n : Node) (e : De) : Node := { n with d := { n.d with e := n.d.e.set n.loc.idx e } }

end Node

def nodeLoc (ino : Nat) : Prog St Int Loc := do
  match ← .read fun s => ntFind s.nt ino with
  | some p => pure p
  | none =>
    if ino / 2 ^ 62 % 2 = 1 then pure ⟨ino / 2 ^ 16 % 2 ^ 28, ino % 2 ^ 16⟩
    else if ino < 2 ^ 32 ∧ valid g ino then do
      let p ← .query (scanFor g ino)
      .update (ntSet ino p)
      pure p
    else .fail (- ESTALE)

def nodeGet (ino : Nat) : Prog St Int Node :=
  if ino = ROOT_INO then pure ⟨ino, true, ⟨0, 0⟩, ⟨0, [], []⟩⟩
  else do
    let p ← nodeLoc g ino
    let d ← .query (dirLoad g p.dclus)
    if p.idx ≥ d.e.length ∨ !live (d.e.getD p.idx De.zero) then .fail (- ESTALE)
    else pure ⟨ino, false, p, d⟩

def nodeSave (n : Node) : Prog St Int Unit := dirWrite g n.d n.loc.idx (n.loc.idx + 1)

def nodeIsdir (n : Node) : Bool := n.root || n.e.isDir

def nodeDirclus (n : Node) : Nat := if n.root then rootClus g else deStart g n.e

def openDir (ino : Nat) : Prog St Int Dir := do
  let n ← nodeGet g ino
  if !nodeIsdir n then .fail (- ENOTDIR) else .query (dirLoad g (nodeDirclus g n))

structure Attr where
  ino : Nat
  mode : UInt32
  nlink : Nat
  size : Nat
  blocks : Nat
  atime : Int
  mtime : Int
  ctime : Int

def fillAttr (ino : Nat) (e : Option De) (s : St) : Attr :=
  let size := match e with
    | none => if g.type = .fat32 then chainLen g s g.rootClus * g.cs else g.rootBytes
    | some e => if e.isDir then chainLen g s (deStart g e) * g.cs else e.size.toNat
  let isdir := match e with
    | none => true
    | some e => e.isDir
  let readonly := g.ro || match e with
    | none => false
    | some e => e.attr &&& A_RO ≠ 0
  let mode := (if isdir then S_IFDIR else S_IFREG) ||| 0o755
  let mtime := (e.map fun e => fatToUnix e.mdate e.mtime).getD 0
  { ino, size, mtime
    mode := if readonly then mode &&& ~~~0o222 else mode
    nlink := if isdir then 2 else 1
    blocks := (size + 511) / 512
    atime := (e.map fun e => if e.adate ≠ 0 then fatToUnix e.adate 0 else mtime).getD 0
    ctime := (e.map fun e => if e.cdate ≠ 0 then fatToUnix e.cdate e.ctime else mtime).getD 0 }

end Olux.Fat
