import Olux.Vfs

namespace Olux.Dcache

open Vfs (Name DOT components lastComp)

structure Node where
  dir : Bool
  nlink : Int
  parent : Nat

structure Ent where
  dir : Nat
  name : Name
  ino : Nat
deriving DecidableEq

-- A tmpfs: the inodes below `next`, 0 the root, and the entries of all directories; those of
-- one directory are in the order of its list.
structure Fs where
  node : Nat → Node
  next : Nat
  entries : List Ent

def Ent.at (d : Nat) (name : Name) (e : Ent) : Bool := e.dir = d ∧ e.name = name

variable (fs : Fs)

def findEntry (d : Nat) (name : Name) : Option Ent := fs.entries.find? (Ent.at d name)

def addEntry (d : Nat) (name : Name) (i : Nat) : Fs := { fs with entries := fs.entries ++ [⟨d, name, i⟩] }

def removeEntry (d : Nat) (name : Name) : Fs := { fs with entries := fs.entries.eraseP (Ent.at d name) }

def setNode (i : Nat) (n : Node) : Fs := { fs with node := Function.update fs.node i n }

def addLinks (i : Nat) (k : Int) : Fs := setNode fs i { fs.node i with nlink := (fs.node i).nlink + k }

def tmpfsCreate (d : Nat) (name : Name) : Fs :=
  addEntry { setNode fs fs.next ⟨false, 1, 0⟩ with next := fs.next + 1 } d name fs.next

def tmpfsMkdir (d : Nat) (name : Name) : Fs :=
  addLinks (addEntry { setNode fs fs.next ⟨true, 2, d⟩ with next := fs.next + 1 } d name fs.next) d 1

def tmpfsLink (d : Nat) (name : Name) (target : Nat) : Fs := addLinks (addEntry fs d name target) target 1

def tmpfsUnlink (d : Nat) (name : Name) (victim : Nat) : Except Int Fs :=
  match findEntry fs d name with
  | none => .error (- ENOENT)
  | some _ => .ok (removeEntry (addLinks fs victim (-1)) d name)

def emptyDir (d : Nat) : Bool := !fs.entries.any (·.dir = d)

def detachDir (d : Nat) (name : Name) (victim : Nat) : Fs :=
  removeEntry (addLinks (setNode fs victim { fs.node victim with nlink := 0 }) d (-1)) d name

def tmpfsRmdir (d : Nat) (name : Name) (victim : Nat) : Except Int Fs :=
  if !emptyDir fs victim then .error (- ENOTEMPTY)
  else
    match findEntry fs d name with
    | none => .error (- ENOENT)
    | some _ => .ok (detachDir fs d name victim)

def moveEntry (od : Nat) (oname : Name) (nd : Nat) (nname : Name) (victim : Nat) : Fs :=
  let fs := addEntry fs nd nname victim
  let fs :=
    if (fs.node victim).dir ∧ od ≠ nd then
      let fs := addLinks (addLinks fs od (-1)) nd 1
      setNode fs victim { fs.node victim with parent := nd }
    else fs
  removeEntry fs od oname

def tmpfsRename (od : Nat) (oname : Name) (nd : Nat) (nname : Name) (victim : Nat) (target : Option Nat) :
    Except Int Fs :=
  match findEntry fs od oname with
  | none => .error (- ENOENT)
  | some _ =>
    match target with
    | none => .ok (moveEntry fs od oname nd nname victim)
    | some t =>
      if (fs.node t).dir ∧ !emptyDir fs t then .error (- ENOTEMPTY)
      else
        match findEntry fs nd nname with
        | none => .ok (moveEntry fs od oname nd nname victim)
        | some _ =>
          let fs :=
            if (fs.node t).dir then detachDir fs nd nname t
            else removeEntry (addLinks fs t (-1)) nd nname
          .ok (moveEntry fs od oname nd nname victim)

-- `linked`: whether the dentry is in the list of its parent's children.
structure Dentry where
  name : Name
  ino : Nat
  parent : Option Nat
  linked : Bool
  dead : Bool
  ref : Nat

-- The dentries, `alive` those that are allocated, the latest first: so are the children of
-- each in its list.
structure Dc where
  dent : Nat → Dentry
  alive : List Nat
  next : Nat

def Dc.set (dc : Dc) (d : Nat) (x : Dentry) : Dc := { dc with dent := Function.update dc.dent d x }

def dGet (d : Nat) (dc : Dc) : Dc := dc.set d { dc.dent d with ref := (dc.dent d).ref + 1 }

def dAlloc (parent : Nat) (name : Name) (ino : Nat) (dc : Dc) : Dc :=
  dGet parent { (dc.set dc.next ⟨name, ino, some parent, true, false, 1⟩) with
    alive := dc.next :: dc.alive, next := dc.next + 1 }

-- The loop of `d_put`; it ends at a dentry that is still referenced.
def dPut : Nat → Nat → Dc → Dc
  | 0, _, dc => dc
  | fuel + 1, d, dc =>
    if (dc.dent d).ref - 1 = 0 then
      let dc' := { dc with alive := dc.alive.erase d }
      match (dc.dent d).parent with
      | some p => dPut fuel p dc'
      | none => dc'
    else dc.set d { dc.dent d with ref := (dc.dent d).ref - 1 }

def dDrop (d : Nat) (dc : Dc) : Dc := dc.set d { dc.dent d with linked := false, dead := true }

def dCached (dc : Dc) (dir : Nat) (name : Name) : Option Nat :=
  dc.alive.find? fun c => (dc.dent c).linked ∧ (dc.dent c).parent = some dir ∧ (dc.dent c).name = name

def dMove (d np : Nat) (name : Name) (dc : Dc) : Dc :=
  { (dGet np (dc.set d { dc.dent d with parent := some np, name })) with alive := d :: dc.alive.erase d }

def isAncestor (dc : Dc) (a : Nat) : Nat → Nat → Bool
  | 0, _ => false
  | fuel + 1, d => d = a ||
      match (dc.dent d).parent with
      | some p => isAncestor dc a fuel p
      | none => false

structure State where
  fs : Fs
  dc : Dc
  held : List Nat

def State.start : State where
  fs := ⟨fun _ => ⟨true, 2, 0⟩, 1, []⟩
  dc := ⟨fun _ => ⟨[], 0, none, false, false, 1⟩, [0], 1⟩
  held := []

def State.put (d : Nat) (s : State) : State :=
  { s with dc := dPut (s.dc.alive.length + 1) d s.dc, held := s.held.erase d }

def State.get (d : Nat) (s : State) : State := { s with dc := dGet d s.dc, held := d :: s.held }

def dLookup (dir : Nat) (name : Name) (s : State) : Option Nat × State :=
  match dCached s.dc dir name with
  | some c => (some c, s.get c)
  | none =>
    match findEntry s.fs (s.dc.dent dir).ino name with
    | some e => (some s.dc.next, { s with dc := dAlloc dir name e.ino s.dc, held := s.dc.next :: s.held })
    | none => (none, s)

-- What `walk` puts into `last` when it is asked for the parent: the last component, and "." for
-- ".", ".." and a path of slashes only.
def lastOf (path : Name) : Name := lastComp (components path)

def mayCreate (s : State) (parent : Nat) (perm : Int) : Int := if (s.dc.dent parent).dead then - ENOENT else perm

def vfsCreate (parent : Nat) (path : Name) (perm : Int) (make : Fs → Nat → Name → Fs) (s : State) : Int × State :=
  if lastOf path = DOT then (- EEXIST, s)
  else
    match dLookup parent (lastOf path) s with
    | (some d, s) => (- EEXIST, s.put d)
    | (none, s) =>
      if mayCreate s parent perm ≠ 0 then (mayCreate s parent perm, s)
      else (0, { s with fs := make s.fs (s.dc.dent parent).ino (lastOf path) })

-- `vfs_link` does not ask for ".".
def vfsLink (target parent : Nat) (path : Name) (perm : Int) (s : State) : Int × State :=
  if (s.fs.node (s.dc.dent target).ino).dir then (- EPERM, s)
  else
    match dLookup parent (lastOf path) s with
    | (some d, s) => (- EEXIST, s.put d)
    | (none, s) =>
      if mayCreate s parent perm ≠ 0 then (mayCreate s parent perm, s)
      else (0, { s with fs := tmpfsLink s.fs (s.dc.dent parent).ino (lastOf path) (s.dc.dent target).ino })

def vfsRemove (parent : Nat) (path : Name) (perm : Int) (dir : Bool) (dot wrong : Int)
    (remove : Fs → Nat → Name → Nat → Except Int Fs) (s : State) : Int × State :=
  if lastOf path = DOT then (dot, s)
  else
    match dLookup parent (lastOf path) s with
    | (none, s) => (- ENOENT, s)
    | (some d, s) =>
      if (s.fs.node (s.dc.dent d).ino).dir ≠ dir then (wrong, s.put d)
      else if mayCreate s parent perm ≠ 0 then (mayCreate s parent perm, s.put d)
      else
        match remove s.fs (s.dc.dent parent).ino (lastOf path) (s.dc.dent d).ino with
        | .error r => (r, s.put d)
        | .ok fs => (0, { s with fs, dc := dDrop d s.dc }.put d)

def vfsUnlink (parent : Nat) (path : Name) (perm : Int) (s : State) : Int × State :=
  vfsRemove parent path perm false (- EISDIR) (- EISDIR) tmpfsUnlink s

def vfsRmdir (parent : Nat) (path : Name) (perm : Int) (s : State) : Int × State :=
  vfsRemove parent path perm true (- EINVAL) (- ENOTDIR) tmpfsRmdir s

def renameDentries (op np : Nat) (oname nname : Name) (od : Nat) (nd : Option Nat) (s : State) : Int × State :=
  let odir := (s.fs.node (s.dc.dent od).ino).dir
  if nd = some od then (0, s)
  else if odir ∧ isAncestor s.dc od (s.dc.alive.length + 1) np then (- EINVAL, s)
  else if ∃ n ∈ nd, odir ∧ !(s.fs.node (s.dc.dent n).ino).dir then (- ENOTDIR, s)
  else if ∃ n ∈ nd, !odir ∧ (s.fs.node (s.dc.dent n).ino).dir then (- EISDIR, s)
  else
    match tmpfsRename s.fs (s.dc.dent op).ino oname (s.dc.dent np).ino nname (s.dc.dent od).ino
        (nd.map fun n => (s.dc.dent n).ino) with
    | .error r => (r, s)
    | .ok fs =>
      let dc := match nd with
        | some n => dDrop n s.dc
        | none => s.dc
      let old := (dc.dent od).parent
      let s := { s with fs, dc := dMove od np nname dc }
      -- the reference that the dentry had to its old parent
      (0, match old with
        | some p => { s with held := p :: s.held }.put p
        | none => s)

def vfsRename (op : Nat) (old : Name) (np : Nat) (new : Name) (perm perm' : Int) (s : State) : Int × State :=
  if lastOf old = DOT ∨ lastOf new = DOT then (- EBUSY, s)
  else
    match dLookup op (lastOf old) s with
    | (none, s) => (- ENOENT, s)
    | (some od, s) =>
      if mayCreate s op perm ≠ 0 then (mayCreate s op perm, s.put od)
      else if mayCreate s np perm' ≠ 0 then (mayCreate s np perm', s.put od)
      else
        match dLookup np (lastOf new) s with
        | (none, s) =>
          let (r, s) := renameDentries op np (lastOf old) (lastOf new) od none s
          (r, s.put od)
        | (some nd, s) =>
          let (r, s) := renameDentries op np (lastOf old) (lastOf new) od (some nd) s
          (r, (s.put od).put nd)

inductive Event where
  | root
  | lookup (dir : Nat) (name : Name)
  | dotdot (dir : Nat)
  | get (d : Nat)
  | put (d : Nat)
  | create (parent : Nat) (path : Name) (perm : Int)
  | mkdir (parent : Nat) (path : Name) (perm : Int)
  | link (target parent : Nat) (path : Name) (perm : Int)
  | unlink (parent : Nat) (path : Name) (perm : Int)
  | rmdir (parent : Nat) (path : Name) (perm : Int)
  | rename (op : Nat) (old : Name) (np : Nat) (new : Name) (perm perm' : Int)

def Event.uses : Event → List Nat
  | .root => []
  | .lookup d _ | .dotdot d | .get d | .put d => [d]
  | .create p _ _ | .mkdir p _ _ | .unlink p _ _ | .rmdir p _ _ => [p]
  | .link t p _ _ => [t, p]
  | .rename op _ np _ _ _ => [op, np]

def Event.act (s : State) : Event → State
  | .root => s.get 0
  | .lookup d name => if (s.fs.node (s.dc.dent d).ino).dir then (dLookup d name s).2 else s
  | .dotdot d =>
    match (s.dc.dent d).parent with
    | some p => s.get p
    | none => s
  | .get d => s.get d
  | .put d => s.put d
  | .create p path perm => (vfsCreate p path perm tmpfsCreate s).2
  | .mkdir p path perm => (vfsCreate p path perm tmpfsMkdir s).2
  | .link t p path perm => (vfsLink t p path perm s).2
  | .unlink p path perm => (vfsUnlink p path perm s).2
  | .rmdir p path perm => (vfsRmdir p path perm s).2
  | .rename op old np new perm perm' => (vfsRename op old np new perm perm' s).2

-- `path_parentat` fails for an empty path and a component that is too long, and returns
-- directories only.
def parentFor (s : State) (p : Nat) (path : Name) : Bool :=
  path ≠ [] ∧ (components path).all (·.length ≤ NAME_MAX) ∧ (s.fs.node (s.dc.dent p).ino).dir

def Event.fits (s : State) : Event → Bool
  | .create p path _ | .mkdir p path _ | .unlink p path _ | .rmdir p path _ | .link _ p path _ => parentFor s p path
  | .rename op old np new _ _ => parentFor s op old && parentFor s np new
  | _ => true

def step (s : State) (ev : Event) : State := if ev.uses ⊆ s.held ∧ ev.fits s then ev.act s else s

def run (s : State) (evs : List Event) : State := evs.foldl step s

end Olux.Dcache
