import Olux.Cred

namespace Olux.Vfs

def MAX_SYMLINKS : Nat := 40

def isDir (m : UInt32) : Bool := m &&& S_IFMT = S_IFDIR
def isLnk (m : UInt32) : Bool := m &&& S_IFMT = S_IFLNK
def isReg (m : UInt32) : Bool := m &&& S_IFMT = S_IFREG

abbrev Time := Int × Int

structure Inode where
  mode : UInt32
  uid : UInt32
  gid : UInt32
  size : Int
  atime : Time
  mtime : Time
  ctime : Time

structure Path where
  mnt : Nat
  dentry : Nat
deriving DecidableEq

abbrev Name := List UInt8

-- The dentries, mounts and links. Dentries and inodes are numbered, mounts in the order they
-- were made. `lookup` is what `d_lookup` finds, from the cache or from the filesystem.
structure Tree where
  dinode : Nat → Nat
  inode : Nat → Inode
  ninodes : Nat
  -- the mount whose superblock an inode is of, if any
  isb : Nat → Option Nat
  parent : Nat → Option Nat
  dead : Nat → Bool
  lookup : Nat → Name → Except Int Nat
  readlink : Nat → Except Int Name
  -- the mount whose superblock a dentry is of
  home : Nat → Nat
  mounted : Nat → Option Nat
  nmounts : Nat
  sbRoot : Nat → Nat
  rdonly : Nat → Bool
  mountpoint : Nat → Nat
  mparent : Nat → Option Nat
  parent_lookup : ∀ {d n c}, lookup d n = .ok c → parent c = some d
  parent_root : ∀ m, parent (sbRoot m) = none
  home_child : ∀ {c d}, parent c = some d → home c = home d
  home_root : ∀ m, home (sbRoot m) = m
  mounted_at : ∀ {d m}, mounted d = some m → mountpoint m = d ∧ mparent m = some (home d) ∧ m < nmounts
  mparent_lt : ∀ {m m'}, mparent m = some m' → m' < m

namespace Tree

variable (t : Tree)

def node (p : Path) : Inode := t.inode (t.dinode p.dentry)

end Tree

def permission (c : Cred) (i : Inode) (mask : UInt32) : Int :=
  if c.euid = 0 then
    if mask &&& 1 ≠ 0 ∧ !isDir i.mode ∧ i.mode &&& 0o111 = 0 then - EACCES else 0
  else
    let bits :=
      if c.euid = i.uid then (i.mode >>> 6) &&& 7
      else if c.egid = i.gid || c.groups.contains i.gid then (i.mode >>> 3) &&& 7
      else i.mode &&& 7
    if bits &&& mask = mask then 0 else - EACCES

structure Walk where
  p : Path
  depth : Nat
  visited : List Path
  searched : List Nat

def Walk.move (w : Walk) (ps : List Path) : Walk :=
  { w with p := ps.getLast?.getD w.p, visited := w.visited ++ ps }

def Walk.peek (w : Walk) (ps : List Path) : Walk := { w with visited := w.visited ++ ps }

def Walk.search (w : Walk) : Walk := { w with searched := w.searched ++ [w.p.dentry] }

def Walk.link (w : Walk) : Walk := { w with depth := w.depth + 1 }

variable (t : Tree)

def followMounts : Nat → Path → Option (List Path)
  | 0, _ => none
  | k + 1, p =>
    match t.mounted p.dentry with
    | some m => (followMounts k ⟨m, t.sbRoot m⟩).map (p :: ·)
    | none => some [p]

def followDotdot (root : Path) : Nat → Path → Option (List Path)
  | 0, _ => none
  | k + 1, p =>
    if p = root then some []
    else if p.dentry ≠ t.sbRoot p.mnt then
      match t.parent p.dentry with
      | some d => some [⟨p.mnt, d⟩]
      | none => some []
    else
      match t.mparent p.mnt with
      | none => some []
      | some m => (followDotdot root k ⟨m, t.mountpoint p.mnt⟩).map (⟨m, t.mountpoint p.mnt⟩ :: ·)

def mountsOf (p : Path) : Option (List Path) := followMounts t (t.nmounts + 1) p

def dotdotOf (root p : Path) : Option (List Path) := followDotdot t root (p.mnt + 1) p

-- `parent` is the mode that stops before the last component (a `last` that is not NULL).
structure Flags where
  follow : Bool
  directory : Bool
  parent : Bool

abbrev Res := Option (Except Int (Option Name))

def DOT : Name := [46]
def DOTDOT : Name := [46, 46]

def components (name : Name) : List Name := (name.splitOn 47).filter (· ≠ [])

def trailingSlash (name : Name) : Bool := name.getLast? = some 47

def startAt (root : Path) (name : Name) (w : Walk) : Walk := if name.head? = some 47 then w.move [root] else w

-- The loop of `walk` over the components of a path. `self` is the walker for what comes
-- behind a symbolic link: the link's target, and then the rest of the path. `depth` counts
-- the links that are followed.
def walkComps (cred : Cred) (root : Path) (self : List Name → Bool → Flags → Walk → Res × Walk) :
    List Name → Bool → Flags → Walk → Res × Walk
  | [], _, fl, w =>
    if fl.directory && !isDir (t.node w.p).mode then (some (.error (- ENOTDIR)), w)
    else (some (.ok (if fl.parent then some DOT else none)), w)
  | comp :: rest, trailing, fl, w =>
    let isLast := rest.isEmpty
    let slash := !isLast || trailing
    if comp.length > NAME_MAX then (some (.error (- ENAMETOOLONG)), w)
    else if !isDir (t.node w.p).mode then (some (.error (- ENOTDIR)), w)
    else if fl.parent && isLast then
      if comp = DOT then (some (.ok (some DOT)), w)
      else if comp = DOTDOT then
        match dotdotOf t root w.p with
        | none => (none, w)
        | some ps => (some (.ok (some DOT)), w.move ps)
      else (some (.ok (some comp)), w)
    else if permission cred (t.node w.p) 1 ≠ 0 then (some (.error (permission cred (t.node w.p) 1)), w)
    else if comp = DOT then walkComps cred root self rest trailing fl w.search
    else if comp = DOTDOT then
      match dotdotOf t root w.p with
      | none => (none, w.search)
      | some ps => walkComps cred root self rest trailing fl (w.search.move ps)
    else
      match t.lookup w.p.dentry comp with
      | .error e => (some (.error e), w.search)
      | .ok c =>
        match mountsOf t ⟨w.p.mnt, c⟩ with
        | none => (none, w.search)
        | some ps =>
          let next := (w.search.move ps).p
          if isLnk (t.node next).mode && (!isLast || fl.follow || slash) then
            -- the link is only looked at: the walk stays in the directory that holds it
            let w := w.search.peek ps
            if w.depth + 1 > MAX_SYMLINKS then (some (.error (- ELOOP)), w)
            else
              match t.readlink (t.dinode next.dentry) with
              | .error e => (some (.error e), w)
              | .ok target =>
                let target := target.takeWhile (· ≠ 0)
                match self (components target) (trailingSlash target) ⟨true, false, false⟩
                    (startAt root target w.link) with
                | (some (.ok _), w) =>
                  if isLast && slash && !isDir (t.node w.p).mode then (some (.error (- ENOTDIR)), w)
                  else self rest trailing fl w
                | r => r
          else if isLast && slash && !isDir (t.node next).mode then
            (some (.error (- ENOTDIR)), w.search.move ps)
          else walkComps cred root self rest trailing fl (w.search.move ps)

-- The name that a walk with `parent` stops at: ".", and ".." as well, are given out as ".".
def lastComp (comps : List Name) : Name :=
  match comps.getLast? with
  | none => DOT
  | some c => if c = DOT ∨ c = DOTDOT then DOT else c

def walkLinks (cred : Cred) (root : Path) : Nat → List Name → Bool → Flags → Walk → Res × Walk
  | 0 => walkComps t cred root fun _ _ _ w => (none, w)
  | n + 1 => walkComps t cred root (walkLinks cred root n)

def walk (cred : Cred) (root : Path) (name : Name) (fl : Flags) (w : Walk) : Res × Walk :=
  walkLinks t cred root MAX_SYMLINKS (components name) (trailingSlash name) fl (startAt root name w)

def AT_FDCWD : Int := -100

-- An open file: a pipe or a socket has no path.
structure File where
  path : Option Path
  inode : Nat
  mode : UInt32

structure Proc where
  cred : Cred
  root : Path
  cwd : Path
  umask : UInt32
  maxFds : Nat
  fd : Int → Option File

variable (proc : Proc)

def startPath (dirfd : Int) (name : Name) : Except Int Path :=
  if name.head? = some 47 then .ok proc.root
  else if dirfd = AT_FDCWD then .ok proc.cwd
  else
    match proc.fd dirfd with
    | none => .error (- EBADF)
    | some f =>
      match f.path with
      | none => .error (- ENOTDIR)
      | some p => if isDir (t.inode f.inode).mode then .ok p else .error (- ENOTDIR)

def Walk.start (p : Path) : Walk := ⟨p, 0, [p], []⟩

def pathLookupat (dirfd : Int) (name : Name) (follow directory : Bool) : Option (Except Int Path) × Walk :=
  if name = [] then (some (.error (- ENOENT)), Walk.start proc.root)
  else
    match startPath t proc dirfd name with
    | .error e => (some (.error e), Walk.start proc.root)
    | .ok p =>
      match walk t proc.cred proc.root name ⟨follow, directory, false⟩ (Walk.start p) with
      | (none, w) => (none, w)
      | (some (.error e), w) => (some (.error e), w)
      | (some (.ok _), w) => (some (.ok w.p), w)

def pathParentat (dirfd : Int) (name : Name) : Option (Except Int (Path × Name)) × Walk :=
  if name = [] then (some (.error (- ENOENT)), Walk.start proc.root)
  else
    match startPath t proc dirfd name with
    | .error e => (some (.error e), Walk.start proc.root)
    | .ok p =>
      match walk t proc.cred proc.root name ⟨true, false, true⟩ (Walk.start p) with
      | (none, w) => (none, w)
      | (some (.error e), w) => (some (.error e), w)
      | (some (.ok last), w) =>
        if isDir (t.node w.p).mode then (some (.ok (w.p, last.getD [])), w)
        else (some (.error (- ENOTDIR)), w)

end Olux.Vfs
