import Olux.Vfs

namespace Olux.Vfs

def O_ACCMODE : UInt32 := 3
def O_RDONLY : UInt32 := 0
def O_WRONLY : UInt32 := 1
def O_RDWR : UInt32 := 2
def O_CREAT : UInt32 := 0o100
def O_EXCL : UInt32 := 0o200
def O_TRUNC : UInt32 := 0o1000
def O_DIRECTORY : UInt32 := 0o40000
def O_NOFOLLOW : UInt32 := 0o100000
def O_PATH : UInt32 := 0o10000000

def FMODE_READ : UInt32 := 1
def FMODE_WRITE : UInt32 := 2

structure Iattr where
  mode : Option UInt32
  uid : Option UInt32
  gid : Option UInt32
  size : Option Int
  atime : Option Time
  mtime : Option Time

-- The operations of the filesystems. `create` makes an inode in a directory, `setattr` is there
-- for the inodes whose filesystem has its own, `openError` is what `open_path` answers for a
-- device, a fifo or a file whose `open` fails, and 0 if it does not.
structure FsOps where
  create : Tree → Nat → Name → UInt32 → Except Int Tree
  setattr : Nat → Option (Inode → Iattr → Except Int Inode)
  openError : Tree → Path → UInt32 → Int
  create_keeps : ∀ {t d n m t'}, create t d n m = .ok t' →
    t.ninodes ≤ t'.ninodes ∧ ∀ i < t.ninodes, i ≠ t.dinode d → t'.inode i = t.inode i

def Tree.setInode (t : Tree) (i : Nat) (n : Inode) : Tree :=
  { t with inode := fun j => if j = i then n else t.inode j }

variable (F : FsOps)

-- Without a `setattr` of its own, a filesystem's inodes keep their size.
def vfsSetattr (t : Tree) (now : Time) (i : Nat) (a : Iattr) : Int × Tree :=
  let n := t.inode i
  if (t.isb i).any t.rdonly then (- EROFS, t)
  else
    match F.setattr i with
    | some setattr =>
      match setattr n a with
      | .error e => (e, t)
      | .ok n' => (0, t.setInode i n')
    | none =>
      if a.size.isSome then (- EPERM, t)
      else
        (0, t.setInode i { n with
          mode := (a.mode.map fun m => (n.mode &&& S_IFMT) ||| (m &&& 0o7777)).getD n.mode
          uid := a.uid.getD n.uid
          gid := a.gid.getD n.gid
          atime := a.atime.getD n.atime
          mtime := a.mtime.getD n.mtime
          ctime := now })

def vfsTruncate (t : Tree) (now : Time) (i : Nat) (len : Int) : Int × Tree :=
  if isDir (t.inode i).mode then (- EISDIR, t)
  else if !isReg (t.inode i).mode then (- EINVAL, t)
  else if len < 0 then (- EINVAL, t)
  else vfsSetattr F t now i ⟨none, none, none, some len, none, some now⟩

def mayCreate (t : Tree) (proc : Proc) (parent : Path) : Int :=
  if t.rdonly parent.mnt then - EROFS
  else if t.dead parent.dentry then - ENOENT
  else permission proc.cred (t.node parent) 3

abbrev Opened := Option (Except Int (Path × Bool)) × Tree × Walk

def openCreate (t : Tree) (proc : Proc) (dirfd : Int) (name : Name) (flags mode : UInt32) : Opened :=
  match pathParentat t proc dirfd name with
  | (none, w) => (none, t, w)
  | (some (.error e), w) => (some (.error e), t, w)
  | (some (.ok (parent, last)), w) =>
    if last = DOT then (some (.error (- EISDIR)), t, w)
    else
      -- `lookup_last`
      let w := w.search
      match t.lookup parent.dentry last with
      | .error e =>
        if e ≠ - ENOENT then (some (.error e), t, w)
        else if mayCreate t proc parent ≠ 0 then (some (.error (mayCreate t proc parent)), t, w)
        else
          match F.create t parent.dentry last (S_IFREG ||| (mode &&& 0o7777 &&& ~~~proc.umask)) with
          | .error e => (some (.error e), t, w)
          | .ok t' =>
            match t'.lookup parent.dentry last with
            | .error e => (some (.error e), t', w)
            | .ok c => (some (.ok (⟨parent.mnt, c⟩, true)), t', w)
      | .ok c =>
        if has flags O_EXCL then (some (.error (- EEXIST)), t, w)
        else
          match mountsOf t ⟨parent.mnt, c⟩ with
          | none => (none, t, w)
          | some ps =>
            let p := ps.getLast?.getD parent
            if isLnk (t.node p).mode then
              if has flags O_NOFOLLOW then (some (.error (- ELOOP)), t, w)
              else
                -- the symlink is resolved from the parent, with a depth of its own
                match walk t proc.cred proc.root last ⟨true, false, false⟩ { w with depth := 0 } with
                | (none, w) => (none, t, w)
                | (some (.error e), w) => (some (.error e), t, w)
                | (some (.ok _), w) => (some (.ok (w.p, false)), t, w)
            else (some (.ok (p, false)), t, w)

def openExisting (t : Tree) (proc : Proc) (dirfd : Int) (name : Name) (flags : UInt32) : Opened :=
  match pathLookupat t proc dirfd name (!has flags O_NOFOLLOW) false with
  | (none, w) => (none, t, w)
  | (some (.error e), w) => (some (.error e), t, w)
  | (some (.ok p), w) =>
    if has flags O_NOFOLLOW && isLnk (t.node p).mode && !has flags O_PATH then (some (.error (- ELOOP)), t, w)
    else (some (.ok (p, false)), t, w)

def openResolve (t : Tree) (proc : Proc) (dirfd : Int) (name : Name) (flags mode : UInt32) : Opened :=
  if has flags O_CREAT then openCreate F t proc dirfd name flags mode
  else openExisting t proc dirfd name flags

def accMask (flags : UInt32) : UInt32 :=
  if flags &&& O_ACCMODE = O_RDONLY then 4 else if flags &&& O_ACCMODE = O_WRONLY then 2 else 6

def openCheck (t : Tree) (proc : Proc) (p : Path) (created : Bool) (flags : UInt32) : Int :=
  let n := t.node p
  if has flags O_DIRECTORY && !isDir n.mode then - ENOTDIR
  else if isDir n.mode && (flags &&& O_ACCMODE ≠ O_RDONLY || has flags O_TRUNC) then - EISDIR
  else if !has flags O_PATH && !created then
    if has (accMask flags) 2 && t.rdonly p.mnt && (isReg n.mode || isDir n.mode) then - EROFS
    else permission proc.cred n (accMask flags)
  else 0

def truncates (t : Tree) (p : Path) (created : Bool) (flags : UInt32) : Bool :=
  has flags O_TRUNC && isReg (t.node p).mode && flags &&& O_ACCMODE ≠ O_RDONLY && !created

def openPath (t : Tree) (p : Path) (flags : UInt32) : Except Int File :=
  let acc := flags &&& O_ACCMODE
  let rd := if acc = O_RDONLY ∨ acc = O_RDWR then FMODE_READ else 0
  let wr := if acc = O_WRONLY ∨ acc = O_RDWR then FMODE_WRITE else 0
  let f : File := ⟨some p, t.dinode p.dentry, if has flags O_PATH then 0 else rd ||| wr⟩
  if !has flags O_PATH && F.openError t p flags ≠ 0 then .error (F.openError t p flags) else .ok f

def openFinish (t : Tree) (proc : Proc) (now : Time) (p : Path) (created : Bool) (flags : UInt32) :
    Except Int File × Tree :=
  if openCheck t proc p created flags ≠ 0 then (.error (openCheck t proc p created flags), t)
  else if truncates t p created flags then
    let (r, t') := vfsTruncate F t now (t.dinode p.dentry) 0
    if r ≠ 0 then (.error r, t') else (openPath F t' p flags, t')
  else (openPath F t p flags, t)

def vfsOpen (t : Tree) (proc : Proc) (now : Time) (dirfd : Int) (name : Name) (flags mode : UInt32) :
    Option (Except Int File) × Tree × Walk :=
  match openResolve F t proc dirfd name flags mode with
  | (none, t', w) => (none, t', w)
  | (some (.error e), t', w) => (some (.error e), t', w)
  | (some (.ok (p, created)), t', w) =>
    let (r, t'') := openFinish F t' proc now p created flags
    (some r, t'', w)

end Olux.Vfs
