import Olux.Vfs.Open

namespace Olux.Vfs

def UTIME_NOW : Int := 2 ^ 30 - 1
def UTIME_OMIT : Int := 2 ^ 30 - 2
def AT_SYMLINK_NOFOLLOW : UInt64 := 0x100

structure St where
  t : Tree
  proc : Proc

-- The calls that can change an inode's attributes, with the strings and times that their user pointers lead to.
inductive Call
  | openat (dfd : Int) (path : Name) (flags mode : UInt32)
  | truncate (path : Name) (len : UInt64)
  | ftruncate (fd : Int) (len : UInt64)
  | fallocate (fd : Int) (mode off len : UInt64)
  | utimensat (dfd : Int) (path : Option Name) (times : Option (Time × Time)) (flags : UInt64)
  | fchmodat (dfd : Int) (path : Name) (mode : UInt32)
  | fchmod (fd : Int) (mode : UInt32)
  | fchownat (dfd : Int) (path : Name) (uid gid : UInt32) (flags : UInt64)
  | fchown (fd : Int) (uid gid : UInt32)

abbrev Answer := Option Int × St

def fdInstall (proc : Proc) (f : File) : Int × Proc :=
  match (List.range proc.maxFds).find? fun n : Nat => (proc.fd n).isNone with
  | none => (- EMFILE, proc)
  | some n => (n, { proc with fd := fun m => if m = n then some f else proc.fd m })

variable (F : FsOps)

variable (now : Time)

def sysOpenat (dfd : Int) (path : Name) (flags mode : UInt32) (s : St) : Answer :=
  match vfsOpen F s.t s.proc now dfd path flags mode with
  | (none, t, _) => (none, { s with t })
  | (some (.error e), t, _) => (some e, { s with t })
  | (some (.ok f), t, _) =>
    let (n, proc) := fdInstall s.proc f
    (some n, ⟨t, proc⟩)

def onFd (s : St) (fd : Int) (act : File → Int × Tree) : Answer :=
  match s.proc.fd fd with
  | none => (some (- EBADF), s)
  | some f => (some (act f).1, { s with t := (act f).2 })

def onPath (s : St) (dfd : Int) (path : Name) (follow : Bool) (act : Nat → Int × Tree) : Answer :=
  match pathLookupat s.t s.proc dfd path follow false with
  | (none, _) => (none, s)
  | (some (.error e), _) => (some e, s)
  | (some (.ok p), _) => (some (act (s.t.dinode p.dentry)).1, { s with t := (act (s.t.dinode p.dentry)).2 })

def ownerSetattr (s : St) (a : Iattr) (i : Nat) : Int × Tree :=
  if s.proc.cred.euid ≠ 0 ∧ s.proc.cred.euid ≠ (s.t.inode i).uid then (- EPERM, s.t)
  else vfsSetattr F s.t now i a

def modeAttr (mode : UInt32) : Iattr := ⟨some mode, none, none, none, none, none⟩

def sysFchmodat (dfd : Int) (path : Name) (mode : UInt32) (s : St) : Answer :=
  onPath s dfd path true (ownerSetattr F now s (modeAttr mode))

def sysFchmod (fd : Int) (mode : UInt32) (s : St) : Answer :=
  onFd s fd fun f => ownerSetattr F now s (modeAttr mode) f.inode

def chownAttr (uid gid : UInt32) : Iattr :=
  let given (id : UInt32) := if id ≠ 0xFFFFFFFF then some id else none
  ⟨none, given uid, given gid, none, none, none⟩

def sysFchownat (dfd : Int) (path : Name) (uid gid : UInt32) (flags : UInt64) (s : St) :
    Answer :=
  if !s.proc.cred.capableRoot then (some (- EPERM), s)
  else onPath s dfd path (flags &&& AT_SYMLINK_NOFOLLOW = 0) (ownerSetattr F now s (chownAttr uid gid))

def sysFchown (fd : Int) (uid gid : UInt32) (s : St) : Answer :=
  if !s.proc.cred.capableRoot then (some (- EPERM), s)
  else onFd s fd fun f => vfsSetattr F s.t now f.inode (chownAttr uid gid)

def timeAttr (now ts : Time) : Option Time :=
  if ts.2 = UTIME_OMIT then none else if ts.2 = UTIME_NOW then some now else some ts

def timesAttr (times : Option (Time × Time)) : Iattr :=
  match times with
  | none => ⟨none, none, none, none, some now, some now⟩
  | some (a, m) => ⟨none, none, none, none, timeAttr now a, timeAttr now m⟩

def sysUtimensat (dfd : Int) (path : Option Name) (times : Option (Time × Time))
    (flags : UInt64) (s : St) : Answer :=
  let act (i : Nat) := vfsSetattr F s.t now i (timesAttr now times)
  match path with
  | none => onFd s dfd fun f => act f.inode
  | some path => onPath s dfd path (flags &&& AT_SYMLINK_NOFOLLOW = 0) act

def sysTruncate (path : Name) (len : UInt64) (s : St) : Answer :=
  onPath s AT_FDCWD path true fun i =>
    if permission s.proc.cred (s.t.inode i) 2 ≠ 0 then (permission s.proc.cred (s.t.inode i) 2, s.t)
    else vfsTruncate F s.t now i len.toInt64.toInt

def sysFtruncate (fd : Int) (len : UInt64) (s : St) : Answer :=
  onFd s fd fun f =>
    if has f.mode FMODE_WRITE then vfsTruncate F s.t now f.inode len.toInt64.toInt else (- EINVAL, s.t)

def sysFallocate (fd : Int) (mode off len : UInt64) (s : St) : Answer :=
  if mode ≠ 0 then (some (- EOPNOTSUPP), s)
  else
    onFd s fd fun f =>
      if (off + len).toInt64.toInt > (s.t.inode f.inode).size then
        vfsTruncate F s.t now f.inode (off + len).toInt64.toInt
      else (0, s.t)

def step (s : St) : Call → Answer
  | .openat dfd path flags mode => sysOpenat F now dfd path flags mode s
  | .truncate path len => sysTruncate F now path len s
  | .ftruncate fd len => sysFtruncate F now fd len s
  | .fallocate fd mode off len => sysFallocate F now fd mode off len s
  | .utimensat dfd path times flags => sysUtimensat F now dfd path times flags s
  | .fchmodat dfd path mode => sysFchmodat F now dfd path mode s
  | .fchmod fd mode => sysFchmod F now fd mode s
  | .fchownat dfd path uid gid flags => sysFchownat F now dfd path uid gid flags s
  | .fchown fd uid gid => sysFchown F now fd uid gid s

def after (s : St) (calls : List (Time × Call)) : St :=
  calls.foldl (fun s c => (step F c.1 s c.2).2) s

end Olux.Vfs
