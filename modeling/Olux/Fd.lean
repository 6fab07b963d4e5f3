import Olux.Basic
import Olux.Lib.Word

namespace Olux.Fd

open Olux.Lib

def O_WRONLY : UInt32 := 0o1
def O_RDWR : UInt32 := 0o2
def O_ACCMODE : UInt32 := 0o3
def O_APPEND : UInt32 := 0o2000
def O_NONBLOCK : UInt32 := 0o4000
def O_ASYNC : UInt32 := 0o20000
def O_DIRECT : UInt32 := 0o200000
def O_NOATIME : UInt32 := 0o1000000
def O_CLOEXEC : UInt64 := 0o2000000

def FMODE_READ : UInt32 := 1
def FMODE_WRITE : UInt32 := 2

def F_DUPFD : UInt64 := 0
def F_GETFD : UInt64 := 1
def F_SETFD : UInt64 := 2
def F_GETFL : UInt64 := 3
def F_SETFL : UInt64 := 4
def F_GETLK : UInt64 := 5
def F_SETLK : UInt64 := 6
def F_SETLKW : UInt64 := 7
def F_SETOWN : UInt64 := 8
def F_GETOWN : UInt64 := 9
def F_DUPFD_CLOEXEC : UInt64 := 1030
def F_GETPIPE_SZ : UInt64 := 1032
def FD_CLOEXEC : UInt64 := 1
def FIONCLEX : UInt32 := 0x5450
def FIOCLEX : UInt32 := 0x5451
def FIONBIO : UInt32 := 0x5421
def FIOASYNC : UInt32 := 0x5452

inductive Fault where
  | fd (index : Nat)
  | cloexec (word : Nat)

structure File where
  refcount : Int
  flags : UInt32
  mode : UInt32
  hasIoctl : Bool

-- `struct fdtable`.
structure FdTable where
  max : Nat
  max_lt : max < 2 ^ 31
  fd : Nat → Option Nat
  cloexec : Nat → UInt64

def FdTable.words (t : FdTable) : Nat := (t.max + 63) / 64

-- The current process: its table, `RLIMIT_NOFILE`, the open files by number, and
-- the outcomes of the user copies and of the files' own ioctl handlers.
structure Task where
  files : FdTable
  nofile : UInt64
  file : Nat → File
  copyOk : UInt64 → Bool
  userWord : UInt64 → UInt32
  fileIoctl : Nat → UInt32 → UInt64 → Int

-- An access outside its array ends the run: what follows is undefined.
abbrev M := StateT Task (Except Fault)

def readFd (i : Nat) : M (Option Nat) := do
  let s ← get
  if i < s.files.max then return s.files.fd i else throw (.fd i)

def writeFd (i : Nat) (f : Option Nat) : M Unit := do
  let s ← get
  if i < s.files.max then
    set { s with files := { s.files with fd := Function.update s.files.fd i f } }
  else throw (.fd i)

def readCloexec (w : Nat) : M UInt64 := do
  let s ← get
  if w < s.files.words then return s.files.cloexec w else throw (.cloexec w)

def writeCloexec (w : Nat) (v : UInt64) : M Unit := do
  let s ← get
  if w < s.files.words then
    set { s with files := { s.files with cloexec := Function.update s.files.cloexec w v } }
  else throw (.cloexec w)

-- `t->cloexec[i / 64] |= 1UL << (i % 64)`, or the same with `&= ~`.
def cloexecBit (old : UInt64) (i : Nat) (on : Bool) : UInt64 :=
  let bit : UInt64 := 1 <<< UInt64.ofNat (i % 64)
  if on then old ||| bit else old &&& ~~~bit

def setCloexec (i : Nat) (on : Bool) : M Unit := do
  let old ← readCloexec (i / 64)
  writeCloexec (i / 64) (cloexecBit old i on)

variable (f : Nat)

def modifyFile (g : File → File) : M Unit :=
  modify fun s => { s with file := Function.update s.file f (g (s.file f)) }

def fileGet : M Unit := modifyFile f fun x => { x with refcount := x.refcount + 1 }

def filePut : M Unit := modifyFile f fun x => { x with refcount := x.refcount - 1 }

def fget (fd : Int) : M (Option Nat) := do
  let s ← get
  if fd < 0 ∨ (s.files.max : Int) ≤ fd then return none
  match ← readFd fd.toNat with
  | none => return none
  | some f =>
    fileGet f
    readFd fd.toNat

def fdInstallFrom (f : Nat) (cloexec : Bool) : Nat → Nat → M Int
  | _, 0 => return -EMFILE
  | i, n + 1 => do
    match ← readFd i with
    | some _ => fdInstallFrom f cloexec (i + 1) n
    | none =>
      writeFd i (some f)
      setCloexec i cloexec
      return i

def fdInstall (minFd : Int) (cloexec : Bool) : M Int := do
  let s ← get
  let limit := if s.nofile.toNat < s.files.max then s.nofile.toNat else s.files.max
  fdInstallFrom f cloexec minFd.toNat (limit - minFd.toNat)

def sysDup3 (oldfd newfd flags : UInt64) : M Int := do
  if oldfd = newfd then return -EINVAL
  if flags &&& ~~~O_CLOEXEC ≠ 0 then return -EINVAL
  let s ← get
  if narrowInt newfd.toNat < 0 ∨ (s.files.max : Int) ≤ narrowInt newfd.toNat then return -EBADF
  match ← fget (narrowInt oldfd.toNat) with
  | none => return -EBADF
  | some f =>
    if let some old ← readFd newfd.toNat then filePut old
    writeFd newfd.toNat (some f)
    setCloexec newfd.toNat (flags &&& O_CLOEXEC ≠ 0)
    return newfd.toNat

def accessMode (f : File) (other : UInt32) : UInt32 :=
  if f.mode &&& FMODE_READ ≠ 0 ∧ f.mode &&& FMODE_WRITE ≠ 0 then O_RDWR
  else if f.mode &&& FMODE_WRITE ≠ 0 then O_WRONLY
  else other

def statusMask : UInt32 := O_APPEND ||| O_NONBLOCK ||| O_ASYNC ||| O_DIRECT ||| O_NOATIME

def fcntlCmd (fd cmd arg : UInt64) : M Int := do
  let s ← get
  if cmd = F_DUPFD ∨ cmd = F_DUPFD_CLOEXEC then
    if s.files.max ≤ arg.toNat then return -EINVAL
    fileGet f
    let r ← fdInstall f (narrowInt arg.toNat) (cmd = F_DUPFD_CLOEXEC)
    if r < 0 then filePut f
    return r
  else if cmd = F_GETFD then
    let w ← readCloexec (fd.toNat / 64)
    return ((w >>> UInt64.ofNat (fd.toNat % 64)) &&& 1).toNat
  else if cmd = F_SETFD then
    setCloexec fd.toNat (arg &&& FD_CLOEXEC ≠ 0)
    return 0
  else if cmd = F_GETFL then
    let x := s.file f
    let r := x.flags ||| accessMode x 0
    return ((r &&& ~~~O_ACCMODE) ||| accessMode x 0).toNat
  else if cmd = F_SETFL then
    modifyFile f fun x => { x with flags := (x.flags &&& ~~~statusMask) ||| (arg.toUInt32 &&& statusMask) }
    return 0
  else if cmd = F_GETLK then
    -- both copies go to the same user range
    if s.copyOk arg then return 0 else return -EFAULT
  else if cmd = F_SETLK ∨ cmd = F_SETLKW ∨ cmd = F_SETOWN then return 0
  else if cmd = F_GETOWN then return 0
  else if cmd = F_GETPIPE_SZ then return 65536
  else return -EINVAL

def withFile (fd : UInt64) (body : Nat → M Int) : M Int := do
  match ← fget (narrowInt fd.toNat) with
  | none => return -EBADF
  | some f =>
    let r ← body f
    filePut f
    return r

def sysFcntl (fd cmd arg : UInt64) : M Int := withFile fd fun f => fcntlCmd f fd cmd arg

def ioctlCmd (fd : UInt64) (cmd : UInt32) (arg : UInt64) : M Int := do
  let s ← get
  if cmd = FIOCLEX then
    setCloexec fd.toNat true
    return 0
  else if cmd = FIONCLEX then
    setCloexec fd.toNat false
    return 0
  else if cmd = FIONBIO then
    if s.copyOk arg then
      modifyFile f fun x =>
        { x with flags := if s.userWord arg ≠ 0 then x.flags ||| O_NONBLOCK else x.flags &&& ~~~O_NONBLOCK }
      return 0
    else return -EFAULT
  else if cmd = FIOASYNC then return 0
  else if (s.file f).hasIoctl then return s.fileIoctl f cmd arg
  else return -ENOTTY

def sysIoctl (fd cmd arg : UInt64) : M Int := withFile fd fun f => ioctlCmd f fd cmd.toUInt32 arg

inductive Call where
  | dup3 (oldfd newfd flags : UInt64)
  | fcntl (fd cmd arg : UInt64)
  | ioctl (fd cmd arg : UInt64)

def Call.run : Call → M Int
  | .dup3 oldfd newfd flags => sysDup3 oldfd newfd flags
  | .fcntl fd cmd arg => sysFcntl fd cmd arg
  | .ioctl fd cmd arg => sysIoctl fd cmd arg

end Olux.Fd
