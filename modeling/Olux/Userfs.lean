import Olux.Basic
import Olux.Lib.Bytes
import Olux.Lib.Word

namespace Olux.Userfs

open Olux.Lib

def UFS_NAME_MAX : Nat := 255
def UFS_MAX_IO : Nat := 32 * 1024
def MAX_ERRNO : Int := 4095

-- `sizeof(struct ufs_reply)` and `sizeof(struct ufs_dirent)`. The latter is
-- padded to eight bytes; the name starts inside the padding.
def REPLY_SIZE : Nat := 136
def DIRENT_SIZE : Nat := 24
def NAME_OFF : Nat := 20

structure Sb where
  chan : Option Nat
  nextId : Nat
  dead : Bool
deriving DecidableEq

variable (b : List UInt8)

def repErr : Int := narrowInt (leField b 0 4)

def repId : Nat := leField b 4 4

def repLen : Nat := leField b 8 4

def repData : List UInt8 := (b.drop REPLY_SIZE).take (repLen b)

inductive Recv where
  | error (n : Int)
  | msg (b : List UInt8)

-- What one request meets: the result of `chan_send_kernel`, the messages that
-- arrive after it and whether the copy of the reply's data can be allocated.
structure Call where
  sent : Int
  recv : Nat → Recv
  alloc : Bool

structure Answer where
  err : Int
  rep : List UInt8
  sb : Sb

def framed : Bool := REPLY_SIZE ≤ b.length && repLen b ≤ b.length - REPLY_SIZE

-- What the receiving loop of `ufs_call` makes of a message: nothing of the stale reply of a
-- timed-out request.
def answerOf (s : Sb) : Recv → Option Answer
  | .error _ => some ⟨- EIO, [], { s with dead := true }⟩
  | .msg b =>
    if framed b = false then some ⟨- EIO, [], { s with dead := true }⟩
    else if repId b ≠ s.nextId then none
    else if 0 < repErr b ∨ repErr b < -MAX_ERRNO then some ⟨- EIO, b, s⟩
    else some ⟨repErr b, b, s⟩

-- The receiving loop of `ufs_call`, from message `k` on.
def recvLoop (s : Sb) (recv : Nat → Recv) : Nat → Nat → Option Answer
  | 0, _ => none
  | fuel + 1, k => (answerOf s (recv k)).or (recvLoop s recv fuel (k + 1))

def ufsCall (s : Sb) (c : Call) (fuel : Nat) : Option Answer :=
  if s.chan = none ∨ s.dead then some ⟨- EIO, [], s⟩
  else
    let s := { s with nextId := (s.nextId + 1) % 2 ^ 32 }
    if c.sent ≠ 0 then some ⟨- EIO, [], { s with dead := true }⟩
    else recvLoop s c.recv fuel 0

structure Entry where
  name : List UInt8
  ino : Nat
  type : Nat
deriving DecidableEq

structure Ctx where
  pos : Nat
  given : List Entry

abbrev Actor := List Entry → Entry → Bool

def dirIno : Nat := leField b 0 8

def dirNext : Nat := leField b 8 8

def dirReclen : Nat := leField b 16 2

def dirType : Nat := leField b 18 1

def dirNamelen : Nat := leField b 19 1

def dirEntry : Entry := ⟨(b.drop NAME_OFF).take (dirNamelen b), dirIno b, dirType b⟩

def wellFormed : Bool :=
  DIRENT_SIZE ≤ b.length && DIRENT_SIZE ≤ dirReclen b && dirReclen b ≤ b.length &&
    DIRENT_SIZE + dirNamelen b ≤ dirReclen b

theorem wellFormed_pos {b : List UInt8} (h : wellFormed b = true) : 0 < dirReclen b ∧ dirReclen b ≤ b.length := by
  simp only [wellFormed, Bool.and_eq_true, decide_eq_true_eq] at h
  unfold DIRENT_SIZE at h
  omega

def records (actor : Actor) (b : List UInt8) (x : Ctx) : Bool × Ctx :=
  if _h : wellFormed b = true then
    if actor x.given (dirEntry b) = false then (true, x)
    else records actor (b.drop (dirReclen b)) ⟨dirNext b, x.given ++ [dirEntry b]⟩
  else (false, x)
termination_by b.length
decreasing_by
  have hlen := wellFormed_pos ‹_›
  rw [List.length_drop]
  omega

inductive Pass where
  | ret (r : Int)
  | again

def iteratePass (actor : Actor) (s : Sb) (c : Call) (fuel : Nat) (x : Ctx) : Option (Pass × Sb × Ctx) :=
  match ufsCall s c fuel with
  | none => none
  | some a =>
    if a.err ≠ 0 then some (.ret a.err, a.sb, x)
    else if repLen a.rep = 0 then some (.ret 0, a.sb, x)
    else if c.alloc = false then some (.ret (- ENOMEM), a.sb, x)
    else
      let (full, x) := records actor (repData a.rep) x
      if full then some (.ret 0, a.sb, x) else some (.again, a.sb, x)

abbrev Server := Nat → Nat → Nat → Call

-- `ufs_iterate`; `none` says that it has not returned within `fuel` passes of
-- at most `wait` messages each.
def iterateFrom (actor : Actor) (srv : Server) (wait : Nat) : Nat → Nat → Sb → Ctx → Option (Int × Sb × Ctx)
  | 0, _, _, _ => none
  | fuel + 1, n, s, x =>
    match iteratePass actor s (srv n ((s.nextId + 1) % 2 ^ 32) x.pos) wait x with
    | none => none
    | some (.ret r, s, x) => some (r, s, x)
    | some (.again, s, x) => iterateFrom actor srv wait fuel (n + 1) s x

def ufsIterate (actor : Actor) (srv : Server) (wait fuel : Nat) (s : Sb) (x : Ctx) : Option (Int × Sb × Ctx) :=
  iterateFrom actor srv wait fuel 0 s x

end Olux.Userfs
