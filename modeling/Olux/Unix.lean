import Olux.Basic

-- The data path of AF_UNIX sockets: chunks, the turns of the sending and receiving loops under
-- ulock, and the copies to and from a message's vector of buffers.

namespace Olux.Unix

inductive SockType where
  | stream
  | seqpacket
  | dgram
deriving DecidableEq

inductive UState where
  | unconnected
  | listening
  | connected
  | closed
deriving DecidableEq

structure Ucred where
  pid : Int
  uid : Nat
  gid : Nat

structure Uchunk where
  data : List UInt8
  off : Nat
  fds : List Nat
  creds : Ucred
  sender : List UInt8

def Uchunk.len (c : Uchunk) : Nat := c.data.length

def Uchunk.rest (c : Uchunk) : List UInt8 := c.data.drop c.off

structure Usock where
  type : SockType
  state : UState
  rq : List Uchunk
  rqBytes : Int
  shutRd : Bool
  shutWr : Bool
  peerGone : Bool
  addr : List UInt8
  sndbuf : Nat
  rcvbuf : Nat

-- struct kmsg: the buffers of the vector with their contents, `len` their total length, the
-- descriptors, the address, and what a receive sets.
structure Kmsg where
  iov : List (List UInt8)
  len : Nat
  fds : List Nat
  name : List UInt8
  creds : Option Ucred
  trunc : Bool

structure Flags where
  oob : Bool
  peek : Bool
  waitall : Bool
  trunc : Bool

def kmsgCopyTo : Nat → List UInt8 → List (List UInt8) → List (List UInt8)
  | _, _, [] => []
  | off, src, b :: iov =>
    if src = [] then b :: iov
    else if off ≥ b.length then b :: kmsgCopyTo (off - b.length) src iov
    else
      let c := min src.length (b.length - off)
      (b.take off ++ src.take c ++ b.drop (off + c)) :: kmsgCopyTo 0 (src.drop c) iov

def kmsgCopyFrom : Nat → Nat → List (List UInt8) → List UInt8
  | _, _, [] => []
  | off, n, b :: iov =>
    if n = 0 then []
    else if off ≥ b.length then kmsgCopyFrom (off - b.length) n iov
    else
      let c := min n (b.length - off)
      (b.drop off).take c ++ kmsgCopyFrom 0 (n - c) iov

-- What a turn of a loop meets: whether the call does not block, the error with which its wait
-- ends (0 if it does not), whether kmalloc succeeds and the copy faults, and who calls.
structure Env where
  nonblock : Bool
  wait : Nat
  alloc : Bool
  fault : Bool
  creds : Ucred

def partly (done : Nat) (r : Int) : Int := if done ≠ 0 then done else r

def peerHasRoom (t : Usock) : Bool := t.rqBytes < t.rcvbuf

-- What a turn of a sending loop does: return, go round again, or put a chunk into the queue of
-- the receiver, which leaves the message `m`.
inductive Sending where
  | ret (r : Int)
  | again
  | queued (c : Uchunk) (m : Kmsg)

def makeChunk (m : Kmsg) (off len : Nat) (env : Env) : Except Int Uchunk :=
  if env.alloc = false then .error (- ENOBUFS)
  else if env.fault then .error (- EFAULT)
  else .ok ⟨kmsgCopyFrom off len m.iov, 0, [], env.creds, []⟩

def attachFds (c : Uchunk) (m : Kmsg) : Uchunk × Kmsg := ({ c with fds := m.fds }, { m with fds := [] })

variable (u : Usock)

def sendStreamTurn (t : Option Usock) (m : Kmsg) (done : Nat) (env : Env) : Sending :=
  let stop : Sending :=
    if u.state ≠ .connected ∧ u.peerGone = false then .ret (partly done (- ENOTCONN)) else .ret (partly done (- EPIPE))
  match t with
  | none => stop
  | some t =>
    if u.shutWr ∨ u.peerGone ∨ t.shutRd then stop
    else if peerHasRoom t = false then
      if done ≠ 0 ∧ env.nonblock then .ret done
      else if env.wait ≠ 0 then .ret (partly done (- env.wait))
      else .again
    else
      let n := if u.type = .seqpacket then m.len else min (m.len - done) 65536
      match makeChunk m done n env with
      | .error e => .ret (partly done e)
      | .ok c => if done = 0 then .queued (attachFds c m).1 (attachFds c m).2 else .queued c m

def sendDgramTurn (t : Except Int Usock) (m : Kmsg) (env : Env) : Sending :=
  match t with
  | .error e => .ret e
  | .ok t =>
    if t.state = .closed ∨ t.shutRd then .ret (- ECONNREFUSED)
    else if t.type ≠ .dgram then .ret (- EPROTOTYPE)
    else if t.rqBytes + m.len > t.rcvbuf ∧ t.rqBytes ≠ 0 then
      if env.nonblock then .ret (- EAGAIN)
      else if env.wait ≠ 0 then .ret (- ERESTARTSYS)
      else .again
    else
      match makeChunk m 0 m.len env with
      | .error e => .ret e
      | .ok c => .queued { (attachFds c m).1 with sender := u.addr } (attachFds c m).2

def sendEarly (m : Kmsg) (flags : Flags) : Option Int :=
  if flags.oob then some (- EOPNOTSUPP)
  else if u.type ≠ .dgram ∧ m.name ≠ [] ∧ u.state = .connected then some (- EISCONN)
  else if u.type ≠ .stream ∧ m.len > u.sndbuf then some (- EMSGSIZE)
  else none

def Usock.push (t : Usock) (c : Uchunk) : Usock := { t with rq := t.rq ++ [c], rqBytes := t.rqBytes + c.len }

def sendOver (m : Kmsg) (done : Nat) : Bool := u.type == .dgram || m.len == 0 || done ≥ m.len

-- What a turn of the receiving loop does: return, go round again, or take from the first chunk:
-- the message, the socket, the bytes copied, and the result if this was the last turn.
inductive Receiving where
  | ret (r : Int)
  | again
  | took (m : Kmsg) (u : Usock) (bytes : List UInt8) (ret : Option Int)

def Kmsg.receive (m : Kmsg) (u : Usock) (c : Uchunk) (flags : Flags) (done n : Nat) : Kmsg :=
  let m := { m with iov := kmsgCopyTo done (c.rest.take n) m.iov }
  let m := if c.fds ≠ [] ∧ flags.peek = false then { m with fds := c.fds } else m
  if done = 0 then
    let m := { m with creds := some c.creds }
    if c.sender ≠ [] then { m with name := c.sender }
    else if u.type = .dgram then { m with name := [1, 0] } else m
  else m

def takeRecord (m : Kmsg) (c : Uchunk) (rq : List Uchunk) (flags : Flags) (done n : Nat) : Receiving :=
  let m' := m.receive u c flags done n
  let m' := if n < c.len - c.off then { m' with trunc := true } else m'
  let ret : Int := if flags.trunc then c.len else ((done + n : Nat) : Int)
  if flags.peek then .took m' u (c.rest.take n) (some ret)
  else .took m' { u with rq, rqBytes := u.rqBytes - c.len } (c.rest.take n) (some ret)

def takeBytes (m : Kmsg) (c : Uchunk) (rq : List Uchunk) (flags : Flags) (done n : Nat) : Receiving :=
  let m' := m.receive u c flags done n
  let ret : Option Int := if done + n = m.len ∨ flags.peek then some ((done + n : Nat) : Int) else none
  if flags.peek then .took m' u (c.rest.take n) ret
  else
    let c' := { c with off := c.off + n, fds := [] }
    let rq := if c'.off = c.len then rq else c' :: rq
    .took m' { u with rq, rqBytes := u.rqBytes - n } (c.rest.take n) ret

def recvEmpty (peer : Option Usock) (flags : Flags) (done : Nat) (env : Env) : Receiving :=
  let eof := u.shutRd || u.peerGone || (peer.map Usock.shutWr).getD false ||
    (u.type == .stream && u.state != .connected && u.state != .unconnected)
  let notconn := u.type != .dgram && u.state == .unconnected
  if done ≠ 0 ∧ (flags.waitall = false ∨ eof) then .ret done
  else if eof then .ret done
  else if notconn then .ret (- ENOTCONN)
  else if done ≠ 0 ∧ env.nonblock then .ret done
  else if env.wait ≠ 0 then .ret (partly done (- env.wait))
  else .again

def recvTurn (peer : Option Usock) (m : Kmsg) (flags : Flags) (done : Nat) (env : Env) : Receiving :=
  match u.rq with
  | [] => recvEmpty u peer flags done env
  | c :: rq =>
    -- descriptors travel with their own read
    if u.type = .stream ∧ done ≠ 0 ∧ c.fds ≠ [] then .ret done
    else
      let n := min (c.len - c.off) (m.len - done)
      if env.fault then .ret (partly done (- EFAULT))
      else if u.type = .stream then takeBytes u m c rq flags done n
      else takeRecord u m c rq flags done n

def flushRq : Usock × List Nat := ({ u with rq := [], rqBytes := 0 }, u.rq.flatMap Uchunk.fds)

end Olux.Unix
