import Olux.Unix

-- A connected pair of AF_UNIX sockets in use. A side is a Bool, so that `!side` is its peer.

namespace Olux.Unix.Pair

inductive Kind where
  | send
  | recv

structure Call where
  side : Bool
  kind : Kind
  m : Kmsg
  flags : Flags
  done : Nat
  result : Option Int

-- `linked`: the peer pointers are set, which the first release ends. `queued i` are the chunks
-- put into the queue of side `i`, `got i` the pieces that receives without MSG_PEEK have copied
-- out of it and `removed i` the records that they have taken, each with the number of the call;
-- `dropped i` is what the release of side `i` found in the queue.
structure State where
  sock : Bool → Usock
  linked : Bool
  calls : List Call
  queued : Bool → List (Nat × List UInt8)
  got : Bool → List (Nat × List UInt8)
  removed : Bool → List (Nat × List UInt8)
  dropped : Bool → List Uchunk

def start (type : SockType) (addr : Bool → List UInt8) (sndbuf rcvbuf : Bool → Nat) : State :=
  { sock := fun i => ⟨type, .connected, [], 0, false, false, false, addr i, sndbuf i, rcvbuf i⟩
    linked := true
    calls := []
    queued := fun _ => []
    got := fun _ => []
    removed := fun _ => []
    dropped := fun _ => [] }

variable (s : State)

def peer (i : Bool) : Option Usock := if s.linked then some (s.sock (!i)) else none

def finish (id : Nat) (call : Call) (r : Int) : State :=
  { s with calls := s.calls.set id { call with result := some r } }

def sendTurn (call : Call) (env : Env) : Sending :=
  let u := s.sock call.side
  if u.type = .dgram then
    sendDgramTurn u (match peer s call.side with | none => .error (- ENOTCONN) | some t => .ok t) call.m env
  else sendStreamTurn u (peer s call.side) call.m call.done env

def sendStep (id : Nat) (call : Call) (env : Env) : State :=
  match sendTurn s call env with
  | .ret r => finish s id call r
  | .again => s
  | .queued c m =>
    let done := call.done + c.len
    let result : Option Int := if sendOver (s.sock call.side) m done then some done else none
    { s with
      sock := Function.update s.sock (!call.side) ((s.sock (!call.side)).push c)
      calls := s.calls.set id { call with m, done, result }
      queued := Function.update s.queued (!call.side) (s.queued (!call.side) ++ [(id, c.data)]) }

def record (u : Usock) (id : Nat) : List (Nat × List UInt8) :=
  if u.type = .stream then [] else (u.rq.take 1).map fun c => (id, c.data)

def recvStep (id : Nat) (call : Call) (env : Env) : State :=
  let u := s.sock call.side
  match recvTurn u (peer s call.side) call.m call.flags call.done env with
  | .ret r => finish s id call r
  | .again => s
  | .took m u' bytes ret =>
    let s' :=
      { s with
        sock := Function.update s.sock call.side u'
        calls := s.calls.set id { call with m, done := call.done + bytes.length, result := ret } }
    if call.flags.peek then s'
    else
      { s' with
        got := Function.update s.got call.side (s.got call.side ++ [(id, bytes)])
        removed := Function.update s.removed call.side (s.removed call.side ++ record u id) }

def shutdown (i : Bool) (how : Nat) : State :=
  let u := s.sock i
  if u.state ≠ .connected ∧ u.type ≠ .dgram then s
  else
    { s with
      sock := Function.update s.sock i
        { u with shutRd := if how ≠ 1 then true else u.shutRd, shutWr := if how ≠ 0 then true else u.shutWr } }

-- u_release. The peer of a stream is told; that of a datagram socket only loses its pointer.
def release (i : Bool) : State :=
  let p := s.sock (!i)
  let p' := if s.linked ∧ p.type ≠ .dgram then { p with peerGone := true } else p
  { s with
    sock := Function.update (Function.update s.sock (!i) p') i { (flushRq (s.sock i)).1 with state := .closed }
    linked := false
    dropped := Function.update s.dropped i (s.sock i).rq }

-- A send to the peer or a receive begins, with buffers of any lengths; a call makes a turn,
-- its copies not faulting; a shutdown; the release of a side, which no call on it survives.
inductive Event where
  | send (side : Bool) (iov : List (List UInt8)) (fds : List Nat) (flags : Flags)
  | recv (side : Bool) (iov : List (List UInt8)) (flags : Flags)
  | turn (id : Nat) (nonblock : Bool) (wait : Nat) (alloc : Bool) (creds : Ucred)
  | shutdown (side : Bool) (how : Nat)
  | close (side : Bool)

def message (iov : List (List UInt8)) (fds : List Nat) : Kmsg := ⟨iov, iov.flatten.length, fds, [], none, false⟩

def isClosed (i : Bool) : Bool := (s.sock i).state == .closed

def busy (i : Bool) : Bool := s.calls.any fun call => call.side == i && call.result.isNone

def step : Event → State
  | .send side iov fds flags =>
    if isClosed s side then s
    else
      let m := message iov fds
      { s with calls := s.calls ++ [⟨side, .send, m, flags, 0, sendEarly (s.sock side) m flags⟩] }
  | .recv side iov flags =>
    if isClosed s side then s
    else
      let early : Option Int := if flags.oob then some (- EOPNOTSUPP) else none
      { s with calls := s.calls ++ [⟨side, .recv, message iov [], flags, 0, early⟩] }
  | .turn id nonblock wait alloc creds =>
    match s.calls[id]? with
    | none => s
    | some call =>
      if call.result.isSome then s
      else
        let env : Env := ⟨nonblock, wait, alloc, false, creds⟩
        match call.kind with
        | .send => sendStep s id call env
        | .recv => recvStep s id call env
  | .shutdown side how => if isClosed s side then s else shutdown s side how
  | .close side => if isClosed s side ∨ busy s side then s else release s side

def run (evs : List Event) : State := evs.foldl step s

end Olux.Unix.Pair
