import Olux.Basic

-- IPC channels: the two queues of a channel, the calls on its ends, and the system calls that pass file references
-- through it.

namespace Olux.Channel

def CHAN_MAX_QUEUED : Int := 256
def CHAN_MAX_BYTES : Int := 1024 * 1024
def OLUX_MSG_MAX : Nat := 64 * 1024
def OLUX_MSG_MAX_FDS : Nat := 8

structure Process where
  pid : Int
  euid : Nat
  egid : Nat

-- struct chan_msg; a `struct file *` is a number.
structure Msg where
  data : List UInt8
  files : List Nat
  pid : Int
  uid : Nat
  gid : Nat

def Msg.len (m : Msg) : Nat := m.data.length

-- struct chan: `q i` is to be received by side `i`.
structure Chan where
  q : Bool → List Msg
  nq : Bool → Int
  bytes : Bool → Int
  closed : Bool → Bool
  refs : Int

def chanCreatePair : Chan := ⟨fun _ => [], fun _ => 0, fun _ => 0, fun _ => false, 2⟩

inductive Buf where
  | kernel (mem : Nat → UInt8)
  | user (mem : Option (Nat → UInt8))

def Buf.copy (len : Nat) : Buf → Option (List UInt8)
  | .kernel mem => some ((List.range len).map mem)
  | .user mem => if len = 0 then some [] else mem.map fun b => (List.range len).map b

-- What chan_send is given, and whether kmalloc succeeds; `proc` is none for the kernel.
structure Request where
  buf : Buf
  len : Nat
  files : List Nat
  proc : Option Process
  alloc : Bool

def prepare (rq : Request) : Except Int Msg :=
  if rq.len > OLUX_MSG_MAX then .error (- EMSGSIZE)
  else if rq.alloc = false then .error (- ENOMEM)
  else
    match rq.buf.copy rq.len with
    | none => .error (- EFAULT)
    | some data =>
      .ok ⟨data, rq.files, (rq.proc.map Process.pid).getD 0, (rq.proc.map Process.euid).getD 0,
        (rq.proc.map Process.egid).getD 0⟩

inductive Wake where
  | woken
  | signal
  | timeout
deriving DecidableEq

-- One turn of a loop: the channel under its lock, O_NONBLOCK, and the end of the wait that
-- follows where the turn comes to one.
structure Turn where
  chan : Chan
  nonblock : Bool
  wake : Wake

inductive Sending where
  | queued (c : Chan)
  | failed (r : Int) (puts : List Nat)
  | again

def freeMsg (m : Msg) : List Nat := m.files

def sendTurn (side : Bool) (m : Msg) (turn : Turn) : Sending :=
  let c := turn.chan
  let peer := !side
  if c.closed peer then .failed (- EPIPE) (freeMsg m)
  else if c.nq peer < CHAN_MAX_QUEUED ∧ c.bytes peer + m.len ≤ CHAN_MAX_BYTES then
    .queued { c with
      q := Function.update c.q peer (c.q peer ++ [m])
      nq := Function.update c.nq peer (c.nq peer + 1)
      bytes := Function.update c.bytes peer (c.bytes peer + m.len) }
  else if turn.nonblock then .failed (- EAGAIN) (freeMsg { m with files := [] })
  else if turn.wake = .signal then .failed (- ERESTARTSYS) (freeMsg { m with files := [] })
  else .again

-- The end of a call of chan_send: `sleeping` if it is still in the loop after the last turn.
inductive Sent where
  | sleeping (m : Msg)
  | queued (m : Msg) (c : Chan)
  | failed (r : Int) (puts : List Nat)

def sendLoop (side : Bool) (m : Msg) : List Turn → Sent
  | [] => .sleeping m
  | turn :: turns =>
    match sendTurn side m turn with
    | .queued c => .queued m c
    | .failed r puts => .failed r puts
    | .again => sendLoop side m turns

def chanSend (side : Bool) (rq : Request) (turns : List Turn) : Sent :=
  match prepare rq with
  | .error e => .failed e []
  | .ok m => sendLoop side m turns

inductive Receiving where
  | message (m : Msg) (c : Chan)
  | failed (r : Int) (need : Nat)
  | again

-- `deadline`: a timeout was given; only the system call's wait is interruptible.
def recvTurn (side : Bool) (maxlen : Nat) (deadline interruptible : Bool) (turn : Turn) : Receiving :=
  let c := turn.chan
  let wait : Receiving :=
    if c.closed (!side) then .failed (- EPIPE) 0
    else if turn.nonblock then .failed (- EAGAIN) 0
    else if interruptible ∧ turn.wake = .signal then .failed (- ERESTARTSYS) 0
    else if turn.wake = .timeout ∧ deadline then .failed (- ETIMEDOUT) 0
    else .again
  if c.nq side ≠ 0 then
    match c.q side with
    | m :: rest =>
      if m.len > maxlen then .failed (- EMSGSIZE) m.len
      else
        .message m { c with
          q := Function.update c.q side rest
          nq := Function.update c.nq side (c.nq side - 1)
          bytes := Function.update c.bytes side (c.bytes side - m.len) }
    -- the count is that of the queue, so this is not reached
    | [] => wait
  else wait

inductive Received where
  | sleeping
  | message (m : Msg) (c : Chan)
  | failed (r : Int) (need : Nat)

def chanRecv (side : Bool) (maxlen : Nat) (deadline interruptible : Bool) : List Turn → Received
  | [] => .sleeping
  | turn :: turns =>
    match recvTurn side maxlen deadline interruptible turn with
    | .message m c => .message m c
    | .failed r need => .failed r need
    | .again => chanRecv side maxlen deadline interruptible turns

def chanRelease (me : Bool) (c : Chan) : Chan × List Msg × Bool :=
  ({ q := Function.update c.q me []
     nq := Function.update c.nq me 0
     bytes := Function.update c.bytes me 0
     closed := Function.update c.closed me true
     refs := c.refs - 1 }, c.q me, c.refs - 1 == 0)

inductive Found where
  | nothing
  | other
  | channel (side : Bool)

inductive Word where
  | fault
  | bad
  | file (f : Nat)

def collect : List Word → List Nat × Int
  | [] => ([], 0)
  | .fault :: _ => ([], - EFAULT)
  | .bad :: _ => ([], - EBADF)
  | .file f :: words => (f :: (collect words).1, (collect words).2)

-- The references to passed files that a call took over, and where they are at its end, or
-- when it sleeps: with its own message, with the message it queued, in the caller's
-- descriptor table, or put.
structure Outcome where
  ret : Option Int
  taken : List Nat
  asleep : List Nat
  queued : List Nat
  table : List Nat
  puts : List Nat

def Outcome.Conserved (o : Outcome) : Prop := o.taken.Perm (o.asleep ++ o.queued ++ o.table ++ o.puts)

structure SendCall where
  found : Found
  words : List Word
  buf : Option (Nat → UInt8)
  len : Nat
  proc : Process
  alloc : Bool
  turns : List Turn

def SendCall.files (call : SendCall) : List Nat := (collect call.words).1

def SendCall.request (call : SendCall) : Request :=
  ⟨.user call.buf, call.len, call.files, some call.proc, call.alloc⟩

def sysOluxMsgSend (call : SendCall) : Outcome :=
  if call.words.length > OLUX_MSG_MAX_FDS then ⟨some (- EINVAL), [], [], [], [], []⟩
  else
    match call.found with
    | .nothing => ⟨some (- EBADF), [], [], [], [], []⟩
    | .other => ⟨some (- ENOTSOCK), [], [], [], [], []⟩
    | .channel side =>
      if (collect call.words).2 ≠ 0 then ⟨some (collect call.words).2, call.files, [], [], [], call.files⟩
      else
        match chanSend side call.request call.turns with
        | .sleeping m => ⟨none, call.files, m.files, [], [], []⟩
        | .queued m _ => ⟨some 0, call.files, [], m.files, [], []⟩
        | .failed r puts => ⟨some r, call.files, [], [], [], if r ≠ 0 then puts ++ call.files else puts⟩

structure RecvCall where
  found : Found
  len : Nat
  turns : List Turn
  -- whether the copies to `buf`, to `ufds` and to `uinfo` succeed, where they are made
  copyBuf : Bool
  copyFds : Bool
  copyInfo : Bool
  ufds : Bool
  uinfo : Bool
  -- the result of fd_install for the message's files
  install : Nat → Int

def installLoop (call : RecvCall) : Nat → List Nat → List Nat × List Nat
  | _, [] => ([], [])
  | i, f :: fs =>
    if (if call.ufds then call.install i else - EBADF) < 0 then ([], f :: fs)
    else (f :: (installLoop call (i + 1) fs).1, (installLoop call (i + 1) fs).2)

-- sys_olux_msg_recv with the message `m`; a copy that fails after the installation leaves
-- the files in the table.
def receive (call : RecvCall) (m : Msg) : Outcome :=
  if call.copyBuf = false then ⟨some (- EFAULT), m.files, [], [], [], m.files⟩
  else
    let (installed, rest) := installLoop call 0 m.files
    let fault := (installed ≠ [] ∧ call.copyFds = false) ∨ (call.uinfo ∧ call.copyInfo = false)
    ⟨some (if fault then - EFAULT else m.len), m.files, [], [], installed, rest⟩

def sysOluxMsgRecv (call : RecvCall) : Outcome :=
  match call.found with
  | .nothing => ⟨some (- EBADF), [], [], [], [], []⟩
  | .other => ⟨some (- ENOTSOCK), [], [], [], [], []⟩
  | .channel side =>
    match chanRecv side call.len false true call.turns with
    | .sleeping => ⟨none, [], [], [], [], []⟩
    | .failed r _ => ⟨some (if r = - EPIPE then 0 else r), [], [], [], [], []⟩
    | .message m _ => receive call m

inductive Call where
  | send (rq : Request)
  | recv (maxlen : Nat) (deadline interruptible : Bool)

inductive Result where
  | ret (r : Int)
  | message (m : Msg)

structure Thread where
  side : Bool
  call : Call
  result : Option Result

-- `sent i` and `got i` are the messages queued for side `i` and received by it, each with the
-- number of the call, and `dropped i` those that the close of side `i` took out. `tail i` is
-- the part of chan_release after the lock, as long as it has not run, with its `last`.
structure State where
  chan : Chan
  threads : List Thread
  sent : Bool → List (Nat × Msg)
  got : Bool → List (Nat × Msg)
  dropped : Bool → List Msg
  tail : Bool → Option Bool
  freed : Nat

def boot : State := ⟨chanCreatePair, [], fun _ => [], fun _ => [], fun _ => [], fun _ => none, 0⟩

-- A new call, on an end that is open; a call taking the lock once and then going to wait or
-- returning; an end whose last reference goes, which a call on it would hold; the rest of its
-- release.
inductive Event where
  | call (side : Bool) (call : Call)
  | turn (id : Nat) (nonblock : Bool) (wake : Wake)
  | close (side : Bool)
  | tail (side : Bool)

def Call.early : Call → Option Result
  | .send rq =>
    match prepare rq with
    | .error e => some (.ret e)
    | .ok _ => none
  | .recv _ _ _ => none

variable (s : State)

def finish (id : Nat) (t : Thread) (r : Result) : State :=
  { s with threads := s.threads.set id { t with result := some r } }

def sendStep (id : Nat) (t : Thread) (rq : Request) (nonblock : Bool) (wake : Wake) : State :=
  match prepare rq with
  | .error _ => s
  | .ok m =>
    match sendTurn t.side m ⟨s.chan, nonblock, wake⟩ with
    | .queued c =>
      { finish s id t (.ret 0) with
        chan := c
        sent := Function.update s.sent (!t.side) (s.sent (!t.side) ++ [(id, m)]) }
    | .failed r _ => finish s id t (.ret r)
    | .again => s

def recvStep (id : Nat) (t : Thread) (maxlen : Nat) (deadline interruptible nonblock : Bool)
    (wake : Wake) : State :=
  match recvTurn t.side maxlen deadline interruptible ⟨s.chan, nonblock, wake⟩ with
  | .message m c =>
    { finish s id t (.message m) with
      chan := c
      got := Function.update s.got t.side (s.got t.side ++ [(id, m)]) }
  | .failed r _ => finish s id t (.ret r)
  | .again => s

def closeStep (side : Bool) : State :=
  let (c, dropped, last) := chanRelease side s.chan
  { s with
    chan := c
    dropped := Function.update s.dropped side dropped
    tail := Function.update s.tail side (some last) }

def step : Event → State
  | .call side call =>
    if s.chan.closed side then s else { s with threads := s.threads ++ [⟨side, call, call.early⟩] }
  | .turn id nonblock wake =>
    match s.threads[id]? with
    | none => s
    | some t =>
      if t.result.isSome then s
      else
        match t.call with
        | .send rq => sendStep s id t rq nonblock wake
        | .recv maxlen deadline interruptible => recvStep s id t maxlen deadline interruptible nonblock wake
  | .close side =>
    if s.chan.closed side ∨ s.threads.any fun t => t.side == side && t.result.isNone then s
    else closeStep s side
  | .tail side =>
    match s.tail side with
    | none => s
    | some last => { s with tail := Function.update s.tail side none, freed := if last then s.freed + 1 else s.freed }

def run (evs : List Event) : State := evs.foldl step s

end Olux.Channel
