import Olux.Basic

-- Futexes: futex_wait and futex_wake_bitset on any number of threads, with the sections that run under futex_lock
-- and the points between them.

namespace Olux.Futex

def NBUCKETS : Nat := 64

structure Key where
  a : BitVec 64
  b : BitVec 64
deriving DecidableEq

def hash (key : Key) : Nat := ((key.a >>> 4) ^^^ (key.b >>> 2) ^^^ (key.b >>> 12)).toNat % NBUCKETS

-- An address as a call gives it: `page` is what mm_user_page and virt_to_phys find.
structure Place where
  mm : BitVec 64
  uaddr : BitVec 64
  page : Option (BitVec 64)
  isPrivate : Bool

def makeKey (p : Place) : Except Int Key :=
  if p.uaddr &&& 3 ≠ 0 then .error (- EINVAL)
  else if p.isPrivate then .ok ⟨p.mm, p.uaddr⟩
  else
    match p.page with
    | none => .error (- EFAULT)
    | some phys => .ok ⟨0, phys⟩

-- Where a call of futex_wait is: before its first section, behind it, in schedule, before its
-- last section with `ret`, returned.
inductive Pc where
  | start
  | queued
  | asleep
  | back (ret : Int)
  | done (ret : Int)

-- A call of futex_wait: its arguments, its waiter record, and of its thread the state
-- (TASK_RUNNING or TASK_INTERRUPTIBLE) and whether a signal is pending.
structure Call where
  mm : BitVec 64
  uaddr : BitVec 64
  val : BitVec 32
  timeout : Int
  key : Key
  bitset : BitVec 32
  woken : Bool
  pc : Pc
  running : Bool
  signal : Bool

def Call.blank : Call := ⟨0, 0, 0, 0, ⟨0, 0⟩, 0, false, .start, true, false⟩

-- The calls are numbered; a bucket is the list of its waiter records. `log` has the calls that
-- were queued, in that order, and `dequeued` those that a wake took out.
structure State where
  calls : Nat
  call : Nat → Call
  bucket : Nat → List Nat
  mem : BitVec 64 → BitVec 64 → Option (BitVec 32)
  log : List Nat
  dequeued : List Nat

def boot (mem : BitVec 64 → BitVec 64 → Option (BitVec 32)) : State :=
  ⟨0, fun _ => Call.blank, fun _ => [], mem, [], []⟩

variable (s : State)

def setCall (id : Nat) (c : Call) : State := { s with call := Function.update s.call id c }

def futexWait (p : Place) (val : BitVec 32) (timeout : Int) (bitset : BitVec 32) : State :=
  let c := { Call.blank with mm := p.mm, uaddr := p.uaddr, val, timeout, bitset }
  let c :=
    if bitset = 0 then { c with pc := .done (- EINVAL) }
    else
      match makeKey p with
      | .error e => { c with pc := .done e }
      | .ok key => { c with key }
  { setCall s s.calls c with calls := s.calls + 1 }

def enqueue (id : Nat) (c : Call) : State :=
  match s.mem c.mm c.uaddr with
  | none => setCall s id { c with pc := .done (- EFAULT) }
  | some cur =>
    if cur ≠ c.val then setCall s id { c with pc := .done (- EAGAIN) }
    else
      { setCall s id { c with pc := .queued, running := false } with
        bucket := Function.update s.bucket (hash c.key) (s.bucket (hash c.key) ++ [id])
        log := s.log ++ [id] }

def lateResult (ret : Int) (signal : Bool) : Int :=
  let ret := if ret = 0 then (if signal then - EINTR else 0) else ret
  if ret = 0 then - EAGAIN else ret

def leave (id : Nat) (c : Call) (ret : Int) : State :=
  if c.woken then setCall s id { c with pc := .done 0 }
  else
    { setCall s id { c with pc := .done (lateResult ret c.signal) } with
      bucket := fun b => (s.bucket b).erase id }

def go (id : Nat) (expired : Bool) : State :=
  let c := s.call id
  match c.pc with
  | .start => enqueue s id c
  | .queued =>
    if c.signal then setCall s id { c with pc := .back 0, running := true }
    else if c.timeout = 0 then setCall s id { c with pc := .back (- ETIMEDOUT), running := true }
    else setCall s id { c with pc := .asleep }
  | .asleep =>
    if c.running = false then s
    else setCall s id { c with pc := .back (if c.timeout ≥ 0 ∧ expired then - ETIMEDOUT else 0) }
  | .back ret => leave s id c ret
  | .done _ => s

def Call.hit (c : Call) (key : Key) (bitset : BitVec 32) : Bool := c.key == key && c.bitset &&& bitset != 0

def wakeLoop (call : Nat → Call) (key : Key) (n : Int) (bitset : BitVec 32) : Int → List Nat → List Nat × List Nat
  | _, [] => ([], [])
  | woken, id :: rest =>
    if woken ≥ n then ([], id :: rest)
    else if (call id).hit key bitset = false then
      ((wakeLoop call key n bitset woken rest).1, id :: (wakeLoop call key n bitset woken rest).2)
    else
      (id :: (wakeLoop call key n bitset (woken + 1) rest).1, (wakeLoop call key n bitset (woken + 1) rest).2)

def wakeKey (key : Key) (n : Int) (bitset : BitVec 32) : State × Int :=
  let out := wakeLoop s.call key n bitset 0 (s.bucket (hash key))
  ({ s with
     call := fun id => if id ∈ out.1 then { s.call id with woken := true, running := true } else s.call id
     bucket := Function.update s.bucket (hash key) out.2
     dequeued := s.dequeued ++ out.1 }, out.1.length)

def futexWakeBitset (p : Place) (n : Int) (bitset : BitVec 32) : State × Int :=
  if bitset = 0 then (s, - EINVAL)
  else
    match makeKey p with
    | .error e => (s, e)
    | .ok key => wakeKey s key n bitset

-- A call of futex_wait begins, goes on; a wake; user stores, to any words; a signal for the
-- thread of a call comes or goes; a timer, or anything else, wakes that thread.
inductive Event where
  | wait (p : Place) (val : BitVec 32) (timeout : Int) (bitset : BitVec 32)
  | go (id : Nat) (expired : Bool)
  | wake (p : Place) (n : Int) (bitset : BitVec 32)
  | store (mem : BitVec 64 → BitVec 64 → Option (BitVec 32))
  | signal (id : Nat) (pending : Bool)
  | rouse (id : Nat)

def step : Event → State
  | .wait p val timeout bitset => futexWait s p val timeout bitset
  | .go id expired => if id < s.calls then go s id expired else s
  | .wake p n bitset => (futexWakeBitset s p n bitset).1
  | .store mem => { s with mem }
  | .signal id pending =>
    setCall s id { s.call id with signal := pending, running := pending || (s.call id).running }
  | .rouse id => setCall s id { s.call id with running := true }

def run (evs : List Event) : State := evs.foldl step s

end Olux.Futex
