import Olux.Sched

namespace Olux.Runqueue

open Sched (SCHED_FIFO SCHED_OTHER SCHED_BATCH)

def NR_PRIO : Nat := 32
def NR_CPUS : Nat := 8
def RR_TIMESLICE_TICKS : Int := 5

inductive TaskState where
  | running
  | interruptible
  | uninterruptible
  | stopped
  | dead
deriving DecidableEq

inductive Tid where
  | idle (cpu : Nat)
  | thread (n : Nat)
deriving DecidableEq

structure Thread where
  started : Bool
  state : TaskState
  onCpu : Bool
  onRq : Bool
  cpu : Nat
  cpusAllowed : BitVec 64
  sched : Sched.Thread
  timeslice : Int

def Thread.level (t : Thread) : Nat := t.sched.prio.toNat

structure Cpu where
  online : Bool
  runqueue : Nat → List Tid
  bitmap : BitVec 32
  nrRunning : Int
  curr : Tid
  needResched : Bool

-- `waking` are the threads between the two sections of `try_to_wake_up`, or in
-- `sched_add_new`, with the CPU that `select_cpu` has chosen.
structure State where
  ncpu : Fin (NR_CPUS + 1)
  thread : Tid → Thread
  cpu : Nat → Cpu
  waking : List (Tid × Option Nat)

def State.setThread (s : State) (t : Tid) (x : Thread) : State := { s with thread := Function.update s.thread t x }

def State.setCpu (s : State) (c : Nat) (x : Cpu) : State := { s with cpu := Function.update s.cpu c x }

variable (c : Nat)

def enqueue (t : Tid) (head : Bool) (s : State) : State :=
  let th := s.thread t
  let rq := s.cpu c
  let q := rq.runqueue th.level
  (s.setCpu c { rq with
    runqueue := Function.update rq.runqueue th.level (if head then t :: q else q ++ [t])
    bitmap := rq.bitmap ||| 1#32 <<< th.level
    nrRunning := rq.nrRunning + 1 }).setThread t { th with onRq := true, cpu := c }

def dequeue (t : Tid) (s : State) : State :=
  let th := s.thread t
  let rq := s.cpu c
  let runqueue := fun p => (rq.runqueue p).erase t
  (s.setCpu c { rq with
    runqueue
    bitmap := if (runqueue th.level).isEmpty then rq.bitmap &&& ~~~(1#32 <<< th.level) else rq.bitmap
    nrRunning := rq.nrRunning - 1 }).setThread t { th with onRq := false }

def ctz (b : BitVec 32) : Nat := ((List.range NR_PRIO).find? fun i => b.getLsbD i).getD NR_PRIO

def pickNext (s : State) : Option (Tid × State) :=
  let rq := s.cpu c
  if rq.bitmap = 0 then none else (rq.runqueue (ctz rq.bitmap)).head?.map fun t => (t, dequeue c t s)

def currPrio (s : State) : Int :=
  let curr := (s.cpu c).curr
  if curr = .idle c then NR_PRIO else (s.thread curr).sched.prio

def reschedCpu (s : State) : State := s.setCpu c { s.cpu c with needResched := true }

def idleCpu (s : State) (c : Nat) : Bool := (s.cpu c).curr = .idle c ∧ (s.cpu c).nrRunning = 0

def selectLoop (s : State) (allowed : BitVec 64) : List Nat → Option Nat → Option Nat
  | [], best => best
  | i :: is, best =>
    if !(s.cpu i).online || !allowed.getLsbD i then selectLoop s allowed is best
    else if idleCpu s i then some i
    else selectLoop s allowed is (match best with
      | none => some i
      | some b => if (s.cpu i).nrRunning < (s.cpu b).nrRunning then some i else some b)

def selectCpu (s : State) (t : Tid) : Nat :=
  let th := s.thread t
  let prev := th.cpu
  if (s.cpu prev).online && th.cpusAllowed.getLsbD prev && idleCpu s prev then prev
  else (selectLoop s th.cpusAllowed (List.range s.ncpu) none).getD prev

def activate (t : Tid) (s : State) : State :=
  let s := enqueue c t false s
  if (s.thread t).sched.prio < currPrio c s then reschedCpu c s else s

def tryToWakeUp (t : Tid) (mask : List TaskState) (s : State) : State :=
  let th := s.thread t
  if th.state = .running ∨ th.state ∉ mask then s
  else
    let s := s.setThread t { th with state := .running }
    if th.onRq || th.onCpu then s else { s with waking := (t, none) :: s.waking }

def requeue (s : State) : State :=
  let prev := (s.cpu c).curr
  if (s.thread prev).state = .running ∧ prev ≠ .idle c then
    let s := enqueue c prev ((s.thread prev).sched.policy = SCHED_FIFO) s
    if (s.thread prev).timeslice ≤ 0 then s.setThread prev { s.thread prev with timeslice := RR_TIMESLICE_TICKS } else s
  else s

def switchTo (prev next : Tid) (s : State) : State :=
  let s := s.setThread next { s.thread next with onCpu := true, cpu := c }
  let s := s.setCpu c { s.cpu c with curr := next }
  s.setThread prev { s.thread prev with onCpu := false }

def choose (s : State) : Tid × State := (pickNext c s).getD (.idle c, s)

def schedule (s : State) : State :=
  let prev := (s.cpu c).curr
  let r := choose c (requeue c (s.setCpu c { s.cpu c with needResched := false }))
  if r.1 ≠ prev then switchTo c prev r.1 r.2 else r.2

def yield (s : State) : State :=
  let t := (s.cpu c).curr
  schedule c (s.setThread t { s.thread t with timeslice := 0 })

def schedulerTick (s : State) : State :=
  let rq := s.cpu c
  let t := rq.curr
  let th := s.thread t
  if t = .idle c then if rq.nrRunning ≠ 0 then reschedCpu c s else s
  else if th.sched.policy = SCHED_FIFO then s
  else if 0 < th.timeslice - 1 then s.setThread t { th with timeslice := th.timeslice - 1 }
  else if rq.bitmap ≠ 0 ∧ (ctz rq.bitmap : Int) ≤ th.sched.prio then
    reschedCpu c (s.setThread t { th with timeslice := 0 })
  else s.setThread t { th with timeslice := RR_TIMESLICE_TICKS }

def setSched (t : Tid) (p : Sched.Thread) (s : State) : State :=
  let c := (s.thread t).cpu
  if (s.thread t).onRq then
    let s := dequeue c t s
    let s := s.setThread t { s.thread t with sched := p }
    let s := enqueue c t false s
    if (s.thread t).sched.prio < currPrio c s then reschedCpu c s else s
  else s.setThread t { s.thread t with sched := p }

def schedSetscheduler (t : Tid) (policy prio : Int) (s : State) : Int × State :=
  match Sched.schedSetscheduler (s.thread t).sched policy prio with
  | (r, p) => if r ≠ 0 then (r, s) else (0, setSched t p s)

def schedSetNice (t : Tid) (nice : Int) (s : State) : State :=
  let p := { (s.thread t).sched with nice := min (max nice (-20)) 19 }
  let s := s.setThread t { s.thread t with sched := p }
  if p.policy = SCHED_OTHER ∨ p.policy = SCHED_BATCH then (schedSetscheduler t p.policy 0 s).2 else s

def onlineMask (s : State) : BitVec 64 :=
  (List.range s.ncpu).foldl (fun m i => if (s.cpu i).online then m ||| 1#64 <<< i else m) 0

def schedSetaffinity (t : Tid) (mask : BitVec 64) (s : State) : Int × State :=
  if mask &&& onlineMask s = 0 then (- EINVAL, s)
  else
    let s := s.setThread t { s.thread t with cpusAllowed := mask &&& onlineMask s }
    (0, if t = (s.cpu c).curr ∧ !mask.getLsbD c then yield c s else s)

-- The sections under run-queue locks, the choices of `select_cpu` between them, and the
-- assignments of a running thread to its own state.
inductive Event where
  | new (n cpu : Nat) (allowed : BitVec 64) (sched : Sched.Thread)
  | wake (n : Nat) (mask : List TaskState)
  | select (n : Nat)
  | activate (n : Nat)
  | state (c : Nat) (x : TaskState)
  | schedule (c : Nat)
  | yield (c : Nat)
  | tick (c : Nat)
  | setscheduler (n : Nat) (policy prio : Int)
  | setnice (n : Nat) (nice : Int)
  | setaffinity (c n : Nat) (mask : BitVec 64)

def Event.fits (s : State) : Event → Bool
  | .new n cpu allowed p =>
    !(s.thread (.thread n)).started ∧ cpu < s.ncpu ∧ 0 ≤ p.prio ∧ p.prio < NR_PRIO ∧ allowed &&& onlineMask s ≠ 0
  | .wake n _ | .setscheduler n _ _ | .setnice n _ => (s.thread (.thread n)).started
  | .select n => (.thread n, none) ∈ s.waking
  | .activate n => s.waking.any fun w => w.1 = .thread n ∧ w.2.isSome
  | .state c _ => c < s.ncpu ∧ (s.cpu c).curr ≠ .idle c
  | .schedule c | .yield c | .tick c => c < s.ncpu
  | .setaffinity c n _ => c < s.ncpu ∧ (s.cpu c).curr ≠ .idle c ∧ (s.thread (.thread n)).started

def Event.act (s : State) : Event → State
  | .new n cpu allowed sched =>
    { s.setThread (.thread n) ⟨true, .running, false, false, cpu, allowed, sched, RR_TIMESLICE_TICKS⟩ with
      waking := (.thread n, none) :: s.waking }
  | .wake n mask => tryToWakeUp (.thread n) mask s
  | .select n =>
    { s with waking := s.waking.map fun w => if w.1 = .thread n then (w.1, some (selectCpu s w.1)) else w }
  | .activate n =>
    match s.waking.find? fun w => w.1 = .thread n with
    | some (t, some c) => Runqueue.activate c t { s with waking := s.waking.filter fun w => w.1 ≠ t }
    | _ => s
  | .state c x => s.setThread (s.cpu c).curr { s.thread (s.cpu c).curr with state := x }
  | .schedule c => Runqueue.schedule c s
  | .yield c => Runqueue.yield c s
  | .tick c => schedulerTick c s
  | .setscheduler n policy prio => (schedSetscheduler (.thread n) policy prio s).2
  | .setnice n nice => schedSetNice (.thread n) nice s
  | .setaffinity c n mask => (schedSetaffinity c (.thread n) mask s).2

def step (s : State) (ev : Event) : State := if ev.fits s then ev.act s else s

def run (s : State) (evs : List Event) : State := evs.foldl step s

def Thread.unborn : Thread := ⟨false, .uninterruptible, false, false, 0, 0, ⟨0, 0, 27, 0⟩, 0⟩

def Thread.idle : Thread := ⟨false, .running, true, false, c, 1#64 <<< c, ⟨0, 0, NR_PRIO, 0⟩, 0⟩

def boot (n : Fin (NR_CPUS + 1)) (online : Nat → Bool) : State where
  ncpu := n
  thread
    | .idle c => { Thread.idle c with onCpu := c < n.val }
    | .thread _ => Thread.unborn
  cpu c := ⟨online c, fun _ => [], 0, 0, .idle c, false⟩
  waking := []

end Olux.Runqueue
