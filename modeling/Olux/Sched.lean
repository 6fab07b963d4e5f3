import Olux.Cred

namespace Olux.Sched

def PRIO_RT_LOWEST : Int := 23
def PRIO_NORMAL : Int := 27
def PRIO_IDLE : Int := 31

def SCHED_OTHER : Int := 0
def SCHED_FIFO : Int := 1
def SCHED_RR : Int := 2
def SCHED_BATCH : Int := 3
def SCHED_IDLE : Int := 5

structure Thread where
  policy : Int
  rtPriority : Int
  prio : Int
  nice : Int
deriving DecidableEq

abbrev Threads := Int → Option Thread

def isRt (policy : Int) : Bool := policy = SCHED_FIFO || policy = SCHED_RR

def toInt (x : UInt64) : Int := Int.bmod x.toNat (2 ^ 32)

def computePrio (policy rtPrio nice : Int) : Int :=
  if isRt policy then PRIO_RT_LOWEST - Int.tdiv ((rtPrio - 1) * PRIO_RT_LOWEST) 98
  else if policy = SCHED_IDLE then PRIO_IDLE
  else min (max (PRIO_NORMAL + Int.tdiv nice 7) (PRIO_RT_LOWEST + 1)) (PRIO_IDLE - 1)

def schedSetscheduler (t : Thread) (policy prio : Int) : Int × Thread :=
  let change : Int × Thread :=
    (0, { t with policy, rtPriority := prio, prio := computePrio policy prio t.nice })
  if isRt policy then
    if prio < 1 ∨ prio > 99 then (- EINVAL, t) else change
  else if policy = SCHED_OTHER ∨ policy = SCHED_BATCH ∨ policy = SCHED_IDLE then
    if prio ≠ 0 then (- EINVAL, t) else change
  else (- EINVAL, t)

def schedTarget (cur : Int) (pid : UInt64) : Int := if pid = 0 then cur else toInt pid

-- `param` is the word at the parameter's address, if that can be read.
def sysSchedSetscheduler (cred : Cred) (cur : Int) (pid policy : UInt64) (param : Option Int) (s : Threads) :
    Int × Threads :=
  match s (schedTarget cur pid) with
  | none => (- ESRCH, s)
  | some t =>
    match param with
    | none => (- EFAULT, s)
    | some prio =>
      if (policy = 1 ∨ policy = 2) ∧ !cred.capableRoot then (- EPERM, s)
      else
        let r := schedSetscheduler t (toInt (policy &&& ~~~0x40000000)) prio
        (r.1, fun tid => if tid = schedTarget cur pid then some r.2 else s tid)

def sysSchedSetparam (cur : Int) (pid : UInt64) (param : Option Int) (s : Threads) : Int × Threads :=
  match s (schedTarget cur pid) with
  | none => (- ESRCH, s)
  | some t =>
    match param with
    | none => (- EFAULT, s)
    | some prio =>
      let r := schedSetscheduler t t.policy prio
      (r.1, fun tid => if tid = schedTarget cur pid then some r.2 else s tid)

inductive Call where
  | setscheduler (cur : Int) (pid policy : UInt64) (param : Option Int)
  | setparam (cur : Int) (pid : UInt64) (param : Option Int)

def Call.run (cred : Cred) : Call → Threads → Int × Threads
  | .setscheduler cur pid policy param => sysSchedSetscheduler cred cur pid policy param
  | .setparam cur pid param => sysSchedSetparam cur pid param

def after (cred : Cred) (calls : List Call) (s : Threads) : Threads := calls.foldl (fun s k => (k.run cred s).2) s

end Olux.Sched
