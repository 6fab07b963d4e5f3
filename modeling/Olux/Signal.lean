import Olux.Basic

namespace Olux.Signal

def NSIG : Int := 64
def SIGQUIT : Int := 3
def SIGILL : Int := 4
def SIGTRAP : Int := 5
def SIGABRT : Int := 6
def SIGBUS : Int := 7
def SIGFPE : Int := 8
def SIGKILL : Int := 9
def SIGSEGV : Int := 11
def SIGCHLD : Int := 17
def SIGCONT : Int := 18
def SIGSTOP : Int := 19
def SIGTSTP : Int := 20
def SIGTTIN : Int := 21
def SIGTTOU : Int := 22
def SIGURG : Int := 23
def SIGXCPU : Int := 24
def SIGXFSZ : Int := 25
def SIGWINCH : Int := 28
def SIGSYS : Int := 31
def SI_KERNEL : Int := 0x80

def SIG_DFL : BitVec 64 := 0
def SIG_IGN : BitVec 64 := 1

def sigmask (sig : Int) : BitVec 64 := 1#64 <<< (sig - 1).toNat

inductive Action where
  | term
  | core
  | ign
  | stop
  | cont
deriving DecidableEq

def defaultAction (sig : Int) : Action :=
  if sig ∈ [SIGCHLD, SIGURG, SIGWINCH] then .ign
  else if sig = SIGCONT then .cont
  else if sig ∈ [SIGSTOP, SIGTSTP, SIGTTIN, SIGTTOU] then .stop
  else if sig ∈ [SIGQUIT, SIGILL, SIGTRAP, SIGABRT, SIGBUS, SIGFPE, SIGSEGV, SIGXCPU, SIGXFSZ, SIGSYS] then .core
  else .term

-- `fields` is the union behind the three integers.
structure Siginfo where
  siSigno : Int
  siErrno : Int
  siCode : Int
  fields : List UInt8

def Siginfo.zero : Siginfo := ⟨0, 0, 0, List.replicate 112 0⟩

structure Thread where
  tid : Nat
  sigPending : BitVec 64
  sigBlocked : BitVec 64
  sigWaiting : BitVec 64
  sigInfo : Int → Siginfo

-- The fields of `struct process` that signals are about. `threads` is the list `p->threads`, and
-- `handler` is what `sighand->action[sig].handler` holds.
structure Signals where
  sharedPending : BitVec 64
  sharedInfo : Int → Siginfo
  handler : Int → BitVec 64
  threads : List Thread
  zombie : Bool
  groupStop : Bool
  stopReported : Bool
  contReported : Bool
  stopSig : Int

variable (p : Signals)

def sigIgnored (sig : Int) : Bool :=
  if sig = SIGKILL ∨ sig = SIGSTOP then false
  else p.handler sig = SIG_IGN ∨ p.handler sig = SIG_DFL ∧ defaultAction sig = .ign

def queueSignal (set : BitVec 64) (infos : Int → Siginfo) (sig : Int) (info : Option Siginfo) :
    BitVec 64 × (Int → Siginfo) :=
  let base := info.getD { Siginfo.zero with siCode := SI_KERNEL }
  let stored := { base with siSigno := sig }
  (set ||| sigmask sig,
    if set &&& sigmask sig = 0 then fun s => if s = sig - 1 then stored else infos s else infos)

def stops : BitVec 64 := sigmask SIGSTOP ||| sigmask SIGTSTP ||| sigmask SIGTTIN ||| sigmask SIGTTOU

def prepareSignal (sig : Int) : Signals :=
  if sig = SIGCONT ∨ sig = SIGKILL then
    { p with
      sharedPending := p.sharedPending &&& ~~~stops
      threads := p.threads.map fun t => { t with sigPending := t.sigPending &&& ~~~stops }
      groupStop := false
      contReported := if p.groupStop then false else p.contReported }
  else if defaultAction sig = .stop then { p with sharedPending := p.sharedPending &&& ~~~sigmask SIGCONT }
  else p

def Signals.thread? (tid : Nat) : Option Thread := p.threads.find? fun t => t.tid == tid

def modifyThread (tid : Nat) (f : Thread → Thread) : List Thread → List Thread
  | [] => []
  | t :: l => if t.tid = tid then f t :: l else t :: modifyThread tid f l

def Signals.modify (tid : Nat) (f : Thread → Thread) : Signals :=
  { p with threads := modifyThread tid f p.threads }

def Thread.queue (t : Thread) (sig : Int) (info : Option Siginfo) : Thread :=
  let r := queueSignal t.sigPending t.sigInfo sig info
  { t with sigPending := r.1, sigInfo := r.2 }

def sendSignalThread (tid : Nat) (sig : Int) (info : Option Siginfo) : Int × Signals :=
  if sig ≤ 0 ∨ sig > NSIG then (-EINVAL, p)
  else
    let p := prepareSignal p sig
    match p.thread? tid with
    | none => (0, p)
    | some t =>
      if !sigIgnored p sig || (t.sigBlocked ||| t.sigWaiting) &&& sigmask sig != 0 then
        (0, p.modify tid fun t => t.queue sig info)
      else (0, p)

def sendSignalProcess (sig : Int) (info : Option Siginfo) : Int × Signals :=
  if sig < 0 ∨ sig > NSIG then (-EINVAL, p)
  else if sig = 0 then (0, p)
  else if p.zombie then (0, p)
  else
    let p := prepareSignal p sig
    -- an ignored signal is kept for a thread that blocks it or waits for it
    let ignored := sigIgnored p sig && !p.threads.any fun t => (t.sigBlocked ||| t.sigWaiting) &&& sigmask sig != 0
    if ignored then (0, p)
    else
      let r := queueSignal p.sharedPending p.sharedInfo sig info
      (0, { p with sharedPending := r.1, sharedInfo := r.2 })

def ctzll (b : BitVec 64) : Nat := ((List.range 64).find? fun i => b.getLsbD i).getD 64

def syncSignals : List Int := [SIGSEGV, SIGBUS, SIGILL, SIGTRAP, SIGFPE, SIGSYS]

def firstOf (pend : BitVec 64) : Int :=
  (syncSignals.find? fun sig => pend &&& sigmask sig != 0).getD (ctzll pend + 1)

def dequeueSignal (tid : Nat) : Int × Option Siginfo × Signals :=
  match p.thread? tid with
  | none => (0, none, p)
  | some t =>
    let pend := t.sigPending &&& ~~~t.sigBlocked
    if pend ≠ 0 then
      let sig := firstOf pend
      (sig, some (t.sigInfo (sig - 1)), p.modify tid fun t => { t with sigPending := t.sigPending &&& ~~~sigmask sig })
    else
      let pend := p.sharedPending &&& ~~~t.sigBlocked
      if pend ≠ 0 then
        let sig : Int := ctzll pend + 1
        (sig, some (p.sharedInfo (sig - 1)), { p with sharedPending := p.sharedPending &&& ~~~sigmask sig })
      else (0, none, p)

def Signals.pending : BitVec 64 := p.threads.foldl (fun set t => set ||| t.sigPending) p.sharedPending

-- What can happen to the signals of a process. Masks and handlers change at any time, and threads
-- come and go; a new thread has nothing pending.
inductive Event where
  | sendThread (tid : Nat) (sig : Int) (info : Option Siginfo)
  | sendProcess (sig : Int) (info : Option Siginfo)
  | dequeue (tid : Nat)
  | mask (tid : Nat) (blocked waiting : BitVec 64)
  | sigaction (sig : Int) (handler : BitVec 64)
  | create (tid : Nat) (blocked : BitVec 64)
  | exit (tid : Nat)

def rtSigaction (sig : Int) (handler : BitVec 64) : Signals :=
  if sig < 1 ∨ sig > NSIG ∨ sig = SIGKILL ∨ sig = SIGSTOP then p
  else
    let p := { p with handler := fun s => if s = sig then handler else p.handler s }
    if sigIgnored p sig then
      { p with
        sharedPending := p.sharedPending &&& ~~~sigmask sig
        threads := p.threads.map fun t => { t with sigPending := t.sigPending &&& ~~~sigmask sig } }
    else p

def step : Event → Signals
  | .sendThread tid sig info => (sendSignalThread p tid sig info).2
  | .sendProcess sig info => (sendSignalProcess p sig info).2
  | .dequeue tid => (dequeueSignal p tid).2.2
  | .mask tid blocked waiting => p.modify tid fun t => { t with sigBlocked := blocked, sigWaiting := waiting }
  | .sigaction sig handler => rtSigaction p sig handler
  | .create tid blocked =>
    if p.threads.any fun t => t.tid == tid then p
    else { p with threads := p.threads ++ [⟨tid, 0, blocked, 0, fun _ => .zero⟩] }
  | .exit tid => { p with threads := p.threads.filter fun t => t.tid ≠ tid }

def run (evs : List Event) : Signals := evs.foldl step p

end Olux.Signal
