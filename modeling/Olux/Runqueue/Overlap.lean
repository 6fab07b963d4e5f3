import Olux.Runqueue.Affinity

-- Sections under the locks of different CPUs that are about the same thread. `activate` enqueues a thread under the
-- lock of the CPU it is put on, `sched_setscheduler` takes the lock of the CPU that `t->cpu` names, and until the end
-- of `enqueue` that is the CPU the thread was on before.

namespace Olux.Runqueue

open List Option

variable {s s' : State} {c n : Nat} {t : Tid} {p : Sched.Thread}

structure Consistent (s : State) : Prop where
  once : ∀ t c c' p p', t ∈ (s.cpu c).runqueue p → t ∈ (s.cpu c').runqueue p' → c = c' ∧ p = p'
  nodup : ∀ c p, ((s.cpu c).runqueue p).Nodup
  onRq : ∀ t, (s.thread t).onRq = true ↔ ∃ c p, t ∈ (s.cpu c).runqueue p
  place : ∀ t c p, t ∈ (s.cpu c).runqueue p → (s.thread t).cpu = c ∧ (s.thread t).sched.prio = p ∧ p < NR_PRIO
  bits : ∀ c, ∀ p < NR_PRIO, (s.cpu c).bitmap.getLsbD p = true ↔ (s.cpu c).runqueue p ≠ []
  count : ∀ c, (s.cpu c).nrRunning = ∑ p ∈ Finset.range NR_PRIO, (((s.cpu c).runqueue p).length : Int)
  pick : ∀ c, (pickNext c s = none ∧ ∀ p, (s.cpu c).runqueue p = []) ∨
    ∃ t, pickNext c s = some (t, dequeue c t s) ∧ ∃ p < NR_PRIO, ((s.cpu c).runqueue p).head? = some t ∧
      ∀ q < p, (s.cpu c).runqueue q = []

-- `enqueue` at the tail up to `nr_running++`, and the rest of it.
def link (c : Nat) (t : Tid) (s : State) : State :=
  let rq := s.cpu c
  let level := (s.thread t).level
  s.setCpu c { rq with
    runqueue := Function.update rq.runqueue level (rq.runqueue level ++ [t])
    bitmap := rq.bitmap ||| 1#32 <<< level
    nrRunning := rq.nrRunning + 1 }

def mark (c : Nat) (t : Tid) (s : State) : State := s.setThread t { s.thread t with onRq := true, cpu := c }

-- `activate` on the CPU `c`; the other CPU gives the thread, which is not on_rq, the parameters `p` between the halves.
def activateAcross (c : Nat) (t : Tid) (p : Sched.Thread) (s : State) : State :=
  let s := mark c t ((link c t s).setThread t { s.thread t with sched := p })
  if (s.thread t).sched.prio < currPrio c s then reschedCpu c s else s

-- A section by itself, or the `activate` of a thread with a call that changes its parameters inside it.
inductive Section where
  | alone (ev : Event)
  | across (n : Nat) (ev : Event)

-- The CPU the thread is put on and the parameters it gets, if the two sections can overlap: their locks are not the same.
def Section.overlap (s : State) (n : Nat) (ev : Event) : Option (Nat × Sched.Thread) :=
  match s.waking.find? fun w => w.1 = .thread n, ev.params s with
  | some (_, some c), some (m, p) => if c ≠ (s.thread (.thread n)).cpu ∧ m = n then some (c, p) else none
  | _, _ => none

def Section.step (s : State) : Section → State
  | .alone ev => Runqueue.step s ev
  | .across n ev =>
    match Section.overlap s n ev with
    | some (c, p) => activateAcross c (.thread n) p { s with waking := s.waking.filter fun w => w.1 ≠ .thread n }
    | none => s

def AlwaysConsistent : State → List Section → Prop
  | s, [] => Consistent s
  | s, x :: xs => Consistent s ∧ AlwaysConsistent (x.step s) xs

theorem AlwaysConsistent.head {xs : List Section} (h : AlwaysConsistent s xs) : Consistent s := by
  cases xs with
  | nil => exact h
  | cons x xs => exact h.1

-- Thread 1, which slept on CPU 0, is woken while CPU 0 is busy and goes to CPU 1.
def woken : List Event :=
  [.new 1 0 3 nice0, .select 1, .activate 1, .schedule 0, .state 0 .interruptible, .schedule 0, .new 2 0 1 nice0,
    .select 2, .activate 2, .schedule 0, .wake 1 [.interruptible], .select 1]

end Olux.Runqueue
