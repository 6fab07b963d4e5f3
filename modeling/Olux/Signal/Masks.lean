import Olux.Signal.Theorems

namespace Olux.Signal

open List

def SA_NODEFER : BitVec 64 := 0x40000000
def SA_RESETHAND : BitVec 64 := 0x80000000

def SIG_KERNEL_ONLY : BitVec 64 := sigmask SIGKILL ||| sigmask SIGSTOP

structure Task where
  p : Signals
  savedSigmask : BitVec 64
  restoreSigmask : Bool

def Task.blocked (s : Task) (tid : Nat) : BitVec 64 := ((s.p.thread? tid).map Thread.sigBlocked).getD 0

def setBlocked (tid : Nat) (mask : BitVec 64) (p : Signals) : Signals := p.modify tid fun t => { t with sigBlocked := mask }

structure Sigaction where
  mask : BitVec 64
  flags : BitVec 64

structure Env where
  action : Int → Sigaction
  isInit : Bool
  orphaned : Bool

inductive Delivery where
  | handler (sig : Int) (old : BitVec 64) (s : Task)
  | stopped (sig : Int) (s : Task)
  | exited (sig : Int)
  | nothing (s : Task)

-- `do_signal` where frames can be set up, up to a stop; `none` if it is still in the loop after `n` turns.
def doSignal (e : Env) (tid : Nat) : Nat → Task → Option Delivery
  | 0, _ => none
  | n + 1, s =>
    let (sig, _, p) := dequeueSignal s.p tid
    let t := { s with p }
    if sig = 0 then
      some (.nothing (if s.restoreSigmask then ⟨setBlocked tid s.savedSigmask p, s.savedSigmask, false⟩ else t))
    else if s.p.handler sig = SIG_IGN then doSignal e tid n t
    else if s.p.handler sig = SIG_DFL then
      if defaultAction sig = .ign ∨ defaultAction sig = .cont then doSignal e tid n t
      else if e.isInit ∧ sig ≠ SIGKILL then doSignal e tid n t
      else if defaultAction sig = .stop then
        if sig ≠ SIGSTOP ∧ e.orphaned then doSignal e tid n t else some (.stopped sig t)
      else some (.exited sig)
    else
      let ka := e.action sig
      let blocked := s.blocked tid ||| ka.mask &&& ~~~SIG_KERNEL_ONLY
      let blocked := if ka.flags &&& SA_NODEFER = 0 then blocked ||| sigmask sig else blocked
      let handler := if ka.flags &&& SA_RESETHAND = 0 then p.handler else fun x => if x = sig then SIG_DFL else p.handler x
      some (.handler sig (if s.restoreSigmask then s.savedSigmask else s.blocked tid)
        ⟨{ setBlocked tid blocked p with handler }, s.savedSigmask, false⟩)

inductive Wait where
  | ppoll
  | pselect6
deriving DecidableEq

def Wait.enter (w : Wait) (tid : Nat) (m : BitVec 64) (s : Task) : Task :=
  let p := setBlocked tid (m &&& ~~~SIG_KERNEL_ONLY) s.p
  match w with
  | .ppoll => ⟨p, s.blocked tid, true⟩
  | .pselect6 => { s with p }

def Wait.leave (w : Wait) (tid : Nat) (old : BitVec 64) (r : Int) (s : Task) : Int × Task :=
  match w with
  | .ppoll => if r ≠ - ERESTARTNOHAND then (r, ⟨setBlocked tid old s.p, s.savedSigmask, false⟩) else (- EINTR, s)
  | .pselect6 => (if r = - ERESTARTNOHAND then - EINTR else r, { s with p := setBlocked tid old s.p })

variable {p : Signals} {sig : Int} {tid : Nat} {t : Thread}

theorem thread_modify {f : Thread → Thread} (hf : ∀ t, (f t).tid = t.tid) (h : p.thread? tid = some t) :
    (p.modify tid f).thread? tid = some (f t) := by
  unfold Signals.thread? Signals.modify at *
  generalize p.threads = l at h
  induction l with
  | nil => cases h
  | cons u l ih =>
  unfold modifyThread
  split
  · rename_i hu
    rw [find?_cons_of_pos (by simpa using hu)] at h
    cases h
    exact find?_cons_of_pos (by simpa [hf] using hu)
  rename_i hu
  rw [find?_cons_of_neg (by simpa using hu)] at h ⊢
  exact ih h

theorem ctzll_mem {x : BitVec 64} (h : x ≠ 0) : x &&& sigmask (ctzll x + 1) ≠ 0 := by
  obtain ⟨i, hi, hbit⟩ := ne_zero_iff.mp h
  obtain ⟨j, hj⟩ := Option.isSome_iff_exists.mp (find?_isSome.mpr ⟨i, mem_range.mpr hi, hbit⟩)
  have hlt : j < 64 := mem_range.mp (mem_of_find?_eq_some hj)
  refine ne_zero_iff.mpr ⟨j, hlt, ?_⟩
  rw [BitVec.getLsbD_and, getLsbD_sigmask, ctzll, hj, (find?_some hj : x.getLsbD j = true)]
  simp [hlt]

theorem firstOf_mem {x : BitVec 64} (h : x ≠ 0) : x &&& sigmask (firstOf x) ≠ 0 := by
  unfold firstOf
  cases hf : syncSignals.find? fun sig => x &&& sigmask sig != 0 with
  | none => exact ctzll_mem h
  | some sig => exact bne_iff_ne.mp (find?_some hf : _)

theorem unblocked_of_ne_zero {x b : BitVec 64} (h : (x &&& ~~~b) &&& sigmask sig ≠ 0) : b &&& sigmask sig = 0 := by
  by_contra hb
  obtain ⟨i, hi, hx⟩ := ne_zero_iff.mp h
  obtain ⟨j, -, hb⟩ := ne_zero_iff.mp hb
  simp only [BitVec.getLsbD_and, BitVec.getLsbD_not, getLsbD_sigmask, Bool.and_eq_true, decide_eq_true_eq,
    Bool.not_eq_true'] at hx hb
  obtain rfl : i = j := hx.2.2.trans hb.2.2.symm
  rw [hb.1] at hx
  exact absurd hx.1.2.2 (by decide)

theorem dequeueSignal_unblocked (ht : p.thread? tid = some t) (hne : (dequeueSignal p tid).1 ≠ 0) :
    t.sigBlocked &&& sigmask (dequeueSignal p tid).1 = 0 ∧
      ∃ u, (dequeueSignal p tid).2.2.thread? tid = some u ∧ u.sigBlocked = t.sigBlocked := by
  simp only [dequeueSignal, ht] at hne ⊢
  split
  · rename_i hown
    exact ⟨unblocked_of_ne_zero (firstOf_mem hown), _, thread_modify (fun _ => rfl) ht, rfl⟩
  split
  · rename_i hshared
    exact ⟨unblocked_of_ne_zero (ctzll_mem hshared), t, ht, rfl⟩
  rename_i hown hshared
  rw [if_neg hown, if_neg hshared] at hne
  exact absurd rfl hne

theorem doSignal_unblocked {e : Env} {n : Nat} {s s' : Task} {old : BitVec 64} (ht : s.p.thread? tid = some t)
    (h : doSignal e tid n s = some (.handler sig old s')) : t.sigBlocked &&& sigmask sig = 0 := by
  induction n generalizing s t with
  | zero => cases h
  | succ n ih =>
  unfold doSignal at h
  have hdq := dequeueSignal_unblocked ht
  generalize dequeueSignal s.p tid = r at h hdq
  obtain ⟨sig', info, p'⟩ := r
  dsimp only at h hdq
  split at h
  · cases h
  rename_i hne
  obtain ⟨hfree, u, hu, hmask⟩ := hdq hne
  have hnext : doSignal e tid n { s with p := p' } = some (.handler sig old s') → t.sigBlocked &&& sigmask sig = 0 :=
    fun h => hmask ▸ ih hu h
  split at h
  · exact hnext h
  split at h
  · split at h
    · exact hnext h
    split at h
    · exact hnext h
    split at h
    · split at h
      · exact hnext h
      · cases h
    · cases h
  · cases h
    exact hfree

-- `do_signal` runs the handler of the signal that has ended the wait exactly if the call is sys_ppoll:
-- sys_pselect6 has put the old mask back by then. `arrive` is what becomes of the signals during the wait.
theorem interrupted_runs_handler_iff (w : Wait) (e : Env) (n : Nat) (m : BitVec 64) (s : Task) (arrive : Signals → Signals)
    (hsig : (dequeueSignal (arrive (w.enter tid m s).p) tid).1 = sig) (hne : sig ≠ 0)
    (hold : s.blocked tid &&& sigmask sig ≠ 0) (hdfl : (arrive (w.enter tid m s).p).handler sig ≠ SIG_DFL)
    (hign : (arrive (w.enter tid m s).p).handler sig ≠ SIG_IGN) :
    let s' := w.enter tid m s
    let r := w.leave tid (s.blocked tid) (- ERESTARTNOHAND) { s' with p := arrive s'.p }
    r.1 = - EINTR ∧ ((∃ t, doSignal e tid (n + 1) r.2 = some (.handler sig (s.blocked tid) t)) ↔ w = .ppoll) := by
  generalize hp : arrive (w.enter tid m s).p = p at hsig hdfl hign
  dsimp only
  rw [hp]
  cases w with
  | ppoll =>
    refine ⟨rfl, iff_of_true ?_ rfl⟩
    simp only [Wait.leave, Wait.enter, ne_eq, not_true_eq_false, if_false, doSignal, hsig, hne, hign, hdfl, if_true]
    exact ⟨_, rfl⟩
  | pselect6 =>
  refine ⟨rfl, iff_of_false ?_ (by decide)⟩
  rintro ⟨t, ht⟩
  cases hu : p.thread? tid with
  | none =>
    rw [dequeueSignal, hu] at hsig
    exact hne hsig.symm
  | some u =>
    have hmask := thread_modify (f := fun t => { t with sigBlocked := s.blocked tid }) (fun _ => rfl) hu
    exact hold (doSignal_unblocked hmask ht)

def usr1 (blocked : BitVec 64) : Task where
  p := ⟨0, fun _ => .zero, fun _ => 0x1000, [⟨1, 0, blocked, 0, fun _ => .zero⟩], false, false, false, false, 0⟩
  savedSigmask := 0
  restoreSigmask := false

def raised (p : Signals) : Signals := { p with sharedPending := sigmask 10 }

def plainEnv : Env := ⟨fun _ => ⟨0, 0⟩, false, false⟩

theorem ppoll_runs_handler :
    ∃ t, doSignal plainEnv 1 1 (Wait.leave .ppoll 1 (sigmask 10) (- ERESTARTNOHAND)
      { Wait.enter .ppoll 1 0 (usr1 (sigmask 10)) with
        p := raised (Wait.enter .ppoll 1 0 (usr1 (sigmask 10))).p }).2 = some (.handler 10 (sigmask 10) t) :=
  (interrupted_runs_handler_iff .ppoll plainEnv 0 0 (usr1 (sigmask 10)) raised (by decide) (by decide) (by decide)
    (by decide) (by decide)).2.mpr rfl

theorem pselect6_leaves_signal :
    ∃ t, doSignal plainEnv 1 1 (Wait.leave .pselect6 1 (sigmask 10) (- ERESTARTNOHAND)
      { Wait.enter .pselect6 1 0 (usr1 (sigmask 10)) with
        p := raised (Wait.enter .pselect6 1 0 (usr1 (sigmask 10))).p }).2 = some (.nothing t) ∧
      t.blocked 1 = sigmask 10 ∧ t.p.sharedPending = sigmask 10 :=
  ⟨_, rfl, by decide, by decide⟩

end Olux.Signal
