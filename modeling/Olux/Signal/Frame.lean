import Olux.Signal.Masks

namespace Olux.Signal.Frame

def SA_ONSTACK : BitVec 64 := 0x08000000
def SA_RESTORER : BitVec 64 := 0x04000000
def SS_ONSTACK : BitVec 32 := 1
def SS_DISABLE : BitVec 32 := 2
def FPSIMD_MAGIC : BitVec 32 := 0x46508001

def RT_SIGFRAME_SIZE : BitVec 64 := 4688
def FPSIMD_CONTEXT_SIZE : BitVec 32 := 528
def NZCV : BitVec 64 := 0xf <<< 28

structure Regs where
  regs : Vector (BitVec 64) 31
  sp : BitVec 64
  pc : BitVec 64
  pstate : BitVec 64

structure Fpsimd where
  vregs : Vector (BitVec 128) 32
  fpsr : BitVec 32
  fpcr : BitVec 32

structure Stack where
  ssSp : BitVec 64
  ssFlags : BitVec 32
  ssSize : BitVec 64

-- struct rt_sigframe, with the first record of `reserved`.
structure Sigframe where
  info : Siginfo
  ucStack : Stack
  ucSigmask : BitVec 64
  sc : Regs
  magic : BitVec 32
  size : BitVec 32
  fpsimd : Fpsimd

-- A thread that is in the kernel; `user` is what copying a frame from an address brings, if it does not fault.
structure Thread where
  regs : Regs
  fpsimd : Fpsimd
  sigaltstack : Stack
  sigBlocked : BitVec 64
  savedSigmask : BitVec 64
  restoreSigmask : Bool
  user : BitVec 64 → Option Sigframe

structure Action where
  handler : BitVec 64
  mask : BitVec 64
  flags : BitVec 64
  restorer : BitVec 64

def onSigStack (t : Thread) (sp : BitVec 64) : Bool :=
  t.sigaltstack.ssSize != 0 && t.sigaltstack.ssSp < sp && sp - t.sigaltstack.ssSp ≤ t.sigaltstack.ssSize

def frameAddr (t : Thread) (ka : Action) : BitVec 64 :=
  let sp := if ka.flags &&& SA_ONSTACK ≠ 0 ∧ t.sigaltstack.ssSize ≠ 0 ∧ t.sigaltstack.ssFlags &&& SS_DISABLE = 0 ∧
    !onSigStack t t.regs.sp then t.sigaltstack.ssSp + t.sigaltstack.ssSize else t.regs.sp
  (sp - RT_SIGFRAME_SIZE - 16) &&& ~~~15

-- setup_frame where it succeeds; the frame record behind the frame is not read again.
def setupFrame (sig : Int) (ka : Action) (info : Siginfo) (oldmask sigtramp : BitVec 64) (t : Thread) : Thread :=
  let addr := frameAddr t ka
  let flags := if onSigStack t t.regs.sp then SS_ONSTACK else if t.sigaltstack.ssSize ≠ 0 then 0 else SS_DISABLE
  let frame : Sigframe :=
    ⟨info, { t.sigaltstack with ssFlags := flags }, oldmask, t.regs, FPSIMD_MAGIC, FPSIMD_CONTEXT_SIZE, t.fpsimd⟩
  let restorer := if ka.flags &&& SA_RESTORER ≠ 0 then ka.restorer else sigtramp
  { t with
    user := fun a => if a = addr then some frame else t.user a
    regs :=
      { regs := ((((t.regs.regs.set 0 (.ofInt 64 sig)).set 1 addr).set 2 (addr + 128)).set 29
          (addr + RT_SIGFRAME_SIZE)).set 30 restorer
        sp := addr
        pc := ka.handler
        pstate := t.regs.pstate &&& ~~~(1#64 <<< 21) } }

def deliver (sig : Int) (ka : Action) (info : Siginfo) (sigtramp : BitVec 64) (t : Thread) : Thread :=
  let old := if t.restoreSigmask then t.savedSigmask else t.sigBlocked
  let t := setupFrame sig ka info old sigtramp { t with restoreSigmask := false }
  let blocked := t.sigBlocked ||| ka.mask &&& ~~~SIG_KERNEL_ONLY
  { t with sigBlocked := if ka.flags &&& SA_NODEFER = 0 then blocked ||| sigmask sig else blocked }

def rtSigreturn (t : Thread) : Option Thread :=
  if t.regs.sp &&& 15 ≠ 0 then none
  else
    (t.user t.regs.sp).map fun f =>
      let regs := { f.sc with pstate := f.sc.pstate &&& NZCV }
      let fpsimd := if f.magic = FPSIMD_MAGIC ∧ FPSIMD_CONTEXT_SIZE ≤ f.size then f.fpsimd else t.fpsimd
      let stack := if f.ucStack.ssFlags &&& SS_DISABLE = 0 ∧ 2048 ≤ f.ucStack.ssSize ∧ !onSigStack t regs.sp then
        { t.sigaltstack with ssSp := f.ucStack.ssSp, ssSize := f.ucStack.ssSize } else t.sigaltstack
      { t with regs, fpsimd, sigBlocked := f.ucSigmask &&& ~~~SIG_KERNEL_ONLY, sigaltstack := stack }

inductive How where
  | block
  | unblock
  | setmask

-- What happens to a thread. A program may change all but its masks; `suspend` is a call that puts a mask in
-- force for itself, and `resume` its end without a handler.
inductive Event where
  | program (regs : Regs) (fpsimd : Fpsimd) (stack : Stack) (user : BitVec 64 → Option Sigframe)
  | sigprocmask (how : How) (set : BitVec 64)
  | suspend (set : BitVec 64)
  | resume
  | deliver (sig : Int) (ka : Action) (info : Siginfo) (sigtramp : BitVec 64)
  | sigreturn

def step (t : Thread) : Event → Thread
  | .program regs fpsimd stack user => { t with regs, fpsimd, sigaltstack := stack, user }
  | .sigprocmask .block s => { t with sigBlocked := t.sigBlocked ||| s &&& ~~~SIG_KERNEL_ONLY }
  | .sigprocmask .unblock s => { t with sigBlocked := t.sigBlocked &&& ~~~(s &&& ~~~SIG_KERNEL_ONLY) }
  | .sigprocmask .setmask s => { t with sigBlocked := s &&& ~~~SIG_KERNEL_ONLY }
  | .suspend s =>
    { t with savedSigmask := t.sigBlocked, restoreSigmask := true, sigBlocked := s &&& ~~~SIG_KERNEL_ONLY }
  | .resume => if t.restoreSigmask then { t with restoreSigmask := false, sigBlocked := t.savedSigmask } else t
  -- sys_rt_sigaction refuses these two
  | .deliver sig ka info tramp => if sig = SIGKILL ∨ sig = SIGSTOP then t else deliver sig ka info tramp t
  | .sigreturn => (rtSigreturn t).getD t

def run (t : Thread) (evs : List Event) : Thread := evs.foldl step t

-- The first thread of init; the others start with the masks of their parents.
def boot (regs : Regs) (fpsimd : Fpsimd) (user : BitVec 64 → Option Sigframe) : Thread :=
  ⟨regs, fpsimd, ⟨0, 0, 0⟩, 0, 0, false, user⟩

structure Ok (t : Thread) : Prop where
  blocked : t.sigBlocked &&& SIG_KERNEL_ONLY = 0
  saved : t.savedSigmask &&& SIG_KERNEL_ONLY = 0

variable {t : Thread} {x y m : BitVec 64}

theorem and_not_and (x m : BitVec 64) : (x &&& ~~~m) &&& m = 0 := by
  rw [BitVec.and_assoc, BitVec.and_comm (~~~m), BitVec.and_not_self]
  exact BitVec.and_zero

theorem and_not_of_and_eq_zero (h : x &&& m = 0) : x &&& ~~~m = x := by
  refine BitVec.eq_of_getLsbD_eq fun i hi => ?_
  have hbit : (x.getLsbD i && m.getLsbD i) = false := by
    rw [← BitVec.getLsbD_and, h]
    exact BitVec.getLsbD_zero
  rw [BitVec.getLsbD_and, BitVec.getLsbD_not]
  cases hx : x.getLsbD i <;> simp_all

theorem or_and_eq_zero (hx : x &&& m = 0) (hy : y &&& m = 0) : (x ||| y) &&& m = 0 := by
  rw [BitVec.and_comm, BitVec.and_or_distrib_left, BitVec.and_comm m, BitVec.and_comm m, hx, hy, BitVec.or_self]

theorem sigmask_kernelOnly {sig : Int} (h : ¬(sig = SIGKILL ∨ sig = SIGSTOP)) : sigmask sig &&& SIG_KERNEL_ONLY = 0 := by
  by_contra hne
  obtain ⟨i, -, hi⟩ := ne_zero_iff.mp hne
  simp only [SIG_KERNEL_ONLY, BitVec.getLsbD_and, BitVec.getLsbD_or, getLsbD_sigmask, Bool.and_eq_true, Bool.or_eq_true,
    decide_eq_true_eq] at hi
  unfold SIGKILL SIGSTOP at *
  omega

theorem rtSigreturn_ok {u : Thread} (h : rtSigreturn t = some u) :
    u.regs.pstate &&& ~~~NZCV = 0 ∧ u.sigBlocked &&& SIG_KERNEL_ONLY = 0 ∧ u.savedSigmask = t.savedSigmask := by
  unfold rtSigreturn at h
  split at h
  · cases h
  obtain ⟨f, -, rfl⟩ := Option.map_eq_some_iff.mp h
  refine ⟨?_, and_not_and _ _, rfl⟩
  show (f.sc.pstate &&& NZCV) &&& ~~~NZCV = 0
  rw [BitVec.and_assoc, BitVec.and_not_self]
  exact BitVec.and_zero

theorem step_ok (h : Ok t) (ev : Event) : Ok (step t ev) := by
  cases ev with
  | program => exact ⟨h.blocked, h.saved⟩
  | sigprocmask how set =>
    refine ⟨?_, by cases how <;> exact h.saved⟩
    cases how with
    | block => exact or_and_eq_zero h.blocked (and_not_and _ _)
    | unblock =>
      show (t.sigBlocked &&& _) &&& SIG_KERNEL_ONLY = 0
      rw [BitVec.and_assoc, BitVec.and_comm _ SIG_KERNEL_ONLY, ← BitVec.and_assoc, h.blocked]
      exact BitVec.zero_and
    | setmask => exact and_not_and _ _
  | suspend => exact ⟨and_not_and _ _, h.blocked⟩
  | resume =>
    dsimp only [step]
    split
    · exact ⟨h.saved, h.saved⟩
    · exact h
  | deliver sig ka info tramp =>
    dsimp only [step]
    split
    · exact h
    rename_i hsig
    have hmask := or_and_eq_zero h.blocked (and_not_and ka.mask SIG_KERNEL_ONLY)
    refine ⟨?_, h.saved⟩
    dsimp only [deliver]
    split
    · exact or_and_eq_zero hmask (sigmask_kernelOnly hsig)
    · exact hmask
  | sigreturn =>
    dsimp only [step]
    cases hr : rtSigreturn t with
    | none => exact h
    | some u => exact ⟨(rtSigreturn_ok hr).2.1, (rtSigreturn_ok hr).2.2 ▸ h.saved⟩

theorem run_ok (h : Ok t) (evs : List Event) : Ok (run t evs) := by
  induction evs generalizing t with
  | nil => exact h
  | cons ev evs ih => exact ih (step_ok h ev)

-- In every run: a return with the frame that a delivery has written brings back what there was before it,
-- whatever has happened in between. No return at all gives more than the flags, or blocks the two signals.
theorem frames_round_trip (regs : Regs) (fpsimd : Fpsimd) (user : BitVec 64 → Option Sigframe) (evs : List Event) :
    let s := run (boot regs fpsimd user) evs
    (∀ sig ka info tramp, let t := deliver sig ka info tramp s
      ∀ u : Thread, u.regs.sp = t.regs.sp → u.user t.regs.sp = t.user t.regs.sp →
        ∃ v, rtSigreturn u = some v ∧ v.regs = { s.regs with pstate := s.regs.pstate &&& NZCV } ∧ v.fpsimd = s.fpsimd ∧
          v.sigBlocked = if s.restoreSigmask then s.savedSigmask else s.sigBlocked) ∧
    ∀ t u, rtSigreturn t = some u → u.regs.pstate &&& ~~~NZCV = 0 ∧ u.sigBlocked &&& SIG_KERNEL_ONLY = 0 := by
  intro s
  have hok : Ok s := run_ok ⟨BitVec.zero_and, BitVec.zero_and⟩ evs
  refine ⟨?_, fun t u h => ⟨(rtSigreturn_ok h).1, (rtSigreturn_ok h).2.1⟩⟩
  intro sig ka info tramp t u hsp huser
  have hmask : (if s.restoreSigmask then s.savedSigmask else s.sigBlocked) &&& SIG_KERNEL_ONLY = 0 := by
    split
    · exact hok.saved
    · exact hok.blocked
  have halign : u.regs.sp &&& 15 = 0 := hsp ▸ and_not_and _ _
  unfold rtSigreturn
  rw [if_neg (not_not_intro halign), hsp, huser]
  simp only [t, deliver, setupFrame, if_true, Option.map_some]
  refine ⟨_, rfl, rfl, ?_, and_not_of_and_eq_zero hmask⟩
  show (if FPSIMD_MAGIC = FPSIMD_MAGIC ∧ FPSIMD_CONTEXT_SIZE ≤ FPSIMD_CONTEXT_SIZE then s.fpsimd else u.fpsimd) = _
  exact if_pos (by decide)

end Olux.Signal.Frame
