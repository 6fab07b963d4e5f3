import Olux.Futex

namespace Olux.Futex

def NSEC_PER_SEC : Int := 1000000000

structure Timespec where
  sec : Int
  nsec : Int

def Timespec.Valid (ts : Timespec) : Prop := 0 ≤ ts.sec ∧ 0 ≤ ts.nsec ∧ ts.nsec < NSEC_PER_SEC

def Timespec.ns (ts : Timespec) : Int := ts.sec * NSEC_PER_SEC + ts.nsec

-- What `sys_futex` makes of a timeout for `futex_wait`. `clock` is the reading of the clock that
-- FUTEX_CLOCK_REALTIME selects. The sums stay inside s64, since long times are cut off first.
def futexTimeout (bitset : Bool) (ts : Timespec) (clock : Int) : Except Int Int :=
  if ts.sec < 0 ∨ ts.nsec < 0 ∨ ts.nsec ≥ NSEC_PER_SEC then .error (- EINVAL)
  else
    let ns := if ts.sec > 1000000000 then 2 ^ 62 else ts.sec * NSEC_PER_SEC + ts.nsec
    .ok (if bitset then (if ns > clock then ns - clock else 0) else ns)

-- `schedule_timeout` called at `start` and back at `wake`: when its timer expires, and its result.
def scheduleTimeout (ns : Int) (start wake : Nat) : Nat × Nat :=
  let stop := (start + ns.toNat) % 2 ^ 64
  (stop, if wake ≥ stop then 0 else stop - wake)

def timesOut (ns : Int) (start wake : Nat) : Bool := ns ≥ 0 && (ns = 0 || (scheduleTimeout ns start wake).2 = 0)

-- The time `ts` is kept. `clock` was read when the monotonic clock was at `mono`; the timer is late
-- by what passes until it is started.
structure Kept (ts : Timespec) (clock : Nat) : Prop where
  handed : futexTimeout true ts clock = .ok (max 0 (ts.ns - clock))
  timer : ∀ mono start wake : Nat, mono ≤ start → start < 2 ^ 63 → clock < ts.ns →
    clock + ((scheduleTimeout (ts.ns - clock) start wake).1 - mono : Int) = ts.ns + (start - mono)
  late : ∀ mono start wake : Nat, mono ≤ start → start ≤ wake → start < 2 ^ 63 →
    timesOut (max 0 (ts.ns - clock)) start wake = true → ts.ns ≤ clock + (wake - mono)

variable {ts : Timespec} {clock : Nat}

theorem futexTimeout_of_valid (hv : ts.Valid) (clock : Int) : futexTimeout true ts clock =
    .ok (max 0 ((if ts.sec > 1000000000 then 2 ^ 62 else ts.ns) - clock)) := by
  obtain ⟨hsec, hnsec, hlt⟩ := hv
  unfold futexTimeout
  rw [if_neg (by omega)]
  dsimp only
  congr 1
  rw [if_pos rfl, Timespec.ns]
  split <;> omega

theorem scheduleTimeout_stop {ns : Int} (hpos : 0 ≤ ns) (hlt : ns < 2 ^ 63) {start : Nat} (hstart : start < 2 ^ 63)
    (wake : Nat) : ((scheduleTimeout ns start wake).1 : Int) = start + ns := by
  have hsum : start + ns.toNat < 2 ^ 64 := by omega
  rw [scheduleTimeout, Nat.mod_eq_of_lt hsum]
  omega

theorem timesOut_late {ns : Int} (hlt : ns < 2 ^ 63) {start wake : Nat} (hstart : start < 2 ^ 63) (hwake : start ≤ wake)
    (h : timesOut ns start wake = true) : start + ns ≤ wake := by
  simp only [timesOut, Bool.and_eq_true, Bool.or_eq_true, decide_eq_true_eq] at h
  obtain ⟨hpos, hzero | hback⟩ := h
  · omega
  have hstop := scheduleTimeout_stop hpos hlt hstart wake
  simp only [scheduleTimeout] at hstop hback
  split at hback <;> omega

-- Wall clock times of today are beyond the first billion seconds.
theorem absolute_timeout_kept_iff (hv : ts.Valid) (hfit : ts.ns < 2 ^ 63) (hclock : clock < 2 ^ 63) :
    Kept ts clock ↔ ts.sec ≤ 1000000000 ∨ ts.ns = 2 ^ 62 ∨ max ts.ns (2 ^ 62) ≤ clock := by
  have hhanded := futexTimeout_of_valid hv clock
  constructor
  · intro h
    rw [h.handed, Except.ok.injEq] at hhanded
    split at hhanded <;> omega
  intro h
  refine ⟨?_, fun mono start wake hms hstart hlt => ?_, fun mono start wake hms hsw hstart hout => ?_⟩
  · rw [hhanded, Except.ok.injEq]
    split <;> omega
  · rw [scheduleTimeout_stop (by omega) (by omega) hstart]
    omega
  · have := timesOut_late (by omega) hstart hsw hout
    omega

theorem absolute_timeout_kept_uptime : Kept ⟨90, 5⟩ 60000000000 :=
  (absolute_timeout_kept_iff ⟨by decide, by decide, by decide⟩ (by decide) (by decide)).mpr (.inl (by decide))

theorem wall_clock_timeout_lost : futexTimeout true ⟨1700000001, 0⟩ 1700000000000000000 = .ok 2911686018427387904 ∧
      ¬ Kept ⟨1700000001, 0⟩ 1700000000000000000 := by
  refine ⟨rfl, fun h => ?_⟩
  have heq : (2911686018427387904 : Int) = max 0 (Timespec.ns ⟨1700000001, 0⟩ - 1700000000000000000) :=
    Except.ok.inj h.handed
  simp only [Timespec.ns, NSEC_PER_SEC] at heq
  omega

end Olux.Futex
