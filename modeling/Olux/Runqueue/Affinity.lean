import Olux.Runqueue.Theorems

namespace Olux.Runqueue

open List Option

open Sched (SCHED_OTHER)

variable {s s' : State} {c : Nat} {t next : Tid}

structure Placed (s : State) : Prop where
  some : ∀ n, (s.thread (.thread n)).started = true → (s.thread (.thread n)).cpusAllowed &&& onlineMask s ≠ 0
  here : ∀ n, (s.thread (.thread n)).onRq = true ∨ (s.thread (.thread n)).onCpu = true →
    (s.thread (.thread n)).cpusAllowed.getLsbD (s.thread (.thread n)).cpu = true
  soon : ∀ n c, (.thread n, Option.some c) ∈ s.waking → (s.thread (.thread n)).cpusAllowed.getLsbD c = true

theorem onlineMask_congr (hncpu : s'.ncpu = s.ncpu) (h : ∀ d, (s'.cpu d).online = (s.cpu d).online) :
    onlineMask s' = onlineMask s := by
  unfold onlineMask
  rw [hncpu]
  congr 1
  funext m i
  rw [h]

theorem Placed.congr (h : Placed s) (honline : onlineMask s' = onlineMask s)
    (hthread : ∀ n, ((s'.thread (.thread n)).started = true → (s.thread (.thread n)).started = true) ∧
      (s'.thread (.thread n)).cpusAllowed = (s.thread (.thread n)).cpusAllowed ∧
      ((s'.thread (.thread n)).onRq = true ∨ (s'.thread (.thread n)).onCpu = true →
        ((s.thread (.thread n)).onRq = true ∨ (s.thread (.thread n)).onCpu = true) ∧
          (s'.thread (.thread n)).cpu = (s.thread (.thread n)).cpu))
    (hwaking : ∀ n c, (.thread n, Option.some c) ∈ s'.waking → (.thread n, Option.some c) ∈ s.waking) : Placed s' where
  some n hn := by
    rw [honline, (hthread n).2.1]
    exact h.some n ((hthread n).1 hn)
  here n hn := by
    obtain ⟨hn', hcpu⟩ := (hthread n).2.2 hn
    rw [(hthread n).2.1, hcpu]
    exact h.here n hn'
  soon n c hw := by
    rw [(hthread n).2.1]
    exact h.soon n c (hwaking n c hw)

theorem Placed.replace (h : Placed s) {n : Nat} (honline : onlineMask s' = onlineMask s)
    (hother : ∀ m, Tid.thread m ≠ .thread n → s'.thread (.thread m) = s.thread (.thread m) ∧
      ∀ d, (.thread m, Option.some d) ∈ s'.waking → (.thread m, Option.some d) ∈ s.waking)
    (hsome : (s'.thread (.thread n)).started = true → (s'.thread (.thread n)).cpusAllowed &&& onlineMask s ≠ 0)
    (hhere : (s'.thread (.thread n)).onRq = true ∨ (s'.thread (.thread n)).onCpu = true →
      (s'.thread (.thread n)).cpusAllowed.getLsbD (s'.thread (.thread n)).cpu = true)
    (hsoon : ∀ d, (.thread n, Option.some d) ∈ s'.waking → (s'.thread (.thread n)).cpusAllowed.getLsbD d = true) :
    Placed s' where
  some m hm := by
    rw [honline]
    by_cases hmn : Tid.thread m = .thread n
    · rw [hmn] at hm ⊢
      exact hsome hm
    · rw [(hother m hmn).1] at hm ⊢
      exact h.some m hm
  here m hm := by
    by_cases hmn : Tid.thread m = .thread n
    · rw [hmn] at hm ⊢
      exact hhere hm
    · rw [(hother m hmn).1] at hm ⊢
      exact h.here m hm
  soon m d hw := by
    by_cases hmn : Tid.thread m = .thread n
    · rw [hmn] at hw ⊢
      exact hsoon d hw
    · rw [(hother m hmn).1]
      exact h.soon m d ((hother m hmn).2 d hw)

theorem Placed.setThread (h : Placed s) {x : Thread} (hstarted : x.started = (s.thread t).started)
    (honCpu : x.onCpu = (s.thread t).onCpu) (honRq : x.onRq = (s.thread t).onRq) (hcpu : x.cpu = (s.thread t).cpu)
    (hallowed : x.cpusAllowed = (s.thread t).cpusAllowed) : Placed (s.setThread t x) := by
  refine h.congr (onlineMask_congr rfl fun _ => rfl) (fun n => ?_) (fun _ _ hw => hw)
  rw [setThread_thread]
  split
  · rename_i heq
    rw [heq, hstarted, hallowed, honRq, honCpu, hcpu]
    exact ⟨id, rfl, fun hc => ⟨hc, rfl⟩⟩
  · exact ⟨id, rfl, fun hc => ⟨hc, rfl⟩⟩

theorem reschedCpu_online (s : State) (c d : Nat) : ((reschedCpu c s).cpu d).online = (s.cpu d).online := by
  unfold reschedCpu
  rw [setCpu_cpu]
  split
  · rename_i hd
    rw [hd]
  · rfl

theorem Placed.resched (h : Placed s) (c : Nat) : Placed (reschedCpu c s) :=
  h.congr (onlineMask_congr rfl (reschedCpu_online s c)) (fun _ => ⟨id, rfl, fun hc => ⟨hc, rfl⟩⟩) (fun _ _ hw => hw)

theorem selectLoop_isSome {allowed : BitVec 64} {is : List Nat} {best : Option Nat}
    (h : best ≠ none ∨ ∃ i ∈ is, (s.cpu i).online = true ∧ allowed.getLsbD i = true) :
    selectLoop s allowed is best ≠ none := by
  induction is generalizing best with
  | nil =>
    rcases h with h | ⟨i, hi, -⟩
    · exact h
    · cases hi
  | cons j is ih =>
  unfold selectLoop
  split
  · rename_i hj
    refine ih (h.imp_right ?_)
    rintro ⟨i, hi, hon, hal⟩
    rcases mem_cons.mp hi with rfl | hi
    · rw [hon, hal] at hj
      cases hj
    · exact ⟨i, hi, hon, hal⟩
  split
  · exact some_ne_none _
  refine ih (.inl ?_)
  split
  · exact some_ne_none _
  split
  · exact some_ne_none _
  · exact some_ne_none _

theorem getLsbD_onlineMask {i : Nat} (h : (onlineMask s).getLsbD i = true) :
    i < s.ncpu.val ∧ (s.cpu i).online = true := by
  have hfold : ∀ (is : List Nat) (m : BitVec 64),
      (is.foldl (fun m i => if (s.cpu i).online then m ||| 1#64 <<< i else m) m).getLsbD i = true →
        m.getLsbD i = true ∨ i ∈ is ∧ (s.cpu i).online = true := by
    intro is
    induction is with
    | nil => exact fun m hm => .inl hm
    | cons j is ih =>
    intro m hm
    rcases ih _ hm with hm | ⟨hi, hon⟩
    · dsimp only at hm
      split at hm
      · rename_i hon
        rw [BitVec.getLsbD_or, Bool.or_eq_true] at hm
        refine hm.imp_right fun hm => ?_
        rw [BitVec.getLsbD_shiftLeft, BitVec.getLsbD_one] at hm
        have hij : i = j := by
          simp only [Bool.and_eq_true, Bool.not_eq_true', decide_eq_true_eq, decide_eq_false_iff_not] at hm
          omega
        rw [hij]
        exact ⟨mem_cons_self, hon⟩
      · exact .inl hm
    · exact .inr ⟨mem_cons_of_mem _ hi, hon⟩
  rcases hfold _ _ h with hz | ⟨hi, hon⟩
  · simp at hz
  · exact ⟨mem_range.mp hi, hon⟩

theorem selectCpu_allowed (h : (s.thread t).cpusAllowed &&& onlineMask s ≠ 0) :
    (s.thread t).cpusAllowed.getLsbD (selectCpu s t) = true := by
  unfold selectCpu
  dsimp only
  split
  · rename_i hprev
    rw [Bool.and_eq_true, Bool.and_eq_true] at hprev
    exact hprev.1.2
  have hex : ∃ i ∈ List.range s.ncpu, (s.cpu i).online = true ∧ (s.thread t).cpusAllowed.getLsbD i = true := by
    by_contra hno
    refine h (BitVec.eq_of_getLsbD_eq fun i hi => ?_)
    rw [BitVec.getLsbD_and]
    by_contra hbit
    have hboth : (s.thread t).cpusAllowed.getLsbD i = true ∧ (onlineMask s).getLsbD i = true := by
      simpa using hbit
    obtain ⟨hlt, hon⟩ := getLsbD_onlineMask hboth.2
    exact hno ⟨i, mem_range.mpr hlt, hon, hboth.1⟩
  cases hl : selectLoop s (s.thread t).cpusAllowed (List.range s.ncpu) none with
  | none => exact absurd hl (selectLoop_isSome (.inr hex))
  | some i =>
    rcases selectLoop_some hl with ⟨_, hbit⟩ | hbest
    · exact hbit
    · cases hbest

theorem Switched.placed (h : Ok s) (hc : c < s.ncpu.val) (hp : Placed s) (hsw : Switched s s' c next) : Placed s' := by
  have hprev : ∀ n, (s.cpu c).curr = .thread n → (s.thread (.thread n)).cpusAllowed.getLsbD c = true := by
    intro n hn
    have hcurr := h.curr c hc
    rw [hn] at hcurr
    have := hp.here n (.inr hcurr.1)
    rwa [hcurr.2.1] at this
  refine ⟨fun n hn => ?_, fun n hn => ?_, fun n d hw => ?_⟩
  · rw [(hsw.same _).started] at hn
    rw [onlineMask_congr hsw.ncpu hsw.online, (hsw.same _).cpusAllowed]
    exact hp.some n hn
  · rw [(hsw.same _).cpusAllowed]
    by_cases hnext : Tid.thread n = next
    · rw [hnext, hsw.runs.2.2, ← hnext]
      rcases hsw.was with hw | hw | hw
      · rw [hw] at hnext
        cases hnext
      · exact hprev n (hw.symm.trans hnext.symm)
      rw [← hnext] at hw
      have := hp.here n (.inl hw.onRq)
      rwa [hw.cpu] at this
    by_cases hcurr : Tid.thread n = (s.cpu c).curr
    · have hleft := hsw.left (fun heq => hnext (hcurr.trans heq))
      rw [← hcurr] at hleft
      rw [hleft.2.1]
      exact hprev n hcurr.symm
    · rw [hsw.other _ hcurr hnext] at hn ⊢
      exact hp.here n hn
  rw [hsw.waking] at hw
  rw [(hsw.same _).cpusAllowed]
  exact hp.soon n d hw

theorem schedule_placed (h : Ok s) (hc : c < s.ncpu.val) (hp : Placed s) : Placed (schedule c s) := by
  obtain ⟨next, hsw⟩ := schedule_switched h hc
  exact hsw.placed h hc hp

theorem tick_placed (hp : Placed s) : Placed (schedulerTick c s) := by
  unfold schedulerTick
  dsimp only
  split
  · split
    · exact hp.resched c
    · exact hp
  split
  · exact hp
  split
  · exact hp.setThread rfl rfl rfl rfl rfl
  split
  · refine Placed.resched ?_ c
    exact hp.setThread rfl rfl rfl rfl rfl
  · exact hp.setThread rfl rfl rfl rfl rfl

theorem setSched_placed (hp : Placed s) (t : Tid) (p : Sched.Thread) : Placed (setSched t p s) := by
  unfold setSched
  dsimp only
  split
  · rename_i hon
    have hsorted : Placed (resorted t p s) := by
      refine hp.congr (onlineMask_congr rfl fun d => (enqueue_online d).trans (dequeue_online d)) (fun n => ?_) (fun _ _ hw => hw)
      rw [resorted_thread]
      split
      · rename_i heq
        rw [heq]
        exact ⟨id, rfl, fun _ => ⟨.inl hon, rfl⟩⟩
      · exact ⟨id, rfl, fun hc => ⟨hc, rfl⟩⟩
    split
    · exact Placed.resched hsorted _
    · exact hsorted
  · exact hp.setThread rfl rfl rfl rfl rfl

theorem schedSetscheduler_placed (hp : Placed s) (t : Tid) (policy prio : Int) :
    Placed (schedSetscheduler t policy prio s).2 := by
  unfold schedSetscheduler
  dsimp only
  split
  · exact hp
  · exact setSched_placed hp t _

def Event.Settled (s : State) : Event → Prop
  | .setaffinity _ n mask =>
    ((s.thread (.thread n)).onRq = true ∨ (s.thread (.thread n)).onCpu = true →
      (mask &&& onlineMask s).getLsbD (s.thread (.thread n)).cpu = true) ∧
    ∀ c, (.thread n, Option.some c) ∈ s.waking → (mask &&& onlineMask s).getLsbD c = true
  | _ => True

theorem new_placed (h : Ok s) (hp : Placed s) {n cpu : Nat} {allowed : BitVec 64} {p : Sched.Thread}
    (hs : (s.thread (.thread n)).started = false) (hmask : allowed &&& onlineMask s ≠ 0) :
    Placed (Event.act s (.new n cpu allowed p)) := by
  have hself : (Event.act s (.new n cpu allowed p)).thread (.thread n) =
      ⟨true, .running, false, false, cpu, allowed, p, RR_TIMESLICE_TICKS⟩ := (setThread_thread ..).trans (if_pos rfl)
  have hwaking : ∀ m d, (.thread m, Option.some d) ∈ (Event.act s (.new n cpu allowed p)).waking →
      (.thread m, Option.some d) ∈ s.waking := by
    intro m d hw
    rcases mem_cons.mp hw with heq | hw
    · cases heq
    · exact hw
  refine hp.replace rfl (fun m hmn => ⟨(setThread_thread ..).trans (if_neg hmn), hwaking m⟩) (fun _ => ?_) (fun hc => ?_)
    fun d hw => ?_
  · rw [hself]
    exact hmask
  · rw [hself] at hc
    simp at hc
  -- a thread that is being woken was started before
  have := (h.waking _ (hwaking n d hw)).2.1
  rw [hs] at this
  cases this

theorem tryToWakeUp_placed (hp : Placed s) (n : Nat) (mask : List TaskState) :
    Placed (tryToWakeUp (.thread n) mask s) := by
  dsimp only [tryToWakeUp]
  split
  · exact hp
  have hstate : Placed (s.setThread (.thread n) { s.thread (.thread n) with state := .running }) :=
    hp.setThread rfl rfl rfl rfl rfl
  split
  · exact hstate
  refine hstate.congr (onlineMask_congr rfl fun _ => rfl) (fun _ => ⟨id, rfl, fun hc => ⟨hc, rfl⟩⟩) fun m d hw => ?_
  rcases mem_cons.mp hw with heq | hw
  · cases heq
  · exact hw

theorem select_placed (h : Ok s) (hp : Placed s) (n : Nat) : Placed (Event.act s (.select n)) := by
  refine ⟨hp.some, hp.here, fun m d hw => ?_⟩
  obtain ⟨w, hw, heq⟩ := mem_map.mp hw
  split at heq
  · obtain ⟨hw1, hw2⟩ := Prod.mk.inj heq
    obtain ⟨-, hs, -⟩ := h.waking w hw
    rw [← some.inj hw2]
    rw [hw1] at hs ⊢
    exact selectCpu_allowed (hp.some m hs)
  · rw [heq] at hw
    exact hp.soon m d hw

theorem activate_placed (hp : Placed s) {n : Nat} (hw : (.thread n, Option.some c) ∈ s.waking) :
    Placed (activate c (.thread n) { s with waking := s.waking.filter fun w => w.1 ≠ .thread n }) := by
  have henq : Placed (enqueue c (.thread n) false { s with waking := s.waking.filter fun w => w.1 ≠ .thread n }) := by
    refine hp.replace (onlineMask_congr rfl fun d => enqueue_online d) (n := n) (fun m hmn => ⟨?_, fun d hw' => ?_⟩)
      (fun hs => ?_) (fun _ => ?_) fun d hw' => ?_
    · rw [enqueue_thread, if_neg hmn]
    · exact (mem_filter.mp hw').1
    · rw [enqueue_thread, if_pos rfl] at hs ⊢
      exact hp.some n hs
    · rw [enqueue_thread, if_pos rfl]
      exact hp.soon n c hw
    · simpa using (mem_filter.mp hw').2
  unfold activate
  dsimp only
  split
  · exact henq.resched c
  · exact henq

theorem yield_placed (h : Ok s) (hc : c < s.ncpu.val) (hp : Placed s) : Placed (yield c s) :=
  schedule_placed (h.setTimeslice _ 0) hc (hp.setThread rfl rfl rfl rfl rfl)

theorem schedSetNice_placed (hp : Placed s) (t : Tid) (nice : Int) : Placed (schedSetNice t nice s) := by
  dsimp only [schedSetNice]
  split
  · refine schedSetscheduler_placed ?_ _ _ _
    exact hp.setThread rfl rfl rfl rfl rfl
  · exact hp.setThread rfl rfl rfl rfl rfl

theorem schedSetaffinity_placed (h : Ok s) (hc : c < s.ncpu.val) (hp : Placed s) {n : Nat} {mask : BitVec 64}
    (hset : mask &&& onlineMask s ≠ 0 → (Event.setaffinity c n mask).Settled s) :
    Placed (schedSetaffinity c (.thread n) mask s).2 := by
  dsimp only [schedSetaffinity]
  split
  · exact hp
  rename_i hmask
  obtain ⟨hhere, hsoon⟩ := hset hmask
  have hok : Ok (s.setThread (.thread n) { s.thread (.thread n) with cpusAllowed := mask &&& onlineMask s }) :=
    h.retune rfl rfl rfl rfl rfl rfl
  have hself : (s.setThread (.thread n) { s.thread (.thread n) with cpusAllowed := mask &&& onlineMask s }).thread
      (.thread n) = { s.thread (.thread n) with cpusAllowed := mask &&& onlineMask s } :=
    (setThread_thread ..).trans (if_pos rfl)
  have hnew : Placed (s.setThread (.thread n) { s.thread (.thread n) with cpusAllowed := mask &&& onlineMask s }) := by
    refine hp.replace rfl (n := n) (fun m hmn => ⟨(setThread_thread ..).trans (if_neg hmn), fun _ hw => hw⟩) (fun _ => ?_)
      (fun hon => ?_) fun d hw => ?_
    · rw [hself]
      show mask &&& onlineMask s &&& onlineMask s ≠ 0
      rw [BitVec.and_assoc, BitVec.and_self]
      exact hmask
    · rw [hself] at hon ⊢
      exact hhere hon
    · rw [hself]
      exact hsoon d hw
  dsimp only
  split
  · exact yield_placed hok hc hnew
  · exact hnew

theorem act_placed (h : Ok s) (hp : Placed s) (ev : Event) (hfits : ev.fits s = true)
    (hset : (∃ c n mask, ev = .setaffinity c n mask ∧ mask &&& onlineMask s ≠ 0) → ev.Settled s) : Placed (ev.act s) := by
  cases ev with
  | new n cpu allowed p =>
    obtain ⟨hs, -, -, -, hmask⟩ := of_decide_eq_true hfits
    exact new_placed h hp (by simpa using hs) hmask
  | wake n mask => exact tryToWakeUp_placed hp n mask
  | select n => exact select_placed h hp n
  | activate n =>
    dsimp only [Event.act]
    split
    · rename_i t c hfind
      obtain ⟨hw, heq⟩ := find_waking hfind
      obtain rfl : t = .thread n := heq
      exact activate_placed hp hw
    · exact hp
  | state c x => exact hp.setThread rfl rfl rfl rfl rfl
  | schedule c => exact schedule_placed h (of_decide_eq_true hfits) hp
  | yield c => exact yield_placed h (of_decide_eq_true hfits) hp
  | tick c => exact tick_placed hp
  | setscheduler n policy prio => exact schedSetscheduler_placed hp _ policy prio
  | setnice n nice => exact schedSetNice_placed hp _ nice
  | setaffinity c n mask =>
    obtain ⟨hc, -⟩ := of_decide_eq_true hfits
    exact schedSetaffinity_placed h hc hp fun hmask => hset ⟨c, n, mask, rfl, hmask⟩

def AllSettled : State → List Event → Prop
  | _, [] => True
  | s, ev :: evs =>
    (ev.fits s = true → (∃ c n mask, ev = .setaffinity c n mask ∧ mask &&& onlineMask s ≠ 0) → ev.Settled s) ∧
      AllSettled (step s ev) evs

theorem run_placed {evs : List Event} (h : Ok s) (hp : Placed s) (hevs : AllSettled s evs) : Placed (run s evs) := by
  induction evs generalizing s with
  | nil => exact hp
  | cons ev evs ih =>
  refine ih (step_ok h ev) ?_ hevs.2
  unfold step
  split
  · rename_i hfits
    exact act_placed h hp ev hfits (hevs.1 hfits)
  · exact hp

theorem boot_placed (n : Fin (NR_CPUS + 1)) (online : Nat → Bool) : Placed (boot n online) := by
  refine ⟨fun m hm => ?_, fun m hm => ?_, fun m d hw => ?_⟩
  · cases hm
  · rcases hm with hm | hm
    · cases hm
    · cases hm
  · cases hw

-- No thread runs, and so none is picked, on a CPU outside its mask, as long as no mask is
-- changed under a thread that is running, queued or being placed elsewhere.
theorem affinity_honoured (n : Fin (NR_CPUS + 1)) (online : Nat → Bool) (evs : List Event)
    (hevs : AllSettled (boot n online) evs) (c m : Nat) (hc : c < (run (boot n online) evs).ncpu.val)
    (hcurr : ((run (boot n online) evs).cpu c).curr = .thread m) :
    ((run (boot n online) evs).thread (.thread m)).cpusAllowed.getLsbD c = true := by
  have h := (run_ok evs (boot_ok n online)).curr c hc
  rw [hcurr] at h
  have hp := (run_placed (boot_ok n online) (boot_placed n online) hevs).here m (.inr h.1)
  rwa [h.2.1] at hp

-- Thread 1 has run on CPU 0 and sleeps when its mask becomes CPU 1 alone.
def rebound : List Event :=
  [.new 1 0 3 nice0, .select 1, .activate 1, .schedule 0, .state 0 .interruptible, .schedule 0, .new 2 0 1 nice0,
    .select 2, .activate 2, .schedule 0, .setaffinity 0 1 2, .wake 1 [.interruptible], .select 1, .activate 1, .schedule 1]

theorem affinity_honoured_rebound : ((run (boot 2 fun _ => true) rebound).cpu 1).curr = .thread 1 ∧
    ((run (boot 2 fun _ => true) rebound).thread (.thread 1)).cpusAllowed = 2 ∧
    ((run (boot 2 fun _ => true) rebound).thread (.thread 1)).cpusAllowed.getLsbD 1 = true :=
  have quiet {s : State} {ev : Event} (hev : ev.Settled s) : ev.fits s = true →
      (∃ c n mask, ev = .setaffinity c n mask ∧ mask &&& onlineMask s ≠ 0) → ev.Settled s := fun _ _ => hev
  ⟨by decide +kernel, by decide +kernel, affinity_honoured 2 (fun _ => true) rebound
    ⟨quiet trivial, quiet trivial, quiet trivial, quiet trivial, quiet trivial, quiet trivial, quiet trivial,
      quiet trivial, quiet trivial, quiet trivial,
      quiet ⟨fun h => absurd h (by decide +kernel), fun c hc => absurd hc not_mem_nil⟩,
      quiet trivial, quiet trivial, quiet trivial, quiet trivial, trivial⟩ 1 1 (by decide +kernel) (by decide +kernel)⟩

def boundElsewhere : List Event :=
  [.new 1 0 1 nice0, .select 1, .activate 1, .schedule 0, .new 2 0 1 nice0, .select 2, .activate 2, .setaffinity 0 2 2,
    .state 0 .interruptible, .schedule 0]

theorem queued_thread_ignores_mask : ((run (boot 2 fun _ => true) boundElsewhere).cpu 0).curr = .thread 2 ∧
    ((run (boot 2 fun _ => true) boundElsewhere).thread (.thread 2)).cpusAllowed = 2 := by
  decide +kernel

end Olux.Runqueue
