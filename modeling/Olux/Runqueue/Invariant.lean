import Olux.Runqueue.Switch

namespace Olux.Runqueue

open List Option

variable {s s' : State} {c n : Nat} {t next : Tid} {p : Sched.Thread}

theorem Switched.fixed (hsw : Switched s s' c next) (hcurr : (s.thread (s.cpu c).curr).onCpu = true) {u : Tid}
    (hcpu : (s.thread u).onCpu = false) (hrq : (s.thread u).onRq = false) (hidle : u ≠ .idle c) :
    s'.thread u = s.thread u := by
  have hprev : u ≠ (s.cpu c).curr := by
    rintro rfl
    rw [hcurr] at hcpu
    cases hcpu
  refine hsw.other u hprev ?_
  rintro rfl
  rcases hsw.was with h | h | h
  · exact hidle h
  · exact hprev h
  · rw [h.onRq] at hrq
    cases hrq

theorem Switched.next_cpu (h : Ok s) (hc : c < s.ncpu.val) (hsw : Switched s s' c next) : (s.thread next).cpu = c := by
  rcases hsw.was with rfl | rfl | hat
  · exact (h.idle c).2.1
  · exact (h.curr c hc).2.1
  · exact hat.cpu

theorem Switched.ok (h : Ok s) (hc : c < s.ncpu.val) (hsw : Switched s s' c next) : Ok s' := by
  obtain ⟨hcurr, hcpu, -⟩ := h.curr c hc
  have hnext := hsw.next_cpu h hc
  refine ⟨hsw.queues, fun d hd => ?_, fun u hu => ?_, fun d => ?_, fun n hn => ?_, fun n hn => ?_, fun w hw => ?_, ?_, ?_⟩
  · rw [hsw.ncpu] at hd
    rw [hsw.curr]
    split
    · rename_i heq
      rw [heq]
      exact ⟨hsw.runs.2.1, hsw.runs.2.2, hsw.runs.1⟩
    rename_i hne
    have hd' := h.curr d hd
    rw [hsw.other]
    · exact hd'
    · intro heq
      rw [heq, hcpu] at hd'
      exact hne hd'.2.1.symm
    intro heq
    rw [heq, hnext] at hd'
    exact hne hd'.2.1.symm
  · rw [hsw.ncpu]
    by_cases hun : u = next
    · exact ⟨c, hc, by rw [hsw.curr, if_pos rfl, hun]⟩
    by_cases hup : u = (s.cpu c).curr
    · subst hup
      rw [(hsw.left hun).1] at hu
      cases hu
    rw [hsw.other u hup hun] at hu
    obtain ⟨d, hd, heq⟩ := h.onCpu u hu
    refine ⟨d, hd, ?_⟩
    rw [hsw.curr, if_neg, heq]
    rintro rfl
    exact hup heq.symm
  · have hsame := hsw.same (.idle d)
    have hi := h.idle d
    rw [hsame.state, hsame.sched]
    refine ⟨?_, ?_, hi.2.2⟩
    · by_cases hn : Tid.idle d = next
      · rw [hn]
        exact hsw.runs.1
      · by_cases hp : Tid.idle d = (s.cpu c).curr
        · rw [hp] at hn ⊢
          by_contra hon
          have hgo := (hsw.left hn).2.2.mp (by simpa using hon)
          rw [← hp, hi.2.1] at hcpu
          exact hgo.2 (hp.symm.trans (congrArg Tid.idle hcpu))
        · rw [hsw.other _ hp hn]
          exact hi.1
    by_cases hn : Tid.idle d = next
    · rw [hn, hsw.runs.2.2, ← hnext, ← hn]
      exact hi.2.1
    · by_cases hp : Tid.idle d = (s.cpu c).curr
      · rw [hp] at hn ⊢
        rw [(hsw.left hn).2.1, ← hcpu, ← hp]
        exact hi.2.1
      · rw [hsw.other _ hp hn]
        exact hi.2.1
  · rw [(hsw.same _).started] at hn
    obtain ⟨hrq, hoff⟩ := h.unborn n hn
    rw [hsw.fixed hcurr hoff hrq (fun heq => by cases heq)]
    exact ⟨hrq, hoff⟩
  · rw [(hsw.same _).started] at hn
    have hb := h.bounds n hn
    rw [(hsw.same _).sched, hsw.ncpu]
    refine ⟨?_, hb.2⟩
    by_cases hun : Tid.thread n = next
    · rw [hun, hsw.runs.2.2]
      exact hc
    by_cases hup : Tid.thread n = (s.cpu c).curr
    · rw [hup] at hun ⊢
      rw [(hsw.left hun).2.1]
      exact hc
    · rw [hsw.other _ hup hun]
      exact hb.1
  · rw [hsw.waking] at hw
    obtain ⟨⟨n, hn⟩, hrest⟩ := h.waking w hw
    rw [hsw.fixed hcurr hrest.2.2.2 hrest.2.2.1 (fun heq => by rw [hn] at heq; cases heq)]
    exact ⟨⟨n, hn⟩, hrest⟩
  · rw [hsw.waking, hsw.ncpu]
    exact h.target
  · rw [hsw.waking]
    exact h.once

theorem Ok.setThread (h : Ok s) {x : Thread} (hstarted : x.started = (s.thread t).started)
    (honCpu : x.onCpu = (s.thread t).onCpu) (honRq : x.onRq = (s.thread t).onRq) (hcpu : x.cpu = (s.thread t).cpu)
    (hlevel : x.onRq = true → x.level = (s.thread t).level) (hidle : ∀ d, t = .idle d → x.state = .running ∧ x.sched.prio = NR_PRIO)
    (hprio : ∀ n, t = .thread n → x.started = true → 0 ≤ x.sched.prio ∧ x.sched.prio < NR_PRIO)
    (hwaking : ∀ w ∈ s.waking, w.1 = t → x.state = .running) : Ok (s.setThread t x) := by
  have hfields : ∀ u, ((s.setThread t x).thread u).started = (s.thread u).started ∧
      ((s.setThread t x).thread u).onCpu = (s.thread u).onCpu ∧ ((s.setThread t x).thread u).onRq = (s.thread u).onRq ∧
      ((s.setThread t x).thread u).cpu = (s.thread u).cpu := by
    intro u
    rw [setThread_thread]
    split
    · rename_i hu
      subst hu
      exact ⟨hstarted, honCpu, honRq, hcpu⟩
    · exact ⟨rfl, rfl, rfl, rfl⟩
  refine ⟨h.queues.congr (fun d => ⟨rfl, rfl, rfl⟩) (fun u => (hfields u).2.2.1) (fun u hu => ⟨(hfields u).2.2.2, ?_⟩),
    fun d hd => ?_, fun u hu => ?_, fun d => ?_, fun n hn => ?_, fun n hn => ?_, fun w hw => ?_, h.target, h.once⟩
  · rw [setThread_thread]
    split
    · rename_i heq
      subst heq
      exact hlevel (honRq.trans hu)
    · rfl
  · obtain ⟨-, h1, h2, h3⟩ := hfields (s.cpu d).curr
    show ((s.setThread t x).thread (s.cpu d).curr).onCpu = true ∧ _
    rw [setThread_cpu, h1, h3, h2]
    exact h.curr d hd
  · rw [(hfields u).2.1] at hu
    exact h.onCpu u hu
  · obtain ⟨-, -, h2, h3⟩ := hfields (.idle d)
    rw [h2, h3]
    refine ⟨(h.idle d).1, (h.idle d).2.1, ?_⟩
    rw [setThread_thread]
    split
    · rename_i heq
      exact hidle d heq.symm
    · exact (h.idle d).2.2
  · rw [(hfields _).1] at hn
    rw [(hfields _).2.1, (hfields _).2.2.1]
    exact h.unborn n hn
  · rw [(hfields _).1] at hn
    rw [(hfields _).2.2.2]
    refine ⟨(h.bounds n hn).1, ?_⟩
    rw [setThread_thread]
    split
    · rename_i heq
      exact hprio n heq.symm (hstarted.trans (heq ▸ hn))
    · exact (h.bounds n hn).2
  obtain ⟨h0, h1, h2, h3⟩ := hfields w.1
  obtain ⟨hn, hs, hst, hrq, hoff⟩ := h.waking w hw
  refine ⟨hn, h0.trans hs, ?_, h2.trans hrq, h1.trans hoff⟩
  rw [setThread_thread]
  split
  · rename_i heq
    exact hwaking w hw heq
  · exact hst

theorem Ok.retune (h : Ok s) {x : Thread} (hstarted : x.started = (s.thread t).started)
    (honCpu : x.onCpu = (s.thread t).onCpu) (honRq : x.onRq = (s.thread t).onRq) (hcpu : x.cpu = (s.thread t).cpu)
    (hstate : x.state = (s.thread t).state) (hprio : x.sched.prio = (s.thread t).sched.prio) : Ok (s.setThread t x) := by
  refine h.setThread hstarted honCpu honRq hcpu (fun _ => congrArg Int.toNat hprio) ?_ ?_ ?_
  · rintro d rfl
    rw [hstate, hprio]
    exact (h.idle d).2.2
  · rintro n rfl hn
    rw [hprio]
    exact (h.bounds n (hstarted.symm.trans hn)).2
  rintro w hw rfl
  rw [hstate]
  exact (h.waking w hw).2.2.1

theorem Ok.setTimeslice (h : Ok s) (t : Tid) (k : Int) : Ok (s.setThread t { s.thread t with timeslice := k }) :=
  h.retune rfl rfl rfl rfl rfl rfl

theorem schedule_ok (h : Ok s) (hc : c < s.ncpu.val) : Ok (schedule c s) := by
  obtain ⟨next, hsw⟩ := schedule_switched h hc
  exact hsw.ok h hc

theorem yield_ok (h : Ok s) (hc : c < s.ncpu.val) : Ok (yield c s) := schedule_ok (h.setTimeslice _ 0) hc

theorem tick_ok (h : Ok s) : Ok (schedulerTick c s) := by
  unfold schedulerTick
  dsimp only
  split
  · split
    · exact h.setResched c true
    · exact h
  split
  · exact h
  split
  · exact h.setTimeslice _ _
  split
  · exact (h.setTimeslice _ 0).setResched c true
  · exact h.setTimeslice _ _

theorem state_ok (h : Ok s) (hc : c < s.ncpu.val) (hne : (s.cpu c).curr ≠ .idle c) (x : TaskState) :
    Ok (s.setThread (s.cpu c).curr { s.thread (s.cpu c).curr with state := x }) := by
  obtain ⟨n, hn⟩ := h.curr_thread hc hne
  refine h.setThread rfl rfl rfl rfl (fun _ => rfl) (fun d hd => ?_) (fun m hm hs => ?_) (fun w hw heq => ?_)
  · rw [hn] at hd
    cases hd
  · rw [hm] at hs ⊢
    exact (h.bounds m hs).2
  have hoff := (h.waking w hw).2.2.2.2
  rw [heq, (h.curr c hc).1] at hoff
  cases hoff

theorem computePrio_range {policy prio nice : Int} (h : Sched.isRt policy = true → 1 ≤ prio ∧ prio ≤ 99) :
    0 ≤ Sched.computePrio policy prio nice ∧ Sched.computePrio policy prio nice < NR_PRIO := by
  unfold Sched.computePrio Sched.PRIO_RT_LOWEST Sched.PRIO_IDLE Sched.PRIO_NORMAL NR_PRIO
  split
  · rename_i hrt
    obtain ⟨h1, h2⟩ := h hrt
    have hnonneg : 0 ≤ (prio - 1) * 23 := by omega
    rw [Int.tdiv_eq_ediv_of_nonneg hnonneg]
    omega
  split
  · omega
  · omega

theorem schedSetscheduler_range {t : Sched.Thread} {policy prio : Int}
    (h : Sched.schedSetscheduler t policy prio = (0, p)) : 0 ≤ p.prio ∧ p.prio < NR_PRIO := by
  unfold Sched.schedSetscheduler at h
  dsimp only at h
  split at h
  · split at h
    · cases h
    · rename_i hrt hb
      obtain ⟨-, rfl⟩ := Prod.mk.inj h
      exact computePrio_range fun _ => by omega
  split at h
  · split at h
    · cases h
    · rename_i hrt _ _
      obtain ⟨-, rfl⟩ := Prod.mk.inj h
      exact computePrio_range fun hc => absurd hc hrt
  · cases h

theorem Ok.queued (h : Ok s) (hon : (s.thread t).onRq = true) :
    t ∈ (s.cpu (s.thread t).cpu).runqueue (s.thread t).level :=
  (h.queues.mem _ _ t).mpr ⟨hon, rfl, rfl⟩

theorem Ok.queued_thread (h : Ok s) (hon : (s.thread t).onRq = true) : ∃ n, t = .thread n := by
  cases t with
  | idle d =>
    rw [(h.idle d).1] at hon
    cases hon
  | thread n => exact ⟨n, rfl⟩

theorem dequeue_ok (h : Ok s) (hon : (s.thread t).onRq = true) : Ok (dequeue (s.thread t).cpu t s) := by
  have hfields : ∀ u, ((dequeue (s.thread t).cpu t s).thread u).Same (s.thread u) ∧
      ((dequeue (s.thread t).cpu t s).thread u).onCpu = (s.thread u).onCpu ∧
      ((dequeue (s.thread t).cpu t s).thread u).cpu = (s.thread u).cpu := by
    intro u
    rw [dequeue_thread]
    split
    · rename_i hu
      subst hu
      exact ⟨⟨rfl, rfl, rfl, rfl⟩, rfl, rfl⟩
    · exact ⟨.refl _, rfl, rfl⟩
  have hoff : ∀ u, (s.thread u).onRq = false → ((dequeue (s.thread t).cpu t s).thread u).onRq = false := by
    intro u hu
    rw [dequeue_thread]
    split
    · rfl
    · exact hu
  refine ⟨dequeue_queues h.queues (h.queued hon), fun d hd => ?_, fun u hu => ?_, fun d => ?_, fun n hn => ?_, fun n hn => ?_,
    fun w hw => ?_, h.target, h.once⟩
  · obtain ⟨h1, h2, h3⟩ := h.curr d hd
    rw [dequeue_curr, (hfields _).2.1, (hfields _).2.2]
    exact ⟨h1, h2, hoff _ h3⟩
  · rw [(hfields u).2.1] at hu
    obtain ⟨d, hd, heq⟩ := h.onCpu u hu
    exact ⟨d, hd, by rw [dequeue_curr, heq]⟩
  · obtain ⟨h1, h2, h3, h4⟩ := h.idle d
    rw [(hfields _).1.state, (hfields _).1.sched, (hfields _).2.2]
    exact ⟨hoff _ h1, h2, h3, h4⟩
  · rw [(hfields _).1.started] at hn
    rw [(hfields _).2.1]
    exact ⟨hoff _ (h.unborn n hn).1, (h.unborn n hn).2⟩
  · rw [(hfields _).1.started] at hn
    rw [(hfields _).2.2, (hfields _).1.sched]
    exact h.bounds n hn
  obtain ⟨hn, hs, hst, hrq, hcpu⟩ := h.waking w hw
  rw [(hfields _).1.started, (hfields _).1.state, (hfields _).2.1]
  exact ⟨hn, hs, hst, hoff _ hrq, hcpu⟩

theorem enqueue_ok (h : Ok s) (hc : c < s.ncpu.val) (hs : (s.thread (.thread n)).started = true)
    (hrq : (s.thread (.thread n)).onRq = false) (hcpu : (s.thread (.thread n)).onCpu = false)
    (hw : ∀ w ∈ s.waking, w.1 ≠ .thread n) (head : Bool) : Ok (enqueue c (.thread n) head s) := by
  have hother : ∀ u, u ≠ .thread n → (enqueue c (.thread n) head s).thread u = s.thread u := fun u hu => by
    rw [enqueue_thread, if_neg hu]
  have hself : (enqueue c (.thread n) head s).thread (.thread n) = { s.thread (.thread n) with onRq := true, cpu := c } := by
    rw [enqueue_thread, if_pos rfl]
  refine ⟨enqueue_queues h.queues hrq (h.level_lt hs), fun d hd => ?_, fun u hu => ?_, fun d => ?_, fun m hm => ?_,
    fun m hm => ?_, fun w hw' => ?_, h.target, h.once⟩
  · rw [enqueue_curr, hother]
    · exact h.curr d hd
    · intro heq
      have := (h.curr d hd).1
      rw [heq, hcpu] at this
      cases this
  · have hne : u ≠ .thread n := by
      rintro rfl
      rw [hself] at hu
      rw [show (s.thread (.thread n)).onCpu = true from hu] at hcpu
      cases hcpu
    rw [hother u hne] at hu
    obtain ⟨d, hd, heq⟩ := h.onCpu u hu
    exact ⟨d, hd, by rw [enqueue_curr, heq]⟩
  · rw [hother _ (fun heq => by cases heq)]
    exact h.idle d
  · by_cases hmn : m = n
    · subst hmn
      rw [hself] at hm
      rw [show (s.thread (.thread m)).started = false from hm] at hs
      cases hs
    · rw [hother _ (fun heq => hmn (Tid.thread.inj heq))] at hm ⊢
      exact h.unborn m hm
  · by_cases hmn : m = n
    · subst hmn
      rw [hself]
      exact ⟨hc, (h.bounds m hs).2⟩
    · rw [hother _ (fun heq => hmn (Tid.thread.inj heq))] at hm ⊢
      exact h.bounds m hm
  · rw [hother _ (hw w hw')]
    exact h.waking w hw'

theorem setParams_ok (h : Ok s) (hrq : (s.thread (.thread n)).onRq = false)
    (hp : 0 ≤ p.prio ∧ p.prio < NR_PRIO) : Ok (s.setThread (.thread n) { s.thread (.thread n) with sched := p }) := by
  refine h.setThread rfl rfl rfl rfl (fun hon => ?_) (fun d hd => by cases hd) (fun m _ _ => hp) (fun w hw heq => ?_)
  · rw [show (s.thread (.thread n)).onRq = true from hon] at hrq
    cases hrq
  have := (h.waking w hw).2.2.1
  rw [heq] at this
  exact this

def resorted (t : Tid) (p : Sched.Thread) (s : State) : State :=
  let c := (s.thread t).cpu
  let s := dequeue c t s
  enqueue c t false (s.setThread t { s.thread t with sched := p })

theorem resorted_thread (s : State) (t : Tid) (p : Sched.Thread) (u : Tid) : (resorted t p s).thread u =
    if u = t then { s.thread t with onRq := true, sched := p } else s.thread u := by
  unfold resorted
  dsimp only
  rw [enqueue_thread, setThread_thread, setThread_thread, if_pos rfl, dequeue_thread, if_pos rfl, dequeue_thread]
  split
  · rfl
  · rfl

theorem resorted_curr (s : State) (t : Tid) (p : Sched.Thread) (d : Nat) :
    ((resorted t p s).cpu d).curr = (s.cpu d).curr ∧ ((resorted t p s).cpu d).needResched = (s.cpu d).needResched :=
  ⟨(enqueue_curr d).trans (dequeue_curr d), (enqueue_needResched d).trans (dequeue_needResched d)⟩

theorem resorted_ok (h : Ok s) (hs : (s.thread (.thread n)).started = true)
    (hon : (s.thread (.thread n)).onRq = true) (hp : 0 ≤ p.prio ∧ p.prio < NR_PRIO) :
    Ok (resorted (.thread n) p s) := by
  have hself : (dequeue (s.thread (.thread n)).cpu (.thread n) s).thread (.thread n) =
      { s.thread (.thread n) with onRq := false } := by rw [dequeue_thread, if_pos rfl]
  have hmid := setParams_ok (dequeue_ok h hon) (by rw [hself]) hp
  have hoff : (s.thread (.thread n)).onCpu = false := by
    by_contra hc
    obtain ⟨d, hd, heq⟩ := h.onCpu _ (by simpa using hc)
    have := (h.curr d hd).2.2
    rw [heq, hon] at this
    cases this
  have hfree : ∀ w ∈ s.waking, w.1 ≠ .thread n := by
    intro w hw heq
    have := (h.waking w hw).2.2.2.1
    rw [heq, hon] at this
    cases this
  refine enqueue_ok hmid (h.bounds n hs).1 ?_ ?_ ?_ hfree false
  · rw [setThread_thread, if_pos rfl, hself]
    exact hs
  · rw [setThread_thread, if_pos rfl, hself]
  · rw [setThread_thread, if_pos rfl, hself]
    exact hoff

theorem setSched_ok (h : Ok s) (hs : (s.thread (.thread n)).started = true)
    (hp : 0 ≤ p.prio ∧ p.prio < NR_PRIO) : Ok (setSched (.thread n) p s) := by
  unfold setSched
  dsimp only
  split
  · rename_i hon
    have hnew := resorted_ok h hs hon hp
    split
    · exact hnew.setResched _ true
    · exact hnew
  · rename_i hoff
    exact setParams_ok h (by simpa using hoff) hp

theorem activate_ok (h : Ok s) (hc : c < s.ncpu.val) (hs : (s.thread (.thread n)).started = true)
    (hrq : (s.thread (.thread n)).onRq = false) (hcpu : (s.thread (.thread n)).onCpu = false)
    (hw : ∀ w ∈ s.waking, w.1 ≠ .thread n) : Ok (activate c (.thread n) s) := by
  have henq := enqueue_ok h hc hs hrq hcpu hw false
  unfold activate
  dsimp only
  split
  · exact henq.setResched _ true
  · exact henq

theorem selectLoop_some {allowed : BitVec 64} {is : List Nat} {best : Option Nat} {i : Nat}
    (h : selectLoop s allowed is best = some i) : (i ∈ is ∧ allowed.getLsbD i = true) ∨ best = some i := by
  induction is generalizing best with
  | nil => exact .inr h
  | cons j is ih =>
  unfold selectLoop at h
  split at h
  · exact (ih h).imp_left (And.imp_left (mem_cons_of_mem _))
  rename_i hj
  have hself : ∀ {k}, some j = some k → k ∈ j :: is ∧ allowed.getLsbD k = true := by
    intro k hk
    obtain rfl := some.inj hk
    simp only [Bool.or_eq_true, Bool.not_eq_true', not_or, Bool.not_eq_false] at hj
    exact ⟨mem_cons_self, hj.2⟩
  split at h
  · exact .inl (hself h)
  rcases ih h with hmem | hbest
  · exact .inl (hmem.imp_left (mem_cons_of_mem _))
  split at hbest
  · exact .inl (hself hbest)
  split at hbest
  · exact .inl (hself hbest)
  · exact .inr hbest

theorem selectCpu_lt (hcpu : (s.thread t).cpu < s.ncpu.val) : selectCpu s t < s.ncpu.val := by
  unfold selectCpu
  dsimp only
  split
  · exact hcpu
  cases hl : selectLoop s (s.thread t).cpusAllowed (List.range s.ncpu) none with
  | none => exact hcpu
  | some i =>
    rcases selectLoop_some hl with ⟨hmem, _⟩ | hbest
    · exact mem_range.mp hmem
    · cases hbest

theorem Ok.setWaking (h : Ok s) {ws : List (Tid × Option Nat)} (hsub : (ws.map Prod.fst).Sublist (s.waking.map Prod.fst))
    (htarget : ∀ w ∈ ws, ∀ c, w.2 = some c → c < s.ncpu.val) : Ok { s with waking := ws } := by
  refine ⟨h.queues.congr (fun _ => ⟨rfl, rfl, rfl⟩) (fun _ => rfl) (fun _ _ => ⟨rfl, rfl⟩), h.curr, h.onCpu, h.idle, h.unborn,
    h.bounds, fun w hw => ?_, htarget, h.once.sublist hsub⟩
  obtain ⟨w', hw', heq⟩ := mem_map.mp (hsub.subset (mem_map_of_mem hw))
  rw [← heq]
  exact h.waking w' hw'

theorem Ok.consWaking (h : Ok s) (hs : (s.thread (.thread n)).started = true)
    (hst : (s.thread (.thread n)).state = .running) (hrq : (s.thread (.thread n)).onRq = false)
    (hcpu : (s.thread (.thread n)).onCpu = false) (hw : ∀ w ∈ s.waking, w.1 ≠ .thread n) :
    Ok { s with waking := (.thread n, none) :: s.waking } := by
  refine ⟨h.queues.congr (fun _ => ⟨rfl, rfl, rfl⟩) (fun _ => rfl) (fun _ _ => ⟨rfl, rfl⟩), h.curr, h.onCpu, h.idle, h.unborn,
    h.bounds, fun w hw' => ?_, fun w hw' => ?_, ?_⟩
  · rcases mem_cons.mp hw' with rfl | hw'
    · exact ⟨⟨n, rfl⟩, hs, hst, hrq, hcpu⟩
    · exact h.waking w hw'
  · rcases mem_cons.mp hw' with rfl | hw'
    · intro c hc
      cases hc
    · exact h.target w hw'
  rw [map_cons, nodup_cons]
  refine ⟨fun hmem => ?_, h.once⟩
  obtain ⟨w, hw', heq⟩ := mem_map.mp hmem
  exact hw w hw' heq

theorem tryToWakeUp_ok (h : Ok s) (hs : (s.thread (.thread n)).started = true) (mask : List TaskState) :
    Ok (tryToWakeUp (.thread n) mask s) := by
  unfold tryToWakeUp
  dsimp only
  split
  · exact h
  rename_i hst
  have hset : Ok (s.setThread (.thread n) { s.thread (.thread n) with state := .running }) :=
    h.setThread rfl rfl rfl rfl (fun _ => rfl) (fun d hd => by cases hd)
      (fun m hm _ => by obtain rfl := Tid.thread.inj hm; exact (h.bounds n hs).2) (fun _ _ _ => rfl)
  split
  · exact hset
  rename_i hoff
  rw [Bool.or_eq_true, not_or, Bool.not_eq_true, Bool.not_eq_true] at hoff
  refine hset.consWaking ?_ ?_ ?_ ?_ (fun w hw heq => ?_)
  · rw [setThread_thread, if_pos rfl]
    exact hs
  · rw [setThread_thread, if_pos rfl]
  · rw [setThread_thread, if_pos rfl]
    exact hoff.1
  · rw [setThread_thread, if_pos rfl]
    exact hoff.2
  have := (h.waking w hw).2.2.1
  rw [heq] at this
  exact hst (.inl this)

theorem new_ok (h : Ok s) (hs : (s.thread (.thread n)).started = false) {cpu : Nat} (hcpu : cpu < s.ncpu.val)
    (hp : 0 ≤ p.prio ∧ p.prio < NR_PRIO) (allowed : BitVec 64) (k : Int) :
    Ok { s.setThread (.thread n) ⟨true, .running, false, false, cpu, allowed, p, k⟩ with
      waking := (.thread n, none) :: s.waking } := by
  obtain ⟨hrq, honCpu⟩ := h.unborn n hs
  have hother : ∀ u, u ≠ .thread n →
      (s.setThread (.thread n) ⟨true, .running, false, false, cpu, allowed, p, k⟩).thread u = s.thread u := fun u hu => by
    rw [setThread_thread, if_neg hu]
  have hself : (s.setThread (.thread n) ⟨true, .running, false, false, cpu, allowed, p, k⟩).thread (.thread n) =
      ⟨true, .running, false, false, cpu, allowed, p, k⟩ := by rw [setThread_thread, if_pos rfl]
  have hwne : ∀ w ∈ s.waking, w.1 ≠ .thread n := by
    intro w hw heq
    have := (h.waking w hw).2.1
    rw [heq, hs] at this
    cases this
  have hset : Ok (s.setThread (.thread n) ⟨true, .running, false, false, cpu, allowed, p, k⟩) := by
    refine ⟨h.queues.congr (fun _ => ⟨rfl, rfl, rfl⟩) (fun u => ?_) (fun u hu => ?_), fun d hd => ?_, fun u hu => ?_,
      fun d => ?_, fun m hm => ?_, fun m hm => ?_, fun w hw => ?_, h.target, h.once⟩
    · by_cases hu : u = .thread n
      · rw [hu, hself, hrq]
      · rw [hother u hu]
    · have hne : u ≠ .thread n := by
        rintro rfl
        rw [hrq] at hu
        cases hu
      rw [hother u hne]
      exact ⟨rfl, rfl⟩
    · rw [setThread_cpu, hother]
      · exact h.curr d hd
      · intro heq
        have := (h.curr d hd).1
        rw [heq, honCpu] at this
        cases this
    · by_cases hne : u = .thread n
      · rw [hne, hself] at hu
        cases hu
      · rw [hother u hne] at hu
        exact h.onCpu u hu
    · rw [hother _ (fun heq => by cases heq)]
      exact h.idle d
    · by_cases hmn : m = n
      · rw [hmn, hself] at hm
        cases hm
      · rw [hother _ (fun heq => hmn (Tid.thread.inj heq))] at hm ⊢
        exact h.unborn m hm
    · by_cases hmn : m = n
      · rw [hmn, hself]
        exact ⟨hcpu, hp⟩
      · rw [hother _ (fun heq => hmn (Tid.thread.inj heq))] at hm ⊢
        exact h.bounds m hm
    · rw [hother _ (hwne w hw)]
      exact h.waking w hw
  exact hset.consWaking (by rw [hself]) (by rw [hself]) (by rw [hself]) (by rw [hself]) hwne

end Olux.Runqueue
