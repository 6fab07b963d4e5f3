import Olux.Runqueue.Invariant

namespace Olux.Runqueue

open List Option

open Sched (SCHED_OTHER SCHED_BATCH)

variable {s s' : State} {c n : Nat} {t next : Tid} {p : Sched.Thread}

theorem boot_ok (n : Fin (NR_CPUS + 1)) (online : Nat → Bool) : Ok (boot n online) := by
  have hrq : ∀ t, ((boot n online).thread t).onRq = false := fun t => by cases t <;> rfl
  refine ⟨⟨fun c p t => ?_, fun _ _ => nodup_nil, fun t ht => ?_, fun c p _ => ?_, fun c => ?_⟩, fun c hc => ?_,
    fun t ht => ?_, fun c => ⟨rfl, rfl, rfl, rfl⟩, fun _ _ => ⟨rfl, rfl⟩, fun n hn => ?_, fun w hw => ?_, fun w hw => ?_,
    nodup_nil⟩
  · refine iff_of_false not_mem_nil fun hat => ?_
    have := hat.onRq
    rw [hrq] at this
    cases this
  · rw [hrq] at ht
    cases ht
  · refine iff_of_false ?_ (not_not.mpr rfl)
    show ¬ (0 : BitVec 32).getLsbD p = true
    simp
  · exact (Finset.sum_eq_zero fun _ _ => rfl).symm
  · exact ⟨decide_eq_true hc, rfl, rfl⟩
  · cases t with
    | idle c => exact ⟨c, of_decide_eq_true ht, rfl⟩
    | thread n => cases ht
  · cases hn
  · cases hw
  · cases hw

theorem find_waking {w : Tid × Option Nat} (hw : s.waking.find? (fun w => decide (w.1 = .thread n)) = some w) :
    w ∈ s.waking ∧ w.1 = .thread n :=
  ⟨mem_of_find?_eq_some hw, by simpa using find?_some hw⟩

theorem Ok.others (h : Ok s) (t : Tid) : Ok { s with waking := s.waking.filter fun w => w.1 ≠ t } := by
  refine h.setWaking (filter_sublist.map _) fun w hw => h.target w (mem_of_mem_filter hw)

theorem schedSetscheduler_ok (h : Ok s) (hs : (s.thread (.thread n)).started = true) (policy prio : Int) :
    Ok (schedSetscheduler (.thread n) policy prio s).2 := by
  unfold schedSetscheduler
  cases hset : Sched.schedSetscheduler (s.thread (.thread n)).sched policy prio with
  | mk r p =>
  dsimp only
  split
  · exact h
  rename_i hr
  obtain rfl := not_not.mp hr
  exact setSched_ok h hs (schedSetscheduler_range hset)

theorem act_ok (h : Ok s) (ev : Event) (hfits : ev.fits s = true) : Ok (ev.act s) := by
  cases ev with
  | new n cpu allowed p =>
    obtain ⟨hs, hcpu, h0, h1, -⟩ := of_decide_eq_true hfits
    exact new_ok h (by simpa using hs) hcpu ⟨h0, h1⟩ allowed _
  | wake n mask => exact tryToWakeUp_ok h hfits mask
  | select n =>
    refine h.setWaking ?_ fun w hw c hc => ?_
    · have heq : (s.waking.map fun w => if w.1 = .thread n then (w.1, some (selectCpu s w.1)) else w).map Prod.fst =
          s.waking.map Prod.fst := by
        rw [List.map_map]
        refine List.map_congr_left fun w _ => ?_
        dsimp only [Function.comp]
        split
        · rfl
        · rfl
      rw [heq]
    obtain ⟨w', hw', rfl⟩ := mem_map.mp hw
    split at hc
    · rw [← some.inj hc]
      obtain ⟨⟨m, hm⟩, hs, -⟩ := h.waking w' hw'
      rw [hm] at hs ⊢
      exact selectCpu_lt (h.bounds m hs).1
    · exact h.target w' hw' c hc
  | activate n =>
    dsimp only [Event.act]
    split
    · rename_i t c hfind
      obtain ⟨hw, heq⟩ := find_waking hfind
      obtain ⟨-, hs, -, hrq, hcpu⟩ := h.waking _ hw
      obtain rfl : t = .thread n := heq
      refine activate_ok (h.others _) (h.target _ hw c rfl) hs hrq hcpu fun w hw' => ?_
      simpa using (mem_filter.mp hw').2
    · exact h
  | state c x =>
    obtain ⟨hc, hne⟩ := of_decide_eq_true hfits
    exact state_ok h hc hne x
  | schedule c => exact schedule_ok h (of_decide_eq_true hfits)
  | yield c => exact yield_ok h (of_decide_eq_true hfits)
  | tick c => exact tick_ok h
  | setscheduler n policy prio => exact schedSetscheduler_ok h hfits policy prio
  | setnice n nice =>
    dsimp only [Event.act, schedSetNice]
    split
    · refine schedSetscheduler_ok ?_ ?_ _ _
      · exact h.retune rfl rfl rfl rfl rfl rfl
      · rw [setThread_thread, if_pos rfl]
        exact hfits
    · exact h.retune rfl rfl rfl rfl rfl rfl
  | setaffinity c n mask =>
  obtain ⟨hc, -, hs⟩ := of_decide_eq_true hfits
  dsimp only [Event.act, schedSetaffinity]
  split
  · exact h
  have hset : Ok (s.setThread (.thread n) { s.thread (.thread n) with cpusAllowed := mask &&& onlineMask s }) :=
    h.retune rfl rfl rfl rfl rfl rfl
  dsimp only
  split
  · exact yield_ok hset hc
  · exact hset

theorem step_ok (h : Ok s) (ev : Event) : Ok (step s ev) := by
  unfold step
  split
  · rename_i hfits
    exact act_ok h ev hfits
  · exact h

theorem run_ok (evs : List Event) (h : Ok s) : Ok (run s evs) := by
  induction evs generalizing s with
  | nil => exact h
  | cons ev evs ih => exact ih (step_ok h ev)

def Noticed (s : State) : Prop :=
  ∀ c < s.ncpu.val, ∀ u, (s.thread u).onRq = true → (s.thread u).cpu = c →
    (s.thread u).sched.prio < (s.thread (s.cpu c).curr).sched.prio → (s.cpu c).needResched = true

theorem Noticed.mono (h : Noticed s) (hncpu : s'.ncpu = s.ncpu) (hrq : ∀ u, (s'.thread u).onRq = true →
      (s.thread u).onRq = true ∧ (s'.thread u).cpu = (s.thread u).cpu)
    (hprio : ∀ u, (s'.thread u).sched.prio = (s.thread u).sched.prio) (hcurr : ∀ c, (s'.cpu c).curr = (s.cpu c).curr)
    (hres : ∀ c, (s.cpu c).needResched = true → (s'.cpu c).needResched = true) : Noticed s' := by
  intro c hc u hon hcpu hlt
  rw [hncpu] at hc
  rw [hcurr, hprio, hprio] at hlt
  obtain ⟨hon', hcpu'⟩ := hrq u hon
  exact hres c (h c hc u hon' (hcpu'.symm.trans hcpu) hlt)

theorem Noticed.setThread (h : Noticed s) {x : Thread} (honRq : x.onRq = (s.thread t).onRq) (hcpu : x.cpu = (s.thread t).cpu)
    (hprio : x.sched.prio = (s.thread t).sched.prio) : Noticed (s.setThread t x) := by
  refine h.mono rfl (fun u hu => ?_) (fun u => ?_) (fun _ => rfl) (fun _ => id)
  · rw [setThread_thread] at hu ⊢
    split
    · rename_i heq
      rw [if_pos heq] at hu
      subst heq
      exact ⟨honRq.symm.trans hu, hcpu⟩
    rename_i hne
    rw [if_neg hne] at hu
    exact ⟨hu, rfl⟩
  rw [setThread_thread]
  split
  · rename_i heq
    subst heq
    exact hprio
  · rfl

theorem reschedCpu_needResched (s : State) (c d : Nat) :
    ((reschedCpu c s).cpu d).needResched = (decide (d = c) || (s.cpu d).needResched) := by
  unfold reschedCpu
  rw [setCpu_cpu]
  split
  · rename_i hd
    rw [decide_eq_true hd]
    rfl
  rename_i hd
  rw [decide_eq_false hd]
  rfl

theorem reschedCpu_curr (s : State) (c d : Nat) : ((reschedCpu c s).cpu d).curr = (s.cpu d).curr := by
  unfold reschedCpu
  rw [setCpu_cpu]
  split
  · rename_i hd
    rw [hd]
  · rfl

theorem Noticed.resched (h : Noticed s) (c : Nat) : Noticed (reschedCpu c s) := by
  refine h.mono rfl (fun u hu => ⟨hu, rfl⟩) (fun _ => rfl) (fun d => reschedCpu_curr s c d) fun d hd => ?_
  rw [reschedCpu_needResched, hd, Bool.or_true]

def checked (c : Nat) (t : Tid) (s : State) : State :=
  if (s.thread t).sched.prio < currPrio c s then reschedCpu c s else s

theorem Ok.currPrio_eq (h : Ok s) : currPrio c s = (s.thread (s.cpu c).curr).sched.prio := by
  unfold currPrio
  dsimp only
  split
  · rename_i hc
    rw [hc, (h.idle c).2.2.2]
  · rfl

theorem checked_noticed (h : Ok s) (hother : ∀ d < s.ncpu.val, ∀ u, u ≠ t → (s.thread u).onRq = true → (s.thread u).cpu = d →
      (s.thread u).sched.prio < (s.thread (s.cpu d).curr).sched.prio → (s.cpu d).needResched = true)
    (hcpu : (s.thread t).cpu = c) : Noticed (checked c t s) := by
  unfold checked
  split
  · intro d hd u hon hu hlt
    rw [reschedCpu_needResched]
    rw [reschedCpu_curr] at hlt
    by_cases hut : u = t
    · subst hut
      rw [decide_eq_true (hu.symm.trans hcpu), Bool.true_or]
    · rw [hother d hd u hut hon hu hlt, Bool.or_true]
  rename_i hge
  intro d hd u hon hu hlt
  by_cases hut : u = t
  · subst hut
    rw [h.currPrio_eq, ← hcpu, hu] at hge
    exact absurd hlt hge
  · exact hother d hd u hut hon hu hlt

theorem activate_noticed (h : Ok s) (hn : Noticed s) (hok : Ok (enqueue c (.thread n) false s))
    (hcpu : (s.thread (.thread n)).onCpu = false) : Noticed (activate c (.thread n) s) := by
  refine checked_noticed hok (fun d hd u hut hon hu hlt => ?_) ?_
  · rw [enqueue_needResched]
    rw [enqueue_curr, enqueue_thread, enqueue_thread, if_neg hut, if_neg] at hlt
    · rw [enqueue_thread, if_neg hut] at hon hu
      exact hn d hd u hon hu hlt
    intro heq
    have := (h.curr d hd).1
    rw [heq, hcpu] at this
    cases this
  · rw [enqueue_thread, if_pos rfl]

theorem Switched.noticed (h : Ok s) (hc : c < s.ncpu.val) (hn : Noticed s) (hsw : Switched s s' c next) : Noticed s' := by
  have h' := hsw.ok h hc
  intro d hd u hon hu hlt
  rw [hsw.ncpu] at hd
  rw [hsw.needResched]
  split
  · rename_i hdc
    -- the queue of this CPU has nothing better
    subst hdc
    rw [hsw.curr, if_pos rfl] at hlt
    obtain ⟨hle, hne⟩ := hsw.best u _ (hu ▸ h'.queued hon)
    obtain ⟨m, rfl⟩ := h'.queued_thread hon
    have hb := (h'.bounds m (h'.started (.inr hon))).2
    have hnext : ∃ k, next = .thread k := by
      cases hk : next with
      | thread k => exact ⟨k, rfl⟩
      | idle e =>
        have hcpu := hsw.runs.2.2
        rw [hk, (h'.idle e).2.1] at hcpu
        rw [hk, hcpu] at hne
        exact absurd rfl hne
    obtain ⟨k, rfl⟩ := hnext
    have hb' := (h'.bounds k (h'.started (.inl hsw.runs.2.1))).2
    unfold Thread.level at hle
    omega
  rename_i hdc
  rw [hsw.curr, if_neg hdc, (hsw.same _).sched, (hsw.same _).sched] at hlt
  have hun : u ≠ next := by
    rintro rfl
    rw [hsw.runs.1] at hon
    cases hon
  have hup : u ≠ (s.cpu c).curr := by
    rintro rfl
    exact hdc (hu.symm.trans (hsw.left hun).2.1)
  rw [hsw.other u hup hun] at hon hu
  exact hn d hd u hon hu hlt

theorem schedule_noticed (h : Ok s) (hc : c < s.ncpu.val) (hn : Noticed s) : Noticed (schedule c s) := by
  obtain ⟨next, hsw⟩ := schedule_switched h hc
  exact hsw.noticed h hc hn

theorem yield_noticed (h : Ok s) (hc : c < s.ncpu.val) (hn : Noticed s) : Noticed (yield c s) :=
  schedule_noticed (h.setTimeslice _ 0) hc (hn.setThread rfl rfl rfl)

theorem tick_noticed (hn : Noticed s) : Noticed (schedulerTick c s) := by
  unfold schedulerTick
  dsimp only
  split
  · split
    · exact hn.resched c
    · exact hn
  split
  · exact hn
  split
  · exact hn.setThread rfl rfl rfl
  split
  · refine Noticed.resched ?_ c
    exact hn.setThread rfl rfl rfl
  · exact hn.setThread rfl rfl rfl

def Bearable (s : State) (t : Tid) (p : Sched.Thread) : Prop :=
  ∀ c < s.ncpu.val, (s.cpu c).curr = t → ∀ u, (s.thread u).onRq = true → (s.thread u).cpu = c →
    (s.thread u).sched.prio < p.prio → (s.cpu c).needResched = true

theorem setSched_noticed_iff (h : Ok s) (hn : Noticed s) (hs : (s.thread (.thread n)).started = true)
    (hp : 0 ≤ p.prio ∧ p.prio < NR_PRIO) :
    Noticed (setSched (.thread n) p s) ↔ Bearable s (.thread n) p := by
  by_cases hon : (s.thread (.thread n)).onRq = true
  · -- a queued thread is no CPU's running one
    have hcurr : ∀ d < s.ncpu.val, (s.cpu d).curr ≠ .thread n := by
      intro d hd heq
      have := (h.curr d hd).2.2
      rw [heq, hon] at this
      cases this
    refine iff_of_true ?_ fun d hd heq => absurd heq (hcurr d hd)
    unfold setSched
    dsimp only
    rw [if_pos hon]
    show Noticed (checked _ _ (resorted (.thread n) p s))
    refine checked_noticed (resorted_ok h hs hon hp) (fun d hd u hut hu hcpu hlt => ?_) ?_
    · rw [(resorted_curr ..).1, resorted_thread, resorted_thread, if_neg hut, if_neg (hcurr d hd)] at hlt
      rw [resorted_thread, if_neg hut] at hu hcpu
      rw [(resorted_curr ..).2]
      exact hn d hd u hu hcpu hlt
    · rw [resorted_thread, if_pos rfl]
  unfold setSched
  dsimp only
  rw [if_neg hon]
  have hthread := setThread_thread s (.thread n) { s.thread (.thread n) with sched := p }
  have hoff : ∀ u, (s.thread u).onRq = true → u ≠ .thread n := by
    rintro u hu rfl
    exact hon hu
  constructor
  · intro hnew d hd heq u hu hcpu hlt
    refine hnew d hd u ?_ ?_ ?_
    · rw [hthread, if_neg (hoff u hu)]
      exact hu
    · rw [hthread, if_neg (hoff u hu)]
      exact hcpu
    · rw [setThread_cpu, heq, hthread, hthread, if_neg (hoff u hu), if_pos rfl]
      exact hlt
  intro hbear d hd u hu hcpu hlt
  have hun : u ≠ .thread n := by
    rintro rfl
    rw [hthread, if_pos rfl] at hu
    exact hon hu
  rw [hthread, if_neg hun] at hu hcpu hlt
  rw [setThread_cpu, hthread] at hlt
  split at hlt
  · rename_i heq
    exact hbear d hd heq u hu hcpu hlt
  · exact hn d hd u hu hcpu hlt

def Event.params (s : State) : Event → Option (Nat × Sched.Thread)
  | .setscheduler n policy prio =>
    let r := Sched.schedSetscheduler (s.thread (.thread n)).sched policy prio
    if r.1 = 0 then some (n, r.2) else none
  | .setnice n nice =>
    let p := { (s.thread (.thread n)).sched with nice := min (max nice (-20)) 19 }
    if p.policy = SCHED_OTHER ∨ p.policy = SCHED_BATCH then some (n, (Sched.schedSetscheduler p p.policy 0).2) else none
  | _ => none

def Event.Bearable (s : State) (ev : Event) : Prop :=
  ev.fits s = true → ∀ n p, ev.params s = some (n, p) → Runqueue.Bearable s (.thread n) p

theorem setnice_ok_zero (p : Sched.Thread) (h : p.policy = SCHED_OTHER ∨ p.policy = SCHED_BATCH) :
    (Sched.schedSetscheduler p p.policy 0).1 = 0 := by
  rcases h with h | h
  · rw [h]
    rfl
  · rw [h]
    rfl

theorem new_noticed (h : Ok s) (hn : Noticed s) {cpu : Nat} {allowed : BitVec 64}
    (hs : (s.thread (.thread n)).started = false) : Noticed (Event.act s (.new n cpu allowed p)) := by
  have hun := h.unborn n hs
  intro d hd u hu hcpu hlt
  have hne : u ≠ .thread n := by
    rintro rfl
    change ((s.setThread _ _).thread _).onRq = true at hu
    rw [setThread_thread, if_pos rfl] at hu
    cases hu
  have hcurr : (s.cpu d).curr ≠ .thread n := by
    intro heq
    have := (h.curr d hd).1
    rw [heq, hun.2] at this
    cases this
  change ((s.setThread _ _).thread u).onRq = true at hu
  change ((s.setThread _ _).thread u).cpu = d at hcpu
  change ((s.setThread _ _).thread u).sched.prio < ((s.setThread _ _).thread (s.cpu d).curr).sched.prio at hlt
  rw [setThread_thread, if_neg hne] at hu hcpu
  rw [setThread_thread, if_neg hne, setThread_thread, if_neg hcurr] at hlt
  exact hn d hd u hu hcpu hlt

theorem tryToWakeUp_noticed (hn : Noticed s) (n : Nat) (mask : List TaskState) :
    Noticed (tryToWakeUp (.thread n) mask s) := by
  have hstate : Noticed (s.setThread (.thread n) { s.thread (.thread n) with state := .running }) :=
    hn.setThread rfl rfl rfl
  dsimp only [tryToWakeUp]
  split
  · exact hn
  split
  · exact hstate
  · exact hstate

theorem schedSetaffinity_noticed (h : Ok s) (hc : c < s.ncpu.val) (hn : Noticed s) (n : Nat) (mask : BitVec 64) :
    Noticed (schedSetaffinity c (.thread n) mask s).2 := by
  dsimp only [schedSetaffinity]
  split
  · exact hn
  have hok : Ok (s.setThread (.thread n) { s.thread (.thread n) with cpusAllowed := mask &&& onlineMask s }) :=
    h.retune rfl rfl rfl rfl rfl rfl
  have hset : Noticed (s.setThread (.thread n) { s.thread (.thread n) with cpusAllowed := mask &&& onlineMask s }) :=
    hn.setThread rfl rfl rfl
  dsimp only
  split
  · exact yield_noticed hok hc hset
  · exact hset

theorem schedSetscheduler_noticed_iff {policy prio : Int} (h : Ok s) (hn : Noticed s)
    (hs : (s.thread (.thread n)).started = true)
    (hzero : (Sched.schedSetscheduler (s.thread (.thread n)).sched policy prio).1 = 0) :
    Noticed (schedSetscheduler (.thread n) policy prio s).2 ↔
      Bearable s (.thread n) (Sched.schedSetscheduler (s.thread (.thread n)).sched policy prio).2 := by
  unfold schedSetscheduler
  dsimp only
  rw [if_neg (not_not.mpr hzero), setSched_noticed_iff h hn hs (schedSetscheduler_range (Prod.ext hzero rfl))]

theorem bearable_setThread {q : Sched.Thread} (hq : q.prio = (s.thread (.thread n)).sched.prio) :
    Bearable (s.setThread (.thread n) { s.thread (.thread n) with sched := q }) (.thread n) p ↔
      Bearable s (.thread n) p := by
  have hsame : ∀ u, ((s.setThread (.thread n) { s.thread (.thread n) with sched := q }).thread u).onRq =
      (s.thread u).onRq ∧ ((s.setThread (.thread n) { s.thread (.thread n) with sched := q }).thread u).cpu =
      (s.thread u).cpu ∧ ((s.setThread (.thread n) { s.thread (.thread n) with sched := q }).thread u).sched.prio =
      (s.thread u).sched.prio := by
    intro u
    rw [setThread_thread]
    split
    · rename_i hu
      rw [hu]
      exact ⟨rfl, rfl, hq⟩
    · exact ⟨rfl, rfl, rfl⟩
  constructor
  · intro hb d hd hcurr u hu hcpu hlt
    obtain ⟨h1, h2, h3⟩ := hsame u
    exact hb d hd hcurr u (h1.trans hu) (h2.trans hcpu) (by rw [h3]; exact hlt)
  intro hb d hd hcurr u hu hcpu hlt
  obtain ⟨h1, h2, h3⟩ := hsame u
  rw [h3] at hlt
  exact hb d hd hcurr u (h1.symm.trans hu) (h2.symm.trans hcpu) hlt

theorem schedSetNice_noticed_iff {nice : Int} {q : Sched.Thread} (h : Ok s) (hn : Noticed s)
    (hs : (s.thread (.thread n)).started = true)
    (hq : { (s.thread (.thread n)).sched with nice := min (max nice (-20)) 19 } = q)
    (hpol : (s.thread (.thread n)).sched.policy = SCHED_OTHER ∨ (s.thread (.thread n)).sched.policy = SCHED_BATCH) :
    Noticed (schedSetNice (.thread n) nice s) ↔
      Bearable s (.thread n) (Sched.schedSetscheduler q (s.thread (.thread n)).sched.policy 0).2 := by
  have hpolicy : (s.thread (.thread n)).sched.policy = q.policy := by rw [← hq]
  have hprio : q.prio = (s.thread (.thread n)).sched.prio := by rw [← hq]
  have hok : Ok (s.setThread (.thread n) { s.thread (.thread n) with sched := q }) :=
    h.retune rfl rfl rfl rfl rfl hprio
  have hself : (s.setThread (.thread n) { s.thread (.thread n) with sched := q }).thread (.thread n) =
      { s.thread (.thread n) with sched := q } := by rw [setThread_thread, if_pos rfl]
  have hiff := schedSetscheduler_noticed_iff (n := n) hok (hn.setThread rfl rfl hprio) (by rw [hself]; exact hs)
    (by rw [hself]; exact setnice_ok_zero q (hpolicy ▸ hpol))
  rw [hself] at hiff
  dsimp only [schedSetNice]
  rw [if_pos hpol, hq, hpolicy]
  exact hiff.trans (bearable_setThread hprio)

theorem act_noticed_iff (h : Ok s) (hn : Noticed s) (ev : Event) (hfits : ev.fits s = true) :
    Noticed (ev.act s) ↔ ∀ n p, ev.params s = some (n, p) → Bearable s (.thread n) p := by
  have hnone : ev.params s = none → Noticed (ev.act s) →
      (Noticed (ev.act s) ↔ ∀ n p, ev.params s = some (n, p) → Bearable s (.thread n) p) := by
    intro hnone hact
    refine iff_of_true hact fun n p heq => ?_
    rw [hnone] at heq
    cases heq
  have hsome : ∀ {n p}, ev.params s = some (n, p) → (Noticed (ev.act s) ↔ Bearable s (.thread n) p) →
      (Noticed (ev.act s) ↔ ∀ n p, ev.params s = some (n, p) → Bearable s (.thread n) p) := by
    intro n p hparams hact
    refine hact.trans ⟨fun hb m q heq => ?_, fun hb => hb n p hparams⟩
    obtain ⟨rfl, rfl⟩ := Prod.mk.inj (some.inj (hparams.symm.trans heq))
    exact hb
  cases ev with
  | new n cpu allowed p =>
    obtain ⟨hs, -⟩ := of_decide_eq_true hfits
    exact hnone rfl (new_noticed h hn (by simpa using hs))
  | wake n mask => exact hnone rfl (tryToWakeUp_noticed hn n mask)
  | select n => exact hnone rfl hn
  | activate n =>
    refine hnone rfl ?_
    dsimp only [Event.act]
    split
    · rename_i t c hfind
      obtain ⟨hw, heq⟩ := find_waking hfind
      obtain ⟨-, hs, -, hrq, hcpu⟩ := h.waking _ hw
      obtain rfl : t = .thread n := heq
      refine activate_noticed (h.others _) hn ?_ hcpu
      refine enqueue_ok (h.others _) (h.target _ hw c rfl) hs hrq hcpu (fun w hw' => ?_) false
      simpa using (mem_filter.mp hw').2
    · exact hn
  | state c x => exact hnone rfl (hn.setThread rfl rfl rfl)
  | schedule c => exact hnone rfl (schedule_noticed h (of_decide_eq_true hfits) hn)
  | yield c => exact hnone rfl (yield_noticed h (of_decide_eq_true hfits) hn)
  | tick c => exact hnone rfl (tick_noticed hn)
  | setscheduler n policy prio =>
    by_cases hzero : (Sched.schedSetscheduler (s.thread (.thread n)).sched policy prio).1 = 0
    · exact hsome (if_pos hzero) (schedSetscheduler_noticed_iff h hn hfits hzero)
    refine hnone (if_neg hzero) ?_
    dsimp only [Event.act, schedSetscheduler]
    rw [if_pos hzero]
    exact hn
  | setnice n nice =>
    dsimp only [Event.act, Event.params] at hnone hsome ⊢
    by_cases hpol : (s.thread (.thread n)).sched.policy = SCHED_OTHER ∨ (s.thread (.thread n)).sched.policy = SCHED_BATCH
    · rw [if_pos hpol] at hsome ⊢
      exact hsome rfl (schedSetNice_noticed_iff h hn hfits rfl hpol)
    refine hnone (if_neg hpol) ?_
    dsimp only [schedSetNice]
    rw [if_neg hpol]
    exact hn.setThread rfl rfl rfl
  | setaffinity c n mask =>
    obtain ⟨hc, -⟩ := of_decide_eq_true hfits
    exact hnone rfl (schedSetaffinity_noticed h hc hn n mask)

theorem step_noticed_iff (h : Ok s) (hn : Noticed s) (ev : Event) : Noticed (step s ev) ↔ ev.Bearable s := by
  unfold step Event.Bearable
  split
  · rename_i hfits
    rw [act_noticed_iff h hn ev hfits]
    exact ⟨fun hb _ => hb, fun hb => hb hfits⟩
  · rename_i hfits
    exact iff_of_true hn fun hc => absurd hc hfits

def Always (P : State → Prop) : State → List Event → Prop
  | s, [] => P s
  | s, ev :: evs => P s ∧ Always P (step s ev) evs

def AllBearable : State → List Event → Prop
  | _, [] => True
  | s, ev :: evs => ev.Bearable s ∧ AllBearable (step s ev) evs

theorem Always.head {P : State → Prop} {evs : List Event} (h : Always P s evs) : P s := by
  cases evs with
  | nil => exact h
  | cons ev evs => exact h.1

theorem always_noticed_iff (h : Ok s) (hn : Noticed s) (evs : List Event) : Always Noticed s evs ↔ AllBearable s evs := by
  induction evs generalizing s with
  | nil => exact iff_of_true hn trivial
  | cons ev evs ih =>
  constructor
  · rintro ⟨-, hrest⟩
    have hb := (step_noticed_iff h hn ev).mp hrest.head
    exact ⟨hb, (ih (step_ok h ev) hrest.head).mp hrest⟩
  · rintro ⟨hb, hrest⟩
    exact ⟨hn, (ih (step_ok h ev) ((step_noticed_iff h hn ev).mpr hb)).mpr hrest⟩

-- A better thread in the queue is noticed all the time exactly if no call puts a running thread
-- behind one that is queued.
theorem inversion_noticed_iff (n : Fin (NR_CPUS + 1)) (online : Nat → Bool) (evs : List Event) :
    Always Noticed (boot n online) evs ↔ AllBearable (boot n online) evs := by
  refine always_noticed_iff (boot_ok n online) (fun c _ u hu => ?_) evs
  cases u with
  | idle d => cases hu
  | thread m => cases hu

def nice0 : Sched.Thread := ⟨SCHED_OTHER, 0, 27, 0⟩

def twoReady : State :=
  run (boot 1 fun _ => true) [.new 1 0 1 nice0, .select 1, .activate 1, .schedule 0, .new 2 0 1 nice0, .select 2, .activate 2]

theorem setscheduler_unnoticed : ¬ Noticed (step twoReady (.setscheduler 1 5 0)) := by
  intro h
  have := h 0 (by decide +kernel) (.thread 2) (by decide +kernel) (by decide +kernel) (by decide +kernel)
  exact absurd this (by decide +kernel)

end Olux.Runqueue
