import Olux.Runqueue.Queues

namespace Olux.Runqueue

open Sched (SCHED_FIFO)

variable {s s' : State} {c : Nat} {t : Tid}

structure Thread.Same (x y : Thread) : Prop where
  started : x.started = y.started
  state : x.state = y.state
  sched : x.sched = y.sched
  cpusAllowed : x.cpusAllowed = y.cpusAllowed

theorem Thread.Same.refl (x : Thread) : x.Same x := ⟨rfl, rfl, rfl, rfl⟩

def Goes (s : State) (c : Nat) : Prop := (s.thread (s.cpu c).curr).state = .running ∧ (s.cpu c).curr ≠ .idle c

structure Ok (s : State) : Prop where
  queues : Queues s
  curr : ∀ c < s.ncpu.val, (s.thread (s.cpu c).curr).onCpu = true ∧ (s.thread (s.cpu c).curr).cpu = c ∧
    (s.thread (s.cpu c).curr).onRq = false
  onCpu : ∀ t, (s.thread t).onCpu = true → ∃ c < s.ncpu.val, (s.cpu c).curr = t
  idle : ∀ c, (s.thread (.idle c)).onRq = false ∧ (s.thread (.idle c)).cpu = c ∧ (s.thread (.idle c)).state = .running ∧
    (s.thread (.idle c)).sched.prio = NR_PRIO
  unborn : ∀ n, (s.thread (.thread n)).started = false →
    (s.thread (.thread n)).onRq = false ∧ (s.thread (.thread n)).onCpu = false
  bounds : ∀ n, (s.thread (.thread n)).started = true → (s.thread (.thread n)).cpu < s.ncpu.val ∧
    0 ≤ (s.thread (.thread n)).sched.prio ∧ (s.thread (.thread n)).sched.prio < NR_PRIO
  waking : ∀ w ∈ s.waking, (∃ n, w.1 = .thread n) ∧ (s.thread w.1).started = true ∧ (s.thread w.1).state = .running ∧
    (s.thread w.1).onRq = false ∧ (s.thread w.1).onCpu = false
  target : ∀ w ∈ s.waking, ∀ c, w.2 = some c → c < s.ncpu.val
  once : (s.waking.map Prod.fst).Nodup

theorem Ok.started (h : Ok s) {n : Nat} (ht : (s.thread (.thread n)).onCpu = true ∨ (s.thread (.thread n)).onRq = true) :
    (s.thread (.thread n)).started = true := by
  by_contra hs
  obtain ⟨hrq, hcpu⟩ := h.unborn n (Bool.eq_false_iff.mpr hs)
  rw [hrq, hcpu] at ht
  simp at ht

theorem Ok.level_lt (h : Ok s) {n : Nat} (hs : (s.thread (.thread n)).started = true) :
    (s.thread (.thread n)).level < NR_PRIO := by
  obtain ⟨-, h0, h1⟩ := h.bounds n hs
  unfold Thread.level
  omega

theorem Ok.curr_thread (h : Ok s) (hc : c < s.ncpu.val) (hne : (s.cpu c).curr ≠ .idle c) :
    ∃ n, (s.cpu c).curr = .thread n := by
  cases hcurr : (s.cpu c).curr with
  | thread n => exact ⟨n, rfl⟩
  | idle d =>
    have hcpu := (h.curr c hc).2.1
    rw [hcurr, (h.idle d).2.1] at hcpu
    rw [hcurr, hcpu] at hne
    exact absurd rfl hne

structure SameCpus (s s' : State) : Prop where
  ncpu : s'.ncpu = s.ncpu
  waking : s'.waking = s.waking
  curr : ∀ d, (s'.cpu d).curr = (s.cpu d).curr
  needResched : ∀ d, (s'.cpu d).needResched = (s.cpu d).needResched
  online : ∀ d, (s'.cpu d).online = (s.cpu d).online

theorem SameCpus.trans {s'' : State} (h : SameCpus s s') (h' : SameCpus s' s'') : SameCpus s s'' where
  ncpu := h'.ncpu.trans h.ncpu
  waking := h'.waking.trans h.waking
  curr d := (h'.curr d).trans (h.curr d)
  needResched d := (h'.needResched d).trans (h.needResched d)
  online d := (h'.online d).trans (h.online d)

theorem sameCpus_setThread (s : State) (t : Tid) (x : Thread) : SameCpus s (s.setThread t x) :=
  ⟨rfl, rfl, fun _ => rfl, fun _ => rfl, fun _ => rfl⟩

theorem sameCpus_enqueue (c : Nat) (t : Tid) (head : Bool) (s : State) : SameCpus s (enqueue c t head s) :=
  ⟨rfl, rfl, enqueue_curr, enqueue_needResched, enqueue_online⟩

theorem sameCpus_dequeue (c : Nat) (t : Tid) (s : State) : SameCpus s (dequeue c t s) :=
  ⟨rfl, rfl, dequeue_curr, dequeue_needResched, dequeue_online⟩

structure Requeued (s s' : State) (c : Nat) : Prop where
  cpus : SameCpus s s'
  queues : Queues s'
  other : ∀ u, u ≠ (s.cpu c).curr → s'.thread u = s.thread u
  same : (s'.thread (s.cpu c).curr).Same (s.thread (s.cpu c).curr)
  onCpu : (s'.thread (s.cpu c).curr).onCpu = (s.thread (s.cpu c).curr).onCpu
  cpu : (s'.thread (s.cpu c).curr).cpu = c
  onRq : (s'.thread (s.cpu c).curr).onRq = true ↔ Goes s c

theorem requeue_requeued (h : Ok s) (hc : c < s.ncpu.val) : Requeued s (requeue c s) c := by
  obtain ⟨-, hcpu, hrq⟩ := h.curr c hc
  unfold requeue
  dsimp only
  split
  · rename_i hgo
    obtain ⟨n, hn⟩ := h.curr_thread hc hgo.2
    have hlevel : (s.thread (s.cpu c).curr).level < NR_PRIO := by
      rw [hn]
      exact h.level_lt (h.started (.inl (hn ▸ (h.curr c hc).1)))
    have hself : ∀ head, (enqueue c (s.cpu c).curr head s).thread (s.cpu c).curr =
        { s.thread (s.cpu c).curr with onRq := true, cpu := c } := fun head => by rw [enqueue_thread, if_pos rfl]
    have hother : ∀ head u, u ≠ (s.cpu c).curr → (enqueue c (s.cpu c).curr head s).thread u = s.thread u :=
      fun head u hu => by rw [enqueue_thread, if_neg hu]
    have hq : ∀ head, Queues (enqueue c (s.cpu c).curr head s) := fun _ => enqueue_queues h.queues hrq hlevel
    split
    · refine ⟨(sameCpus_enqueue ..).trans (sameCpus_setThread ..), ?_, fun u hu => ?_, ?_, ?_, ?_, ?_⟩
      · refine (hq _).congr (fun d => ⟨rfl, rfl, rfl⟩) (fun u => ?_) fun u _ => ?_
        · rw [setThread_thread]
          split
          · rename_i heq
            rw [heq]
          · rfl
        · rw [setThread_thread]
          split
          · rename_i heq
            rw [heq]
            exact ⟨rfl, rfl⟩
          · exact ⟨rfl, rfl⟩
      · rw [setThread_thread, if_neg hu]
        exact hother _ u hu
      · rw [setThread_thread, if_pos rfl, hself]
        exact ⟨rfl, rfl, rfl, rfl⟩
      · rw [setThread_thread, if_pos rfl, hself]
      · rw [setThread_thread, if_pos rfl, hself]
      · rw [setThread_thread, if_pos rfl, hself]
        exact iff_of_true rfl hgo
    refine ⟨sameCpus_enqueue .., hq _, hother _, ?_, ?_, ?_, ?_⟩
    · rw [hself]
      exact ⟨rfl, rfl, rfl, rfl⟩
    · rw [hself]
    · rw [hself]
    · rw [hself]
      exact iff_of_true rfl hgo
  rename_i hstay
  refine ⟨⟨rfl, rfl, fun _ => rfl, fun _ => rfl, fun _ => rfl⟩, h.queues, fun _ _ => rfl, .refl _, rfl, hcpu, ?_⟩
  rw [hrq]
  exact iff_of_false Bool.false_ne_true hstay

structure Switched (s s' : State) (c : Nat) (next : Tid) : Prop where
  ncpu : s'.ncpu = s.ncpu
  waking : s'.waking = s.waking
  queues : Queues s'
  online : ∀ d, (s'.cpu d).online = (s.cpu d).online
  curr : ∀ d, (s'.cpu d).curr = if d = c then next else (s.cpu d).curr
  needResched : ∀ d, (s'.cpu d).needResched = if d = c then false else (s.cpu d).needResched
  same : ∀ u, (s'.thread u).Same (s.thread u)
  other : ∀ u, u ≠ (s.cpu c).curr → u ≠ next → s'.thread u = s.thread u
  runs : (s'.thread next).onRq = false ∧ (s'.thread next).onCpu = true ∧ (s'.thread next).cpu = c
  left : (s.cpu c).curr ≠ next → (s'.thread (s.cpu c).curr).onCpu = false ∧ (s'.thread (s.cpu c).curr).cpu = c ∧
    ((s'.thread (s.cpu c).curr).onRq = true ↔ Goes s c)
  was : next = .idle c ∨ next = (s.cpu c).curr ∨ (s.thread next).At c (s.thread next).level
  best : ∀ u p, u ∈ (s'.cpu c).runqueue p → (s'.thread next).level ≤ p ∧ next ≠ .idle c

theorem choose_cases {s₁ : State} (h : Queues s₁) (c : Nat) :
    (∃ t, choose c s₁ = (t, dequeue c t s₁) ∧ t ∈ (s₁.cpu c).runqueue (s₁.thread t).level ∧
      ∀ u p, u ∈ (s₁.cpu c).runqueue p → (s₁.thread t).level ≤ p) ∨
    choose c s₁ = (.idle c, s₁) ∧ ∀ p, (s₁.cpu c).runqueue p = [] := by
  unfold choose
  cases hp : pickNext c s₁ with
  | none => exact .inr ⟨rfl, fun p => pickNext_none h hp p⟩
  | some r =>
  obtain ⟨t, s'⟩ := r
  obtain ⟨rfl, p, hp, hhead, hmin⟩ := pickNext_some h hp
  have hmem : t ∈ (s₁.cpu c).runqueue p := List.mem_of_mem_head? hhead
  have hlevel : (s₁.thread t).level = p := ((h.mem c p t).mp hmem).level
  refine .inl ⟨t, rfl, hlevel.symm ▸ hmem, fun u q hu => ?_⟩
  rw [hlevel]
  by_contra hlt
  rw [hmin q (by omega)] at hu
  cases hu

theorem switchTo_thread (s : State) (c : Nat) {prev next : Tid} (hne : next ≠ prev) (u : Tid) :
    (switchTo c prev next s).thread u = if u = prev then { s.thread prev with onCpu := false }
      else if u = next then { s.thread next with onCpu := true, cpu := c } else s.thread u := by
  unfold switchTo
  dsimp only
  rw [setThread_thread]
  split
  · rw [setCpu_thread, setThread_thread, if_neg (Ne.symm hne)]
  · rw [setCpu_thread, setThread_thread]

theorem switchTo_cpu (s : State) (c : Nat) (prev next : Tid) (d : Nat) :
    (switchTo c prev next s).cpu d = if d = c then { s.cpu c with curr := next } else s.cpu d :=
  setCpu_cpu ..

theorem Ok.setResched (h : Ok s) (c : Nat) (b : Bool) : Ok (s.setCpu c { s.cpu c with needResched := b }) := by
  have hcpu : ∀ d, ((s.setCpu c { s.cpu c with needResched := b }).cpu d).runqueue = (s.cpu d).runqueue ∧
      ((s.setCpu c { s.cpu c with needResched := b }).cpu d).bitmap = (s.cpu d).bitmap ∧
      ((s.setCpu c { s.cpu c with needResched := b }).cpu d).nrRunning = (s.cpu d).nrRunning ∧
      ((s.setCpu c { s.cpu c with needResched := b }).cpu d).curr = (s.cpu d).curr := by
    intro d
    rw [setCpu_cpu]
    split
    · rename_i hd
      rw [hd]
      exact ⟨rfl, rfl, rfl, rfl⟩
    · exact ⟨rfl, rfl, rfl, rfl⟩
  refine ⟨h.queues.congr (fun d => ⟨(hcpu d).1, (hcpu d).2.1, (hcpu d).2.2.1⟩) (fun _ => rfl) (fun _ _ => ⟨rfl, rfl⟩),
    fun d hd => ?_, fun t ht => ?_, h.idle, h.unborn, h.bounds, h.waking, h.target, h.once⟩
  · rw [(hcpu d).2.2.2]
    exact h.curr d hd
  · obtain ⟨d, hd, hcurr⟩ := h.onCpu t ht
    exact ⟨d, hd, (hcpu d).2.2.2.trans hcurr⟩

section switched

variable {s₁ : State}

theorem Requeued.stays (hr : Requeued s s₁ c) (honCpu : (s.thread (s.cpu c).curr).onCpu = true)
    (hmem : (s.cpu c).curr ∈ (s₁.cpu c).runqueue (s₁.thread (s.cpu c).curr).level)
    (hmin : ∀ u p, u ∈ (s₁.cpu c).runqueue p → (s₁.thread (s.cpu c).curr).level ≤ p) (hne : (s.cpu c).curr ≠ .idle c)
    (hresched : (s.cpu c).needResched = false) : Switched s (dequeue c (s.cpu c).curr s₁) c (s.cpu c).curr := by
  have hcpus := hr.cpus.trans (sameCpus_dequeue c (s.cpu c).curr s₁)
  have hself : (dequeue c (s.cpu c).curr s₁).thread (s.cpu c).curr = { s₁.thread (s.cpu c).curr with onRq := false } := by
    rw [dequeue_thread, if_pos rfl]
  have hother : ∀ u, u ≠ (s.cpu c).curr → (dequeue c (s.cpu c).curr s₁).thread u = s.thread u := fun u hu => by
    rw [dequeue_thread, if_neg hu, hr.other u hu]
  refine ⟨hcpus.ncpu, hcpus.waking, dequeue_queues hr.queues hmem, hcpus.online, fun d => ?_, fun d => ?_, fun u => ?_,
    fun u hu _ => hother u hu, ?_, fun hc => absurd rfl hc, .inr (.inl rfl), fun u p hu => ⟨?_, hne⟩⟩
  · rw [hcpus.curr]
    split
    · rename_i hd
      rw [hd]
    · rfl
  · rw [hcpus.needResched]
    split
    · rename_i hd
      rw [hd, hresched]
    · rfl
  · by_cases hu : u = (s.cpu c).curr
    · subst hu
      rw [hself]
      exact ⟨hr.same.started, hr.same.state, hr.same.sched, hr.same.cpusAllowed⟩
    · rw [hother u hu]
      exact .refl _
  · rw [hself]
    exact ⟨rfl, hr.onCpu.trans honCpu, hr.cpu⟩
  · rw [hself]
    exact hmin u p ((mem_dequeue hr.queues hmem c p u).mp hu).1

theorem Requeued.leaves {s₂ : State} {next : Tid} (hr : Requeued s s₁ c) (hne : next ≠ (s.cpu c).curr)
    (hcpus : SameCpus s₁ s₂) (hq : Queues s₂) (hother : ∀ u, u ≠ next → s₂.thread u = s₁.thread u)
    (hsame : (s₂.thread next).Same (s₁.thread next)) (hoff : (s₂.thread next).onRq = false)
    (hwas : next = .idle c ∨ (s.thread next).At c (s.thread next).level)
    (hbest : ∀ u p, u ∈ (s₂.cpu c).runqueue p → (s₂.thread next).level ≤ p ∧ next ≠ .idle c)
    (hresched : (s.cpu c).needResched = false) :
    Switched s (switchTo c (s.cpu c).curr next s₂) c next := by
  have hall := hr.cpus.trans hcpus
  have hth := switchTo_thread s₂ c hne
  have hprev : s₂.thread (s.cpu c).curr = s₁.thread (s.cpu c).curr := hother _ (Ne.symm hne)
  have hlists : ∀ d, ((switchTo c (s.cpu c).curr next s₂).cpu d).runqueue = (s₂.cpu d).runqueue ∧
      ((switchTo c (s.cpu c).curr next s₂).cpu d).bitmap = (s₂.cpu d).bitmap ∧
      ((switchTo c (s.cpu c).curr next s₂).cpu d).nrRunning = (s₂.cpu d).nrRunning ∧
      ((switchTo c (s.cpu c).curr next s₂).cpu d).needResched = (s₂.cpu d).needResched ∧
      ((switchTo c (s.cpu c).curr next s₂).cpu d).online = (s₂.cpu d).online := by
    intro d
    rw [switchTo_cpu]
    split
    · rename_i hd
      rw [hd]
      exact ⟨rfl, rfl, rfl, rfl, rfl⟩
    · exact ⟨rfl, rfl, rfl, rfl, rfl⟩
  refine ⟨hall.ncpu, hall.waking, ?_, fun d => (hlists d).2.2.2.2.trans (hall.online d), fun d => ?_, fun d => ?_,
    fun u => ?_, fun u hu hn => ?_, ?_, fun _ => ?_, ?_, fun u p hu => ?_⟩
  · refine hq.congr (fun d => ⟨(hlists d).1, (hlists d).2.1, (hlists d).2.2.1⟩) (fun u => ?_) fun u hu => ?_
    · rw [hth]
      split
      · rename_i heq
        rw [heq]
      split
      · rename_i heq
        rw [heq]
      · rfl
    · rw [hth]
      split
      · rename_i heq
        rw [heq]
        exact ⟨rfl, rfl⟩
      split
      · rename_i heq
        rw [heq, hoff] at hu
        cases hu
      · exact ⟨rfl, rfl⟩
  · rw [switchTo_cpu]
    split
    · rfl
    · exact hall.curr d
  · rw [(hlists d).2.2.2.1, hall.needResched]
    split
    · rename_i hd
      rw [hd, hresched]
    · rfl
  · rw [hth]
    split
    · rename_i heq
      rw [heq, hprev]
      exact ⟨hr.same.started, hr.same.state, hr.same.sched, hr.same.cpusAllowed⟩
    split
    · rename_i hu heq
      subst heq
      rw [hr.other u hu] at hsame
      exact ⟨hsame.started, hsame.state, hsame.sched, hsame.cpusAllowed⟩
    rename_i hu hn
    rw [hother u hn, hr.other u hu]
    exact .refl _
  · rw [hth, if_neg hu, if_neg hn, hother u hn, hr.other u hu]
  · rw [hth, if_neg hne, if_pos rfl]
    exact ⟨hoff, rfl, rfl⟩
  · rw [hth, if_pos rfl, hprev]
    exact ⟨rfl, hr.cpu, hr.onRq⟩
  · exact hwas.imp_right .inr
  rw [(hlists c).1] at hu
  rw [hth, if_neg hne, if_pos rfl]
  exact hbest u p hu

end switched

theorem reschedule_switched (h : Ok s) (hc : c < s.ncpu.val) (hresched : (s.cpu c).needResched = false) :
    ∃ next, Switched s (if (choose c (requeue c s)).1 ≠ (s.cpu c).curr then
      switchTo c (s.cpu c).curr (choose c (requeue c s)).1 (choose c (requeue c s)).2
      else (choose c (requeue c s)).2) c next := by
  have hr := requeue_requeued h hc
  generalize requeue c s = s₁ at hr ⊢
  rcases choose_cases hr.queues c with ⟨t, heq, hmem, hmin⟩ | ⟨heq, hnil⟩
  · rw [heq]
    dsimp only
    by_cases ht : t = (s.cpu c).curr
    · subst ht
      rw [if_neg (not_not.mpr rfl)]
      have hgo := hr.onRq.mp ((hr.queues.mem c _ _).mp hmem).onRq
      exact ⟨_, hr.stays (h.curr c hc).1 hmem hmin hgo.2 hresched⟩
    rw [if_pos ht]
    have hsame : s₁.thread t = s.thread t := hr.other t ht
    have hat := (hr.queues.mem c _ t).mp hmem
    rw [hsame] at hat
    have hidle : t ≠ .idle c := by
      rintro rfl
      have hon := hat.onRq
      rw [(h.idle c).1] at hon
      cases hon
    have hdeq : (dequeue c t s₁).thread t = { s₁.thread t with onRq := false } := by rw [dequeue_thread, if_pos rfl]
    refine ⟨t, hr.leaves ht (sameCpus_dequeue c t s₁) (dequeue_queues hr.queues hmem) (fun u hu => ?_) ?_ ?_ (.inr hat)
      (fun u p hu => ⟨?_, hidle⟩) hresched⟩
    · rw [dequeue_thread, if_neg hu]
    · rw [hdeq]
      exact ⟨rfl, rfl, rfl, rfl⟩
    · rw [hdeq]
    · rw [hdeq]
      exact hmin u p ((mem_dequeue hr.queues hmem c p u).mp hu).1
  rw [heq]
  dsimp only
  by_cases ht : Tid.idle c = (s.cpu c).curr
  · rw [if_neg (not_not.mpr ht)]
    -- nothing was queued, nothing changes
    have hno : ∀ u p, u ∉ (s₁.cpu c).runqueue p := fun u p hu => by rw [hnil p] at hu; cases hu
    have hoff : (s₁.thread (s.cpu c).curr).onRq = false := by
      by_contra hon
      exact (hr.onRq.mp (by simpa using hon)).2 ht.symm
    refine ⟨.idle c, hr.cpus.ncpu, hr.cpus.waking, hr.queues, hr.cpus.online, fun d => ?_, fun d => ?_, fun u => ?_,
      fun u hu _ => hr.other u hu, ?_, fun hc => absurd ht.symm hc, .inl rfl, fun u p hu => absurd hu (hno u p)⟩
    · rw [hr.cpus.curr]
      split
      · rename_i hd
        rw [hd, ht]
      · rfl
    · rw [hr.cpus.needResched]
      split
      · rename_i hd
        rw [hd, hresched]
      · rfl
    · by_cases hu : u = (s.cpu c).curr
      · rw [hu]
        exact hr.same
      · rw [hr.other u hu]
        exact .refl _
    · rw [ht]
      exact ⟨hoff, hr.onCpu.trans (h.curr c hc).1, hr.cpu⟩
  rw [if_pos ht]
  have hoff : (s₁.thread (.idle c)).onRq = false := by
    rw [hr.other _ ht]
    exact (h.idle c).1
  exact ⟨.idle c, hr.leaves ht ⟨rfl, rfl, fun _ => rfl, fun _ => rfl, fun _ => rfl⟩ hr.queues (fun _ _ => rfl) (.refl _)
    hoff (.inl rfl) (fun u p hu => by rw [hnil p] at hu; cases hu) hresched⟩

theorem schedule_switched (h : Ok s) (hc : c < s.ncpu.val) : ∃ next, Switched s (schedule c s) c next := by
  have h₀ : Ok (s.setCpu c { s.cpu c with needResched := false }) := h.setResched c false
  have hcpu : (s.setCpu c { s.cpu c with needResched := false }).cpu c = { s.cpu c with needResched := false } := by
    rw [setCpu_cpu, if_pos rfl]
  have hprev : ((s.setCpu c { s.cpu c with needResched := false }).cpu c).curr = (s.cpu c).curr := by rw [hcpu]
  have hresched : ((s.setCpu c { s.cpu c with needResched := false }).cpu c).needResched = false := by rw [hcpu]
  -- clearing `need_resched` is seen in that field only
  suffices hsw : ∃ next, Switched (s.setCpu c { s.cpu c with needResched := false }) (schedule c s) c next by
    obtain ⟨next, hsw⟩ := hsw
    have hsame : ∀ d, d ≠ c → (s.setCpu c { s.cpu c with needResched := false }).cpu d = s.cpu d := fun d hd => by
      rw [setCpu_cpu, if_neg hd]
    refine ⟨next, hsw.ncpu, hsw.waking, hsw.queues, fun d => ?_, fun d => ?_, fun d => ?_, hsw.same, ?_, hsw.runs, ?_, ?_,
      hsw.best⟩
    · rw [hsw.online]
      by_cases hd : d = c
      · rw [hd, hcpu]
      · rw [hsame d hd]
    · rw [hsw.curr]
      split
      · rfl
      · rename_i hd
        rw [hsame d hd]
    · rw [hsw.needResched]
      split
      · rfl
      · rename_i hd
        rw [hsame d hd]
    · have := hsw.other
      rw [hprev] at this
      exact this
    · have := hsw.left
      unfold Goes at this ⊢
      rw [hprev] at this
      exact this
    have := hsw.was
    rw [hprev] at this
    exact this
  have hsw := reschedule_switched h₀ hc hresched
  rw [hprev] at hsw
  exact hsw

end Olux.Runqueue
