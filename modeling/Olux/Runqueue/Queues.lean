import Olux.Runqueue

namespace Olux.Runqueue

open Function List Option

variable {s s' : State} {c : Nat} {t : Tid}

theorem setThread_thread (s : State) (t : Tid) (x : Thread) (u : Tid) :
    (s.setThread t x).thread u = if u = t then x else s.thread u :=
  update_apply ..

theorem setCpu_cpu (s : State) (c : Nat) (x : Cpu) (d : Nat) : (s.setCpu c x).cpu d = if d = c then x else s.cpu d :=
  update_apply ..

@[simp] theorem setThread_cpu (s : State) (t : Tid) (x : Thread) : (s.setThread t x).cpu = s.cpu := rfl

@[simp] theorem setCpu_thread (s : State) (c : Nat) (x : Cpu) : (s.setCpu c x).thread = s.thread := rfl

structure Thread.At (th : Thread) (c p : Nat) : Prop where
  onRq : th.onRq = true
  cpu : th.cpu = c
  level : th.level = p

structure Queues (s : State) : Prop where
  mem : ∀ c p t, t ∈ (s.cpu c).runqueue p ↔ (s.thread t).At c p
  nodup : ∀ c p, ((s.cpu c).runqueue p).Nodup
  level : ∀ t, (s.thread t).onRq = true → (s.thread t).level < NR_PRIO
  bits : ∀ c, ∀ p < NR_PRIO, (s.cpu c).bitmap.getLsbD p = true ↔ (s.cpu c).runqueue p ≠ []
  count : ∀ c, (s.cpu c).nrRunning = ∑ p ∈ Finset.range NR_PRIO, (((s.cpu c).runqueue p).length : Int)

theorem Queues.congr (h : Queues s)
    (hcpu : ∀ c, (s'.cpu c).runqueue = (s.cpu c).runqueue ∧ (s'.cpu c).bitmap = (s.cpu c).bitmap ∧
      (s'.cpu c).nrRunning = (s.cpu c).nrRunning)
    (honRq : ∀ t, (s'.thread t).onRq = (s.thread t).onRq)
    (hat : ∀ t, (s.thread t).onRq = true → (s'.thread t).cpu = (s.thread t).cpu ∧ (s'.thread t).level = (s.thread t).level) :
    Queues s' := by
  refine ⟨fun c p t => ?_, fun c p => ?_, fun t ht => ?_, fun c p hp => ?_, fun c => ?_⟩
  · rw [(hcpu c).1, h.mem]
    constructor
    · rintro ⟨hon, hc, hl⟩
      exact ⟨(honRq t).trans hon, (hat t hon).1.trans hc, (hat t hon).2.trans hl⟩
    rintro ⟨hon, hc, hl⟩
    have hon := (honRq t).symm.trans hon
    exact ⟨hon, (hat t hon).1.symm.trans hc, (hat t hon).2.symm.trans hl⟩
  · rw [(hcpu c).1]
    exact h.nodup c p
  · have hon := (honRq t).symm.trans ht
    rw [(hat t hon).2]
    exact h.level t hon
  · rw [(hcpu c).1, (hcpu c).2.1]
    exact h.bits c p hp
  · rw [(hcpu c).1, (hcpu c).2.2]
    exact h.count c

theorem sum_change {f g : Nat → Int} {p : Nat} {k : Int} (hp : p < NR_PRIO) (hother : ∀ q, q ≠ p → g q = f q)
    (hat : g p = f p + k) : ∑ q ∈ Finset.range NR_PRIO, g q = (∑ q ∈ Finset.range NR_PRIO, f q) + k := by
  have hmem := Finset.mem_range.mpr hp
  have hrest : ∑ q ∈ (Finset.range NR_PRIO).erase p, g q = ∑ q ∈ (Finset.range NR_PRIO).erase p, f q :=
    Finset.sum_congr rfl fun q hq => hother q (Finset.ne_of_mem_erase hq)
  rw [← Finset.add_sum_erase _ g hmem, ← Finset.add_sum_erase _ f hmem, hat, hrest]
  exact Int.add_right_comm ..

theorem getLsbD_one_shift {p q : Nat} (hq : q < NR_PRIO) : (1#32 <<< p).getLsbD q = decide (q = p) := by
  unfold NR_PRIO at hq
  rw [BitVec.getLsbD_shiftLeft, BitVec.getLsbD_one]
  by_cases h : q = p
  · subst h
    simp [hq]
  rw [decide_eq_false h]
  by_cases hlt : q < p
  · simp [hlt]
  · have : ¬ q - p = 0 := by omega
    simp [this]

section enqueue

variable {head : Bool}

theorem enqueue_thread (s : State) (c : Nat) (t : Tid) (head : Bool) (u : Tid) :
    (enqueue c t head s).thread u = if u = t then { s.thread t with onRq := true, cpu := c } else s.thread u :=
  setThread_thread ..

theorem enqueue_cpu_other {d : Nat} (hd : d ≠ c) : (enqueue c t head s).cpu d = s.cpu d :=
  (setCpu_cpu ..).trans (if_neg hd)

theorem enqueue_curr (d : Nat) : ((enqueue c t head s).cpu d).curr = (s.cpu d).curr := by
  by_cases hd : d = c
  · subst hd
    show (((s.setCpu d _).cpu d)).curr = _
    rw [setCpu_cpu, if_pos rfl]
  · rw [enqueue_cpu_other hd]

theorem enqueue_needResched (d : Nat) : ((enqueue c t head s).cpu d).needResched = (s.cpu d).needResched := by
  by_cases hd : d = c
  · subst hd
    show (((s.setCpu d _).cpu d)).needResched = _
    rw [setCpu_cpu, if_pos rfl]
  · rw [enqueue_cpu_other hd]

theorem enqueue_online (d : Nat) : ((enqueue c t head s).cpu d).online = (s.cpu d).online := by
  by_cases hd : d = c
  · subst hd
    show (((s.setCpu d _).cpu d)).online = _
    rw [setCpu_cpu, if_pos rfl]
  · rw [enqueue_cpu_other hd]

theorem enqueue_runqueue (p : Nat) : ((enqueue c t head s).cpu c).runqueue p =
    if p = (s.thread t).level then
      if head then t :: (s.cpu c).runqueue p else (s.cpu c).runqueue p ++ [t]
    else (s.cpu c).runqueue p := by
  show (((s.setCpu c _).cpu c)).runqueue p = _
  rw [setCpu_cpu, if_pos rfl]
  show update _ _ _ p = _
  rw [update_apply]
  split
  · rename_i h
    rw [h]
  · rfl

theorem enqueue_bitmap : ((enqueue c t head s).cpu c).bitmap = (s.cpu c).bitmap ||| 1#32 <<< (s.thread t).level := by
  show (((s.setCpu c _).cpu c)).bitmap = _
  rw [setCpu_cpu, if_pos rfl]

theorem enqueue_nrRunning : ((enqueue c t head s).cpu c).nrRunning = (s.cpu c).nrRunning + 1 := by
  show (((s.setCpu c _).cpu c)).nrRunning = _
  rw [setCpu_cpu, if_pos rfl]

theorem mem_enqueue (d p : Nat) (u : Tid) : u ∈ ((enqueue c t head s).cpu d).runqueue p ↔
    u ∈ (s.cpu d).runqueue p ∨ u = t ∧ d = c ∧ p = (s.thread t).level := by
  by_cases hd : d = c
  · subst hd
    rw [enqueue_runqueue]
    split
    · rename_i hp
      split
      · rw [mem_cons]
        tauto
      · rw [mem_append, mem_singleton]
        tauto
    · rename_i hp
      tauto
  · rw [enqueue_cpu_other hd]
    tauto

theorem enqueue_queues (h : Queues s) (hoff : (s.thread t).onRq = false) (hlevel : (s.thread t).level < NR_PRIO) :
    Queues (enqueue c t head s) := by
  have hout : ∀ d p, t ∉ (s.cpu d).runqueue p := by
    intro d p hmem
    rw [((h.mem d p t).mp hmem).onRq] at hoff
    cases hoff
  refine ⟨fun d p u => ?_, fun d p => ?_, fun u hu => ?_, fun d p hp => ?_, fun d => ?_⟩
  · rw [mem_enqueue, enqueue_thread]
    by_cases hu : u = t
    · subst hu
      rw [if_pos rfl]
      constructor
      · rintro (hmem | ⟨-, rfl, rfl⟩)
        · exact absurd hmem (hout d p)
        · exact ⟨rfl, rfl, rfl⟩
      · rintro ⟨-, hc, hl⟩
        exact .inr ⟨rfl, hc.symm, hl.symm⟩
    · rw [if_neg hu, h.mem]
      exact ⟨fun hc => hc.resolve_right fun hc => hu hc.1, .inl⟩
  · by_cases hd : d = c
    · subst hd
      rw [enqueue_runqueue]
      split
      · split
        · exact nodup_cons.mpr ⟨hout d p, h.nodup d p⟩
        · refine nodup_append.mpr ⟨h.nodup d p, nodup_singleton t, fun a ha b hb => ?_⟩
          rintro rfl
          rw [mem_singleton.mp hb] at ha
          exact hout d p ha
      · exact h.nodup d p
    · rw [enqueue_cpu_other hd]
      exact h.nodup d p
  · rw [enqueue_thread] at hu ⊢
    split
    · exact hlevel
    rename_i hne
    rw [if_neg hne] at hu
    exact h.level u hu
  · by_cases hd : d = c
    · subst hd
      rw [enqueue_bitmap, enqueue_runqueue, BitVec.getLsbD_or, Bool.or_eq_true, h.bits d p hp, getLsbD_one_shift hp,
        decide_eq_true_iff]
      split
      · rename_i heq
        refine iff_of_true (.inr heq) ?_
        split
        · exact cons_ne_nil _ _
        · exact append_ne_nil_of_right_ne_nil _ (cons_ne_nil _ _)
      · rename_i hne
        exact ⟨fun hc => hc.resolve_right hne, .inl⟩
    · rw [enqueue_cpu_other hd]
      exact h.bits d p hp
  by_cases hd : d = c
  · subst hd
    rw [enqueue_nrRunning, h.count d]
    refine (sum_change hlevel (fun q hq => ?_) ?_).symm
    · rw [enqueue_runqueue, if_neg hq]
    rw [enqueue_runqueue, if_pos rfl]
    split
    · rw [length_cons, Int.natCast_add]
      rfl
    · rw [length_append, length_singleton, Int.natCast_add]
      rfl
  · rw [enqueue_cpu_other hd]
    exact h.count d

end enqueue

section dequeue

theorem dequeue_thread (s : State) (c : Nat) (t : Tid) (u : Tid) :
    (dequeue c t s).thread u = if u = t then { s.thread t with onRq := false } else s.thread u :=
  setThread_thread ..

theorem dequeue_cpu_other {d : Nat} (hd : d ≠ c) : (dequeue c t s).cpu d = s.cpu d :=
  (setCpu_cpu ..).trans (if_neg hd)

theorem dequeue_curr (d : Nat) : ((dequeue c t s).cpu d).curr = (s.cpu d).curr := by
  by_cases hd : d = c
  · subst hd
    show (((s.setCpu d _).cpu d)).curr = _
    rw [setCpu_cpu, if_pos rfl]
  · rw [dequeue_cpu_other hd]

theorem dequeue_needResched (d : Nat) : ((dequeue c t s).cpu d).needResched = (s.cpu d).needResched := by
  by_cases hd : d = c
  · subst hd
    show (((s.setCpu d _).cpu d)).needResched = _
    rw [setCpu_cpu, if_pos rfl]
  · rw [dequeue_cpu_other hd]

theorem dequeue_online (d : Nat) : ((dequeue c t s).cpu d).online = (s.cpu d).online := by
  by_cases hd : d = c
  · subst hd
    show (((s.setCpu d _).cpu d)).online = _
    rw [setCpu_cpu, if_pos rfl]
  · rw [dequeue_cpu_other hd]

theorem dequeue_runqueue (p : Nat) : ((dequeue c t s).cpu c).runqueue p = ((s.cpu c).runqueue p).erase t := by
  show (((s.setCpu c _).cpu c)).runqueue p = _
  rw [setCpu_cpu, if_pos rfl]

theorem dequeue_bitmap : ((dequeue c t s).cpu c).bitmap =
    if (((s.cpu c).runqueue (s.thread t).level).erase t).isEmpty then
      (s.cpu c).bitmap &&& ~~~(1#32 <<< (s.thread t).level)
    else (s.cpu c).bitmap := by
  show (((s.setCpu c _).cpu c)).bitmap = _
  rw [setCpu_cpu, if_pos rfl]

theorem dequeue_nrRunning : ((dequeue c t s).cpu c).nrRunning = (s.cpu c).nrRunning - 1 := by
  show (((s.setCpu c _).cpu c)).nrRunning = _
  rw [setCpu_cpu, if_pos rfl]

theorem mem_dequeue (h : Queues s) (ht : t ∈ (s.cpu c).runqueue (s.thread t).level) (d p : Nat) (u : Tid) :
    u ∈ ((dequeue c t s).cpu d).runqueue p ↔ u ∈ (s.cpu d).runqueue p ∧ u ≠ t := by
  by_cases hd : d = c
  · subst hd
    rw [dequeue_runqueue, (h.nodup d p).mem_erase_iff]
    exact and_comm
  rw [dequeue_cpu_other hd]
  refine ⟨fun hmem => ⟨hmem, ?_⟩, fun hmem => hmem.1⟩
  rintro rfl
  exact hd (((h.mem d p u).mp hmem).cpu.symm.trans ((h.mem c _ u).mp ht).cpu)

theorem dequeue_queues (h : Queues s) (ht : t ∈ (s.cpu c).runqueue (s.thread t).level) : Queues (dequeue c t s) := by
  have hat := (h.mem c _ t).mp ht
  have hlevel := h.level t hat.onRq
  have hother : ∀ p, p ≠ (s.thread t).level → ((s.cpu c).runqueue p).erase t = (s.cpu c).runqueue p := fun p hp =>
    erase_of_not_mem fun hmem => hp ((h.mem c p t).mp hmem).level.symm
  refine ⟨fun d p u => ?_, fun d p => ?_, fun u hu => ?_, fun d p hp => ?_, fun d => ?_⟩
  · rw [mem_dequeue h ht, dequeue_thread]
    by_cases hu : u = t
    · rw [if_pos hu]
      exact iff_of_false (fun hc => hc.2 hu) fun hc => by cases hc.onRq
    · rw [if_neg hu, h.mem]
      exact ⟨fun hc => hc.1, fun hc => ⟨hc, hu⟩⟩
  · by_cases hd : d = c
    · subst hd
      rw [dequeue_runqueue]
      exact (h.nodup d p).erase t
    · rw [dequeue_cpu_other hd]
      exact h.nodup d p
  · rw [dequeue_thread] at hu ⊢
    split
    · rename_i heq
      rw [if_pos heq] at hu
      cases hu
    rename_i hne
    rw [if_neg hne] at hu
    exact h.level u hu
  · by_cases hd : d = c
    · subst hd
      rw [dequeue_bitmap, dequeue_runqueue]
      by_cases hpl : p = (s.thread t).level
      · subst hpl
        split
        · rename_i hnil
          rw [BitVec.getLsbD_and, BitVec.getLsbD_not, getLsbD_one_shift hp, isEmpty_iff.mp hnil]
          simp
        rename_i hne
        rw [h.bits d _ hp]
        exact iff_of_true (ne_nil_of_mem ht) fun hc => hne (isEmpty_iff.mpr hc)
      rw [hother p hpl]
      split
      · have h32 : p < 32 := hp
        rw [BitVec.getLsbD_and, BitVec.getLsbD_not, getLsbD_one_shift hp, decide_eq_false hpl]
        simpa [h32] using h.bits d p hp
      · exact h.bits d p hp
    · rw [dequeue_cpu_other hd]
      exact h.bits d p hp
  by_cases hd : d = c
  · subst hd
    rw [dequeue_nrRunning, h.count d, Int.sub_eq_add_neg]
    refine (sum_change hlevel (fun q hq => ?_) ?_).symm
    · rw [dequeue_runqueue, hother q hq]
    rw [dequeue_runqueue, length_erase_of_mem ht]
    have := length_pos_of_mem ht
    omega
  · rw [dequeue_cpu_other hd]
    exact h.count d

end dequeue

theorem ctz_spec {b : BitVec 32} (hb : b ≠ 0) : ctz b < NR_PRIO ∧ b.getLsbD (ctz b) = true ∧
    ∀ q < ctz b, b.getLsbD q = false := by
  unfold ctz
  cases hf : (List.range NR_PRIO).find? fun i => b.getLsbD i with
  | none =>
    refine absurd (BitVec.eq_of_getLsbD_eq fun i hi => ?_) hb
    have := find?_eq_none.mp hf i (mem_range.mpr hi)
    simpa using this
  | some i =>
  have hi := mem_range.mp (mem_of_find?_eq_some hf)
  refine ⟨hi, find?_some hf, fun q hq => ?_⟩
  rw [getD_some] at hq
  have := (find?_range_eq_some.mp hf).2.2 q hq
  simpa using this

theorem pickNext_none (h : Queues s) (hnone : pickNext c s = none) (p : Nat) : (s.cpu c).runqueue p = [] := by
  by_contra hne
  obtain ⟨u, us, heq⟩ := exists_cons_of_ne_nil hne
  have hat := (h.mem c p u).mp (by rw [heq]; exact mem_cons_self)
  have hp : p < NR_PRIO := hat.level ▸ h.level u hat.onRq
  have hbit := (h.bits c p hp).mpr hne
  unfold pickNext at hnone
  dsimp only at hnone
  split at hnone
  · rename_i hzero
    rw [hzero] at hbit
    simp at hbit
  rename_i hb
  obtain ⟨hlt, hset, -⟩ := ctz_spec hb
  rw [map_eq_none_iff, head?_eq_none_iff] at hnone
  exact (h.bits c _ hlt).mp hset hnone

theorem pickNext_some (h : Queues s) (hsome : pickNext c s = some (t, s')) : s' = dequeue c t s ∧
    ∃ p < NR_PRIO, ((s.cpu c).runqueue p).head? = some t ∧ ∀ q < p, (s.cpu c).runqueue q = [] := by
  unfold pickNext at hsome
  dsimp only at hsome
  split at hsome
  · cases hsome
  rename_i hb
  obtain ⟨hlt, hset, hmin⟩ := ctz_spec hb
  obtain ⟨u, hu, heq⟩ := map_eq_some_iff.mp hsome
  obtain ⟨rfl, rfl⟩ := Prod.mk.inj heq
  refine ⟨rfl, _, hlt, hu, fun q hq => ?_⟩
  by_contra hne
  have hbit := (h.bits c q (Nat.lt_trans hq hlt)).mpr hne
  rw [hmin q hq] at hbit
  cases hbit

end Olux.Runqueue
