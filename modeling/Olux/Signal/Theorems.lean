import Olux.Signal
import Olux.Lib.Prefixes

namespace Olux.Signal

open List

variable {p : Signals} {sig : Int} {i tid : Nat} {l : List Thread} {t : Thread}

def Conflict (p : Signals) : Prop := p.pending &&& sigmask SIGCONT ≠ 0 ∧ p.pending &&& stops ≠ 0

instance (p : Signals) : Decidable (Conflict p) := inferInstanceAs (Decidable (_ ∧ _))

def stopQueued (p : Signals) : Event → Bool
  | .sendThread tid sig _ =>
    defaultAction sig == .stop &&
      match p.thread? tid with
      | none => false
      | some t => !sigIgnored p sig || (t.sigBlocked ||| t.sigWaiting) &&& sigmask sig != 0
  | .sendProcess sig _ =>
    defaultAction sig == .stop && !p.zombie &&
      (!sigIgnored p sig || p.threads.any fun t => (t.sigBlocked ||| t.sigWaiting) &&& sigmask sig != 0)
  | _ => false

def contOwn (p : Signals) : Bool := p.threads.any fun t => t.sigPending &&& sigmask SIGCONT != 0

def clash (p : Signals) (ev : Event) : Bool := stopQueued p ev && contOwn p

theorem getLsbD_sigmask (sig : Int) (i : Nat) : (sigmask sig).getLsbD i = decide (i < 64 ∧ i = (sig - 1).toNat) := by
  unfold sigmask
  generalize (sig - 1).toNat = k
  rw [BitVec.getLsbD_shiftLeft, BitVec.getLsbD_one, Bool.eq_iff_iff]
  simp only [Bool.and_eq_true, Bool.not_eq_true', decide_eq_true_eq, decide_eq_false_iff_not]
  omega

theorem ne_zero_iff {x : BitVec 64} : x ≠ 0 ↔ ∃ i < 64, x.getLsbD i = true := by
  constructor
  · intro h
    by_contra hno
    refine h (BitVec.eq_of_getLsbD_eq fun i hi => ?_)
    show x.getLsbD i = (0#64).getLsbD i
    rw [BitVec.getLsbD_zero]
    by_contra hbit
    exact hno ⟨i, hi, eq_true_of_ne_false hbit⟩
  rintro ⟨i, -, hi⟩ rfl
  change (0#64).getLsbD i = true at hi
  rw [BitVec.getLsbD_zero] at hi
  cases hi

theorem and_sigmask_ne_zero {x : BitVec 64} (h : 1 ≤ sig) (h' : sig ≤ NSIG) :
    x &&& sigmask sig ≠ 0 ↔ x.getLsbD (sig - 1).toNat = true := by
  have hlt : (sig - 1).toNat < 64 := by
    unfold NSIG at h'
    omega
  rw [ne_zero_iff]
  constructor
  · rintro ⟨i, -, hi⟩
    rw [BitVec.getLsbD_and, getLsbD_sigmask, Bool.and_eq_true, decide_eq_true_eq] at hi
    rw [← hi.2.2]
    exact hi.1
  intro hx
  refine ⟨_, hlt, ?_⟩
  rw [BitVec.getLsbD_and, getLsbD_sigmask, hx, Bool.true_and, decide_eq_true_eq]
  exact ⟨hlt, rfl⟩

theorem getLsbD_stops (i : Nat) : stops.getLsbD i = decide (18 ≤ i ∧ i ≤ 21) := by
  unfold stops
  simp only [BitVec.getLsbD_or, getLsbD_sigmask, SIGSTOP, SIGTSTP, SIGTTIN, SIGTTOU]
  rw [Bool.eq_iff_iff]
  simp only [Bool.or_eq_true, decide_eq_true_eq]
  omega

theorem defaultAction_stop_iff : defaultAction sig = .stop ↔ 19 ≤ sig ∧ sig ≤ 22 := by
  unfold defaultAction SIGCHLD SIGURG SIGWINCH SIGCONT SIGSTOP SIGTSTP SIGTTIN SIGTTOU
  simp only [mem_cons, not_mem_nil, or_false]
  split
  · simp only [reduceCtorEq, false_iff]
    omega
  split
  · simp only [reduceCtorEq, false_iff]
    omega
  split
  · simp only [true_iff]
    omega
  · rename_i h
    split <;> simp only [reduceCtorEq, false_iff] <;> omega

def Held (p : Signals) (i : Nat) : Prop :=
  p.sharedPending.getLsbD i = true ∨ ∃ t ∈ p.threads, t.sigPending.getLsbD i = true

theorem getLsbD_foldl (l : List Thread) (x : BitVec 64) (i : Nat) :
    (l.foldl (fun set t => set ||| t.sigPending) x).getLsbD i = true ↔
      x.getLsbD i = true ∨ ∃ t ∈ l, t.sigPending.getLsbD i = true := by
  induction l generalizing x with
  | nil => simp
  | cons t l ih =>
    rw [foldl_cons, ih, BitVec.getLsbD_or, Bool.or_eq_true, or_assoc, exists_mem_cons_iff]

theorem conflict_iff : Conflict p ↔ Held p 17 ∧ ∃ i, 18 ≤ i ∧ i ≤ 21 ∧ Held p i := by
  have hheld : ∀ i, p.pending.getLsbD i = true ↔ Held p i := getLsbD_foldl p.threads p.sharedPending
  unfold Conflict
  rw [and_sigmask_ne_zero (by decide) (by decide), ne_zero_iff]
  refine and_congr (hheld 17) ⟨?_, ?_⟩
  · rintro ⟨i, -, hi⟩
    rw [BitVec.getLsbD_and, getLsbD_stops, Bool.and_eq_true, decide_eq_true_eq, hheld] at hi
    exact ⟨i, hi.2.1, hi.2.2, hi.1⟩
  rintro ⟨i, h1, h2, hi⟩
  refine ⟨i, by omega, ?_⟩
  rw [BitVec.getLsbD_and, getLsbD_stops, (hheld i).mpr hi, Bool.true_and, decide_eq_true_eq]
  exact ⟨h1, h2⟩

theorem contOwn_iff : contOwn p = true ↔ ∃ t ∈ p.threads, t.sigPending.getLsbD 17 = true := by
  unfold contOwn
  rw [any_eq_true]
  refine exists_congr fun t => and_congr_right fun _ => ?_
  rw [bne_iff_ne]
  exact and_sigmask_ne_zero (by decide) (by decide)

theorem Held.mono {p' : Signals} (h : Held p' i) (hshared : p'.sharedPending.getLsbD i = true → p.sharedPending.getLsbD i = true)
    (hthread : ∀ t ∈ p'.threads, t.sigPending.getLsbD i = true → ∃ u ∈ p.threads, u.sigPending.getLsbD i = true) :
    Held p i := by
  rcases h with h | ⟨t, ht, hi⟩
  · exact .inl (hshared h)
  · exact .inr (hthread t ht hi)

theorem getLsbD_and_of {x y : BitVec 64} (h : (x &&& y).getLsbD i = true) : x.getLsbD i = true := by
  rw [BitVec.getLsbD_and, Bool.and_eq_true] at h
  exact h.1

theorem not_conflict_of_held {p' : Signals} (h : ¬ Conflict p) (hheld : ∀ i, 17 ≤ i → i ≤ 21 → Held p' i → Held p i) :
    ¬ Conflict p' := by
  rw [conflict_iff] at h ⊢
  rintro ⟨hc, i, h1, h2, hi⟩
  exact h ⟨hheld 17 (by omega) (by omega) hc, i, h1, h2, hheld i (by omega) h2 hi⟩

theorem prepare_held (h : Held (prepareSignal p sig) i) : Held p i := by
  unfold prepareSignal at h
  split at h
  · refine h.mono getLsbD_and_of fun t ht hi => ?_
    obtain ⟨u, hu, rfl⟩ := mem_map.mp ht
    exact ⟨u, hu, getLsbD_and_of hi⟩
  split at h
  · exact h.mono getLsbD_and_of fun t ht hi => ⟨t, ht, hi⟩
  · exact h

theorem prepare_cont_held (hsig : sig = SIGCONT) (h1 : 18 ≤ i) (h2 : i ≤ 21) : ¬ Held (prepareSignal p sig) i := by
  have hnot : ∀ x : BitVec 64, (x &&& ~~~stops).getLsbD i = false := by
    intro x
    rw [BitVec.getLsbD_and, BitVec.getLsbD_not, getLsbD_stops, decide_eq_true (⟨h1, h2⟩ : 18 ≤ i ∧ i ≤ 21)]
    simp
  unfold prepareSignal
  rw [if_pos (.inl hsig)]
  rintro (h | ⟨t, ht, h⟩)
  · rw [hnot] at h
    cases h
  obtain ⟨u, -, rfl⟩ := mem_map.mp ht
  rw [hnot] at h
  cases h

theorem prepare_stop (h1 : 19 ≤ sig) (h2 : sig ≤ 22) :
    prepareSignal p sig = { p with sharedPending := p.sharedPending &&& ~~~sigmask SIGCONT } := by
  unfold prepareSignal SIGCONT SIGKILL
  rw [if_neg (by omega), if_pos (defaultAction_stop_iff.mpr ⟨h1, h2⟩)]

theorem prepare_stop_held (h1 : 19 ≤ sig) (h2 : sig ≤ 22) : Held (prepareSignal p sig) 17 ↔ contOwn p = true := by
  rw [prepare_stop h1 h2, contOwn_iff]
  refine or_iff_right fun h => ?_
  rw [BitVec.getLsbD_and, BitVec.getLsbD_not, getLsbD_sigmask] at h
  simp [SIGCONT] at h

structure Adds (p p' : Signals) (sig : Int) : Prop where
  keeps : ∀ i, Held p i → Held p' i
  only : ∀ i, Held p' i → Held p i ∨ i = (sig - 1).toNat
  new : Held p' (sig - 1).toNat

theorem getLsbD_queue {x : BitVec 64} : (x ||| sigmask sig).getLsbD i = true ↔
    x.getLsbD i = true ∨ i < 64 ∧ i = (sig - 1).toNat := by
  rw [BitVec.getLsbD_or, Bool.or_eq_true, getLsbD_sigmask, decide_eq_true_eq]

theorem modifyThread_mem {f : Thread → Thread} (h : t ∈ modifyThread tid f l) : ∃ u ∈ l, t = u ∨ t = f u := by
  induction l with
  | nil => cases h
  | cons u l ih =>
  unfold modifyThread at h
  split at h
  · rcases mem_cons.mp h with rfl | h
    · exact ⟨u, mem_cons_self, .inr rfl⟩
    · exact ⟨t, mem_cons_of_mem _ h, .inl rfl⟩
  rcases mem_cons.mp h with rfl | h
  · exact ⟨t, mem_cons_self, .inl rfl⟩
  · obtain ⟨v, hv, hor⟩ := ih h
    exact ⟨v, mem_cons_of_mem _ hv, hor⟩

theorem mem_modifyThread (f : Thread → Thread) (h : t ∈ l) : t ∈ modifyThread tid f l ∨ f t ∈ modifyThread tid f l := by
  induction l with
  | nil => cases h
  | cons u l ih =>
  unfold modifyThread
  split
  · rcases mem_cons.mp h with rfl | h
    · exact .inr mem_cons_self
    · exact .inl (mem_cons_of_mem _ h)
  rcases mem_cons.mp h with rfl | h
  · exact .inl mem_cons_self
  · exact (ih h).imp (mem_cons_of_mem _) (mem_cons_of_mem _)

theorem find_modifyThread (f : Thread → Thread)
    (h : (l.find? fun t => t.tid == tid) = some t) : f t ∈ modifyThread tid f l := by
  induction l with
  | nil => cases h
  | cons u l ih =>
  unfold modifyThread
  split
  · rename_i hu
    rw [find?_cons_of_pos (by simpa using hu)] at h
    cases h
    exact mem_cons_self
  rename_i hu
  rw [find?_cons_of_neg (by simpa using hu)] at h
  exact mem_cons_of_mem _ (ih h)

theorem queue_adds (info : Option Siginfo) (h1 : 1 ≤ sig) (h2 : sig ≤ 64)
    (ht : p.thread? tid = some t) : Adds p (p.modify tid fun t => t.queue sig info) sig := by
  refine ⟨fun i => Or.imp_right ?_, fun i => ?_, .inr ⟨_, find_modifyThread _ ht, ?_⟩⟩
  · rintro ⟨u, hu, hi⟩
    rcases mem_modifyThread (fun t => t.queue sig info) hu with hu | hu
    · exact ⟨u, hu, hi⟩
    · exact ⟨_, hu, getLsbD_queue.mpr (.inl hi)⟩
  · rintro (h | ⟨u, hu, hi⟩)
    · exact .inl (.inl h)
    · obtain ⟨v, hv, rfl | rfl⟩ := modifyThread_mem hu
      · exact .inl (.inr ⟨u, hv, hi⟩)
      · exact (getLsbD_queue.mp hi).imp (fun hi => .inr ⟨v, hv, hi⟩) And.right
  · exact getLsbD_queue.mpr (.inr ⟨by omega, rfl⟩)

theorem share_adds (infos : Int → Siginfo) (h1 : 1 ≤ sig) (h2 : sig ≤ 64) :
    Adds p { p with sharedPending := p.sharedPending ||| sigmask sig, sharedInfo := infos } sig := by
  refine ⟨fun i => Or.imp_left fun h => getLsbD_queue.mpr (.inl h), fun i => ?_, .inl ?_⟩
  · rintro (h | h)
    · exact (getLsbD_queue.mp h).imp .inl And.right
    · exact .inl (.inr h)
  · exact getLsbD_queue.mpr (.inr ⟨by omega, rfl⟩)

theorem Adds.conflict_iff {p' : Signals} (h : ¬ Conflict p) (hadd : Adds (prepareSignal p sig) p' sig) :
    Conflict p' ↔ (19 ≤ sig ∧ sig ≤ 22) ∧ contOwn p = true := by
  by_cases hstop : 19 ≤ sig ∧ sig ≤ 22
  · rw [Signal.conflict_iff, ← prepare_stop_held hstop.1 hstop.2, and_iff_right hstop]
    constructor
    · rintro ⟨hc, -⟩
      rcases hadd.only 17 hc with hc | heq
      · exact hc
      · omega
    · exact fun hc => ⟨hadd.keeps 17 hc, (sig - 1).toNat, by omega, by omega, hadd.new⟩
  refine iff_of_false ?_ fun hc => hstop hc.1
  by_cases hcont : sig = SIGCONT
  · rw [Signal.conflict_iff]
    rintro ⟨-, i, hi1, hi2, hi⟩
    rcases hadd.only i hi with hi | heq
    · exact prepare_cont_held hcont hi1 hi2 hi
    · unfold SIGCONT at hcont
      omega
  refine not_conflict_of_held h fun i hi1 hi2 hi => ?_
  rcases hadd.only i hi with hi | heq
  · exact prepare_held hi
  · unfold SIGCONT at hcont
    omega

theorem prepare_not_conflict (h : ¬ Conflict p) (sig : Int) : ¬ Conflict (prepareSignal p sig) :=
  not_conflict_of_held h fun _ _ _ => prepare_held

theorem sigIgnored_prepare (p : Signals) (sig : Int) : sigIgnored (prepareSignal p sig) sig = sigIgnored p sig := by
  have hhandler : (prepareSignal p sig).handler = p.handler := by
    unfold prepareSignal
    split
    · rfl
    split
    · rfl
    · rfl
  unfold sigIgnored
  rw [hhandler]

theorem stop_beq : (defaultAction sig == .stop) = true ↔ 19 ≤ sig ∧ sig ≤ 22 := beq_iff_eq.trans defaultAction_stop_iff

theorem sendSignalThread_conflict_iff (h : ¬ Conflict p) (tid : Nat) (sig : Int) (info : Option Siginfo) :
    Conflict (sendSignalThread p tid sig info).2 ↔ clash p (.sendThread tid sig info) = true := by
  have hfind : 19 ≤ sig ∧ sig ≤ 22 → (prepareSignal p sig).thread? tid = p.thread? tid := by
    intro hstop
    rw [prepare_stop hstop.1 hstop.2]
    rfl
  unfold clash stopQueued sendSignalThread
  dsimp only
  rw [Bool.and_eq_true, Bool.and_eq_true, stop_beq]
  split
  · rename_i hrange
    refine iff_of_false h fun hc => ?_
    have := hc.1.1
    unfold NSIG at hrange
    omega
  rename_i hrange
  unfold NSIG at hrange
  split
  · rename_i hnone
    refine iff_of_false (prepare_not_conflict h sig) fun hc => ?_
    rw [← hfind hc.1.1, hnone] at hc
    cases hc.1.2
  rename_i t ht
  have hqueued : 19 ≤ sig ∧ sig ≤ 22 → p.thread? tid = some t := fun hstop => (hfind hstop).symm.trans ht
  rw [sigIgnored_prepare]
  split
  · rename_i hq
    rw [(queue_adds info (by omega) (by omega) ht).conflict_iff h]
    refine and_congr_left fun _ => ⟨fun hstop => ⟨hstop, ?_⟩, And.left⟩
    rw [hqueued hstop]
    exact hq
  rename_i hq
  refine iff_of_false (prepare_not_conflict h sig) fun hc => hq ?_
  have := hc.1.2
  rwa [hqueued hc.1.1] at this

theorem sendSignalProcess_conflict_iff (h : ¬ Conflict p) (sig : Int) (info : Option Siginfo) :
    Conflict (sendSignalProcess p sig info).2 ↔ clash p (.sendProcess sig info) = true := by
  have hclash : clash p (.sendProcess sig info) = true ↔ (((19 ≤ sig ∧ sig ≤ 22) ∧ (!p.zombie) = true) ∧
      (!sigIgnored p sig || p.threads.any fun t => (t.sigBlocked ||| t.sigWaiting) &&& sigmask sig != 0) = true) ∧
      contOwn p = true := by
    unfold clash stopQueued
    rw [Bool.and_eq_true, Bool.and_eq_true, Bool.and_eq_true, stop_beq]
  rw [hclash]
  unfold sendSignalProcess
  dsimp only
  split
  · rename_i hrange
    refine iff_of_false h fun hc => ?_
    have := hc.1.1.1
    unfold NSIG at hrange
    omega
  rename_i hrange
  unfold NSIG at hrange
  split
  · rename_i hzero
    refine iff_of_false h fun hc => ?_
    have := hc.1.1.1
    omega
  split
  · rename_i hz
    refine iff_of_false h fun hc => ?_
    rw [hz] at hc
    cases hc.1.1.2
  rename_i hz
  have hign := sigIgnored_prepare p sig
  have hany : 19 ≤ sig ∧ sig ≤ 22 → (prepareSignal p sig).threads = p.threads := by
    intro hstop
    rw [prepare_stop hstop.1 hstop.2]
  split
  · rename_i hskip
    refine iff_of_false (prepare_not_conflict h sig) fun hc => ?_
    rw [hany hc.1.1.1, hign, Bool.and_eq_true, Bool.not_eq_true'] at hskip
    have := hc.1.2
    rw [hskip.1, hskip.2] at this
    cases this
  rename_i hskip
  refine ((share_adds _ (by omega) (by omega)).conflict_iff h).trans ?_
  refine and_congr_left fun _ => ⟨fun hstop => ⟨⟨hstop, by simpa using hz⟩, ?_⟩, fun hc => hc.1.1⟩
  rw [hany hstop, hign, Bool.and_eq_true, not_and_or, Bool.not_eq_true, Bool.not_eq_true, Bool.not_eq_false'] at hskip
  rw [Bool.or_eq_true, Bool.not_eq_true']
  exact hskip

theorem modify_held {f : Thread → Thread} (hf : ∀ t, (f t).sigPending.getLsbD i = true → t.sigPending.getLsbD i = true)
    (h : Held (p.modify tid f) i) : Held p i := by
  refine h.mono id fun t ht hi => ?_
  obtain ⟨u, hu, rfl | rfl⟩ := modifyThread_mem ht
  · exact ⟨t, hu, hi⟩
  · exact ⟨u, hu, hf u hi⟩

theorem dequeueSignal_held (h : Held (dequeueSignal p tid).2.2 i) : Held p i := by
  unfold dequeueSignal at h
  split at h
  · exact h
  dsimp only at h
  split at h
  · exact modify_held (fun _ => getLsbD_and_of) h
  split at h
  · exact h.mono getLsbD_and_of fun t ht hi => ⟨t, ht, hi⟩
  · exact h

theorem rtSigaction_held {handler : BitVec 64} (h : Held (rtSigaction p sig handler) i) : Held p i := by
  unfold rtSigaction at h
  split at h
  · exact h
  dsimp only at h
  split at h
  · refine h.mono getLsbD_and_of fun t ht hi => ?_
    obtain ⟨u, hu, rfl⟩ := mem_map.mp ht
    exact ⟨u, hu, getLsbD_and_of hi⟩
  · exact h

-- One event brings a conflict where it queues a signal that stops and SIGCONT is pending for a
-- thread, because `prepare_signal` then only clears the shared set.
theorem step_conflict_iff (h : ¬ Conflict p) (ev : Event) : Conflict (step p ev) ↔ clash p ev = true := by
  have hnone : (∀ i, Held (step p ev) i → Held p i) → clash p ev = false → (Conflict (step p ev) ↔ clash p ev = true) := by
    intro hheld hclash
    refine iff_of_false (not_conflict_of_held h fun i _ _ => hheld i) ?_
    rw [hclash]
    exact Bool.false_ne_true
  cases ev with
  | sendThread tid sig info => exact sendSignalThread_conflict_iff h tid sig info
  | sendProcess sig info => exact sendSignalProcess_conflict_iff h sig info
  | dequeue tid => exact hnone (fun _ => dequeueSignal_held) rfl
  | mask tid blocked waiting => exact hnone (fun _ => modify_held fun _ => id) rfl
  | sigaction sig handler => exact hnone (fun _ => rtSigaction_held) rfl
  | create tid blocked =>
    refine hnone (fun i hi => ?_) rfl
    dsimp only [step] at hi
    split at hi
    · exact hi
    refine hi.mono id fun t ht hi => ?_
    rcases mem_append.mp ht with ht | ht
    · exact ⟨t, ht, hi⟩
    · obtain rfl := mem_singleton.mp ht
      simp at hi
  | exit tid => exact hnone (fun i hi => hi.mono id fun t ht hi => ⟨t, (mem_filter.mp ht).1, hi⟩) rfl

-- A run keeps stop and continue apart exactly if no signal that stops is queued while a thread
-- has SIGCONT pending.
theorem stop_cont_apart_iff (p : Signals) (evs : List Event) : (∀ k, ¬ Conflict (run p (evs.take k))) ↔
      ¬ Conflict p ∧ ∀ k ev, evs[k]? = some ev → clash (run p (evs.take k)) ev = false := by
  have hrule : ¬ Conflict p → ((∀ k, ¬ Conflict (run p (evs.take k))) ↔
      ∀ k ev, evs[k]? = some ev → clash (run p (evs.take k)) ev = false) := fun h0 =>
    Lib.prefixes_iff (I := fun p => ¬ Conflict p) (P := fun p => ¬ Conflict p) h0
      (fun p ev hp hev hc => by rw [(step_conflict_iff hp ev).mp hc] at hev; cases hev) (fun _ h => h)
      fun p ev hp hev hnot => hnot ((step_conflict_iff hp ev).mpr hev)
  exact ⟨fun h => ⟨h 0, (hrule (h 0)).mp h⟩, fun h => (hrule h.1).mpr h.2⟩

def blocker : Signals :=
  ⟨0, fun _ => .zero, fun _ => SIG_DFL, [⟨7, 0, sigmask SIGCONT, 0, fun _ => .zero⟩], false, false, false, false, 0⟩

theorem blocked_cont_survives_stop :
    ¬ Conflict blocker ∧ Conflict (run blocker [.sendThread 7 SIGCONT none, .sendProcess SIGTSTP none]) := by decide

end Olux.Signal
