import Olux.Basic

namespace Olux.Poll

open List Option

def POLL_MAX_ENTRIES : Nat := 64

inductive Act where
  | wait (q : Nat)
  | test (i : Nat)
deriving DecidableEq

-- `->poll` of each descriptor calls `poll_wait` on the queues of the descriptor before it
-- looks whether that is ready. `pipe_poll` of a FIFO that is open both ways looks after each
-- of its two queues, so that it counts as two descriptors.
def acts (fds : List (List Nat)) : List Act := fds.zipIdx.flatMap fun p => p.1.map Act.wait ++ [.test p.2]

-- Where the polling thread is. `sleep` is in front of the assignment of the state, `schedule`
-- in front of the call; `off` is off the run queue, and `on` behind the call.
inductive Pc where
  | scan (todo : List Act) (ready : Bool)
  | sleep
  | schedule
  | off
  | on
  | ret
deriving DecidableEq

inductive TaskState where
  | running
  | interruptible
deriving DecidableEq

-- `table` are the queues that the thread is linked into, `woken` the descriptors with a
-- wake-up since their test in this turn of the loop.
structure State where
  pc : Pc
  state : TaskState
  table : List Nat
  ready : Nat → Bool
  woken : List Nat

def start (fds : List (List Nat)) : State := ⟨.scan (acts fds) false, .running, [], fun _ => false, []⟩

def pollWait (q : Nat) (s : State) : State :=
  if q ∈ s.table then s
  else if s.table.length = POLL_MAX_ENTRIES then s
  else { s with table := s.table ++ [q], state := .interruptible }

def tryToWakeUp (s : State) : State :=
  match s.state with
  | .running => s
  | .interruptible => { s with state := .running, pc := if s.pc = .off then .on else s.pc }

def Pc.todo : Pc → List Act
  | .scan todo _ => todo
  | _ => []

def wakeUp (fds : List (List Nat)) (q : Nat) (s : State) : State :=
  let s := { s with
    woken := s.woken ++ (List.range fds.length).filter fun i => q ∈ fds.getD i [] ∧ Act.test i ∉ s.pc.todo }
  if q ∈ s.table then tryToWakeUp s else s

-- A step of the polling thread itself (`signal`: whether one is pending), a descriptor that
-- gets ready or stops being so, a wake-up of a queue, or a signal for the thread.
inductive Event where
  | poller (signal : Bool)
  | post (i : Nat) (ready : Bool)
  | wake (q : Nat)
  | signal

def poller (fds : List (List Nat)) (signal : Bool) (s : State) : State :=
  match s.pc with
  | .scan (.wait q :: todo) ready =>
    -- no table is passed any more when a descriptor is ready
    { (if ready then s else pollWait q s) with pc := .scan todo ready }
  | .scan (.test i :: todo) ready => { s with pc := .scan todo (ready || s.ready i) }
  | .scan [] ready =>
    if ready || signal then { s with pc := .ret, state := .running, table := [] } else { s with pc := .sleep }
  | .sleep => { s with pc := .schedule, state := .interruptible }
  | .schedule => { s with pc := if s.state = .running then .on else .off }
  | .off => s
  | .on =>
    -- `poll_cleanup`, entry by entry, and the next turn
    match s.table with
    | _ :: table => { s with table, state := .running }
    | [] => { s with pc := .scan (acts fds) false, woken := [] }
  | .ret => s

def step (fds : List (List Nat)) (s : State) : Event → State
  | .poller signal => poller fds signal s
  | .post i ready => { s with ready := fun k => if k = i then ready else s.ready k }
  | .wake q => wakeUp fds q s
  | .signal => tryToWakeUp s

def run (fds : List (List Nat)) (s : State) (evs : List Event) : State := evs.foldl (step fds) s

-- The thread sleeps, and a descriptor is ready for which there was a wake-up after its test.
def Missed (s : State) : Prop := s.pc = .off ∧ s.state = .interruptible ∧ ∃ i ∈ s.woken, s.ready i = true

-- A wake-up for a descriptor that has been tested, in front of the last assignment of the state.
def Early (fds : List (List Nat)) (s : State) : Event → Prop
  | .wake q => ((∃ todo ready, s.pc = .scan todo ready) ∨ s.pc = .sleep) ∧
      ∃ i < fds.length, q ∈ fds.getD i [] ∧ Act.test i ∉ s.pc.todo
  | _ => False

def Timely (fds : List (List Nat)) : State → List Event → Prop
  | _, [] => True
  | s, ev :: evs => ¬ Early fds s ev ∧ Timely fds (step fds s ev) evs

-- While a turn may still end in a sleep there is no wake-up that counts, and each queue is in
-- the table or still to come.
structure Awake (fds : List (List Nat)) (s : State) : Prop where
  table : ∀ q ∈ s.table, q ∈ fds.flatten
  nodup : s.table.Nodup
  todo : ∀ a ∈ s.pc.todo, a ∈ acts fds
  linked : (∃ todo, s.pc = .scan todo false) ∨ s.pc = .sleep ∨ s.pc = .schedule ∨ s.pc = .off →
    ∀ q ∈ fds.flatten, q ∈ s.table ∨ Act.wait q ∈ s.pc.todo
  quiet : (∃ todo ready, s.pc = .scan todo ready) ∨ s.pc = .sleep ∨ s.pc = .off → s.woken = []
  late : s.pc = .schedule → s.state = .running ∨ s.woken = []
  off : s.pc = .off → s.state = .interruptible

variable {fds : List (List Nat)} {s : State}

theorem wait_mem_acts {q : Nat} : Act.wait q ∈ acts fds ↔ q ∈ fds.flatten := by
  unfold acts
  rw [mem_flatMap, mem_flatten]
  constructor
  · rintro ⟨⟨l, i⟩, hp, ha⟩
    refine ⟨l, mem_of_getElem? (mem_zipIdx_iff_getElem?.mp hp), ?_⟩
    simpa using ha
  rintro ⟨l, hl, hq⟩
  obtain ⟨i, hi⟩ := getElem?_of_mem hl
  exact ⟨(l, i), mem_zipIdx_iff_getElem?.mpr hi, by simp [hq]⟩

-- Behind the scan, up to the return of `schedule`.
def Pc.Sleeping (pc : Pc) : Prop := pc = .sleep ∨ pc = .schedule ∨ pc = .off

-- The table has the queues that `poll_wait` was called with, or is full.
structure Listed (fds : List (List Nat)) (s : State) : Prop where
  table : ∀ q ∈ s.table, q ∈ fds.flatten
  nodup : s.table.Nodup
  le : s.table.length ≤ POLL_MAX_ENTRIES
  todo : ∀ a ∈ s.pc.todo, a ∈ acts fds
  linked : (∃ todo, s.pc = .scan todo false) ∨ s.pc.Sleeping →
    (∀ q ∈ fds.flatten, q ∈ s.table ∨ Act.wait q ∈ s.pc.todo) ∨ s.table.length = POLL_MAX_ENTRIES
  ret : s.pc = .ret → s.table = []

theorem Listed.pollWait (h : Listed fds s) {q : Nat} {todo : List Act} (hpc : s.pc = .scan (.wait q :: todo) false) :
    Listed fds { pollWait q s with pc := .scan todo false } := by
  have htodo := h.todo
  have hlinked := h.linked (.inl ⟨_, hpc⟩)
  rw [hpc] at htodo hlinked
  have hq : q ∈ fds.flatten := wait_mem_acts.mp (htodo _ mem_cons_self)
  have hnext (t : List Nat) (hsub : ∀ q' ∈ s.table, q' ∈ t) (hin : q ∈ t) :
      (∀ q' ∈ fds.flatten, q' ∈ s.table ∨ Act.wait q' ∈ Act.wait q :: todo) →
        ∀ q' ∈ fds.flatten, q' ∈ t ∨ Act.wait q' ∈ todo := by
    intro hall q' hq'
    rcases hall q' hq' with h1 | h1
    · exact .inl (hsub q' h1)
    rcases mem_cons.mp h1 with heq | h1
    · exact .inl (Act.wait.inj heq ▸ hin)
    · exact .inr h1
  unfold Poll.pollWait
  split
  · rename_i hin
    exact ⟨h.table, h.nodup, h.le, fun a ha => htodo a (mem_cons_of_mem _ ha),
      fun _ => hlinked.imp_left (hnext _ (fun _ => id) hin), nofun⟩
  rename_i hin
  split
  · rename_i hfull
    exact ⟨h.table, h.nodup, h.le, fun a ha => htodo a (mem_cons_of_mem _ ha), fun _ => .inr hfull, nofun⟩
  rename_i hroom
  have hle := h.le
  refine ⟨?_, ?_, ?_, fun a ha => htodo a (mem_cons_of_mem _ ha), fun _ => ?_, nofun⟩
  · exact forall_mem_append.mpr ⟨h.table, by simpa using mem_flatten.mp hq⟩
  · exact nodup_append.mpr ⟨h.nodup, nodup_singleton q, by simpa using fun a ha (heq : a = q) => hin (heq ▸ ha)⟩
  · rw [length_append, length_singleton]
    omega
  · exact .inl (hnext _ (fun _ => mem_append_left _) (mem_append_right _ mem_cons_self) (hlinked.resolve_right hroom))

theorem Listed.poller (h : Listed fds s) (signal : Bool) : Listed fds (poller fds signal s) := by
  obtain ⟨htable, hnodup, hle, htodo, hlinked, hret⟩ := h
  unfold Poll.poller
  split
  · rename_i q todo ready hpc
    cases ready with
    | false => exact Listed.pollWait ⟨htable, hnodup, hle, htodo, hlinked, hret⟩ hpc
    | true =>
      rw [hpc] at htodo
      exact ⟨htable, hnodup, hle, fun a ha => htodo a (mem_cons_of_mem _ ha), by simp [Pc.Sleeping], nofun⟩
  · rename_i i todo ready hpc
    rw [hpc] at htodo hlinked
    refine ⟨htable, hnodup, hle, fun a ha => htodo a (mem_cons_of_mem _ ha), fun hr => ?_, nofun⟩
    have hready : ready = false := by simp [Pc.Sleeping] at hr; exact hr.1
    refine (hlinked (.inl ⟨_, by rw [hready]⟩)).imp_left fun hall q hq => (hall q hq).imp_right fun hin => ?_
    exact (mem_cons.mp hin).resolve_left (by simp)
  · rename_i ready hpc
    split
    · exact ⟨nofun, nodup_nil, Nat.zero_le _, nofun, by simp [Pc.Sleeping], fun _ => rfl⟩
    rename_i hnot
    rw [hpc] at hlinked
    have hready : ready = false := by simp at hnot; exact hnot.1
    exact ⟨htable, hnodup, hle, nofun, fun _ => hlinked (.inl ⟨_, by rw [hready]⟩), nofun⟩
  · rename_i hpc
    rw [hpc] at hlinked
    exact ⟨htable, hnodup, hle, nofun, fun _ => hlinked (.inr (.inl rfl)), nofun⟩
  · rename_i hpc
    rw [hpc] at hlinked
    refine ⟨htable, hnodup, hle, ?_, fun _ => ?_, ?_⟩
    · dsimp only
      split <;> nofun
    · have := hlinked (.inr (.inr (.inl rfl)))
      dsimp only
      split <;> exact this
    · dsimp only
      split <;> nofun
  · exact ⟨htable, hnodup, hle, htodo, hlinked, hret⟩
  · rename_i hpc
    split
    · rename_i q table heq
      rw [heq] at htable hnodup hle
      refine ⟨fun q hq => htable q (mem_cons_of_mem _ hq), hnodup.of_cons, Nat.le_of_succ_le hle, htodo, ?_, ?_⟩
      · simp [hpc, Pc.Sleeping]
      · simp [hpc]
    · exact ⟨htable, hnodup, hle, fun a ha => ha, fun _ => .inl fun q hq => .inr (wait_mem_acts.mpr hq), nofun⟩
  · exact ⟨htable, hnodup, hle, htodo, hlinked, hret⟩

theorem Listed.tryToWakeUp (h : Listed fds s) : Listed fds (tryToWakeUp s) := by
  unfold Poll.tryToWakeUp
  split
  · exact h
  by_cases hpc : s.pc = .off
  · simp only [if_pos hpc]
    exact ⟨h.table, h.nodup, h.le, nofun, by simp [Pc.Sleeping], nofun⟩
  · simp only [if_neg hpc]
    exact ⟨h.table, h.nodup, h.le, h.todo, h.linked, h.ret⟩

theorem Listed.step (h : Listed fds s) (ev : Event) : Listed fds (step fds s ev) := by
  cases ev with
  | poller signal => exact h.poller signal
  | post i ready => exact ⟨h.table, h.nodup, h.le, h.todo, h.linked, h.ret⟩
  | signal => exact h.tryToWakeUp
  | wake q =>
    simp only [Poll.step, wakeUp]
    split
    · exact Listed.tryToWakeUp ⟨h.table, h.nodup, h.le, h.todo, h.linked, h.ret⟩
    · exact ⟨h.table, h.nodup, h.le, h.todo, h.linked, h.ret⟩

theorem start_listed (fds : List (List Nat)) : Listed fds (start fds) :=
  ⟨nofun, nodup_nil, Nat.zero_le _, fun _ ha => ha, fun _ => .inl fun _ hq => .inr (wait_mem_acts.mpr hq), nofun⟩

theorem run_listed (evs : List Event) (h : Listed fds s) : Listed fds (run fds s evs) := by
  induction evs generalizing s with
  | nil => exact h
  | cons ev evs ih => exact ih (h.step ev)

theorem Listed.full (h : Listed fds s) (hfds : fds.flatten.dedup.length ≤ POLL_MAX_ENTRIES)
    (hfull : s.table.length = POLL_MAX_ENTRIES) : ∀ q ∈ fds.flatten, q ∈ s.table := by
  have hsub : s.table ⊆ fds.flatten.dedup := fun q hq => mem_dedup.mpr (h.table q hq)
  have heq := (h.nodup.subperm hsub).perm_of_length_le (by omega)
  exact fun q hq => heq.mem_iff.mpr (mem_dedup.mpr hq)

theorem Listed.all (h : Listed fds s) (hfds : fds.flatten.dedup.length ≤ POLL_MAX_ENTRIES) (hpc : s.pc.Sleeping) :
    ∀ q ∈ fds.flatten, q ∈ s.table := by
  rcases h.linked (.inr hpc) with hall | hfull
  · refine fun q hq => (hall q hq).resolve_right ?_
    rcases hpc with hpc | hpc | hpc <;> rw [hpc] <;> exact not_mem_nil
  · exact h.full hfds hfull

theorem Listed.all_iff (h : Listed fds s) (hpc : s.pc.Sleeping) :
    (∀ q ∈ fds.flatten, q ∈ s.table) ↔ fds.flatten.dedup.length ≤ POLL_MAX_ENTRIES := by
  refine ⟨fun hall => ?_, fun hfds => h.all hfds hpc⟩
  have hsub : fds.flatten.dedup ⊆ s.table := fun q hq => hall q (mem_dedup.mp hq)
  exact Nat.le_trans ((nodup_dedup _).subperm hsub).length_le h.le

theorem Listed.awake (h : Listed fds s) (hfds : fds.flatten.dedup.length ≤ POLL_MAX_ENTRIES)
    (hquiet : (∃ todo ready, s.pc = .scan todo ready) ∨ s.pc = .sleep ∨ s.pc = .off → s.woken = [])
    (hlate : s.pc = .schedule → s.state = .running ∨ s.woken = []) (hoff : s.pc = .off → s.state = .interruptible) :
    Awake fds s :=
  ⟨h.table, h.nodup, h.todo, fun hpc => (h.linked hpc).elim id fun hfull q hq => .inl (h.full hfds hfull q hq),
    hquiet, hlate, hoff⟩

theorem pollWait_woken (q : Nat) (s : State) : (pollWait q s).woken = s.woken := by
  unfold pollWait
  split
  · rfl
  · split <;> rfl

theorem poller_awake (h : Awake fds s) (hl : Listed fds s) (hfds : fds.flatten.dedup.length ≤ POLL_MAX_ENTRIES)
    (signal : Bool) :
    Awake fds (poller fds signal s) := by
  refine (hl.poller signal).awake hfds ?_ ?_ ?_ <;> unfold poller <;> split <;> rename_i hpc
  -- no wake-up counts where the turn may still end in a sleep
  · refine fun _ => Eq.trans ?_ (h.quiet (.inl ⟨_, _, hpc⟩))
    dsimp only
    split
    · rfl
    · exact pollWait_woken _ s
  · exact fun _ => h.quiet (.inl ⟨_, _, hpc⟩)
  · split
    · simp
    · exact fun _ => h.quiet (.inl ⟨_, _, hpc⟩)
  · simp
  · dsimp only
    split
    · simp
    · rename_i hstate
      exact fun _ => (h.late hpc).resolve_left hstate
  · exact h.quiet
  · split
    · simp [hpc]
    · exact fun _ => rfl
  · exact h.quiet
  -- in front of `schedule`
  · nofun
  · nofun
  · split <;> nofun
  · exact fun _ => .inr (h.quiet (.inr (.inl hpc)))
  · dsimp only
    split <;> nofun
  · exact h.late
  · split
    · simp [hpc]
    · nofun
  · exact h.late
  -- off the run queue
  · nofun
  · nofun
  · split <;> nofun
  · nofun
  · dsimp only
    split
    · nofun
    rename_i hstate
    intro _
    cases hs : s.state
    · exact absurd hs hstate
    · rfl
  · exact h.off
  · split
    · simp [hpc]
    · nofun
  · exact h.off

theorem tryToWakeUp_eq (h : s.pc = .off → s.state = .interruptible) :
    tryToWakeUp s = { s with state := .running, pc := if s.pc = .off then .on else s.pc } := by
  unfold tryToWakeUp
  split
  · rename_i hrun
    have hpc : s.pc ≠ .off := fun hoff => by
      rw [h hoff] at hrun
      cases hrun
    rw [if_neg hpc, ← hrun]
  · rfl

theorem tryToWakeUp_awake (h : Awake fds s) (hl : Listed fds s) (hfds : fds.flatten.dedup.length ≤ POLL_MAX_ENTRIES)
    {woken : List Nat} (hquiet : (∃ todo ready, s.pc = .scan todo ready) ∨ s.pc = .sleep → woken = []) :
    Awake fds (tryToWakeUp { s with woken }) := by
  have hl' : Listed fds { s with woken } := ⟨hl.table, hl.nodup, hl.le, hl.todo, hl.linked, hl.ret⟩
  refine hl'.tryToWakeUp.awake hfds ?_ ?_ ?_ <;> rw [tryToWakeUp_eq (s := { s with woken }) h.off]
  · dsimp only
    split
    · simp
    · rename_i hpc
      exact fun hp => hquiet (hp.imp_right fun hp => hp.resolve_right hpc)
  · exact fun _ => .inl rfl
  dsimp only
  split
  · nofun
  · exact fun hoff => absurd hoff ‹_›

theorem wakeUp_awake (h : Awake fds s) (hl : Listed fds s) (hfds : fds.flatten.dedup.length ≤ POLL_MAX_ENTRIES)
    {q : Nat} (hearly : ¬ Early fds s (.wake q)) : Awake fds (wakeUp fds q s) := by
  unfold wakeUp
  -- the descriptors that the wake-up counts for
  have hnone : (∃ todo ready, s.pc = .scan todo ready) ∨ s.pc = .sleep →
      (List.range fds.length).filter (fun i => q ∈ fds.getD i [] ∧ Act.test i ∉ s.pc.todo) = [] := by
    intro hpc
    rw [filter_eq_nil_iff]
    intro i hi hq
    exact hearly ⟨hpc, i, mem_range.mp hi, by simpa using hq⟩
  have hquiet : (∃ todo ready, s.pc = .scan todo ready) ∨ s.pc = .sleep → s.woken ++
      (List.range fds.length).filter (fun i => q ∈ fds.getD i [] ∧ Act.test i ∉ s.pc.todo) = [] := by
    intro hpc
    rw [hnone hpc, h.quiet (hpc.imp_right .inl), append_nil]
  by_cases hq : q ∈ s.table
  · rw [if_pos hq]
    exact tryToWakeUp_awake h hl hfds hquiet
  rw [if_neg hq]
  -- the queue of a descriptor is in the table once the scan is over
  have hstray : s.pc = .schedule ∨ s.pc = .off →
      (List.range fds.length).filter (fun i => q ∈ fds.getD i [] ∧ Act.test i ∉ s.pc.todo) = [] := by
    intro hpc
    rw [filter_eq_nil_iff]
    intro i hi hin
    have hlt : i < fds.length := mem_range.mp hi
    have hmem : q ∈ fds.getD i [] := (by simpa using hin : _ ∧ _).1
    rw [getD_eq_getElem?_getD, getElem?_eq_getElem hlt, getD_some] at hmem
    exact hq (hl.all hfds (.inr hpc) q (mem_flatten.mpr ⟨_, getElem_mem hlt, hmem⟩))
  refine ⟨h.table, h.nodup, h.todo, h.linked, ?_, ?_, h.off⟩
  · intro hpc
    rcases hpc with hpc | hpc | hpc
    · exact hquiet (.inl hpc)
    · exact hquiet (.inr hpc)
    · show s.woken ++ _ = []
      rw [h.quiet (.inr (.inr hpc)), hstray (.inr hpc), append_nil]
  intro hpc
  show _ ∨ s.woken ++ _ = []
  rw [hstray (.inl hpc), append_nil]
  exact h.late hpc

theorem step_awake (h : Awake fds s) (hl : Listed fds s) (hfds : fds.flatten.dedup.length ≤ POLL_MAX_ENTRIES)
    (ev : Event) (hev : ¬ Early fds s ev) : Awake fds (step fds s ev) := by
  cases ev with
  | poller signal => exact poller_awake h hl hfds signal
  | post i ready => exact ⟨h.table, h.nodup, h.todo, h.linked, h.quiet, h.late, h.off⟩
  | wake q => exact wakeUp_awake h hl hfds hev
  | signal => exact tryToWakeUp_awake h hl hfds fun hpc => h.quiet (hpc.imp_right .inl)

theorem run_awake (hfds : fds.flatten.dedup.length ≤ POLL_MAX_ENTRIES) (evs : List Event) (h : Awake fds s)
    (hl : Listed fds s) (htimely : Timely fds s evs) : Awake fds (run fds s evs) := by
  induction evs generalizing s with
  | nil => exact h
  | cons ev evs ih => exact ih (step_awake h hl hfds ev htimely.1) (hl.step ev) htimely.2

-- The thread never sleeps through a wake-up that comes behind the last assignment of its state
-- (or for a descriptor that it has not tested yet).
theorem poll_not_missed (fds : List (List Nat)) (hfds : fds.flatten.dedup.length ≤ POLL_MAX_ENTRIES) (evs : List Event)
    (htimely : Timely fds (start fds) evs) : ¬ Missed (run fds (start fds) evs) := by
  have hl := start_listed fds
  have h := run_awake hfds evs (hl.awake hfds (fun _ => rfl) nofun nofun) hl htimely
  rintro ⟨hoff, -, i, hi, -⟩
  rw [h.quiet (.inr (.inr hoff))] at hi
  cases hi

theorem poll_not_missed_late : ¬ Missed (run [[0]] (start [[0]]) [.poller false, .poller false, .poller false, .poller false,
    .post 0 true, .wake 0, .poller false]) :=
  poll_not_missed _ (by decide) _ ⟨id, id, id, id, id, (fun h => by rcases h.1 with ⟨_, _, h⟩ | h <;> cases h), id, trivial⟩

theorem wake_before_sleep_missed : Missed (run [[0]] (start [[0]]) [.poller false, .poller false, .post 0 true, .wake 0,
    .poller false, .poller false, .poller false]) :=
  ⟨by decide, by decide, 0, by decide, by decide⟩

-- A sleeping thread is linked into all queues of its descriptors iff the table has room for
-- them, and one that has returned into none.
theorem sleeper_listed_iff (fds : List (List Nat)) (evs : List Event) : let s := run fds (start fds) evs
    (s.pc.Sleeping → ((∀ q ∈ fds.flatten, q ∈ s.table) ↔ fds.flatten.dedup.length ≤ POLL_MAX_ENTRIES)) ∧
      (s.pc = .ret → s.table = []) := by
  have h := run_listed evs (start_listed fds)
  exact ⟨h.all_iff, h.ret⟩

theorem queue_65_unlisted : let fds := (List.range 65).map fun q => [q]
    let s := run fds (start fds) (replicate 133 (.poller false))
    s.pc = .off ∧ 64 ∉ s.table := by
  decide +kernel

end Olux.Poll
