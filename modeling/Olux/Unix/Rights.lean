import Olux.Unix.Kmsg
import Olux.Lib.Sum

-- SCM_RIGHTS: the references to passed files on their way from sys_sendmsg through the queues
-- of any number of sockets to sys_recvmsg and recvfrom.

namespace Olux.Unix.Rights

open List

variable {m : Kmsg} {env : Env} {c : Uchunk} {u : Usock}

inductive Word where
  | file (f : Nat)
  | error (e : Nat)

def gather : List Word → List Nat × Int
  | [] => ([], 0)
  | .error e :: _ => ([], - (e : Int))
  | .file f :: words => (f :: (gather words).1, (gather words).2)

-- The system call: for sys_recvmsg, h.controllen and the results of fd_install.
inductive Kind where
  | send
  | recvmsg (controllen : Nat) (install : Nat → Int)
  | recvfrom

structure Call where
  sock : Nat
  kind : Kind
  m : Kmsg
  flags : Flags
  done : Nat
  result : Option Int

-- The sockets and calls, the references in descriptor tables, those put, and in `taken` all that fget has taken.
structure State where
  socks : List Usock
  peer : Nat → Option Nat
  calls : List Call
  taken : List Nat
  table : List Nat
  puts : List Nat
  lost : List Nat

def boot : State := ⟨[], fun _ => none, [], [], [], [], []⟩

def installFds (install : Nat → Int) : Nat → Nat → List Nat → List Nat × List Nat
  | _, _, [] => ([], [])
  | _, 0, fds => ([], fds)
  | i, n + 1, f :: fds =>
    if install i < 0 then ([], f :: fds)
    else (f :: (installFds install (i + 1) n fds).1, (installFds install (i + 1) n fds).2)

def room (controllen : Nat) : Nat := if controllen > 16 then (controllen - 16) / 4 else 0

def Call.settle (call : Call) (r : Int) : List Nat × List Nat :=
  match call.kind with
  | .send => ([], call.m.fds)
  | .recvfrom => ([], call.m.fds)
  | .recvmsg controllen install => if r ≥ 0 then installFds install 0 (room controllen) call.m.fds else ([], call.m.fds)

variable (s : State)

def finish (id : Nat) (r : Int) : State :=
  match s.calls[id]? with
  | none => s
  | some call =>
    { s with
      calls := s.calls.set id { call with m := { call.m with fds := [] }, result := some r }
      table := s.table ++ (call.settle r).1
      puts := s.puts ++ (call.settle r).2 }

def finishIf (id : Nat) : Option Int → State
  | none => s
  | some r => finish s id r

def target (call : Call) (u : Usock) (named : Except Int Nat) : Except Int Nat :=
  if u.type = .dgram ∧ call.m.name ≠ [] then named
  else
    match s.peer call.sock with
    | none => .error (- ENOTCONN)
    | some j => .ok j

def sendTurn (call : Call) (u : Usock) (dest : Except Int Nat) (env : Env) : Sending :=
  let t : Except Int Usock :=
    match dest with
    | .error e => .error e
    | .ok j =>
      match s.socks[j]? with
      | none => .error (- ENOTCONN)
      | some t => .ok t
  if u.type = .dgram then sendDgramTurn u t call.m env
  else sendStreamTurn u t.toOption call.m call.done env

def sendStep (id : Nat) (call : Call) (u : Usock) (named : Except Int Nat) (env : Env) : State :=
  let dest := target s call u named
  match sendTurn s call u dest env with
  | .ret r => finish s id r
  | .again => s
  | .queued c m =>
    match dest with
    | .error _ => s
    | .ok j =>
      match s.socks[j]? with
      | none => s
      | some t =>
        let done := call.done + c.len
        let s' := { s with socks := s.socks.set j (t.push c), calls := s.calls.set id { call with m, done } }
        finishIf s' id (if sendOver u m done then some done else none)

def overwrittenBy (call : Call) (u : Usock) (env : Env) : List Nat :=
  match u.rq with
  | [] => []
  | c :: _ =>
    if c.fds ≠ [] ∧ call.flags.peek = false ∧ env.fault = false ∧ ¬ (u.type = .stream ∧ call.done ≠ 0) then call.m.fds
    else []

def recvStep (id : Nat) (call : Call) (u : Usock) (env : Env) : State :=
  let peer := (s.peer call.sock).bind fun j => s.socks[j]?
  match recvTurn u peer call.m call.flags call.done env with
  | .ret r => finish s id r
  | .again => s
  | .took m u' bytes ret =>
    let s' :=
      { s with
        socks := s.socks.set call.sock u'
        calls := s.calls.set id { call with m, done := call.done + bytes.length }
        lost := s.lost ++ overwrittenBy call u env }
    finishIf s' id ret

-- A new socket; whatever connect, accept, shutdown and the others do to the fields of a socket
-- other than its queue; the beginning of a send or a receive; a turn of a call; a close, which
-- no call on the socket survives.
inductive Event where
  | socket (u : Usock)
  | other (i : Nat) (u : Usock) (peer : Option Nat)
  | sendmsg (i : Nat) (words : List Word) (m : Kmsg) (flags : Flags)
  | recv (i : Nat) (kind : Kind) (m : Kmsg) (flags : Flags)
  | turn (id : Nat) (named : Except Int Nat) (env : Env)
  | close (i : Nat)

def newCall (call : Call) (early : Option Int) : State :=
  finishIf { s with calls := s.calls ++ [call] } s.calls.length early

def busy (i : Nat) : Bool := s.calls.any fun call => call.sock == i && call.result.isNone

def step : Event → State
  | .socket u => { s with socks := s.socks ++ [{ u with rq := [], rqBytes := 0 }] }
  | .other i u peer =>
    match s.socks[i]? with
    | none => s
    | some old =>
      { s with
        socks := s.socks.set i { u with rq := old.rq, rqBytes := old.rqBytes }
        peer := fun j => if j = i then peer else s.peer j }
  | .sendmsg i words m flags =>
    match s.socks[i]? with
    | none => s
    | some u =>
      let fds := (gather words).1
      let early := if (gather words).2 ≠ 0 then some (gather words).2 else sendEarly u m flags
      newCall { s with taken := s.taken ++ fds } ⟨i, .send, { m with fds }, flags, 0, none⟩ early
  | .recv i kind m flags =>
    newCall s ⟨i, kind, { m with fds := [] }, flags, 0, none⟩ (if flags.oob then some (- EOPNOTSUPP) else none)
  | .turn id named env =>
    match s.calls[id]? with
    | none => s
    | some call =>
      match s.socks[call.sock]? with
      | none => s
      | some u =>
        if call.result.isSome then s
        else
          match call.kind with
          | .send => sendStep s id call u named env
          | .recvmsg _ _ => recvStep s id call u env
          | .recvfrom => recvStep s id call u env
  | .close i =>
    match s.socks[i]? with
    | none => s
    | some u =>
      if busy s i then s
      else { s with socks := s.socks.set i { (flushRq u).1 with state := .closed }, puts := s.puts ++ (flushRq u).2 }

def run (evs : List Event) : State := evs.foldl step s

def inCalls (x : Nat) : Nat := (s.calls.map fun call => call.m.fds.count x).sum

def inQueues (x : Nat) : Nat := (s.socks.map fun u => (u.rq.flatMap Uchunk.fds).count x).sum

def Conserved : Prop :=
  ∀ x, s.taken.count x = inCalls s x + inQueues s x + s.table.count x + s.puts.count x

def overwritten : Event → List Nat
  | .turn id _ env =>
    match s.calls[id]? with
    | none => []
    | some call =>
      match s.socks[call.sock]? with
      | none => []
      | some u =>
        if call.result.isSome then []
        else
          match call.kind with
          | .send => []
          | .recvmsg _ _ => overwrittenBy call u env
          | .recvfrom => overwrittenBy call u env
  | _ => []

def Law : Prop :=
  ∀ x, s.taken.count x = inCalls s x + inQueues s x + s.table.count x + s.puts.count x + s.lost.count x

theorem boot_law : Law boot := fun _ => rfl

theorem installFds_append (install : Nat → Int) (i n : Nat) (fds : List Nat) :
    (installFds install i n fds).1 ++ (installFds install i n fds).2 = fds := by
  induction fds generalizing i n with
  | nil => cases n <;> rfl
  | cons f fds ih =>
  cases n with
  | zero => rfl
  | succ n =>
    unfold installFds
    split
    · rfl
    · exact congrArg (f :: ·) (ih (i + 1) n)

theorem settle_append (call : Call) (r : Int) : (call.settle r).1 ++ (call.settle r).2 = call.m.fds := by
  unfold Call.settle
  split
  · rfl
  · rfl
  split
  · exact installFds_append _ _ _ _
  · rfl

theorem settle_count (call : Call) (r : Int) (x : Nat) :
    (call.settle r).1.count x + (call.settle r).2.count x = call.m.fds.count x := by
  rw [← count_append, settle_append]

variable {s : State}

theorem inCalls_set {id : Nat} {old : Call} (h : s.calls[id]? = some old) (call : Call) (x : Nat) :
    inCalls { s with calls := s.calls.set id call } x + old.m.fds.count x = inCalls s x + call.m.fds.count x :=
  Lib.sum_map_set h fun call => call.m.fds.count x

theorem inQueues_set {i : Nat} {old : Usock} (h : s.socks[i]? = some old) (u : Usock) (x : Nat) :
    inQueues { s with socks := s.socks.set i u } x + (old.rq.flatMap Uchunk.fds).count x =
      inQueues s x + (u.rq.flatMap Uchunk.fds).count x :=
  Lib.sum_map_set h fun u => (u.rq.flatMap Uchunk.fds).count x

theorem finish_law (h : Law s) (id : Nat) (r : Int) : Law (finish s id r) := by
  unfold finish
  split
  · exact h
  rename_i call hcall
  intro x
  have hset := inCalls_set hcall { call with m := { call.m with fds := [] }, result := some r } x
  have hsettle := settle_count call r x
  have hlaw := h x
  dsimp only [inCalls, inQueues] at *
  rw [count_append, count_append]
  rw [count_nil] at hset
  omega

theorem finishIf_law (h : Law s) (id : Nat) (ret : Option Int) : Law (finishIf s id ret) := by
  cases ret with
  | none => exact h
  | some r => exact finish_law h id r

variable {call : Call}

theorem newCall_law {fds : List Nat} (h : Law s) (hfds : call.m.fds = fds) (early : Option Int) :
    Law (newCall { s with taken := s.taken ++ fds } call early) := by
  refine finishIf_law (fun x => ?_) _ _
  have hlaw := h x
  dsimp only [inCalls, inQueues] at *
  rw [count_append, map_append, sum_append, map_singleton, sum_singleton, hfds]
  omega

theorem sendStep_law (h : Law s) {id : Nat} (hcall : s.calls[id]? = some call) (u : Usock) (named : Except Int Nat)
    (env : Env) : Law (sendStep s id call u named env) := by
  unfold sendStep
  dsimp only
  split
  · exact finish_law h id _
  · exact h
  rename_i c m hturn
  -- the descriptors of the message go into the chunk, all or none of them
  have hfds : c.fds ++ m.fds = call.m.fds := by
    unfold sendTurn at hturn
    dsimp only at hturn
    split at hturn
    · exact ((sendDgramTurn_ok _ _ _ _).queued hturn).2.fds
    · exact ((sendStreamTurn_ok _ _ _ _ _).queued hturn).2.fds
  split
  · exact h
  split
  · exact h
  rename_i t ht
  refine finishIf_law (fun x => ?_) _ _
  have hcalls := inCalls_set hcall { call with m, done := call.done + c.len } x
  have hqueue := inQueues_set ht (t.push c) x
  have hcount : c.fds.count x + m.fds.count x = call.m.fds.count x := by rw [← count_append, hfds]
  have hlaw := h x
  dsimp only [inCalls, inQueues, Usock.push] at *
  rw [flatMap_append, count_append, flatMap_singleton] at hqueue
  omega

theorem receive_fds (m : Kmsg) (u : Usock) (c : Uchunk) (flags : Flags) (done n : Nat) :
    (m.receive u c flags done n).fds = if c.fds ≠ [] ∧ flags.peek = false then c.fds else m.fds := by
  unfold Kmsg.receive
  dsimp only
  repeat' split
  all_goals rfl

theorem overwrittenBy_cons {rq : List Uchunk} (hrq : u.rq = c :: rq) (hfault : env.fault = false)
    (hown : ¬ (u.type = .stream ∧ call.done ≠ 0 ∧ c.fds ≠ [])) :
    overwrittenBy call u env = if c.fds ≠ [] ∧ call.flags.peek = false then call.m.fds else [] := by
  unfold overwrittenBy
  simp only [hrq]
  refine if_congr ⟨fun hc => ⟨hc.1, hc.2.1⟩, fun hc => ⟨hc.1, hc.2, hfault, fun hs => ?_⟩⟩ rfl rfl
  exact hown ⟨hs.1, hs.2, hc.1⟩

theorem recvTurn_fds {u' : Usock} {peer : Option Usock} {bytes : List UInt8} {ret : Option Int}
    (h : recvTurn u peer call.m call.flags call.done env = .took m u' bytes ret) (x : Nat) :
    m.fds.count x + (u'.rq.flatMap Uchunk.fds).count x + (overwrittenBy call u env).count x =
      call.m.fds.count x + (u.rq.flatMap Uchunk.fds).count x := by
  unfold recvTurn at h
  split at h
  · unfold recvEmpty at h
    dsimp only at h
    repeat' split at h
    all_goals cases h
  rename_i c rq hrq
  split at h
  · cases h
  rename_i hown
  dsimp only at h
  split at h
  · cases h
  rename_i hfault
  rw [overwrittenBy_cons hrq (eq_false_of_ne_true hfault) hown, hrq, flatMap_cons, count_append]
  split at h
  · unfold takeBytes at h
    dsimp only at h
    split at h
    · rename_i hpeek
      cases h
      rw [receive_fds, if_neg (by simp [hpeek]), if_neg (by simp [hpeek]), hrq, flatMap_cons, count_append]
      simp
    rename_i hpeek
    cases h
    rw [receive_fds]
    by_cases hfds : c.fds = []
    · simp only [hfds, ne_eq, not_true_eq_false, false_and, if_false, count_nil]
      split <;> simp
    simp only [hfds, ne_eq, not_false_eq_true, true_and, eq_false_of_ne_true hpeek, if_true]
    split
    · omega
    · rw [flatMap_cons, nil_append]
      omega
  unfold takeRecord at h
  dsimp only at h
  have htrunc : ∀ {m1 : Kmsg}, (if (min (c.len - c.off) (call.m.len - call.done)) < c.len - c.off then
      { m1 with trunc := true } else m1).fds = m1.fds := by
    intro m1
    split <;> rfl
  split at h
  · rename_i hpeek
    cases h
    rw [htrunc, receive_fds, if_neg (by simp [hpeek]), if_neg (by simp [hpeek]), hrq, flatMap_cons,
      count_append]
    simp
  rename_i hpeek
  cases h
  rw [htrunc, receive_fds]
  by_cases hfds : c.fds = []
  · simp [hfds]
  · simp only [hfds, ne_eq, not_false_eq_true, true_and, eq_false_of_ne_true hpeek, if_true]
    omega

theorem recvStep_law (h : Law s) {id : Nat} (hcall : s.calls[id]? = some call) (hu : s.socks[call.sock]? = some u)
    (env : Env) : Law (recvStep s id call u env) := by
  unfold recvStep
  dsimp only
  split
  · exact finish_law h id _
  · exact h
  rename_i m u' bytes ret hturn
  refine finishIf_law (fun x => ?_) _ _
  have hcalls := inCalls_set hcall { call with m, done := call.done + bytes.length } x
  have hqueue := inQueues_set hu u' x
  have hmoved := recvTurn_fds hturn x
  have hlaw := h x
  dsimp only [inCalls, inQueues] at *
  rw [count_append]
  omega

theorem step_law (h : Law s) (ev : Event) : Law (step s ev) := by
  cases ev with
  | socket u =>
    intro x
    have hlaw := h x
    dsimp only [step, inCalls, inQueues] at *
    rw [map_append, sum_append]
    simpa using hlaw
  | other i u peer =>
    dsimp only [step]
    split
    · exact h
    rename_i old hold
    intro x
    have hqueue := inQueues_set hold { u with rq := old.rq, rqBytes := old.rqBytes } x
    have hlaw := h x
    dsimp only [inCalls, inQueues] at *
    omega
  | sendmsg i words m flags =>
    dsimp only [step]
    split
    · exact h
    · exact newCall_law h rfl _
  | recv i kind m flags =>
    dsimp only [step]
    have hnew : Law (newCall { s with taken := s.taken ++ [] } ⟨i, kind, { m with fds := [] }, flags, 0, none⟩
        (if flags.oob then some (- EOPNOTSUPP) else none)) := newCall_law h rfl _
    rw [append_nil] at hnew
    exact hnew
  | turn id named env =>
    dsimp only [step]
    split
    · exact h
    rename_i call hcall
    split
    · exact h
    rename_i u hu
    split
    · exact h
    split
    · exact sendStep_law h hcall u named env
    · exact recvStep_law h hcall hu env
    · exact recvStep_law h hcall hu env
  | close i =>
  dsimp only [step]
  split
  · exact h
  rename_i u hu
  split
  · exact h
  intro x
  have hqueue := inQueues_set hu { (flushRq u).1 with state := .closed } x
  have hlaw := h x
  dsimp only [inCalls, inQueues, flushRq] at *
  rw [count_append]
  rw [flatMap_nil, count_nil] at hqueue
  omega

theorem run_law (evs : List Event) : Law (run boot evs) :=
  List.foldlRecOn evs step boot_law fun _ h ev _ => step_law h ev

theorem finish_lost (s : State) (id : Nat) (r : Int) : (finish s id r).lost = s.lost := by
  unfold finish
  split <;> rfl

theorem finishIf_lost (s : State) (id : Nat) (ret : Option Int) : (finishIf s id ret).lost = s.lost := by
  cases ret with
  | none => rfl
  | some r => exact finish_lost s id r

theorem sendStep_lost (s : State) (id : Nat) (call : Call) (u : Usock) (named : Except Int Nat) (env : Env) :
    (sendStep s id call u named env).lost = s.lost := by
  unfold sendStep
  dsimp only
  split
  · exact finish_lost s id _
  · rfl
  split
  · rfl
  split
  · rfl
  · rw [finishIf_lost]

theorem overwrittenBy_of_recvTurn {peer : Option Usock}
    (h : ∀ m u' bytes ret, recvTurn u peer call.m call.flags call.done env ≠ .took m u' bytes ret) :
    overwrittenBy call u env = [] := by
  unfold overwrittenBy
  split
  · rfl
  rename_i c rq hrq
  refine if_neg fun hc => ?_
  obtain ⟨hfds, hpeek, hfault, hown⟩ := hc
  unfold recvTurn at h
  rw [hrq] at h
  dsimp only at h
  rw [if_neg fun hs => hown ⟨hs.1, hs.2.1⟩, hfault] at h
  rw [if_neg Bool.false_ne_true] at h
  split at h
  · unfold takeBytes at h
    dsimp only at h
    rw [if_neg (by rw [hpeek]; decide)] at h
    exact h _ _ _ _ rfl
  unfold takeRecord at h
  dsimp only at h
  rw [if_neg (by rw [hpeek]; decide)] at h
  exact h _ _ _ _ rfl

theorem recvStep_lost (s : State) (id : Nat) (call : Call) (u : Usock) (env : Env) :
    (recvStep s id call u env).lost = s.lost ++ overwrittenBy call u env := by
  unfold recvStep
  dsimp only
  split
  · rename_i r hturn
    rw [finish_lost, overwrittenBy_of_recvTurn (fun m u' bytes ret he => nomatch hturn.symm.trans he), append_nil]
  · rename_i hturn
    rw [overwrittenBy_of_recvTurn (fun m u' bytes ret he => nomatch hturn.symm.trans he), append_nil]
  · rw [finishIf_lost]

theorem step_lost (s : State) (ev : Event) : (step s ev).lost = s.lost ++ overwritten s ev := by
  cases ev with
  | socket u => exact (append_nil _).symm
  | other i u peer =>
    dsimp only [step, overwritten]
    rw [append_nil]
    split <;> rfl
  | sendmsg i words m flags =>
    dsimp only [step, overwritten]
    rw [append_nil]
    split
    · rfl
    · exact finishIf_lost _ _ _
  | recv i kind m flags =>
    dsimp only [step, overwritten]
    rw [append_nil]
    exact finishIf_lost _ _ _
  | turn id named env =>
    dsimp only [step, overwritten]
    split
    · rw [append_nil]
    split
    · rw [append_nil]
    split
    · rw [append_nil]
    · split
      · rw [append_nil]
        exact sendStep_lost _ _ _ _ _ _
      · exact recvStep_lost _ _ _ _ _
      · exact recvStep_lost _ _ _ _ _
  | close i =>
  dsimp only [step, overwritten]
  rw [append_nil]
  split
  · rfl
  · split <;> rfl

def NeverOverwrites (s : State) : List Event → Prop
  | [] => True
  | ev :: evs => overwritten s ev = [] ∧ NeverOverwrites (step s ev) evs

theorem run_lost (s : State) (evs : List Event) : (run s evs).lost = [] ↔ s.lost = [] ∧ NeverOverwrites s evs := by
  induction evs generalizing s with
  | nil => exact (and_iff_left trivial).symm
  | cons ev evs ih =>
    refine (ih (step s ev)).trans ?_
    rw [step_lost, append_eq_nil_iff, and_assoc]
    rfl

theorem conserved_iff (h : Law s) : Conserved s ↔ s.lost = [] := by
  constructor
  · intro hc
    refine eq_nil_iff_forall_not_mem.mpr fun x hx => ?_
    have hpos := count_pos_iff.mpr hx
    have hlaw := h x
    have hcons := hc x
    omega
  intro hlost x
  have hlaw := h x
  rw [hlost, count_nil] at hlaw
  exact hlaw

-- The references to passed files are conserved in a run of sends, receives and closes exactly
-- if no receive takes descriptors from a chunk while its message holds others.
theorem rights_conserved_iff (evs : List Event) : Conserved (run boot evs) ↔ NeverOverwrites boot evs := by
  rw [conserved_iff (run_law evs), run_lost]
  exact and_iff_right rfl

def plainSock : Usock := ⟨.stream, .connected, [], 0, false, false, false, [], 212992, 212992⟩

def plainMsg (iov : List (List UInt8)) : Kmsg := ⟨iov, iov.flatten.length, [], [], none, false⟩

def plainFlags : Flags := ⟨false, false, false, false⟩

def plainEnv : Env := ⟨false, 0, true, false, ⟨1, 0, 0⟩⟩

def twoMessages : List Event :=
  [.socket plainSock, .socket plainSock, .other 0 plainSock (some 1), .other 1 plainSock (some 0),
    .sendmsg 0 [.file 7] (plainMsg []) plainFlags, .turn 0 (.error 0) plainEnv,
    .sendmsg 0 [.file 8] (plainMsg [[65]]) plainFlags, .turn 1 (.error 0) plainEnv,
    .recv 1 (.recvmsg 64 fun i => i) (plainMsg [[0]]) plainFlags, .turn 2 (.error 0) plainEnv, .turn 2 (.error 0) plainEnv]

theorem empty_message_loses_descriptor :
    (run boot twoMessages).taken = [7, 8] ∧ (run boot twoMessages).table = [8] ∧ (run boot twoMessages).puts = [] ∧
      inCalls (run boot twoMessages) 7 = 0 ∧ inQueues (run boot twoMessages) 7 = 0 ∧ ¬ Conserved (run boot twoMessages) := by
  refine ⟨by decide, by decide, by decide, by decide, by decide, fun h => ?_⟩
  have hseven := h 7
  revert hseven
  decide

end Olux.Unix.Rights
