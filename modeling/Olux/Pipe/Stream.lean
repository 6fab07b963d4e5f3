import Olux.Pipe
import Olux.Lib.Sum

namespace Olux.Pipefs

open List Option

variable {p : Pipe} {data : List UInt8}

inductive Call where
  | read (len : Nat)
  | write (data : List UInt8)

structure Thread where
  call : Call
  fault : Nat → Bool
  done : Nat
  result : Option Int

-- The pipe with the calls on it. `accepted` are the bytes that writes have put in, each with
-- the number of its call, and `returned` those that reads have copied out.
structure Traffic where
  pipe : Pipe
  threads : List Thread
  accepted : List (Nat × UInt8)
  returned : List UInt8

def Traffic.start (buf : Nat → UInt8) (at' : Fin (2 ^ 64)) (readers writers : Nat) : Traffic :=
  ⟨⟨⟨buf, at'.val, at'.val⟩, readers, writers, writers⟩, [], [], []⟩

def Out.result : Out → Option Int
  | .ret r => some r
  | .sleep => none

def enter (id : Nat) (nonblock : Bool) (s : Traffic) : Traffic :=
  match s.threads[id]? with
  | none => s
  | some t =>
    match t.call with
    | .read len =>
      match vfsRead t.fault nonblock len s.pipe with
      | (out, bytes, p) =>
        { s with
          pipe := p
          threads := s.threads.set id { t with done := bytes.length, result := out.result }
          returned := s.returned ++ bytes }
    | .write data =>
      match vfsWrite t.fault nonblock data t.done s.pipe with
      | (out, done, p) =>
        { s with
          pipe := p
          threads := s.threads.set id { t with done, result := out.result }
          accepted := s.accepted ++ ((data.drop t.done).take (done - t.done)).map fun b => (id, b) }

def Thread.ready (t : Thread) (p : Pipe) : Bool :=
  match t.call with
  | .read _ => readable p
  | .write data => writable (data.length - t.done) p

-- A new call; a sleeping call that looks at its condition, and at a signal; the other end being opened or closed.
inductive Event where
  | call (c : Call) (fault : Nat → Bool) (nonblock : Bool)
  | wake (id : Nat) (nonblock signal : Bool)
  | ends (readers writers : Nat)

def step (s : Traffic) : Event → Traffic
  | .call c fault nonblock =>
    enter s.threads.length nonblock { s with threads := s.threads ++ [⟨c, fault, 0, none⟩] }
  | .wake id nonblock signal =>
    match s.threads[id]? with
    | none => s
    | some t =>
      if t.result ≠ none then s
      else if t.ready s.pipe then enter id nonblock s
      else if signal then
        { s with threads := s.threads.set id { t with result := some (partly t.done (- ERESTARTSYS)) } }
      else s
  | .ends readers writers => { s with pipe := { s.pipe with readers, writers } }

def run (s : Traffic) (evs : List Event) : Traffic := evs.foldl step s

-- A write of at most PIPE_BUF bytes: nothing of it has been accepted, or all of it, in one
-- piece, and then it has returned its length.
def Whole (accepted : List (Nat × UInt8)) (id : Nat) (data : List UInt8) (t : Thread) : Prop :=
  t.done = 0 ∧ (∀ x ∈ accepted, x.1 ≠ id) ∧ t.result ≠ some (data.length : Int) ∨
    t.result = some (data.length : Int) ∧ ∃ pre post, accepted = pre ++ data.map (fun b => (id, b)) ++ post ∧
      ∀ x ∈ pre ++ post, x.1 ≠ id

def Atomic (accepted : List (Nat × UInt8)) (id : Nat) (t : Thread) : Prop :=
  ∀ data, t.call = .write data → data.length ≤ PIPE_BUF → (∀ k, t.fault k = false) → Whole accepted id data t

structure Stream (s : Traffic) : Prop where
  ok : s.pipe.Ok
  law : s.returned ++ s.pipe.contents = s.accepted.map Prod.snd
  ids : ∀ x ∈ s.accepted, x.1 < s.threads.length
  done : ∀ (id : Nat) (t : Thread) (data : List UInt8), s.threads[id]? = some t → t.call = .write data → t.done ≤ data.length
  atomic : ∀ (id : Nat) (t : Thread), s.threads[id]? = some t → Atomic s.accepted id t

variable {t : Thread}

theorem Atomic.append {accepted more : List (Nat × UInt8)} {id : Nat} (h : Atomic accepted id t)
    (hmore : ∀ x ∈ more, x.1 ≠ id) : Atomic (accepted ++ more) id t := by
  intro data hcall hlen hfault
  rcases h data hcall hlen hfault with ⟨hdone, hnone, hres⟩ | ⟨hres, pre, post, heq, hother⟩
  · refine .inl ⟨hdone, fun x hx => ?_, hres⟩
    rcases mem_append.mp hx with hx | hx
    · exact hnone x hx
    · exact hmore x hx
  refine .inr ⟨hres, pre, post ++ more, by rw [heq, append_assoc], fun x hx => ?_⟩
  rw [← append_assoc] at hx
  rcases mem_append.mp hx with hx | hx
  · exact hother x hx
  · exact hmore x hx

theorem start_stream (buf : Nat → UInt8) (at' : Fin (2 ^ 64)) (readers writers : Nat) :
    Stream (Traffic.start buf at' readers writers) := by
  have hused : (Lib.RingBuf.mk buf at'.val at'.val).used (2 ^ 64) = 0 := by
    unfold Lib.RingBuf.used
    rw [Nat.add_sub_cancel_left, Nat.mod_self]
  refine ⟨⟨at'.isLt, at'.isLt, ?_⟩, ?_, ?_, ?_, ?_⟩
  · show (Lib.RingBuf.mk buf at'.val at'.val).used (2 ^ 64) ≤ _
    rw [hused]
    exact Nat.zero_le _
  · refine eq_nil_of_length_eq_zero ?_
    rw [length_append, length_contents]
    unfold pipeUsed
    exact (Nat.zero_add _).trans hused
  · intro x hx
    cases hx
  · intro id t data ht
    cases ht
  · intro id t ht
    cases ht

variable {s : Traffic}

theorem Stream.set (h : Stream s) {id : Nat} {accepted more : List (Nat × UInt8)} {returned : List UInt8}
    (hlt : id < s.threads.length) (hok : p.Ok) (hlaw : returned ++ p.contents = accepted.map Prod.snd)
    (haccepted : accepted = s.accepted ++ more) (hmore : ∀ x ∈ more, x.1 = id)
    (hdone : ∀ data, t.call = .write data → t.done ≤ data.length)
    (hatomic : Atomic accepted id t) : Stream ⟨p, s.threads.set id t, accepted, returned⟩ := by
  subst haccepted
  refine ⟨hok, hlaw, fun x hx => ?_, fun i t' data hi hc => ?_, fun i t' hi => ?_⟩
  · show x.1 < (s.threads.set id _).length
    rw [length_set]
    rcases mem_append.mp hx with hx | hx
    · exact h.ids x hx
    · rw [hmore x hx]
      exact hlt
  · rcases Lib.getElem?_set_cases hi with ⟨rfl, rfl⟩ | ⟨-, hi⟩
    · exact hdone data hc
    · exact h.done i t' data hi hc
  rcases Lib.getElem?_set_cases hi with ⟨rfl, rfl⟩ | ⟨hne, hi⟩
  · exact hatomic
  · exact (h.atomic i t' hi).append fun x hx => by rw [hmore x hx]; exact Ne.symm hne

theorem vfsWrite_whole (nonblock : Bool) (h : p.Ok) {fault : Nat → Bool} (hfault : ∀ k, fault k = false)
    (hlen : data.length ≤ PIPE_BUF) :
    (vfsWrite fault nonblock data 0 p).1.result ≠ some (data.length : Int) ∧ (vfsWrite fault nonblock data 0 p).2.1 = 0 ∨
      (vfsWrite fault nonblock data 0 p).1.result = some (data.length : Int) ∧
        (vfsWrite fault nonblock data 0 p).2.1 = data.length := by
  rcases vfsWrite_atomic nonblock h hfault hlen with ⟨p', heq⟩ | ⟨-, out, heq, hout⟩
  · rw [heq]
    exact .inr ⟨rfl, rfl⟩
  rw [heq]
  refine .inl ⟨?_, rfl⟩
  cases out with
  | sleep => simp [Out.result]
  | ret r => exact fun hr => hout (congrArg Out.ret (some.inj hr))

theorem vfsWrite_wrote (fault : Nat → Bool) (nonblock : Bool) {done : Nat} (h : p.Ok)
    (hdone : done ≤ data.length) : Wrote data done p (vfsWrite fault nonblock data done p) := by
  unfold vfsWrite
  split
  · exact Wrote.refl h hdone _
  · exact writeLoop_wrote fault nonblock data _ done h hdone

theorem Atomic.enter {accepted : List (Nat × UInt8)} {id : Nat} (h : Atomic accepted id t)
    (hsleeps : t.result = none) (hcall : t.call = .write data) (nonblock : Bool) (hok : p.Ok) :
    Atomic (accepted ++ ((data.drop t.done).take ((vfsWrite t.fault nonblock data t.done p).2.1 - t.done)).map fun b => (id, b))
      id { t with done := (vfsWrite t.fault nonblock data t.done p).2.1
                  result := (vfsWrite t.fault nonblock data t.done p).1.result } := by
  intro data' hc hlen hfault
  obtain rfl : data = data' := Call.write.inj (hcall.symm.trans hc)
  rcases h data hcall hlen hfault with ⟨hzero, hnone, -⟩ | ⟨hres, -⟩
  · rw [hzero]
    rcases vfsWrite_whole nonblock hok hfault hlen with ⟨hres, hd⟩ | ⟨hres, hd⟩
    · refine .inl ⟨hd, fun x hx => ?_, hres⟩
      rw [hd, Nat.sub_self, take_zero, map_nil, append_nil] at hx
      exact hnone x hx
    refine .inr ⟨hres, accepted, [], ?_, fun x hx => ?_⟩
    · rw [hd, Nat.sub_zero, drop_zero, take_length, append_nil]
    · rw [append_nil] at hx
      exact hnone x hx
  · rw [hsleeps] at hres
    cases hres

theorem enter_stream (h : Stream s) (id : Nat) (nonblock : Bool)
    (hsleeps : ∀ t, s.threads[id]? = some t → t.result = none) : Stream (enter id nonblock s) := by
  unfold enter
  split
  · exact h
  rename_i t ht
  have hlt : id < s.threads.length := (List.getElem?_eq_some_iff.mp ht).1
  split
  · rename_i len hcall
    have htook := vfsRead_took t.fault nonblock len h.ok
    have hlaw : s.returned ++ (vfsRead t.fault nonblock len s.pipe).2.1 ++
        (vfsRead t.fault nonblock len s.pipe).2.2.contents = s.accepted.map Prod.snd := by
      rw [append_assoc, ← htook.contents]
      exact h.law
    refine h.set hlt htook.ok hlaw (append_nil _).symm (fun x hx => absurd hx not_mem_nil) ?_ ?_
    · intro data hc
      rw [show t.call = _ from hc] at hcall
      cases hcall
    intro data hc
    rw [show t.call = _ from hc] at hcall
    cases hcall
  rename_i data hcall
  obtain ⟨hge, hle, hput⟩ := vfsWrite_wrote t.fault nonblock h.ok (h.done id t data ht hcall)
  have hlaw : s.returned ++ (vfsWrite t.fault nonblock data t.done s.pipe).2.2.contents = (s.accepted ++
      ((data.drop t.done).take ((vfsWrite t.fault nonblock data t.done s.pipe).2.1 - t.done)).map fun b => (id, b)).map
        Prod.snd := by
    rw [hput.contents, ← List.append_assoc, h.law, List.map_append, List.map_map]
    congr 1
    exact (map_id _).symm
  refine h.set hlt hput.ok hlaw rfl (fun x hx => ?_) ?_ ((h.atomic id t ht).enter (hsleeps t ht) hcall nonblock h.ok)
  · obtain ⟨b, -, rfl⟩ := mem_map.mp hx
    rfl
  intro data' hc
  obtain rfl : data = data' := Call.write.inj (hcall.symm.trans hc)
  exact hle

theorem interrupt_stream (h : Stream s) {id : Nat} (ht : s.threads[id]? = some t) (hnone : t.result = none) :
    Stream { s with threads := s.threads.set id { t with result := some (partly t.done (- ERESTARTSYS)) } } := by
  refine h.set (List.getElem?_eq_some_iff.mp ht).1 h.ok h.law (List.append_nil _).symm
    (fun x hx => absurd hx List.not_mem_nil) (fun data hc => h.done id t data ht hc) fun data hc hlen hfault => ?_
  rcases h.atomic id t ht data hc hlen hfault with ⟨hzero, hother, -⟩ | ⟨hres, -⟩
  · refine .inl ⟨hzero, hother, fun hres => ?_⟩
    have hneg : partly t.done (- ERESTARTSYS) = (data.length : Int) := some.inj hres
    rw [hzero] at hneg
    unfold partly ERESTARTSYS at hneg
    omega
  · rw [hnone] at hres
    cases hres

theorem step_stream (h : Stream s) (ev : Event) : Stream (step s ev) := by
  cases ev with
  | call c fault nonblock =>
    have hcases : ∀ (i : Nat) (t : Thread), (s.threads ++ [⟨c, fault, 0, none⟩])[i]? = some t →
        s.threads[i]? = some t ∨ i = s.threads.length ∧ t = ⟨c, fault, 0, none⟩ := by
      intro i t hi
      rcases Nat.lt_trichotomy i s.threads.length with hlt | rfl | hgt
      · rw [getElem?_append_left hlt] at hi
        exact .inl hi
      · rw [getElem?_concat_length] at hi
        exact .inr ⟨rfl, (some.inj hi).symm⟩
      · rw [getElem?_eq_none (by rw [length_append, length_singleton]; omega)] at hi
        cases hi
    have hgrown : Stream { s with threads := s.threads ++ [⟨c, fault, 0, none⟩] } := by
      refine ⟨h.ok, h.law, fun x hx => ?_, fun i t data hi hc => ?_, fun i t hi => ?_⟩
      · show x.1 < (s.threads ++ [_]).length
        rw [length_append]
        exact Nat.lt_add_right _ (h.ids x hx)
      · rcases hcases i t hi with hi | ⟨-, rfl⟩
        · exact h.done i t data hi hc
        · exact Nat.zero_le _
      rcases hcases i t hi with hi | ⟨rfl, rfl⟩
      · exact h.atomic i t hi
      · intro data _ _ _
        refine .inl ⟨rfl, fun x hx => Nat.ne_of_lt (h.ids x hx), ?_⟩
        intro hres
        cases hres
    refine enter_stream hgrown s.threads.length nonblock fun t ht => ?_
    rcases hcases _ t ht with hi | ⟨-, rfl⟩
    · rw [getElem?_eq_none (Nat.le_refl _)] at hi
      cases hi
    · rfl
  | wake id nonblock signal =>
    unfold step
    dsimp only
    split
    · exact h
    rename_i t ht
    split
    · exact h
    rename_i hsleeps
    have hnone : t.result = none := by simpa using hsleeps
    split
    · refine enter_stream h id nonblock fun t' ht' => ?_
      obtain rfl := some.inj (ht.symm.trans ht')
      exact hnone
    split
    · exact interrupt_stream h ht hnone
    · exact h
  | ends readers writers =>
    refine ⟨h.ok, ?_, h.ids, h.done, h.atomic⟩
    have hlaw := h.law
    unfold Pipe.contents at hlaw ⊢
    exact hlaw

theorem run_stream (evs : List Event) (h : Stream s) : Stream (run s evs) := by
  induction evs generalizing s with
  | nil => exact h
  | cons ev evs ih => exact ih (step_stream h ev)

-- In any interleaving at the places where calls may sleep: what reads have returned and what the ring holds is
-- what writes have put in, and small writes are atomic.
theorem pipe_stream_law (buf : Nat → UInt8) (at' : Fin (2 ^ 64)) (readers writers : Nat) (evs : List Event) :
    let s := run (Traffic.start buf at' readers writers) evs
    s.returned ++ s.pipe.contents = s.accepted.map Prod.snd ∧
    (s.pipe.contents.length = pipeUsed s.pipe ∧ pipeUsed s.pipe ≤ PIPE_SIZE) ∧
    (∀ (id : Nat) (t : Thread), s.threads[id]? = some t → Atomic s.accepted id t) ∧
    ∀ (read : Bool) (data : List UInt8) (fault : Nat → Bool) (nonblock : Bool),
      pipePoll read true s.pipe &&& POLLOUT ≠ 0 → data.length ≤ PIPE_BUF → (∀ k, fault k = false) →
        (vfsWrite fault nonblock data 0 s.pipe).1 ≠ .ret (- EAGAIN) := by
  intro s
  have h := run_stream evs (start_stream buf at' readers writers)
  refine ⟨h.law, ⟨length_contents, h.ok.used_le⟩, h.atomic, ?_⟩
  intro read data fault nonblock hpoll hlen hfault
  have hroom := (pollout_iff read).mp hpoll
  exact vfsWrite_room nonblock h.ok hfault (hlen.trans hroom)

theorem pipe_stream_law_abc :
    let s := run (Traffic.start (fun _ => 0) 0 1 1) [.call (.write [97, 98, 99]) (fun _ => false) false,
      .call (.read 2) (fun _ => false) false, .call (.read 8) (fun _ => false) true]
    s.returned = [97, 98, 99] ∧ s.returned ++ s.pipe.contents = s.accepted.map Prod.snd :=
  ⟨by decide +kernel, (pipe_stream_law (fun _ => 0) 0 1 1 _).1⟩

end Olux.Pipefs
