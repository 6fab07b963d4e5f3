import Olux.Unix.Kmsg
import Olux.Lib.Sum
import Olux.Unix.Pair

namespace Olux.Unix.Pair

open Function List Option

variable {id j done : Nat} {i : Bool} {type : SockType} {call : Call} {s s' : State} {r : Int} {u u' : Usock}
  {m m' : Kmsg} {flags : Flags} {env : Env} {c : Uchunk} {rq : List Uchunk} {bytes : List UInt8} {ret : Option Int}

def unread (u : Usock) : List UInt8 := u.rq.flatMap Uchunk.rest

def bytesOf (log : List (Nat × List UInt8)) : List UInt8 := log.flatMap Prod.snd

def pieces (log : List (Nat × List UInt8)) (id : Nat) : List UInt8 := bytesOf (log.filter fun x => x.1 == id)

theorem bytesOf_concat (log : List (Nat × List UInt8)) (id : Nat) (bytes : List UInt8) :
    bytesOf (log ++ [(id, bytes)]) = bytesOf log ++ bytes := by
  unfold bytesOf
  rw [flatMap_append, flatMap_singleton]

theorem pieces_concat_self (log : List (Nat × List UInt8)) (id : Nat) (bytes : List UInt8) :
    pieces (log ++ [(id, bytes)]) id = pieces log id ++ bytes := by
  unfold pieces
  rw [filter_append, filter_cons_of_pos (p := fun x : Nat × List UInt8 => x.1 == id) (beq_self_eq_true id),
    filter_nil, bytesOf_concat]

theorem pieces_concat_of_ne (log : List (Nat × List UInt8)) (h : j ≠ id) (bytes : List UInt8) :
    pieces (log ++ [(id, bytes)]) j = pieces log j := by
  have hne : ¬ (id == j) = true := fun he => h (beq_iff_eq.mp he).symm
  unfold pieces
  rw [filter_append, filter_cons_of_neg (p := fun x : Nat × List UInt8 => x.1 == j) hne, filter_nil, append_nil]

theorem mem_logged {α : Type} {f : Bool → List α} {k : Bool} {l : List α} {x : α}
    (h : x ∈ Function.update f k (f k ++ l) i) : x ∈ f i ∨ i = k ∧ x ∈ l := by
  by_cases hi : i = k
  · subst hi
    rw [update_self] at h
    exact (mem_append.mp h).imp_right fun hx => ⟨rfl, hx⟩
  · rw [update_of_ne hi] at h
    exact .inl h

theorem pieces_logged {f : Bool → List (Nat × List UInt8)} (h : j ≠ id) (k i : Bool) (bytes : List UInt8) :
    pieces (Function.update f k (f k ++ [(id, bytes)]) i) j = pieces (f i) j := by
  by_cases hi : i = k
  · subst hi
    rw [update_self]
    exact pieces_concat_of_ne _ h _
  · rw [update_of_ne hi]

theorem pieces_of_lt {log : List (Nat × List UInt8)} (h : ∀ x ∈ log, x.1 < id) : pieces log id = [] := by
  unfold pieces
  rw [filter_eq_nil_iff.mpr fun x hx => by simpa using Nat.ne_of_lt (h x hx)]
  rfl

-- One direction: what was queued for side `i` is what its receives have taken, then what its
-- release dropped, then what is in the queue; of a stream byte by byte, else record by record.
structure Direction (type : SockType) (s : State) (i : Bool) : Prop where
  type_eq : (s.sock i).type = type
  off : ∀ c ∈ (s.sock i).rq, c.off ≤ c.len ∧ (type ≠ .stream → c.off = 0)
  count : (s.sock i).rqBytes = (unread (s.sock i)).length
  stream : type = .stream →
    bytesOf (s.queued i) = bytesOf (s.got i) ++ (s.dropped i).flatMap Uchunk.rest ++ unread (s.sock i)
  records : type ≠ .stream → (s.queued i).map Prod.snd =
    (s.removed i).map Prod.snd ++ (s.dropped i).map Uchunk.data ++ (s.sock i).rq.map Uchunk.data
  kept : (s.sock i).state ≠ .closed → s.dropped i = []
  flushed : (s.sock i).state = .closed → (s.sock i).rq = []
  linked : s.linked = true → (s.sock i).state ≠ .closed

-- A call: a send has queued the first `done` bytes of its buffers and a receive has copied as
-- many into its own; in the end that is the result.
structure CallOk (type : SockType) (queued got : Bool → List (Nat × List UInt8)) (id : Nat) (call : Call) : Prop where
  len : call.m.len = call.m.iov.flatten.length
  le : call.done ≤ call.m.len
  sent : call.kind = .send → pieces (queued (!call.side)) id = call.m.iov.flatten.take call.done
  got : call.kind = .recv → call.flags.peek = false → pieces (got call.side) id = call.m.iov.flatten.take call.done
  once : call.result = none → type ≠ .stream → call.done = 0
  peek : call.result = none → call.kind = .recv → call.flags.peek = true → call.done = 0
  trunc : call.result = none → call.m.trunc = false
  accepted : ∀ r, call.result = some r → call.kind = .send → (0 ≤ r → r = call.done) ∧ (r < 0 → call.done = 0)
  returned : ∀ r, call.result = some r → call.kind = .recv → type = .stream → 0 ≤ r → r = call.done

def Returned (s : State) (i : Bool) (id : Nat) (r : List UInt8) : Prop :=
  ∃ call, s.calls[id]? = some call ∧ call.side = i ∧ call.kind = .recv ∧ call.flags.peek = false ∧
    call.result = some (if call.flags.trunc then (r.length : Int) else ((min r.length call.m.len : Nat) : Int)) ∧
    call.m.trunc = decide (call.m.len < r.length) ∧ call.done = min r.length call.m.len ∧
    call.m.iov.flatten.take call.done = r.take call.m.len

structure Logs (s : State) : Prop where
  queued : ∀ i, ∀ x ∈ s.queued i, x.1 < s.calls.length
  got : ∀ i, ∀ x ∈ s.got i, x.1 < s.calls.length
  removed : ∀ i id r, (id, r) ∈ s.removed i → Returned s i id r
  nodup : ∀ i, ((s.removed i).map Prod.fst).Nodup

structure Sound (type : SockType) (s : State) : Prop where
  direction : ∀ i, Direction type s i
  call : ∀ id call, s.calls[id]? = some call → CallOk type s.queued s.got id call
  logs : Logs s

theorem start_sound (type : SockType) (addr : Bool → List UInt8) (sndbuf rcvbuf : Bool → Nat) :
    Sound type (start type addr sndbuf rcvbuf) := by
  refine ⟨fun i => ⟨rfl, fun c hc => ?_, rfl, fun _ => rfl, fun _ => rfl, fun _ => rfl, fun _ => rfl, fun _ => nofun⟩,
    fun id call hcall => ?_, ⟨fun i x hx => ?_, fun i x hx => ?_, fun i id r hr => ?_, fun i => nodup_nil⟩⟩
  · exact absurd hc not_mem_nil
  · cases hcall
  · exact absurd hx not_mem_nil
  · exact absurd hx not_mem_nil
  · exact absurd hr not_mem_nil

theorem calls_set {calls : List Call} {queued got queued' got' : Bool → List (Nat × List UInt8)}
    (h : ∀ j c, calls[j]? = some c → CallOk type queued got j c)
    (hqueued : ∀ i j, j ≠ id → pieces (queued' i) j = pieces (queued i) j)
    (hgot : ∀ i j, j ≠ id → pieces (got' i) j = pieces (got i) j) (hnew : CallOk type queued' got' id call) :
    ∀ j c, (calls.set id call)[j]? = some c → CallOk type queued' got' j c := by
  intro j c hc
  rcases Lib.getElem?_set_cases hc with ⟨rfl, rfl⟩ | ⟨hj, hc⟩
  · exact hnew
  have hok := h j c hc
  refine ⟨hok.len, hok.le, fun hk => ?_, fun hk hp => ?_, hok.once, hok.peek, hok.trunc, hok.accepted, hok.returned⟩
  · rw [hqueued _ j hj]
    exact hok.sent hk
  · rw [hgot _ j hj]
    exact hok.got hk hp

-- A call that has taken a record has returned, so that a call in progress is another, and does
-- not change it.
theorem Returned.ne {r : List UInt8} (h : Returned s i j r) (hcall : s.calls[id]? = some call)
    (hres : call.result = none) : j ≠ id := by
  rintro rfl
  obtain ⟨c, hc, -, -, -, hret, -⟩ := h
  obtain rfl := some.inj (hc.symm.trans hcall)
  exact nomatch hres.symm.trans hret

theorem Returned.set {call' : Call} {r : List UInt8} (h : Returned s i j r) (hcall : s.calls[id]? = some call)
    (hres : call.result = none) (hcalls : s'.calls = s.calls.set id call') :
    Returned s' i j r := by
  have hne := h.ne hcall hres
  obtain ⟨c, hc, hrest⟩ := h
  refine ⟨c, ?_, hrest⟩
  rw [hcalls, getElem?_set_ne (Ne.symm hne)]
  exact hc

theorem finish_sound (h : Sound type s) (hcall : s.calls[id]? = some call) (hres : call.result = none)
    (haccepted : call.kind = .send → (0 ≤ r → r = call.done) ∧ (r < 0 → call.done = 0))
    (hreturned : call.kind = .recv → type = .stream → 0 ≤ r → r = call.done) : Sound type (finish s id call r) := by
  have hok := h.call id call hcall
  refine ⟨fun i => ?_, calls_set h.call (fun _ _ _ => rfl) (fun _ _ _ => rfl) ?_, ⟨fun i x hx => ?_, fun i x hx => ?_,
    fun i j r' hr => ?_, h.logs.nodup⟩⟩
  · have hd := h.direction i
    exact ⟨hd.type_eq, hd.off, hd.count, hd.stream, hd.records, hd.kept, hd.flushed, hd.linked⟩
  · refine ⟨hok.len, hok.le, hok.sent, hok.got, nofun, nofun, nofun, fun r' hr' hk => ?_, fun r' hr' hk => ?_⟩
    · obtain rfl := some.inj hr'
      exact haccepted hk
    · obtain rfl := some.inj hr'
      exact hreturned hk
  · exact (length_set ..).symm ▸ h.logs.queued i x hx
  · exact (length_set ..).symm ▸ h.logs.got i x hx
  · exact (h.logs.removed i j r' hr).set hcall hres rfl

theorem begin_sound (h : Sound type s) (side : Bool) (kind : Kind) (iov : List (List UInt8)) (fds : List Nat)
    (flags : Flags) {early : Option Int} (hearly : ∀ r, early = some r → r < 0) :
    Sound type { s with calls := s.calls ++ [⟨side, kind, message iov fds, flags, 0, early⟩] } := by
  have hlt : s.calls.length < (s.calls ++ [(⟨side, kind, message iov fds, flags, 0, early⟩ : Call)]).length := by
    rw [length_append, length_singleton]
    exact Nat.lt_succ_self _
  refine ⟨fun i => ?_, fun id c hc => ?_, ⟨fun i x hx => ?_, fun i x hx => ?_, fun i j r hr => ?_, h.logs.nodup⟩⟩
  · have hd := h.direction i
    exact ⟨hd.type_eq, hd.off, hd.count, hd.stream, hd.records, hd.kept, hd.flushed, hd.linked⟩
  · dsimp only at hc
    rcases Nat.lt_trichotomy id s.calls.length with hid | rfl | hid
    · rw [getElem?_append_left hid] at hc
      exact h.call id c hc
    · rw [getElem?_concat_length] at hc
      obtain rfl := some.inj hc
      refine ⟨rfl, Nat.zero_le _, fun _ => ?_, fun _ _ => ?_, fun _ _ => rfl, fun _ _ _ => rfl, fun _ => rfl,
        fun r hr _ => ?_, fun r hr _ _ hr' => ?_⟩
      · exact pieces_of_lt (h.logs.queued _)
      · exact pieces_of_lt (h.logs.got _)
      · have hneg := hearly r hr
        exact ⟨fun hr' => absurd hr' (Int.not_le.mpr hneg), fun _ => rfl⟩
      · exact absurd hr' (Int.not_le.mpr (hearly r hr))
    · rw [getElem?_eq_none (by rw [length_append, length_singleton]; omega)] at hc
      cases hc
  · exact Nat.lt_trans (h.logs.queued i x hx) hlt
  · exact Nat.lt_trans (h.logs.got i x hx) hlt
  · obtain ⟨c, hc, hrest⟩ := h.logs.removed i j r hr
    exact ⟨c, by rw [List.getElem?_append_left (List.getElem?_eq_some_iff.mp hc).1]; exact hc, hrest⟩

end Olux.Unix.Pair
