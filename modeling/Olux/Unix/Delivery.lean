import Olux.Unix.Pair.Receive

namespace Olux.Unix.Pair

open Function List Option

variable {id j done : Nat} {i : Bool} {type : SockType} {call : Call} {s s' : State} {r : Int} {u u' : Usock}
  {m m' : Kmsg} {flags : Flags} {env : Env} {c : Uchunk} {rq : List Uchunk} {bytes : List UInt8} {ret : Option Int}

theorem shutdown_sound (h : Sound type s) (i : Bool) (how : Nat) : Sound type (shutdown s i how) := by
  unfold shutdown
  dsimp only
  split
  · exact h
  refine ⟨fun j => (h.direction j).same ?_ rfl rfl rfl rfl fun hl => hl, h.call, ⟨h.logs.queued, h.logs.got,
    h.logs.removed, h.logs.nodup⟩⟩
  dsimp only
  by_cases hj : j = i
  · subst hj
    rw [update_self]
    exact ⟨rfl, rfl, rfl, rfl⟩
  · rw [update_of_ne hj]
    exact ⟨rfl, rfl, rfl, rfl⟩

theorem release_sound (h : Sound type s) (hopen : (s.sock i).state ≠ .closed) : Sound type (release s i) := by
  refine ⟨fun j => ?_, h.call, ⟨h.logs.queued, h.logs.got, h.logs.removed, h.logs.nodup⟩⟩
  by_cases hj : j = i
  · subst hj
    have hd := h.direction j
    have hkept := hd.kept hopen
    have hsock : (release s j).sock j = { (flushRq (s.sock j)).1 with state := .closed } := update_self _ _ _
    have hdropped : (release s j).dropped j = (s.sock j).rq := update_self _ _ _
    refine ⟨?_, fun c hc => ?_, ?_, fun ht => ?_, fun ht => ?_, fun hcl => ?_, fun _ => ?_, fun hl => (nomatch hl)⟩
    · rw [hsock]
      exact hd.type_eq
    · rw [hsock] at hc
      exact absurd hc not_mem_nil
    · rw [hsock]
      rfl
    · rw [hdropped, hsock]
      refine (hd.stream ht).trans ?_
      rw [hkept, flatMap_nil, append_nil]
      exact (append_nil _).symm
    · rw [hdropped, hsock]
      refine (hd.records ht).trans ?_
      rw [hkept, map_nil, append_nil]
      exact (append_nil _).symm
    · rw [hsock] at hcl
      exact absurd rfl hcl
    · rw [hsock]
      rfl
  obtain rfl : j = !i := Bool.eq_not.mpr hj
  have hsock : (release s i).sock (!i) =
      if s.linked ∧ (s.sock (!i)).type ≠ .dgram then { s.sock (!i) with peerGone := true } else s.sock (!i) :=
    (update_of_ne hj _ _).trans (update_self _ _ _)
  refine (h.direction (!i)).same ?_ rfl rfl rfl (update_of_ne hj _ _) fun hl => nomatch hl
  rw [hsock]
  split <;> exact ⟨rfl, rfl, rfl, rfl⟩

theorem step_sound (h : Sound type s) (ev : Event) : Sound type (step s ev) := by
  cases ev with
  | send side iov fds flags =>
    dsimp only [step]
    split
    · exact h
    · exact begin_sound h side .send iov fds flags fun r hr => sendEarly_neg hr
  | recv side iov flags =>
    dsimp only [step]
    split
    · exact h
    refine begin_sound h side .recv iov [] flags fun r hr => ?_
    split at hr
    · cases hr
      decide
    · cases hr
  | turn id nonblock wait alloc creds =>
    dsimp only [step]
    split
    · exact h
    rename_i call hcall
    split
    · exact h
    rename_i hres
    have hnone : call.result = none := not_isSome_iff_eq_none.mp hres
    split
    · rename_i hkind
      exact sendStep_sound h hcall hnone hkind
    · rename_i hkind
      exact recvStep_sound h hcall hnone hkind
  | shutdown side how =>
    dsimp only [step]
    split
    · exact h
    · exact shutdown_sound h side how
  | close side =>
  dsimp only [step]
  split
  · exact h
  · rename_i hguard
    exact release_sound h fun hc => hguard (.inl (beq_iff_eq.mpr hc))

theorem run_sound (type : SockType) (addr : Bool → List UInt8) (sndbuf rcvbuf : Bool → Nat) (evs : List Event) :
    Sound type (run (start type addr sndbuf rcvbuf) evs) :=
  List.foldlRecOn evs step (start_sound type addr sndbuf rcvbuf) fun _ h ev _ => step_sound h ev

theorem peek_prefix (h : Sound type s) {call' : Call} (hcall : s.calls[id]? = some call) (hres : call.result = none)
    (hkind : call.kind = .recv) (hpeek : call.flags.peek = true)
    (hcall' : (recvStep s id call env).calls[id]? = some call') :
    (recvStep s id call env).sock = s.sock ∧ (recvStep s id call env).got = s.got ∧
      (recvStep s id call env).removed = s.removed ∧
      call'.m.iov.flatten.take call'.done <+: unread (s.sock call.side) := by
  have hok := h.call id call hcall
  have hlt := (List.getElem?_eq_some_iff.mp hcall).1
  have hzero := hok.peek hres hkind hpeek
  have hnil : ∀ {l : List UInt8}, l.take call.done <+: unread (s.sock call.side) := by
    intro l
    rw [hzero, take_zero]
    exact nil_prefix
  unfold recvStep at hcall' ⊢
  dsimp only at hcall' ⊢
  split at hcall'
  · dsimp only [finish] at hcall' ⊢
    rw [getElem?_set_self hlt] at hcall'
    obtain rfl := some.inj hcall'
    exact ⟨rfl, rfl, rfl, hnil⟩
  · obtain rfl := some.inj (hcall.symm.trans hcall')
    exact ⟨rfl, rfl, rfl, hnil⟩
  rename_i m u' bytes ret hturn
  rw [if_pos hpeek] at hcall' ⊢
  obtain ⟨c, rq, hrq, ht⟩ := recvTurn_taken hturn
  dsimp only at hcall' ⊢
  rw [getElem?_set_self hlt] at hcall'
  obtain rfl := some.inj hcall'
  refine ⟨?_, rfl, rfl, ?_⟩
  · rw [(ht.peeked hpeek).1, update_eq_self]
  have hlen := ht.length
  have hfit : 0 + bytes.length ≤ call.m.iov.flatten.length := by
    rw [← hok.len]
    omega
  show m.iov.flatten.take (call.done + bytes.length) <+: _
  rw [hzero, ht.iov, hzero, kmsgCopyTo_take hfit, take_zero, nil_append, ht.copied]
  unfold unread
  rw [hrq, flatMap_cons]
  exact ( take_prefix _ _).trans (prefix_append _ _)

-- What ends a receive from an empty queue: either side has shut the direction down, or the peer is gone.
def AtEof (s : State) (i : Bool) : Prop :=
  (s.sock i).shutRd = true ∨ (s.sock i).peerGone = true ∨ (∃ u, peer s i = some u ∧ u.shutWr = true) ∨
    ((s.sock i).type = .stream ∧ (s.sock i).state ≠ .connected ∧ (s.sock i).state ≠ .unconnected)

-- What a turn of a receive makes of it. It takes or, with MSG_PEEK, copies the first record whole or as much of it as
-- the buffers hold, or the next bytes; from an empty queue it gets nothing.
structure Turned (type : SockType) (s s' : State) (id : Nat) (call call' : Call) : Prop where
  record : type ≠ .stream → ∀ c rq, (s.sock call.side).rq = c :: rq →
    call'.result = some (if call.flags.trunc then (c.data.length : Int) else (call'.done : Int)) ∧
      call'.m.trunc = decide (call.m.len < c.data.length) ∧ call'.done = min c.data.length call.m.len ∧
      call'.m.iov.flatten.take call'.done = c.data.take call.m.len ∧
      (call.flags.peek = false → (s'.sock call.side).rq = rq ∧
        s'.removed call.side = s.removed call.side ++ [(id, c.data)])
  stream : type = .stream → ∀ c rq, (s.sock call.side).rq = c :: rq → call.done = 0 ∨ c.fds = [] →
    call'.done = call.done + min (c.len - c.off) (call.m.len - call.done) ∧
      call'.m.iov.flatten.take call'.done =
        call.m.iov.flatten.take call.done ++ c.rest.take (min (c.len - c.off) (call.m.len - call.done)) ∧
      (∀ r, call'.result = some r → r = call'.done) ∧ (call.flags.peek = true → call'.result ≠ none)
  empty : (s.sock call.side).rq = [] → call'.done = call.done ∧
    ∀ r, call'.result = some r → 0 ≤ r → r = call.done ∧ (call.done = 0 → AtEof s call.side)

theorem recvEmpty_cases (s : State) (i : Bool) (flags : Flags) (done : Nat) (env : Env) :
    recvEmpty (s.sock i) (peer s i) flags done env = .again ∨
      ∃ r, recvEmpty (s.sock i) (peer s i) flags done env = .ret r ∧
        (0 ≤ r → r = done ∧ (done = 0 → AtEof s i)) := by
  unfold recvEmpty
  dsimp only
  split
  · rename_i h
    exact .inr ⟨_, rfl, fun _ => ⟨rfl, fun hz => absurd hz h.1⟩⟩
  split
  · rename_i heof
    refine .inr ⟨_, rfl, fun _ => ⟨rfl, fun _ => ?_⟩⟩
    simp only [Bool.or_eq_true, Bool.and_eq_true, beq_iff_eq, bne_iff_ne] at heof
    rcases heof with ((hshut | hgone) | hpeer) | ⟨⟨hstream, hconn⟩, hun⟩
    · exact .inl hshut
    · exact .inr (.inl hgone)
    · obtain ⟨u, hu, hshut⟩ : ∃ u, peer s i = some u ∧ u.shutWr = true := by
        simpa [Option.getD_eq_iff] using hpeer
      exact .inr (.inr (.inl ⟨u, hu, hshut⟩))
    · exact .inr (.inr (.inr ⟨hstream, hconn, hun⟩))
  split
  · exact .inr ⟨_, rfl, fun h => absurd h (by decide)⟩
  split
  · rename_i h
    exact .inr ⟨_, rfl, fun _ => ⟨rfl, fun hz => absurd hz h.1⟩⟩
  split
  · rename_i hwait
    refine .inr ⟨_, rfl, fun hpos => ⟨partly_nonneg (neg_wait hwait) hpos, fun hz => ?_⟩⟩
    rw [hz] at hpos
    exact absurd hpos (Int.not_le.mpr (neg_wait hwait))
  · exact .inl rfl

theorem recvStep_turned (h : Sound type s) (hcall : s.calls[id]? = some call) (hres : call.result = none)
    (hfault : env.fault = false) :
    ∃ call', (recvStep s id call env).calls[id]? = some call' ∧ Turned type s (recvStep s id call env) id call call' := by
  have hlt := (List.getElem?_eq_some_iff.mp hcall).1
  have htype := (h.direction call.side).type_eq
  have hok := h.call id call hcall
  cases hrq : (s.sock call.side).rq with
  | nil =>
    have hturn : recvTurn (s.sock call.side) (peer s call.side) call.m call.flags call.done env =
        recvEmpty (s.sock call.side) (peer s call.side) call.flags call.done env := by
      unfold recvTurn
      rw [hrq]
    unfold recvStep
    dsimp only
    rw [hturn]
    rcases recvEmpty_cases s call.side call.flags call.done env with hagain | ⟨r, hret, hr⟩
    · rw [hagain]
      refine ⟨call, hcall, fun _ c rq he => ?_, fun _ c rq he => ?_, fun _ => ⟨rfl, fun r hr => ?_⟩⟩
      · exact nomatch hrq.symm.trans he
      · exact nomatch hrq.symm.trans he
      · exact nomatch hres.symm.trans hr
    rw [hret]
    refine ⟨{ call with result := some r }, getElem?_set_self hlt, fun _ c rq he => ?_, fun _ c rq he => ?_,
      fun _ => ⟨rfl, fun r' hr' hpos => ?_⟩⟩
    · exact nomatch hrq.symm.trans he
    · exact nomatch hrq.symm.trans he
    · cases hr'
      exact hr hpos
  | cons c rq =>
  by_cases hfds : (s.sock call.side).type = .stream ∧ call.done ≠ 0 ∧ c.fds ≠ []
  · refine ⟨{ call with result := some (call.done : Int) }, ?_, fun hne => ?_, fun _ c' rq' he hgo => ?_, fun he => ?_⟩
    · unfold recvStep recvTurn
      dsimp only
      rw [hrq]
      dsimp only
      rw [if_pos hfds]
      exact getElem?_set_self hlt
    · exact absurd (htype.symm.trans hfds.1) hne
    · cases hrq.symm.trans he
      exact (hgo.elim hfds.2.1 hfds.2.2).elim
    · exact nomatch hrq.symm.trans he
  obtain ⟨m', u', bytes, ret, hturn⟩ : ∃ m' u' bytes ret, recvTurn (s.sock call.side) (peer s call.side) call.m
      call.flags call.done env = .took m' u' bytes ret := recvTurn_takes hrq hfault hfds
  obtain ⟨c₀, rq₀, hrq₀, ht⟩ := recvTurn_taken hturn
  cases hrq.symm.trans hrq₀
  have hlen := ht.length
  have hfit : call.done + bytes.length ≤ call.m.iov.flatten.length := by
    rw [← hok.len]
    have := hok.le
    omega
  refine ⟨{ call with m := m', done := call.done + bytes.length, result := ret }, ?_, fun hne c₁ rq₁ he => ?_,
    fun hs c₁ rq₁ he _ => ?_, fun he => ?_⟩
  · unfold recvStep
    dsimp only
    rw [hturn]
    dsimp only
    split <;> exact getElem?_set_self hlt
  · cases hrq.symm.trans he
    have hne' : (s.sock call.side).type ≠ .stream := fun hs => hne (htype.symm.trans hs)
    obtain ⟨hret, htrunc, hdone, htake⟩ := ht.whole h hcall hres hne' hrq
    rw [ht.len] at hret htrunc hdone htake
    refine ⟨?_, htrunc, hdone, htake, fun hpeek => ?_⟩
    · rw [hret, hdone]
    unfold recvStep
    dsimp only
    rw [hturn, hpeek]
    dsimp only
    rw [if_neg (by decide)]
    dsimp only
    rw [update_self, update_self, ht.record hpeek hne', record, if_neg hne', hrq]
    exact ⟨rfl, rfl⟩
  · cases hrq.symm.trans he
    have hs' := htype.trans hs
    refine ⟨congrArg (call.done + ·) hlen, ?_, fun r hr => ?_, fun hpeek => (ht.peeked hpeek).2⟩
    · show m'.iov.flatten.take (call.done + bytes.length) = _
      rw [ht.iov, kmsgCopyTo_take hfit, ht.copied]
    · rw [ht.retStream hs' r hr, ← hlen]
  · exact nomatch hrq.symm.trans he

-- In every run, what a direction has queued is what its receives have taken, in order, what the release dropped
-- and what is unread; a turn of a receive that finds something gets it, a peek changes nothing, and rq_bytes counts
-- what is unread.
theorem pair_delivers (type : SockType) (addr : Bool → List UInt8) (sndbuf rcvbuf : Bool → Nat) (evs : List Event) :
    let s := run (start type addr sndbuf rcvbuf) evs
    (∀ i, type = .stream →
        bytesOf (s.queued i) = bytesOf (s.got i) ++ (s.dropped i).flatMap Uchunk.rest ++ unread (s.sock i)) ∧
      (∀ i, type ≠ .stream → (s.queued i).map Prod.snd =
            (s.removed i).map Prod.snd ++ (s.dropped i).map Uchunk.data ++ (s.sock i).rq.map Uchunk.data ∧
          ((s.removed i).map Prod.fst).Nodup ∧ ∀ id r, (id, r) ∈ s.removed i → Returned s i id r) ∧
      (∀ i, (s.sock i).state ≠ .closed → s.dropped i = []) ∧
      (∀ id call, s.calls[id]? = some call → call.kind = .send →
        pieces (s.queued (!call.side)) id = call.m.iov.flatten.take call.done ∧
          ∀ r, call.result = some r → (0 ≤ r → r = call.done) ∧ (r < 0 → call.done = 0)) ∧
      (∀ id call, s.calls[id]? = some call → call.kind = .recv → call.flags.peek = false →
        pieces (s.got call.side) id = call.m.iov.flatten.take call.done ∧
          ∀ r, call.result = some r → type = .stream → 0 ≤ r → r = call.done) ∧
      (∀ id call env, s.calls[id]? = some call → call.result = none → call.kind = .recv → env.fault = false →
        ∃ call', (recvStep s id call env).calls[id]? = some call' ∧
          Turned type s (recvStep s id call env) id call call') ∧
      (∀ id call env call', s.calls[id]? = some call → call.result = none → call.kind = .recv →
        call.flags.peek = true → (recvStep s id call env).calls[id]? = some call' →
        (recvStep s id call env).sock = s.sock ∧ (recvStep s id call env).got = s.got ∧
          (recvStep s id call env).removed = s.removed ∧
          call'.m.iov.flatten.take call'.done <+: unread (s.sock call.side)) ∧
      ∀ i, (s.sock i).rqBytes = (unread (s.sock i)).length := by
  intro s
  have h : Sound type s := run_sound type addr sndbuf rcvbuf evs
  refine ⟨fun i => (h.direction i).stream, fun i hne => ⟨(h.direction i).records hne, h.logs.nodup i, h.logs.removed i⟩,
    fun i => (h.direction i).kept, fun id call hcall hk => ?_, fun id call hcall hk hp => ?_,
    fun id call env hcall hres _ => recvStep_turned h hcall hres, fun id call env call' => peek_prefix h, fun i => (h.direction i).count⟩
  · exact ⟨(h.call id call hcall).sent hk, fun r hr => (h.call id call hcall).accepted r hr hk⟩
  · exact ⟨(h.call id call hcall).got hk hp, fun r hr => (h.call id call hcall).returned r hr hk⟩

end Olux.Unix.Pair
