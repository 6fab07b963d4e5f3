import Olux.Unix.Pair.Send

namespace Olux.Unix.Pair

open Function List Option

variable {id j done : Nat} {i : Bool} {type : SockType} {call : Call} {s s' : State} {r : Int} {u u' : Usock}
  {m m' : Kmsg} {flags : Flags} {env : Env} {c : Uchunk} {rq : List Uchunk} {bytes : List UInt8} {ret : Option Int}

structure Taken (u : Usock) (m : Kmsg) (flags : Flags) (done : Nat) (c : Uchunk) (rq : List Uchunk) (m' : Kmsg)
    (u' : Usock) (bytes : List UInt8) (ret : Option Int) : Prop where
  copied : bytes = c.rest.take (min (c.len - c.off) (m.len - done))
  iov : m'.iov = kmsgCopyTo done bytes m.iov
  len : m'.len = m.len
  peeked : flags.peek = true → u' = u ∧ ret ≠ none
  stream : flags.peek = false → u.type = .stream →
    ∃ c', c'.data = c.data ∧ c'.off = c.off + min (c.len - c.off) (m.len - done) ∧ u' = { u with
        rq := if c'.off = c.len then rq else c' :: rq
        rqBytes := u.rqBytes - (min (c.len - c.off) (m.len - done) : Nat) }
  record : flags.peek = false → u.type ≠ .stream → u' = { u with rq, rqBytes := u.rqBytes - c.len }
  quiet : u.type = .stream → m'.trunc = m.trunc
  cut : u.type ≠ .stream → m'.trunc = (m.trunc || decide (m.len - done < c.len - c.off))
  retStream : u.type = .stream → ∀ r, ret = some r → r = (done + min (c.len - c.off) (m.len - done) : Nat)
  retRecord : u.type ≠ .stream → ret = some (if flags.trunc then (c.len : Int)
    else ((done + min (c.len - c.off) (m.len - done) : Nat) : Int))

theorem receive_iov (m : Kmsg) (u : Usock) (c : Uchunk) (flags : Flags) (done n : Nat) :
    (m.receive u c flags done n).iov = kmsgCopyTo done (c.rest.take n) m.iov ∧
      (m.receive u c flags done n).len = m.len ∧ (m.receive u c flags done n).trunc = m.trunc := by
  unfold Kmsg.receive
  dsimp only
  repeat' split
  all_goals exact ⟨rfl, rfl, rfl⟩

theorem takeBytes_taken (htype : u.type = .stream)
    (h : takeBytes u m c rq flags done (min (c.len - c.off) (m.len - done)) = .took m' u' bytes ret) :
    Taken u m flags done c rq m' u' bytes ret := by
  have hiov := receive_iov m u c flags done (min (c.len - c.off) (m.len - done))
  have hret : ∀ {r : Int}, (if done + min (c.len - c.off) (m.len - done) = m.len ∨ flags.peek = true then
      some ((done + min (c.len - c.off) (m.len - done) : Nat) : Int) else none) = some r →
      r = (done + min (c.len - c.off) (m.len - done) : Nat) := by
    intro r hr
    split at hr
    · exact (some.inj hr).symm
    · cases hr
  unfold takeBytes at h
  dsimp only at h
  split at h
  · rename_i hpeek
    cases h
    refine ⟨rfl, hiov.1, hiov.2.1, fun _ => ⟨rfl, ?_⟩, fun hp => ?_, fun hp => ?_, fun _ => hiov.2.2,
      fun ht => absurd htype ht, fun _ r hr => hret hr, fun ht => absurd htype ht⟩
    · rw [if_pos (.inr hpeek)]
      exact nofun
    · exact nomatch hp.symm.trans hpeek
    · exact nomatch hp.symm.trans hpeek
  rename_i hpeek
  cases h
  refine ⟨rfl, hiov.1, hiov.2.1, fun hp => absurd hp hpeek, fun _ _ =>
    ⟨{ c with off := c.off + min (c.len - c.off) (m.len - done), fds := [] }, rfl, rfl, rfl⟩,
    fun _ ht => absurd htype ht, fun _ => hiov.2.2, fun ht => absurd htype ht, fun _ r hr => hret hr,
    fun ht => absurd htype ht⟩

theorem takeRecord_taken (htype : u.type ≠ .stream)
    (h : takeRecord u m c rq flags done (min (c.len - c.off) (m.len - done)) = .took m' u' bytes ret) :
    Taken u m flags done c rq m' u' bytes ret := by
  have hiov := receive_iov m u c flags done (min (c.len - c.off) (m.len - done))
  have hcut : ∀ {m1 : Kmsg}, (if min (c.len - c.off) (m.len - done) < c.len - c.off then { m1 with trunc := true }
      else m1).iov = m1.iov ∧ (if min (c.len - c.off) (m.len - done) < c.len - c.off then { m1 with trunc := true }
      else m1).len = m1.len ∧ (if min (c.len - c.off) (m.len - done) < c.len - c.off then { m1 with trunc := true }
      else m1).trunc = (m1.trunc || decide (m.len - done < c.len - c.off)) := by
    intro m1
    split
    · rename_i hlt
      refine ⟨rfl, rfl, ?_⟩
      rw [decide_eq_true (by omega), Bool.or_true]
    rename_i hlt
    refine ⟨rfl, rfl, ?_⟩
    rw [decide_eq_false (by omega), Bool.or_false]
  unfold takeRecord at h
  dsimp only at h
  split at h
  · rename_i hpeek
    cases h
    exact ⟨rfl, hcut.1.trans hiov.1, hcut.2.1.trans hiov.2.1, fun _ => ⟨rfl, nofun⟩,
      fun hp => (nomatch hp.symm.trans hpeek), fun hp => (nomatch hp.symm.trans hpeek), fun ht => absurd ht htype,
      fun _ => hcut.2.2.trans (by rw [hiov.2.2]), fun ht => absurd ht htype, fun _ => rfl⟩
  rename_i hpeek
  cases h
  exact ⟨rfl, hcut.1.trans hiov.1, hcut.2.1.trans hiov.2.1, fun hp => absurd hp hpeek,
    fun _ ht => absurd ht htype, fun _ _ => rfl, fun ht => absurd ht htype,
    fun _ => hcut.2.2.trans (by rw [hiov.2.2]), fun ht => absurd ht htype, fun _ => rfl⟩

theorem recvTurn_taken {peer : Option Usock} (h : recvTurn u peer m flags done env = .took m' u' bytes ret) :
    ∃ c rq, u.rq = c :: rq ∧ Taken u m flags done c rq m' u' bytes ret := by
  unfold recvTurn at h
  split at h
  · unfold recvEmpty at h
    dsimp only at h
    repeat' split at h
    all_goals cases h
  rename_i c rq hrq
  refine ⟨c, rq, hrq, ?_⟩
  split at h
  · cases h
  dsimp only at h
  split at h
  · cases h
  split at h
  · rename_i htype
    exact takeBytes_taken htype h
  · rename_i htype
    exact takeRecord_taken htype h

-- A turn that finds a chunk takes from it, unless descriptors keep a stream's receive from going on.
theorem recvTurn_takes {peer : Option Usock} (hrq : u.rq = c :: rq) (hfault : env.fault = false)
    (hfds : ¬ (u.type = .stream ∧ done ≠ 0 ∧ c.fds ≠ [])) :
    ∃ m' u' bytes ret, recvTurn u peer m flags done env = .took m' u' bytes ret := by
  unfold recvTurn
  rw [hrq]
  dsimp only
  rw [if_neg hfds, hfault, if_neg (by decide)]
  split
  · unfold takeBytes
    dsimp only
    split <;> exact ⟨_, _, _, _, rfl⟩
  · unfold takeRecord
    dsimp only
    split <;> exact ⟨_, _, _, _, rfl⟩

theorem partly_nonneg (h : r < 0) (hpos : 0 ≤ partly done r) : partly done r = done :=
  (partly_cases h).1 hpos

theorem recvTurn_ret {peer : Option Usock} (h : recvTurn u peer m flags done env = .ret r)
    (hpos : 0 ≤ r) : r = done := by
  unfold recvTurn at h
  split at h
  · unfold recvEmpty at h
    dsimp only at h
    split at h
    · exact (Receiving.ret.inj h).symm
    split at h
    · exact (Receiving.ret.inj h).symm
    split at h
    · cases h
      exact absurd hpos (by decide)
    split at h
    · exact (Receiving.ret.inj h).symm
    · split at h
      · rename_i hwait
        cases h
        exact partly_nonneg (neg_wait hwait) hpos
      · cases h
  split at h
  · exact (Receiving.ret.inj h).symm
  dsimp only at h
  split at h
  · cases h
    exact partly_nonneg (by decide) hpos
  split at h
  · unfold takeBytes at h
    dsimp only at h
    split at h <;> cases h
  unfold takeRecord at h
  dsimp only at h
  split at h <;> cases h

theorem Uchunk.length_rest (c : Uchunk) : c.rest.length = c.len - c.off := length_drop ..

theorem Taken.length (h : Taken u m flags done c rq m' u' bytes ret) :
    bytes.length = min (c.len - c.off) (m.len - done) := by
  rw [h.copied, length_take, Uchunk.length_rest]
  omega

theorem unread_advance {c' : Uchunk} {n : Nat} (hrq : u.rq = c :: rq) (hdata : c'.data = c.data)
    (hoff : c'.off = c.off + n) {k : Int} :
    c.rest.take n ++ unread { u with rq := if c'.off = c.len then rq else c' :: rq, rqBytes := k } = unread u := by
  have hsplit : c.rest = c.rest.take n ++ c'.rest := by
    unfold Uchunk.rest
    rw [hdata, hoff, ← drop_drop, take_append_drop]
  unfold unread
  rw [hrq, flatMap_cons]
  dsimp only
  split
  · rename_i hend
    have hnil : c'.rest = [] := by
      unfold Uchunk.rest
      rw [hdata, hend]
      exact drop_length ..
    rw [hnil, append_nil] at hsplit
    rw [← hsplit]
  · rw [flatMap_cons, ← append_assoc, ← hsplit]

theorem Direction.take (h : Direction type s i) (id : Nat) (hrq : (s.sock i).rq = c :: rq)
    (ht : Taken (s.sock i) m flags done c rq m' u' bytes ret) (hpeek : flags.peek = false) (hsock : s'.sock i = u')
    (hqueued : s'.queued i = s.queued i) (hgot : s'.got i = s.got i ++ [(id, bytes)])
    (hremoved : s'.removed i = s.removed i ++ record (s.sock i) id)
    (hdropped : s'.dropped i = s.dropped i) : Direction type s' i := by
  have hc := h.off c (hrq ▸ mem_cons_self)
  -- a chunk is there, so the side is open
  have hopen : (s.sock i).state ≠ .closed := fun hcl => cons_ne_nil c rq (hrq.symm.trans (h.flushed hcl))
  have hkept := h.kept hopen
  by_cases hstream : type = .stream
  · have htype : (s.sock i).type = .stream := h.type_eq.trans hstream
    obtain ⟨c', hdata, hoff, hu'⟩ := ht.stream hpeek htype
    have hadv := unread_advance hrq hdata hoff (k := (s.sock i).rqBytes - (min (c.len - c.off) (m.len - done) : Nat))
    rw [← hu', ← ht.copied] at hadv
    refine ⟨?_, fun d hd => ?_, ?_, fun _ => ?_, fun hne => absurd hstream hne, fun _ => ?_, fun hcl => ?_, fun _ => ?_⟩
    · rw [hsock, hu']
      exact h.type_eq
    · rw [hsock, hu'] at hd
      dsimp only at hd
      refine ⟨?_, fun hne => absurd hstream hne⟩
      have hrest : ∀ d ∈ rq, d.off ≤ d.len := fun d hd => (h.off d (hrq ▸ mem_cons_of_mem _ hd)).1
      split at hd
      · exact hrest d hd
      rcases mem_cons.mp hd with rfl | hd
      · unfold Uchunk.len at *
        rw [hoff, hdata]
        omega
      · exact hrest d hd
    · have hcount := h.count
      have hlen := congrArg List.length hadv
      rw [length_append, ht.length] at hlen
      have hbytes : u'.rqBytes = (s.sock i).rqBytes - (min (c.len - c.off) (m.len - done) : Nat) := by rw [hu']
      rw [hsock, hbytes]
      omega
    · rw [hqueued, hgot, hdropped, hsock, bytesOf_concat, h.stream hstream, hkept, flatMap_nil, append_nil,
        append_nil, append_assoc, hadv]
    · rw [hdropped]
      exact hkept
    · rw [hsock, hu'] at hcl
      exact absurd hcl hopen
    · rw [hsock, hu']
      exact hopen
  have htype : (s.sock i).type ≠ .stream := fun he => hstream (h.type_eq.symm.trans he)
  have hu' := ht.record hpeek htype
  have hrecord : record (s.sock i) id = [(id, c.data)] := by
    unfold record
    rw [if_neg htype, hrq]
    rfl
  refine ⟨?_, fun d hd => ?_, ?_, fun he => absurd he hstream, fun _ => ?_, fun _ => ?_, fun hcl => ?_, fun _ => ?_⟩
  · rw [hsock, hu']
    exact h.type_eq
  · rw [hsock, hu'] at hd
    exact h.off d (hrq ▸ mem_cons_of_mem _ hd)
  · have hcount := h.count
    have hzero := hc.2 hstream
    have hunread : (unread (s.sock i)).length = c.len + (rq.flatMap Uchunk.rest).length := by
      unfold unread
      rw [hrq, flatMap_cons, length_append, Uchunk.length_rest, hzero, Nat.sub_zero]
    have hrest : unread u' = rq.flatMap Uchunk.rest := by rw [hu']; rfl
    have hbytes : u'.rqBytes = (s.sock i).rqBytes - c.len := by rw [hu']
    rw [hsock, hrest, hbytes]
    omega
  · have hrq' : u'.rq = rq := by rw [hu']
    rw [hqueued, hremoved, hdropped, hsock, hrecord, h.records hstream, hkept, hrq, hrq', map_append, map_nil,
      append_nil, append_nil, map_singleton, append_assoc]
    rfl
  · rw [hdropped]
    exact hkept
  · rw [hsock, hu'] at hcl
    exact absurd hcl hopen
  · rw [hsock, hu']
    exact hopen

theorem Taken.callOk {queued got got' : Bool → List (Nat × List UInt8)} (h : CallOk type queued got id call)
    (hres : call.result = none) (hkind : call.kind = .recv) (htype : u.type = type)
    (ht : Taken u call.m call.flags call.done c rq m u' bytes ret)
    (hgot : call.flags.peek = false → pieces (got' call.side) id = pieces (got call.side) id ++ bytes) :
    CallOk type queued got' id { call with m, done := call.done + bytes.length, result := ret } := by
  have hlen := ht.length
  have hle := h.le
  have hfit : call.done + bytes.length ≤ call.m.iov.flatten.length := by
    rw [← h.len]
    omega
  refine ⟨?_, ?_, fun hk => (nomatch hkind.symm.trans hk), fun _ hp => ?_, fun hnone hne => ?_, fun hnone _ hp => ?_,
    fun hnone => ?_, fun _ _ hk => (nomatch hkind.symm.trans hk), fun r hr _ hs _ => ?_⟩
  · show m.len = m.iov.flatten.length
    rw [ht.len, ht.iov, kmsgCopyTo_length hfit]
    exact h.len
  · show call.done + bytes.length ≤ m.len
    rw [ht.len, h.len]
    exact hfit
  · show pieces (got' call.side) id = m.iov.flatten.take (call.done + bytes.length)
    rw [hgot hp, h.got hkind hp, ht.iov, kmsgCopyTo_take hfit]
  · exact nomatch (ht.retRecord (by rwa [htype])).symm.trans hnone
  · exact absurd hnone (ht.peeked hp).2
  · show m.trunc = false
    by_cases hs : u.type = .stream
    · rw [ht.quiet hs]
      exact h.trunc hres
    · exact nomatch (ht.retRecord hs).symm.trans hnone
  · show r = ((call.done + bytes.length : Nat) : Int)
    rw [ht.retStream (htype.trans hs) r hr, hlen]

-- Of a record the copy gives the first bytes, as many as the buffers hold.
theorem Taken.whole (h : Sound type s) (hcall : s.calls[id]? = some call) (hres : call.result = none)
    (hne : (s.sock call.side).type ≠ .stream) (hrq : (s.sock call.side).rq = c :: rq)
    (ht : Taken (s.sock call.side) call.m call.flags call.done c rq m u' bytes ret) :
    ret = some (if call.flags.trunc then (c.data.length : Int) else ((min c.data.length m.len : Nat) : Int)) ∧
      m.trunc = decide (m.len < c.data.length) ∧ call.done + bytes.length = min c.data.length m.len ∧
      m.iov.flatten.take (call.done + bytes.length) = c.data.take m.len := by
  have hd := h.direction call.side
  have hok := h.call id call hcall
  have hne' : type ≠ .stream := fun he => hne (hd.type_eq.trans he)
  have hzero := hok.once hres hne'
  have hoff := (hd.off c (hrq ▸ mem_cons_self)).2 hne'
  have hlen := ht.length
  rw [hoff, hzero, Nat.sub_zero, Nat.sub_zero] at hlen
  have hbytes := ht.copied
  rw [hoff, hzero, Nat.sub_zero, Nat.sub_zero] at hbytes
  have hrest : c.rest = c.data := by
    unfold Uchunk.rest
    rw [hoff, drop_zero]
  have hfit : 0 + bytes.length ≤ call.m.iov.flatten.length := by
    rw [← hok.len]
    omega
  refine ⟨?_, ?_, ?_, ?_⟩
  · rw [ht.retRecord hne, hoff, hzero, ht.len]
    simp only [Nat.sub_zero, Nat.zero_add]
    rfl
  · rw [ht.cut hne, hok.trunc hres, hoff, hzero, ht.len]
    rfl
  · rw [hzero, Nat.zero_add, hlen, ht.len]
    rfl
  rw [hzero, ht.iov, hzero, kmsgCopyTo_take hfit, take_zero, nil_append, hbytes, hrest, ht.len]
  refine take_eq_take_iff.mpr ?_
  unfold Uchunk.len
  omega

theorem Taken.returned (h : Sound type s) (hcall : s.calls[id]? = some call) (hres : call.result = none)
    (hkind : call.kind = .recv) (hpeek : call.flags.peek = false) (hne : (s.sock call.side).type ≠ .stream)
    (hrq : (s.sock call.side).rq = c :: rq)
    (ht : Taken (s.sock call.side) call.m call.flags call.done c rq m u' bytes ret)
    (hcalls : s'.calls = s.calls.set id { call with m, done := call.done + bytes.length, result := ret }) :
    Returned s' call.side id c.data := by
  have hself : s'.calls[id]? = some { call with m, done := call.done + bytes.length, result := ret } := by
    rw [hcalls, List.getElem?_set_self (List.getElem?_eq_some_iff.mp hcall).1]
  exact ⟨_, hself, rfl, hkind, hpeek, ht.whole h hcall hres hne hrq⟩

theorem recvStep_sound (h : Sound type s) (hcall : s.calls[id]? = some call) (hres : call.result = none)
    (hkind : call.kind = .recv) :
    Sound type (recvStep s id call env) := by
  have hok := h.call id call hcall
  have htype := (h.direction call.side).type_eq
  unfold recvStep
  dsimp only
  split
  · rename_i r hturn
    exact finish_sound h hcall hres (fun hk => nomatch hkind.symm.trans hk) fun _ _ hpos => recvTurn_ret hturn hpos
  · exact h
  rename_i m u' bytes ret hturn
  obtain ⟨c, rq, hrq, ht⟩ := recvTurn_taken hturn
  split
  · rename_i hpeek
    have hu' := (ht.peeked hpeek).1
    refine ⟨fun i => ?_, calls_set h.call (fun _ _ _ => rfl) (fun _ _ _ => rfl)
      (ht.callOk hok hres hkind htype fun hp => nomatch hp.symm.trans hpeek), ⟨fun i x hx => ?_, fun i x hx => ?_,
      fun i j r hr => (h.logs.removed i j r hr).set hcall hres rfl, h.logs.nodup⟩⟩
    · refine (h.direction i).same ?_ rfl rfl rfl rfl fun hl => hl
      dsimp only
      rw [hu', update_eq_self]
      exact ⟨rfl, rfl, rfl, rfl⟩
    · exact (length_set ..).symm ▸ h.logs.queued i x hx
    · exact (length_set ..).symm ▸ h.logs.got i x hx
  rename_i hpeek
  have hpeek' := eq_false_of_ne_true hpeek
  refine ⟨fun i => ?_, calls_set h.call (fun _ _ _ => rfl) (fun i j hj => pieces_logged hj _ i _)
    (ht.callOk hok hres hkind htype fun _ => ?_), ⟨fun i x hx => ?_, fun i x hx => ?_, fun i j r hr => ?_, fun i => ?_⟩⟩
  · by_cases hi : i = call.side
    · subst hi
      refine (h.direction _).take id hrq ht hpeek' ?_ rfl ?_ ?_ rfl
      · exact update_self _ _ _
      · exact update_self _ _ _
      · exact update_self _ _ _
    · refine (h.direction i).same ?_ rfl ?_ ?_ rfl fun hl => hl
      · dsimp only
        rw [update_of_ne hi]
        exact ⟨rfl, rfl, rfl, rfl⟩
      · exact update_of_ne hi _ _
      · exact update_of_ne hi _ _
  · dsimp only
    rw [update_self]
    exact pieces_concat_self _ _ _
  · exact (length_set ..).symm ▸ h.logs.queued i x hx
  · dsimp only at hx ⊢
    rw [length_set]
    rcases mem_logged hx with hx | ⟨-, hx⟩
    · exact h.logs.got i x hx
    · obtain rfl := List.mem_singleton.mp hx
      exact (List.getElem?_eq_some_iff.mp hcall).1
  · dsimp only at hr
    rcases mem_logged hr with hold | ⟨rfl, hnew⟩
    · exact (h.logs.removed i j r hold).set hcall hres rfl
    unfold record at hnew
    split at hnew
    · exact absurd hnew not_mem_nil
    rename_i hne
    rw [hrq] at hnew
    obtain ⟨rfl, rfl⟩ := Prod.mk.inj (mem_singleton.mp hnew)
    exact ht.returned h hcall hres hkind hpeek' hne hrq rfl
  dsimp only
  by_cases hi : i = call.side
  · subst hi
    rw [update_self, map_append]
    refine nodup_append.mpr ⟨h.logs.nodup _, ?_, fun a ha b hb hab => ?_⟩
    · unfold record
      split
      · exact nodup_nil
      · rw [hrq]
        exact nodup_singleton _
    obtain ⟨⟨j, r⟩, hjr, rfl⟩ := mem_map.mp ha
    refine (h.logs.removed _ j r hjr).ne hcall hres (hab.trans ?_)
    obtain ⟨x, hx, rfl⟩ := mem_map.mp hb
    unfold record at hx
    split at hx
    · exact absurd hx not_mem_nil
    · obtain ⟨_, _, rfl⟩ := mem_map.mp hx
      rfl
  · rw [update_of_ne hi]
    exact h.logs.nodup i

end Olux.Unix.Pair
