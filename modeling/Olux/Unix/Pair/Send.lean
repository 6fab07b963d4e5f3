import Olux.Unix.Pair.Sound

namespace Olux.Unix.Pair

open Function List Option

variable {id j done : Nat} {i : Bool} {type : SockType} {call : Call} {s s' : State} {r : Int} {u u' : Usock}
  {m m' : Kmsg} {flags : Flags} {env : Env} {c : Uchunk} {rq : List Uchunk} {bytes : List UInt8} {ret : Option Int}

theorem sendEarly_neg (h : sendEarly u m flags = some r) : r < 0 := by
  unfold sendEarly at h
  repeat' split at h
  all_goals cases h
  all_goals decide

structure Chunked (u : Usock) (m : Kmsg) (done : Nat) (c : Uchunk) (m' : Kmsg) : Prop where
  data : ∃ n, c.data = kmsgCopyFrom done n m.iov ∧ done + n ≤ max done m.len ∧
    (u.type ≠ .stream → u.type ≠ .dgram → n = m.len)
  off : c.off = 0
  iov : m'.iov = m.iov
  len : m'.len = m.len
  trunc : m'.trunc = m.trunc

theorem Chunk.chunked {n : Nat} (hc : Chunk m done n c m') (hfit : done + n ≤ max done m.len)
    (hwhole : u.type ≠ .stream → u.type ≠ .dgram → n = m.len) : Chunked u m done c m' :=
  ⟨⟨n, hc.data, hfit, hwhole⟩, hc.off, hc.iov, hc.len, hc.trunc⟩

theorem sendTurn_ret (h : Sound type s) (hcall : s.calls[id]? = some call) (hres : call.result = none)
    (hturn : sendTurn s call env = .ret r) :
    (0 ≤ r → r = call.done) ∧ (r < 0 → call.done = 0) := by
  unfold sendTurn at hturn
  dsimp only at hturn
  split at hturn
  · rename_i hdgram
    have hneg : r < 0 := by
      rcases (sendDgramTurn_ok _ _ _ _).ret hturn with he | hneg
      · split at he
        · cases he
          decide
        · cases he
      · exact hneg
    have hzero : call.done = 0 := by
      refine (h.call id call hcall).once hres ?_
      rw [← (h.direction call.side).type_eq, hdgram]
      decide
    exact ⟨fun hpos => absurd hpos (Int.not_le.mpr hneg), fun _ => hzero⟩
  · exact (sendStreamTurn_ok _ _ _ _ _).ret hturn

theorem sendTurn_queued (h : Sound type s) (hcall : s.calls[id]? = some call) (hres : call.result = none)
    (hturn : sendTurn s call env = .queued c m) :
    s.linked = true ∧ Chunked (s.sock call.side) call.m call.done c m := by
  have htype := (h.direction call.side).type_eq
  have hzero : (s.sock call.side).type ≠ .stream → call.done = 0 := by
    rw [htype]
    exact (h.call id call hcall).once hres
  have hlinked : peer s call.side ≠ none → s.linked = true := by
    intro hpeer
    by_contra hl
    exact hpeer (if_neg hl)
  unfold sendTurn at hturn
  dsimp only at hturn
  split at hturn
  · rename_i hdgram
    obtain ⟨⟨t, ht⟩, hc⟩ := (sendDgramTurn_ok _ _ _ _).queued hturn
    rw [hzero (by rw [hdgram]; decide)]
    refine ⟨hlinked fun hnone => ?_, Chunk.chunked hc (by omega) fun _ hd => absurd hdgram hd⟩
    rw [hnone] at ht
    cases ht
  rename_i hdgram
  obtain ⟨ht, hc⟩ := (sendStreamTurn_ok _ _ _ _ _).queued hturn
  refine ⟨hlinked ht, ?_⟩
  split at hc
  · rename_i hseq
    rw [hzero (by rw [hseq]; decide)] at hc ⊢
    exact Chunk.chunked hc (by omega) fun _ _ => rfl
  rename_i hseq
  refine Chunk.chunked hc (by omega) fun hs _ => ?_
  cases hu : (s.sock call.side).type with
  | stream => exact absurd hu hs
  | seqpacket => exact absurd hu hseq
  | dgram => exact absurd hu hdgram

theorem Direction.push (h : Direction type s i) (id : Nat) (hoff : c.off = 0) (hopen : (s.sock i).state ≠ .closed)
    (hsock : s'.sock i = (s.sock i).push c) (hqueued : s'.queued i = s.queued i ++ [(id, c.data)])
    (hgot : s'.got i = s.got i) (hremoved : s'.removed i = s.removed i)
    (hdropped : s'.dropped i = s.dropped i) : Direction type s' i := by
  have hrest : c.rest = c.data := by
    unfold Uchunk.rest
    rw [hoff, drop_zero]
  have hunread : unread ((s.sock i).push c) = unread (s.sock i) ++ c.data := by
    unfold unread Usock.push
    dsimp only
    rw [flatMap_append, flatMap_singleton, hrest]
  refine ⟨?_, fun d hd => ?_, ?_, fun ht => ?_, fun ht => ?_, fun hs => ?_, fun hs => ?_, fun _ => ?_⟩
  · rw [hsock]
    exact h.type_eq
  · rw [hsock] at hd
    rcases mem_append.mp hd with hd | hd
    · exact h.off d hd
    obtain rfl := mem_singleton.mp hd
    rw [hoff]
    exact ⟨Nat.zero_le _, fun _ => rfl⟩
  · rw [hsock, hunread, length_append, Int.natCast_add, ← h.count]
    rfl
  · rw [hqueued, hgot, hdropped, hsock, hunread, bytesOf_concat, h.stream ht, append_assoc]
  · rw [hqueued, hremoved, hdropped, hsock, map_append, h.records ht, append_assoc]
    show _ = _ ++ ((s.sock i).rq ++ [c]).map Uchunk.data
    rw [map_append]
    rfl
  · rw [hdropped]
    exact h.kept hopen
  · rw [hsock] at hs
    exact absurd hs hopen
  · rw [hsock]
    exact hopen

theorem Direction.same (h : Direction type s i)
    (hsock : (s'.sock i).type = (s.sock i).type ∧ (s'.sock i).rq = (s.sock i).rq ∧
      (s'.sock i).rqBytes = (s.sock i).rqBytes ∧ (s'.sock i).state = (s.sock i).state)
    (hqueued : s'.queued i = s.queued i) (hgot : s'.got i = s.got i) (hremoved : s'.removed i = s.removed i)
    (hdropped : s'.dropped i = s.dropped i) (hlinked : s'.linked = true → s.linked = true) : Direction type s' i := by
  obtain ⟨htype, hrq, hbytes, hstate⟩ := hsock
  have hunread : unread (s'.sock i) = unread (s.sock i) := by
    unfold unread
    rw [hrq]
  refine ⟨htype.trans h.type_eq, ?_, ?_, ?_, ?_, ?_, ?_, fun hl => ?_⟩
  · rw [hrq]
    exact h.off
  · rw [hbytes, hunread]
    exact h.count
  · rw [hqueued, hgot, hdropped, hunread]
    exact h.stream
  · rw [hqueued, hremoved, hdropped, hrq]
    exact h.records
  · rw [hstate, hdropped]
    exact h.kept
  · rw [hstate, hrq]
    exact h.flushed
  · rw [hstate]
    exact h.linked (hlinked hl)

theorem Chunked.copied (hc : Chunked u m done c m') (hlen : m.len = m.iov.flatten.length) (hle : done ≤ m.len) :
    c.data = (m.iov.flatten.drop done).take c.len ∧ done + c.len ≤ m.len ∧
      (u.type ≠ .stream → u.type ≠ .dgram → c.len = m.len) := by
  obtain ⟨n, hdata, hfit, hseq⟩ := hc.data
  have hcopy : c.data = (m.iov.flatten.drop done).take n := by rw [hdata, kmsgCopyFrom_eq]
  have hn : c.len = n := by
    unfold Uchunk.len
    rw [hcopy, length_take, length_drop]
    omega
  rw [hn]
  exact ⟨hcopy, by omega, hseq⟩

theorem Chunked.callOk {queued queued' got : Bool → List (Nat × List UInt8)} (h : CallOk type queued got id call)
    (hres : call.result = none) (hkind : call.kind = .send) (htype : u.type = type)
    (hc : Chunked u call.m call.done c m)
    (hqueued : pieces (queued' (!call.side)) id = pieces (queued (!call.side)) id ++ c.data) :
    CallOk type queued' got id { call with
      m
      done := call.done + c.len
      result := if sendOver u m (call.done + c.len) then some ((call.done + c.len : Nat) : Int) else none } := by
  obtain ⟨hcopy, hfit, hseq⟩ := hc.copied h.len h.le
  refine ⟨?_, ?_, fun _ => ?_, fun hk => (nomatch hkind.symm.trans hk), fun hnone ht => ?_,
    fun _ hk => (nomatch hkind.symm.trans hk), fun _ => ?_, fun r hr _ => ?_, fun _ _ hk => (nomatch hkind.symm.trans hk)⟩
  · rw [hc.len, hc.iov]
    exact h.len
  · dsimp only
    rw [hc.len]
    exact hfit
  · dsimp only
    rw [hqueued, h.sent hkind, hc.iov, take_add, ← hcopy]
  · -- a record is sent whole, so that the loop is over
    refine absurd hnone ?_
    have hover : sendOver u m (call.done + c.len) = true := by
      unfold sendOver
      rw [hc.len]
      by_cases hd : u.type = .dgram
      · simp [hd]
      · have hs : u.type ≠ .stream := by rwa [htype]
        simp [hseq hs hd]
    rw [if_pos hover]
    exact nofun
  · rw [hc.trunc]
    exact h.trunc hres
  dsimp only at hr
  split at hr
  · obtain rfl := some.inj hr
    exact ⟨fun _ => rfl, fun hneg => absurd hneg (by omega)⟩
  · cases hr

theorem sendStep_sound (h : Sound type s) (hcall : s.calls[id]? = some call) (hres : call.result = none)
    (hkind : call.kind = .send) :
    Sound type (sendStep s id call env) := by
  unfold sendStep
  dsimp only
  split
  · rename_i r hturn
    exact finish_sound h hcall hres (fun _ => sendTurn_ret h hcall hres hturn) fun hk => nomatch hkind.symm.trans hk
  · exact h
  rename_i c m hturn
  obtain ⟨hlinked, hchunk⟩ := sendTurn_queued h hcall hres hturn
  refine ⟨fun i => ?_, calls_set h.call (fun i j hj => pieces_logged hj _ i _) (fun _ _ _ => rfl)
    (hchunk.callOk (h.call id call hcall) hres hkind (h.direction call.side).type_eq ?_), ⟨fun i x hx => ?_,
    fun i x hx => ?_, fun i j r hr => ?_, h.logs.nodup⟩⟩
  · by_cases hi : i = !call.side
    · subst hi
      refine (h.direction _).push id hchunk.off ((h.direction _).linked hlinked) ?_ ?_ rfl rfl rfl
      · exact update_self _ _ _
      · exact update_self _ _ _
    · refine (h.direction i).same ?_ ?_ rfl rfl rfl fun hl => hl
      · dsimp only
        rw [update_of_ne hi]
        exact ⟨rfl, rfl, rfl, rfl⟩
      · exact update_of_ne hi _ _
  · dsimp only
    rw [update_self]
    exact pieces_concat_self _ _ _
  · dsimp only at hx ⊢
    rw [length_set]
    rcases mem_logged hx with hx | ⟨-, hx⟩
    · exact h.logs.queued i x hx
    · obtain rfl := List.mem_singleton.mp hx
      exact (List.getElem?_eq_some_iff.mp hcall).1
  · exact (List.length_set ..).symm ▸ h.logs.got i x hx
  · exact (h.logs.removed i j r hr).set hcall hres rfl

end Olux.Unix.Pair
