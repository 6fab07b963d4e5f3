import Olux.Channel.References

namespace Olux.Channel

open Function List Option

variable {m : Msg} {s : State} {side : Bool}

def Thread.Sends (t : Thread) (i : Bool) (m : Msg) : Prop :=
  t.side = !i ∧ (∃ rq, t.call = .send rq ∧ prepare rq = .ok m) ∧ t.result = some (.ret 0)

def Thread.Gets (t : Thread) (i : Bool) (m : Msg) : Prop := t.side = i ∧ t.result = some (.message m)

structure Logged (P : Thread → Bool → Msg → Prop) (threads : List Thread) (log : Bool → List (Nat × Msg)) : Prop where
  mem : ∀ i id m, (id, m) ∈ log i ↔ ∃ t, threads[id]? = some t ∧ P t i m
  nodup : ∀ i, ((log i).map Prod.fst).Nodup

section Logged

variable {P : Thread → Bool → Msg → Prop} {threads : List Thread} {log : Bool → List (Nat × Msg)} {id : Nat}
  {t t' : Thread}

theorem Logged.push (h : Logged P threads log) (ht' : ∀ i m, ¬ P t' i m) : Logged P (threads ++ [t']) log := by
  refine ⟨fun i k m => (h.mem i k m).trans ⟨?_, ?_⟩, h.nodup⟩
  · rintro ⟨u, hu, hp⟩
    exact ⟨u, List.getElem?_append_left (List.getElem?_eq_some_iff.mp hu).1 ▸ hu, hp⟩
  rintro ⟨u, hu, hp⟩
  rcases Nat.lt_trichotomy k threads.length with hk | rfl | hk
  · rw [getElem?_append_left hk] at hu
    exact ⟨u, hu, hp⟩
  · rw [getElem?_concat_length] at hu
    obtain rfl := some.inj hu
    exact absurd hp (ht' i m)
  · rw [getElem?_eq_none (by rw [length_append, length_singleton]; omega)] at hu
    cases hu

theorem Logged.quiet (h : Logged P threads log) (ht : threads[id]? = some t) (hold : ∀ i m, ¬ P t i m)
    (hnew : ∀ i m, ¬ P t' i m) : Logged P (threads.set id t') log := by
  have hlt : id < threads.length := (List.getElem?_eq_some_iff.mp ht).1
  refine ⟨fun i k m => (h.mem i k m).trans ?_, h.nodup⟩
  by_cases hk : id = k
  · subst hk
    rw [getElem?_set_self hlt, ht]
    constructor
    · rintro ⟨u, hu, hp⟩
      exact absurd (some.inj hu ▸ hp) (hold i m)
    · rintro ⟨u, hu, hp⟩
      exact absurd (some.inj hu ▸ hp) (hnew i m)
  · rw [getElem?_set_ne hk]

theorem Logged.record (h : Logged P threads log) (ht : threads[id]? = some t) (hold : ∀ i m, ¬ P t i m) {i₀ : Bool}
    {m₀ : Msg} (hnew : ∀ i m, P t' i m ↔ i = i₀ ∧ m = m₀) :
    Logged P (threads.set id t') (Function.update log i₀ (log i₀ ++ [(id, m₀)])) := by
  have hlt : id < threads.length := (List.getElem?_eq_some_iff.mp ht).1
  have hfresh : ∀ i m, (id, m) ∉ log i := by
    intro i m hm
    obtain ⟨u, hu, hp⟩ := (h.mem i id m).mp hm
    rw [ht] at hu
    exact hold i m (some.inj hu ▸ hp)
  have hmem : ∀ i k m, (k, m) ∈ update log i₀ (log i₀ ++ [(id, m₀)]) i ↔ (k, m) ∈ log i ∨ i = i₀ ∧ k = id ∧ m = m₀ := by
    intro i k m
    by_cases hi : i = i₀
    · subst hi
      rw [update_self, mem_append, mem_singleton, Prod.mk.injEq]
      simp
    · rw [update_of_ne hi]
      simp [hi]
  refine ⟨fun i k m => (hmem i k m).trans ?_, fun i => ?_⟩
  · by_cases hk : id = k
    · subst hk
      rw [getElem?_set_self hlt]
      constructor
      · rintro (hm | ⟨hi, -, hm⟩)
        · exact absurd hm (hfresh i m)
        · exact ⟨t', rfl, (hnew i m).mpr ⟨hi, hm⟩⟩
      rintro ⟨u, hu, hp⟩
      obtain ⟨hi, hm⟩ := (hnew i m).mp (some.inj hu ▸ hp)
      exact .inr ⟨hi, rfl, hm⟩
    · rw [getElem?_set_ne hk, ← h.mem i k m]
      exact or_iff_left fun hb => hk hb.2.1.symm
  by_cases hi : i = i₀
  · subst hi
    rw [update_self, map_append, map_singleton, nodup_append]
    refine ⟨h.nodup i, nodup_singleton _, fun a ha b hb hab => ?_⟩
    obtain ⟨⟨k, m⟩, hx, rfl⟩ := mem_map.mp ha
    rw [mem_singleton] at hb
    obtain rfl : k = id := hab.trans hb
    exact hfresh i m hx
  · rw [update_of_ne hi]
    exact h.nodup i

end Logged

structure Counted (q : List Msg) (nq bytes : Int) : Prop where
  count : nq = q.length
  total : bytes = (q.map Msg.len).sum
  few : nq ≤ CHAN_MAX_QUEUED
  small : bytes ≤ CHAN_MAX_BYTES

theorem Counted.nil : Counted [] 0 0 := ⟨rfl, rfl, by decide, by decide⟩

theorem Counted.push {q : List Msg} {nq bytes : Int} (h : Counted q nq bytes) (hnq : nq < CHAN_MAX_QUEUED)
    (hbytes : bytes + m.len ≤ CHAN_MAX_BYTES) : Counted (q ++ [m]) (nq + 1) (bytes + m.len) := by
  refine ⟨?_, ?_, hnq, hbytes⟩
  · rw [h.count, length_append]
    rfl
  · rw [h.total, map_append, sum_append, map_singleton, sum_singleton, Int.natCast_add]

theorem Counted.pop {q : List Msg} {nq bytes : Int} (h : Counted (m :: q) nq bytes) :
    Counted q (nq - 1) (bytes - m.len) := by
  have hnq : nq = q.length + 1 := h.count
  have hbytes := h.total
  rw [map_cons, sum_cons, Int.natCast_add] at hbytes
  have hfew := h.few
  have hsmall := h.small
  exact ⟨by omega, by omega, by omega, by omega⟩

-- The messages of one direction: those queued are those received, then those that the close
-- of the receiving end took out, then those in the queue.
structure Direction (s : State) (i : Bool) : Prop where
  law : (s.sent i).map Prod.snd = (s.got i).map Prod.snd ++ s.dropped i ++ s.chan.q i
  kept : s.chan.closed i = false → s.dropped i = []
  flushed : s.chan.closed i = true → s.chan.q i = []
  counted : Counted (s.chan.q i) (s.chan.nq i) (s.chan.bytes i)

def isOpen (c : Chan) (i : Bool) : Int := if c.closed i then 0 else 1

def owed (o : Option Bool) : Nat := if o = some true then 1 else 0

structure Lifetime (s : State) : Prop where
  refs : s.chan.refs = isOpen s.chan false + isOpen s.chan true
  idle : ∀ i, s.chan.closed i = false → s.tail i = none
  freed : s.freed + owed (s.tail false) + owed (s.tail true) = if s.chan.refs = 0 then 1 else 0

structure Sound (s : State) : Prop where
  direction : ∀ i, Direction s i
  sent : Logged Thread.Sends s.threads s.sent
  got : Logged Thread.Gets s.threads s.got
  lifetime : Lifetime s

theorem boot_sound : Sound boot := by
  refine ⟨fun i => ⟨rfl, fun _ => rfl, fun _ => rfl, Counted.nil⟩, ⟨fun i id m => ?_, fun i => nodup_nil⟩,
    ⟨fun i id m => ?_, fun i => nodup_nil⟩, ⟨by decide, fun _ _ => rfl, by decide⟩⟩
  · exact iff_of_false not_mem_nil (by rintro ⟨t, ht, -⟩; cases ht)
  · exact iff_of_false not_mem_nil (by rintro ⟨t, ht, -⟩; cases ht)

theorem early_ne_zero {call : Call} : call.early ≠ some (.ret 0) := by
  cases call with
  | send rq =>
    unfold Call.early
    dsimp only
    split
    · rename_i e he
      intro h
      have hzero : e = 0 := Result.ret.inj (some.inj h)
      exact (prepare_error he).1 hzero
    · exact nofun
  | recv => exact nofun

theorem early_ne_message {call : Call} (m : Msg) : call.early ≠ some (.message m) := by
  cases call with
  | send rq =>
    unfold Call.early
    dsimp only
    split <;> exact nofun
  | recv => exact nofun

theorem call_sound (h : Sound s) (side : Bool) (call : Call) : Sound (step s (.call side call)) := by
  unfold step
  dsimp only
  split
  · exact h
  exact ⟨fun i => ⟨(h.direction i).law, (h.direction i).kept, (h.direction i).flushed, (h.direction i).counted⟩,
    h.sent.push fun i m hp => early_ne_zero hp.2.2, h.got.push fun i m hp => early_ne_message m hp.2,
    ⟨h.lifetime.refs, h.lifetime.idle, h.lifetime.freed⟩⟩

theorem finish_sound (h : Sound s) {id : Nat} {t : Thread} (ht : s.threads[id]? = some t) (hres : t.result = none)
    {r : Int} (hr : r ≠ 0) : Sound (finish s id t (.ret r)) := by
  refine ⟨fun i => ⟨(h.direction i).law, (h.direction i).kept, (h.direction i).flushed, (h.direction i).counted⟩,
    h.sent.quiet ht (fun i m hp => ?_) fun i m hp => ?_, h.got.quiet ht (fun i m hp => ?_) fun i m hp => ?_,
    ⟨h.lifetime.refs, h.lifetime.idle, h.lifetime.freed⟩⟩
  · exact nomatch hres.symm.trans hp.2.2
  · exact hr (Result.ret.inj (some.inj hp.2.2))
  · exact nomatch hres.symm.trans hp.2
  · exact nomatch some.inj hp.2

theorem sendStep_sound (h : Sound s) {id : Nat} {t : Thread} {rq : Request} (ht : s.threads[id]? = some t)
    (hres : t.result = none) (hcall : t.call = .send rq) (nonblock : Bool) (wake : Wake) :
    Sound (sendStep s id t rq nonblock wake) := by
  unfold sendStep
  split
  · exact h
  rename_i m hm
  rcases sendTurn_cases t.side m ⟨s.chan, nonblock, wake⟩ with ⟨he, -⟩ | ⟨hclosed, hnq, hbytes, he⟩ | ⟨r, he, hr, -⟩ | he
  · rw [he]
    exact finish_sound h ht hres (by decide)
  · rw [he]
    dsimp only at hclosed hnq hbytes ⊢
    refine ⟨fun i => ?_, h.sent.record ht (fun i m' hp => ?_) fun i m' => ?_,
      h.got.quiet ht (fun i m' hp => ?_) fun i m' hp => ?_, ⟨h.lifetime.refs, h.lifetime.idle, h.lifetime.freed⟩⟩
    · by_cases hi : i = !t.side
      · subst hi
        have hd := h.direction (!t.side)
        refine ⟨?_, hd.kept, fun hc => ?_, ?_⟩
        · simp only [finish, update_self, map_append, map_singleton, hd.law, append_assoc]
        · exact nomatch hclosed.symm.trans hc
        · simp only [update_self]
          exact hd.counted.push hnq hbytes
      · have hd := h.direction i
        refine ⟨?_, hd.kept, fun hc => ?_, ?_⟩
        · simp only [finish, update_of_ne hi]
          exact hd.law
        · simp only [update_of_ne hi]
          exact hd.flushed hc
        · simp only [update_of_ne hi]
          exact hd.counted
    · exact nomatch hres.symm.trans hp.2.2
    · constructor
      · rintro ⟨hside, ⟨rq', hrq', hm'⟩, -⟩
        have hside' : t.side = !i := hside
        obtain rfl : rq = rq' := Call.send.inj (hcall.symm.trans hrq')
        refine ⟨by rw [hside', Bool.not_not], Except.ok.inj (hm'.symm.trans hm)⟩
      · rintro ⟨rfl, rfl⟩
        exact ⟨(Bool.not_not _).symm, ⟨rq, hcall, hm⟩, rfl⟩
    · exact nomatch hres.symm.trans hp.2
    · exact nomatch some.inj hp.2
  · rw [he]
    exact finish_sound h ht hres hr
  · rw [he]
    exact h

theorem recvTurn_failed {maxlen : Nat} {deadline interruptible : Bool} {turn : Turn} {r : Int} {need : Nat}
    (h : recvTurn side maxlen deadline interruptible turn = .failed r need) : r ≠ 0 := by
  unfold recvTurn at h
  dsimp only at h
  repeat' split at h
  all_goals cases h
  all_goals decide

theorem recvStep_sound (h : Sound s) {id : Nat} {t : Thread} (ht : s.threads[id]? = some t) (hres : t.result = none)
    (maxlen : Nat) (deadline interruptible nonblock : Bool) (wake : Wake) :
    Sound (recvStep s id t maxlen deadline interruptible nonblock wake) := by
  unfold recvStep
  rcases hturn : recvTurn t.side maxlen deadline interruptible ⟨s.chan, nonblock, wake⟩ with ⟨m, c⟩ | ⟨r, need⟩ | _
  · obtain ⟨rest, hq, -, rfl⟩ := recvTurn_message hturn
    dsimp only at hq ⊢
    refine ⟨fun i => ?_, h.sent.quiet ht (fun i m' hp => ?_) fun i m' hp => ?_,
      h.got.record ht (fun i m' hp => ?_) fun i m' => ?_, ⟨h.lifetime.refs, h.lifetime.idle, h.lifetime.freed⟩⟩
    · by_cases hi : i = t.side
      · subst hi
        have hd := h.direction t.side
        -- a message is left, so the end is open
        have hopen : s.chan.closed t.side = false :=
          eq_false_of_ne_true fun hc => cons_ne_nil m rest (hq.symm.trans (hd.flushed hc))
        have hlaw := hd.law
        rw [hd.kept hopen, hq, append_nil] at hlaw
        refine ⟨?_, hd.kept, fun hc => absurd hc (ne_true_of_eq_false hopen), ?_⟩
        · simp only [finish, update_self, map_append, map_singleton, hd.kept hopen, hlaw,
            append_nil, append_assoc, singleton_append]
        · simp only [update_self]
          exact (hq ▸ hd.counted).pop
      · have hd := h.direction i
        refine ⟨?_, hd.kept, fun hc => ?_, ?_⟩
        · simp only [finish, update_of_ne hi]
          exact hd.law
        · simp only [update_of_ne hi]
          exact hd.flushed hc
        · simp only [update_of_ne hi]
          exact hd.counted
    · exact nomatch hres.symm.trans hp.2.2
    · exact nomatch some.inj hp.2.2
    · exact nomatch hres.symm.trans hp.2
    constructor
    · rintro ⟨hside, hm⟩
      exact ⟨hside.symm, (Result.message.inj (some.inj hm)).symm⟩
    · rintro ⟨rfl, rfl⟩
      exact ⟨rfl, rfl⟩
  · exact finish_sound h ht hres (recvTurn_failed hturn)
  · exact h

theorem closeStep_lifetime (h : Lifetime s) (hopen : s.chan.closed side = false) : Lifetime (closeStep s side) := by
  have hrefs := h.refs
  have hfreed := h.freed
  have hother : isOpen s.chan (!side) = 0 ∨ isOpen s.chan (!side) = 1 := by
    unfold isOpen
    split
    · exact .inl rfl
    · exact .inr rfl
  have hside : isOpen s.chan side = 1 := by
    unfold isOpen
    rw [hopen]
    rfl
  have hsum : s.chan.refs = 1 + isOpen s.chan (!side) := by
    rw [hrefs, ← hside]
    cases side
    · rfl
    · exact Int.add_comm _ _
  have hnone : s.freed = 0 ∧ owed (s.tail (!side)) = 0 := by
    rw [if_neg (by omega)] at hfreed
    cases side
    · change s.freed = 0 ∧ owed (s.tail true) = 0
      omega
    · change s.freed = 0 ∧ owed (s.tail false) = 0
      omega
  refine ⟨?_, fun i hi => ?_, ?_⟩
  · simp only [closeStep, chanRelease]
    rw [hsum]
    cases side <;> simp [isOpen]
  · by_cases hi' : i = side
    · subst hi'
      simp [closeStep, chanRelease] at hi
    · simp only [closeStep, chanRelease, update_of_ne hi'] at hi ⊢
      exact h.idle i hi
  have howed : owed (some (s.chan.refs - 1 == 0)) = if s.chan.refs - 1 = 0 then 1 else 0 := by
    unfold owed
    simp
  have hother' := hnone.2
  simp only [closeStep, chanRelease, hnone.1]
  cases side
  · rw [update_self, update_of_ne (by decide), howed]
    change owed (s.tail true) = 0 at hother'
    omega
  rw [update_self, update_of_ne (by decide), howed]
  change owed (s.tail false) = 0 at hother'
  omega

theorem closeStep_sound (h : Sound s) (hopen : s.chan.closed side = false) : Sound (closeStep s side) := by
  refine ⟨fun i => ?_, ⟨h.sent.mem, h.sent.nodup⟩, ⟨h.got.mem, h.got.nodup⟩, closeStep_lifetime h.lifetime hopen⟩
  have hd := h.direction i
  by_cases hi : i = side
  · subst hi
    have hlaw := hd.law
    rw [hd.kept hopen, append_nil] at hlaw
    refine ⟨?_, fun hc => ?_, fun _ => ?_, ?_⟩
    · simp only [closeStep, chanRelease, update_self, append_nil]
      exact hlaw
    · simp [closeStep, chanRelease] at hc
    · exact update_self _ _ _
    · simp only [closeStep, chanRelease, update_self]
      exact Counted.nil
  refine ⟨?_, ?_, ?_, ?_⟩
  · simp only [closeStep, chanRelease, update_of_ne hi]
    exact hd.law
  · simp only [closeStep, chanRelease, update_of_ne hi]
    exact hd.kept
  · simp only [closeStep, chanRelease, update_of_ne hi]
    exact hd.flushed
  · simp only [closeStep, chanRelease, update_of_ne hi]
    exact hd.counted

theorem tail_sound (h : Sound s) (side : Bool) : Sound (step s (.tail side)) := by
  unfold step
  dsimp only
  split
  · exact h
  rename_i last hlast
  refine ⟨fun i => ⟨(h.direction i).law, (h.direction i).kept, (h.direction i).flushed, (h.direction i).counted⟩,
    ⟨h.sent.mem, h.sent.nodup⟩, ⟨h.got.mem, h.got.nodup⟩, ⟨h.lifetime.refs, fun i hi => ?_, ?_⟩⟩
  · by_cases hi' : i = side
    · subst hi'
      exact update_self _ _ _
    · exact (update_of_ne hi' _ _).trans (h.lifetime.idle i hi)
  have howed : owed (some last) = if last then 1 else 0 := by
    cases last <;> rfl
  have hzero : owed none = 0 := rfl
  have hfreed := h.lifetime.freed
  dsimp only
  rw [← hfreed]
  cases side
  · rw [update_self, update_of_ne (by decide), hlast, howed, hzero]
    cases last <;> simp
  rw [update_self, update_of_ne (by decide), hlast, howed, hzero]
  cases last
  · rfl
  · simp
    omega

theorem step_sound (h : Sound s) (ev : Event) : Sound (step s ev) := by
  cases ev with
  | call side call => exact call_sound h side call
  | turn id nonblock wake =>
    unfold step
    dsimp only
    split
    · exact h
    rename_i t ht
    split
    · exact h
    rename_i hres
    have hnone : t.result = none := not_isSome_iff_eq_none.mp hres
    split
    · rename_i rq hcall
      exact sendStep_sound h ht hnone hcall nonblock wake
    · exact recvStep_sound h ht hnone _ _ _ nonblock wake
  | close side =>
    unfold step
    dsimp only
    split
    · exact h
    · rename_i hguard
      exact closeStep_sound h (eq_false_of_ne_true fun hc => hguard (.inl hc))
  | tail side => exact tail_sound h side

theorem run_sound (evs : List Event) : Sound (run boot evs) :=
  List.foldlRecOn evs step boot_sound fun _ h ev _ => step_sound h ev

end Olux.Channel
