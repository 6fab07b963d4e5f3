import Olux.Futex

namespace Olux.Futex

open Function List

variable {id : Nat} {s : State}

def Call.queued (c : Call) : Bool :=
  !c.woken &&
    match c.pc with
    | .start => false
    | .queued => true
    | .asleep => true
    | .back _ => true
    | .done _ => false

-- The buckets are the log without the calls that have left it, each waiter being in the bucket
-- of its key; a call that is not in the log has not come to it or has failed before.
structure Ok (s : State) : Prop where
  bucket : ∀ b, s.bucket b = s.log.filter fun id => (s.call id).queued && hash (s.call id).key == b
  nodup : s.log.Nodup
  begun : ∀ id ∈ s.log, id < s.calls ∧ (s.call id).pc ≠ .start
  fresh : ∀ id, id ∉ s.log → (s.call id).woken = false ∧
    ((s.call id).pc = .start ∨ ∃ r, (s.call id).pc = .done r ∧ r ≠ 0)
  woken : ∀ id, id ∈ s.dequeued ↔ (s.call id).woken = true
  once : s.dequeued.Nodup
  ready : ∀ id, (s.call id).woken = true → (s.call id).running = true
  ended : ∀ id r, (s.call id).pc = .done r → (r = 0 ↔ (s.call id).woken = true)

theorem boot_ok (mem : BitVec 64 → BitVec 64 → Option (BitVec 32)) : Ok (boot mem) := by
  refine ⟨fun b => rfl, nodup_nil, fun id h => absurd h not_mem_nil, fun id _ => ⟨rfl, .inl rfl⟩, fun id => ?_,
    nodup_nil, fun id h => (nomatch h), fun id r h => (nomatch h)⟩
  exact iff_of_false not_mem_nil Bool.false_ne_true

structure Moves (s : State) (id : Nat) (c : Call) : Prop where
  queued : c.queued = (s.call id).queued
  key : c.queued = true → c.key = (s.call id).key
  woken : c.woken = (s.call id).woken
  ready : c.woken = true → c.running = true
  begun : id ∈ s.log → c.pc ≠ .start
  fresh : id ∉ s.log → c.pc = .start ∨ ∃ r, c.pc = .done r ∧ r ≠ 0
  ended : ∀ r, c.pc = .done r → (r = 0 ↔ c.woken = true)

theorem setCall_self (s : State) (id : Nat) (c : Call) : (setCall s id c).call id = c := update_self _ _ _

theorem setCall_of_ne {j : Nat} {c : Call} (h : j ≠ id) : (setCall s id c).call j = s.call j :=
  update_of_ne h _ _

theorem Ok.setCall (h : Ok s) {c : Call} (hm : Moves s id c) : Ok (setCall s id c) := by
  refine ⟨fun b => (h.bucket b).trans (filter_congr fun j _ => ?_), h.nodup, fun j hj => ⟨(h.begun j hj).1, ?_⟩,
    fun j hj => ?_, fun j => ?_, h.once, fun j => ?_, fun j => ?_⟩
  · by_cases hid : j = id
    · subst hid
      rw [setCall_self, ← hm.queued]
      by_cases hq : c.queued = true
      · rw [hm.key hq]
      · rw [eq_false_of_ne_true hq, Bool.false_and, Bool.false_and]
    · rw [setCall_of_ne hid]
  · by_cases hid : j = id
    · subst hid
      rw [setCall_self]
      exact hm.begun hj
    · rw [setCall_of_ne hid]
      exact (h.begun j hj).2
  · by_cases hid : j = id
    · subst hid
      rw [setCall_self, hm.woken]
      exact ⟨(h.fresh j hj).1, hm.fresh hj⟩
    · rw [setCall_of_ne hid]
      exact h.fresh j hj
  · by_cases hid : j = id
    · subst hid
      rw [setCall_self, hm.woken]
      exact h.woken j
    · rw [setCall_of_ne hid]
      exact h.woken j
  · by_cases hid : j = id
    · subst hid
      rw [setCall_self]
      exact hm.ready
    · rw [setCall_of_ne hid]
      exact h.ready j
  by_cases hid : j = id
  · subst hid
    rw [setCall_self]
    exact hm.ended
  · rw [setCall_of_ne hid]
    exact h.ended j

theorem Ok.not_mem_log (h : Ok s) (hpc : (s.call id).pc = .start) : id ∉ s.log :=
  fun hid => (h.begun id hid).2 hpc

theorem Ok.mem_log (h : Ok s) (hstart : (s.call id).pc ≠ .start)
    (hdone : ∀ r, (s.call id).pc ≠ .done r) : id ∈ s.log := by
  by_contra hid
  rcases (h.fresh id hid).2 with hpc | ⟨r, hpc, -⟩
  · exact hstart hpc
  · exact hdone r hpc

theorem Moves.early (h : Ok s) {c : Call} (hid : id ∉ s.log) (hwoken : c.woken = false)
    (hpc : c.pc = .start ∨ ∃ r, c.pc = .done r ∧ r ≠ 0) : Moves s id c := by
  have hold := h.fresh id hid
  have hquiet : ∀ {d : Call}, (d.pc = .start ∨ ∃ r, d.pc = .done r ∧ r ≠ 0) → d.queued = false := by
    intro d hd
    unfold Call.queued
    rcases hd with hd | ⟨r, hd, -⟩
    · rw [hd, Bool.and_false]
    · rw [hd, Bool.and_false]
  refine ⟨(hquiet hpc).trans (hquiet hold.2).symm, fun hq => ?_, hwoken.trans hold.1.symm, fun hw => ?_,
    fun hlog => absurd hlog hid, fun _ => hpc, fun r hr => ?_⟩
  · exact nomatch (hquiet hpc).symm.trans hq
  · exact nomatch hwoken.symm.trans hw
  rcases hpc with hpc | ⟨r', hpc, hr'⟩
  · exact nomatch hpc.symm.trans hr
  · obtain rfl := Pc.done.inj (hpc.symm.trans hr)
    exact iff_of_false hr' (ne_true_of_eq_false hwoken)

theorem Moves.middle (h : Ok s) {pc : Pc} {running : Bool} (hid : id ∈ s.log)
    (hq : ({ s.call id with pc, running } : Call).queued = (s.call id).queued)
    (hrun : (s.call id).running = true → running = true) (hstart : pc ≠ .start)
    (hdone : ∀ r, pc = .done r → (r = 0 ↔ (s.call id).woken = true)) : Moves s id { s.call id with pc, running } :=
  ⟨hq, fun _ => rfl, rfl, fun hw => hrun (h.ready id hw), fun _ => hstart, fun hn => absurd hid hn, hdone⟩

theorem makeKey_error {p : Place} {e : Int} (h : makeKey p = .error e) : e ≠ 0 := by
  unfold makeKey at h
  split at h
  · cases h
    decide
  split at h
  · cases h
  split at h
  · cases h
    decide
  · cases h

theorem futexWait_ok (h : Ok s) (p : Place) (val : BitVec 32) (timeout : Int) (bitset : BitVec 32) :
    Ok (futexWait s p val timeout bitset) := by
  have hid : s.calls ∉ s.log := fun hlog => Nat.lt_irrefl _ (h.begun _ hlog).1
  have hmore : ∀ {c : Call}, Moves s s.calls c → Ok { setCall s s.calls c with calls := s.calls + 1 } := by
    intro c hm
    have hset := h.setCall hm
    exact ⟨hset.bucket, hset.nodup, fun id hlog => ⟨Nat.lt_succ_of_lt (hset.begun id hlog).1, (hset.begun id hlog).2⟩,
      hset.fresh, hset.woken, hset.once, hset.ready, hset.ended⟩
  unfold futexWait
  dsimp only
  split
  · exact hmore (.early h hid rfl (.inr ⟨_, rfl, by decide⟩))
  split
  · rename_i e he
    exact hmore (.early h hid rfl (.inr ⟨_, rfl, makeKey_error he⟩))
  · exact hmore (.early h hid rfl (.inl rfl))

theorem enqueue_ok (h : Ok s) (hlt : id < s.calls) (hpc : (s.call id).pc = .start) : Ok (enqueue s id (s.call id)) := by
  have hid := h.not_mem_log hpc
  have hwoken := (h.fresh id hid).1
  unfold enqueue
  split
  · exact h.setCall (.early h hid hwoken (.inr ⟨_, rfl, by decide⟩))
  split
  · exact h.setCall (.early h hid hwoken (.inr ⟨_, rfl, by decide⟩))
  have hself := setCall_self s id { s.call id with pc := .queued, running := false }
  have hother : ∀ j ∈ s.log, (setCall s id { s.call id with pc := .queued, running := false }).call j = s.call j :=
    fun j hj => setCall_of_ne (ne_of_mem_of_not_mem hj hid)
  refine ⟨fun b => ?_, ?_, fun j hj => ?_, fun j hj => ?_, fun j => ?_, h.once, fun j hj => ?_, fun j r hj => ?_⟩
  · dsimp only
    rw [filter_append, filter_congr fun j hj => by rw [hother j hj], ← h.bucket b]
    have hq : ({ s.call id with pc := .queued, running := false } : Call).queued = true := by
      unfold Call.queued
      dsimp only
      rw [hwoken]
      rfl
    by_cases hb : b = hash (s.call id).key
    · subst hb
      rw [update_self]
      congr 1
      rw [filter_singleton, hself, hq]
      simp
    have hne : (hash (s.call id).key == b) = false := beq_eq_false_iff_ne.mpr (Ne.symm hb)
    rw [update_of_ne hb, filter_singleton, hself, hq]
    dsimp only
    rw [hne]
    simp
  · refine nodup_append.mpr ⟨h.nodup, nodup_singleton _, fun a ha b hb hab => ?_⟩
    rw [mem_singleton] at hb
    exact hid (hb ▸ hab ▸ ha)
  · rcases mem_append.mp hj with hj | hj
    · dsimp only
      rw [hother j hj]
      exact h.begun j hj
    · obtain rfl := mem_singleton.mp hj
      refine ⟨hlt, ?_⟩
      dsimp only
      rw [hself]
      exact nofun
  · have hne : j ≠ id := fun he => hj (mem_append_right _ (mem_singleton.mpr he))
    dsimp only
    rw [setCall_of_ne hne]
    exact h.fresh j fun hlog => hj (mem_append_left _ hlog)
  · refine (h.woken j).trans ?_
    dsimp only
    by_cases hne : j = id
    · subst hne
      rw [hself]
    · rw [setCall_of_ne hne]
  · dsimp only at hj ⊢
    by_cases hne : j = id
    · subst hne
      rw [hself] at hj
      exact nomatch hwoken.symm.trans hj
    · rw [setCall_of_ne hne] at hj ⊢
      exact h.ready j hj
  dsimp only at hj ⊢
  by_cases hne : j = id
  · subst hne
    rw [hself] at hj
    cases hj
  · rw [setCall_of_ne hne] at hj ⊢
    exact h.ended j r hj

theorem lateResult_ne_zero (ret : Int) (signal : Bool) : lateResult ret signal ≠ 0 := by
  unfold lateResult
  dsimp only
  split
  · cases signal <;> decide
  · assumption

theorem leave_ok (h : Ok s) {ret : Int} (hpc : (s.call id).pc = .back ret) : Ok (leave s id (s.call id) ret) := by
  have hid : id ∈ s.log := h.mem_log (by rw [hpc]; exact nofun) fun r => by rw [hpc]; exact nofun
  unfold leave
  split
  · rename_i hwoken
    refine h.setCall ⟨?_, fun _ => rfl, rfl, h.ready id, fun _ => nofun, fun hn => absurd hid hn, fun r hr => ?_⟩
    · unfold Call.queued
      dsimp only
      rw [hwoken]
      rfl
    · obtain rfl := Pc.done.inj hr
      exact iff_of_true rfl hwoken
  rename_i hwoken
  have hother : ∀ {j}, j ≠ id →
      (setCall s id { s.call id with pc := .done (lateResult ret (s.call id).signal) }).call j = s.call j :=
    fun hne => setCall_of_ne hne
  have hself := setCall_self s id { s.call id with pc := .done (lateResult ret (s.call id).signal) }
  refine ⟨fun b => ?_, h.nodup, fun j hj => ⟨(h.begun j hj).1, ?_⟩, fun j hj => ?_, fun j => ?_, h.once,
    fun j hj => ?_, fun j r hj => ?_⟩
  · -- the record goes out of whichever bucket it is in
    dsimp only
    rw [h.bucket b, (h.nodup.filter _).erase_eq_filter, filter_filter]
    refine filter_congr fun j _ => ?_
    by_cases hne : j = id
    · subst hne
      rw [hself]
      simp [Call.queued]
    · rw [hother hne]
      simp [hne]
  · dsimp only
    by_cases hne : j = id
    · subst hne
      rw [hself]
      exact nofun
    · rw [hother hne]
      exact (h.begun j hj).2
  · dsimp only
    rw [hother fun he => hj (he ▸ hid)]
    exact h.fresh j hj
  · refine (h.woken j).trans ?_
    dsimp only
    by_cases hne : j = id
    · subst hne
      rw [hself]
    · rw [hother hne]
  · dsimp only at hj ⊢
    by_cases hne : j = id
    · subst hne
      rw [hself] at hj ⊢
      exact h.ready j hj
    · rw [hother hne] at hj ⊢
      exact h.ready j hj
  dsimp only at hj ⊢
  by_cases hne : j = id
  · subst hne
    rw [hself] at hj ⊢
    obtain rfl := Pc.done.inj hj
    exact iff_of_false (lateResult_ne_zero _ _) hwoken
  · rw [hother hne] at hj ⊢
    exact h.ended j r hj

theorem go_ok (h : Ok s) (hlt : id < s.calls) (expired : Bool) : Ok (go s id expired) := by
  have hmid : ∀ {pc : Pc}, (s.call id).pc = pc → pc ≠ .start → (∀ r, pc ≠ .done r) → id ∈ s.log := by
    rintro pc rfl hstart hdone
    exact h.mem_log hstart hdone
  unfold go
  dsimp only
  split
  · rename_i hpc
    exact enqueue_ok h hlt hpc
  · rename_i hpc
    have hid := hmid hpc nofun nofun
    have hq : ∀ {pc : Pc} {running : Bool}, (pc = .asleep ∨ ∃ ret, pc = .back ret) →
        ({ s.call id with pc, running } : Call).queued = (s.call id).queued := by
      intro pc running hnext
      unfold Call.queued
      dsimp only
      rw [hpc]
      rcases hnext with rfl | ⟨ret, rfl⟩
      · rfl
      · rfl
    split
    · exact h.setCall (.middle h hid (hq (.inr ⟨_, rfl⟩)) (fun _ => rfl) nofun nofun)
    split
    · exact h.setCall (.middle h hid (hq (.inr ⟨_, rfl⟩)) (fun _ => rfl) nofun nofun)
    · exact h.setCall (.middle h hid (hq (.inl rfl)) (fun hrun => hrun) nofun nofun)
  · rename_i hpc
    have hid := hmid hpc nofun nofun
    split
    · exact h
    refine h.setCall (.middle h hid ?_ (fun hrun => hrun) nofun nofun)
    unfold Call.queued
    dsimp only
    rw [hpc]
  · rename_i ret hpc
    exact leave_ok h hpc
  · exact h

section Wake

variable {call : Nat → Call} {key : Key} {n : Int} {bitset : BitVec 32}

theorem wakeLoop_fst (woken : Int) (l : List Nat) :
    (wakeLoop call key n bitset woken l).1 = (l.filter fun id => (call id).hit key bitset).take (n - woken).toNat := by
  induction l generalizing woken with
  | nil => simp [wakeLoop]
  | cons id rest ih =>
  unfold wakeLoop
  split
  · rename_i hn
    rw [Int.toNat_eq_zero.mpr (by omega), take_zero]
  rename_i hn
  split
  · rename_i hhit
    rw [filter_cons_of_neg (p := fun id => (call id).hit key bitset) (ne_true_of_eq_false hhit)]
    exact ih woken
  rename_i hhit
  rw [filter_cons_of_pos (p := fun id => (call id).hit key bitset) (eq_true_of_ne_false hhit),
    show (n - woken).toNat = (n - (woken + 1)).toNat + 1 by omega, take_succ_cons]
  exact congrArg _ (ih (woken + 1))

theorem wakeLoop_subset (woken : Int) {l : List Nat} (h : id ∈ (wakeLoop call key n bitset woken l).1) : id ∈ l := by
  rw [wakeLoop_fst] at h
  exact mem_of_mem_filter (mem_of_mem_take h)

theorem wakeLoop_snd (woken : Int) {l : List Nat} (hl : l.Nodup) :
    (wakeLoop call key n bitset woken l).2 = l.filter fun id => id ∉ (wakeLoop call key n bitset woken l).1 := by
  induction l generalizing woken with
  | nil => rfl
  | cons id rest ih =>
  obtain ⟨hid, hrest⟩ := nodup_cons.mp hl
  unfold wakeLoop
  split
  · exact (filter_eq_self.mpr fun j _ => by simp).symm
  split
  · have hnot : id ∉ (wakeLoop call key n bitset woken rest).1 := fun h => hid (wakeLoop_subset woken h)
    rw [filter_cons_of_pos (by simpa using hnot)]
    exact congrArg _ (ih woken hrest)
  rw [filter_cons_of_neg (by simp)]
  refine (ih (woken + 1) hrest).trans (filter_congr fun j hj => ?_)
  have hne : j ≠ id := ne_of_mem_of_not_mem hj hid
  simp [hne]

end Wake

def hits (s : State) (key : Key) (bitset : BitVec 32) : List Nat :=
  s.log.filter fun id => (s.call id).queued && (s.call id).hit key bitset

theorem Ok.hits_eq (h : Ok s) (key : Key) (bitset : BitVec 32) :
    (s.bucket (hash key)).filter (fun id => (s.call id).hit key bitset) = hits s key bitset := by
  unfold hits
  rw [h.bucket, filter_filter]
  refine filter_congr fun id _ => ?_
  unfold Call.hit
  by_cases hkey : (s.call id).key = key
  · subst hkey
    simp [Bool.and_comm]
  · simp [beq_eq_false_iff_ne.mpr hkey]

structure Woke (s s' : State) (ret : Int) (out : List Nat) : Prop where
  ret : ret = out.length
  call : ∀ id, s'.call id = if id ∈ out then { s.call id with woken := true, running := true } else s.call id
  bucket : ∀ b, s'.bucket b = (s.bucket b).filter fun id => id ∉ out
  dequeued : s'.dequeued = s.dequeued ++ out
  rest : s'.calls = s.calls ∧ s'.mem = s.mem ∧ s'.log = s.log

theorem wakeKey_woke (h : Ok s) (key : Key) (n : Int) (bitset : BitVec 32) :
    Woke s (wakeKey s key n bitset).1 (wakeKey s key n bitset).2 ((hits s key bitset).take n.toNat) := by
  have hout : (wakeLoop s.call key n bitset 0 (s.bucket (hash key))).1 = (hits s key bitset).take n.toNat := by
    rw [wakeLoop_fst, h.hits_eq, Int.sub_zero]
  have hnodup : (s.bucket (hash key)).Nodup := by
    rw [h.bucket]
    exact h.nodup.filter _
  unfold wakeKey
  dsimp only
  rw [wakeLoop_snd 0 hnodup, hout]
  refine ⟨rfl, fun id => rfl, fun b => ?_, rfl, rfl, rfl, rfl⟩
  dsimp only
  by_cases hb : b = hash key
  · subst hb
    rw [update_self]
  rw [update_of_ne hb]
  refine (filter_eq_self.mpr fun id hid => ?_).symm
  rw [decide_eq_true_eq]
  intro hmem
  rw [← hout] at hmem
  have hmem' := wakeLoop_subset 0 hmem
  rw [h.bucket] at hid hmem'
  have h1 := (mem_filter.mp hid).2
  have h2 := (mem_filter.mp hmem').2
  rw [Bool.and_eq_true, beq_iff_eq] at h1 h2
  exact hb (h1.2.symm.trans h2.2)

theorem mem_hits {key : Key} {bitset : BitVec 32} {k : Nat} (h : id ∈ (hits s key bitset).take k) :
    id ∈ s.log ∧ (s.call id).queued = true := by
  have hmem := mem_filter.mp (mem_of_mem_take h)
  exact ⟨hmem.1, ((Bool.and_eq_true _ _).mp hmem.2).1⟩

theorem Woke.ok {s' : State} {ret : Int} {key : Key} {bitset : BitVec 32} {k : Nat} (h : Ok s)
    (hw : Woke s s' ret ((hits s key bitset).take k)) : Ok s' := by
  obtain ⟨hcalls, hmem, hlog⟩ := hw.rest
  have hin : ∀ {id}, id ∈ (hits s key bitset).take k → s'.call id = { s.call id with woken := true, running := true } :=
    fun hid => (hw.call _).trans (if_pos hid)
  have hout : ∀ {id}, id ∉ (hits s key bitset).take k → s'.call id = s.call id := fun hid => (hw.call _).trans (if_neg hid)
  -- a waiter that is dequeued was not woken and has not returned
  have hunwoken : ∀ {id}, id ∈ (hits s key bitset).take k → (s.call id).woken = false ∧ ∀ r, (s.call id).pc ≠ .done r := by
    intro id hid
    have hq := (mem_hits hid).2
    unfold Call.queued at hq
    rw [Bool.and_eq_true, Bool.not_eq_true'] at hq
    refine ⟨hq.1, fun r hr => ?_⟩
    rw [hr] at hq
    exact nomatch hq.2
  refine ⟨fun b => ?_, hlog ▸ h.nodup, fun id hid => ?_, fun id hid => ?_, fun id => ?_, ?_, fun id hid => ?_,
    fun id r hid => ?_⟩
  · rw [hw.bucket b, h.bucket b, filter_filter, hlog]
    refine filter_congr fun id _ => ?_
    by_cases hid : id ∈ (hits s key bitset).take k
    · rw [hin hid]
      simp [hid, Call.queued]
    · rw [hout hid]
      simp [hid]
  · rw [hlog] at hid
    rw [hcalls]
    by_cases ho : id ∈ (hits s key bitset).take k
    · rw [hin ho]
      exact h.begun id hid
    · rw [hout ho]
      exact h.begun id hid
  · rw [hlog] at hid
    rw [hout fun ho => hid (mem_hits ho).1]
    exact h.fresh id hid
  · rw [hw.dequeued, mem_append, h.woken id]
    by_cases ho : id ∈ (hits s key bitset).take k
    · rw [hin ho]
      exact iff_of_true (.inr ho) rfl
    · rw [hout ho]
      exact or_iff_left ho
  · rw [hw.dequeued]
    refine nodup_append.mpr ⟨h.once, (h.nodup.filter _).sublist (take_sublist _ _), fun a ha b hb hab => ?_⟩
    subst hab
    exact nomatch (hunwoken hb).1.symm.trans ((h.woken a).mp ha)
  · by_cases ho : id ∈ (hits s key bitset).take k
    · rw [hin ho]
    · rw [hout ho] at hid ⊢
      exact h.ready id hid
  by_cases ho : id ∈ (hits s key bitset).take k
  · rw [hin ho] at hid
    exact absurd hid ((hunwoken ho).2 r)
  · rw [hout ho] at hid ⊢
    exact h.ended id r hid

theorem futexWakeBitset_ok (h : Ok s) (p : Place) (n : Int) (bitset : BitVec 32) :
    Ok (futexWakeBitset s p n bitset).1 := by
  unfold futexWakeBitset
  split
  · exact h
  split
  · exact h
  · exact (wakeKey_woke h _ n bitset).ok h

theorem flags_ok (h : Ok s) (id : Nat) (running signal : Bool)
    (hrun : (s.call id).running = true → running = true) : Ok (setCall s id { s.call id with running, signal }) :=
  h.setCall ⟨rfl, fun _ => rfl, rfl, fun hw => hrun (h.ready id hw), fun hid => (h.begun id hid).2,
    fun hid => (h.fresh id hid).2, h.ended id⟩

theorem step_ok (h : Ok s) (ev : Event) : Ok (step s ev) := by
  cases ev with
  | wait p val timeout bitset => exact futexWait_ok h p val timeout bitset
  | go id expired =>
    unfold step
    dsimp only
    split
    · rename_i hlt
      exact go_ok h hlt expired
    · exact h
  | wake p n bitset => exact futexWakeBitset_ok h p n bitset
  | store mem => exact ⟨h.bucket, h.nodup, h.begun, h.fresh, h.woken, h.once, h.ready, h.ended⟩
  | signal id pending =>
    refine flags_ok h id _ pending fun hrun => ?_
    rw [hrun, Bool.or_true]
  | rouse id => exact flags_ok h id true (s.call id).signal fun _ => rfl

theorem run_ok (mem : BitVec 64 → BitVec 64 → Option (BitVec 32)) (evs : List Event) : Ok (run (boot mem) evs) :=
  List.foldlRecOn evs step (boot_ok mem) fun _ h ev _ => step_ok h ev

theorem go_queues {j b : Nat} {expired : Bool} (hout : j ∉ s.bucket b)
    (hin : j ∈ (go s id expired).bucket b) : j = id ∧ s.mem (s.call id).mm (s.call id).uaddr = some (s.call id).val := by
  unfold go at hin
  dsimp only at hin
  split at hin
  · unfold enqueue at hin
    split at hin
    · exact absurd hin hout
    rename_i cur hcur
    split at hin
    · exact absurd hin hout
    rename_i hval
    refine ⟨?_, hcur.trans (congrArg some (not_not.mp hval))⟩
    dsimp only at hin
    by_cases hb : b = hash (s.call id).key
    · subst hb
      rw [update_self] at hin
      rcases mem_append.mp hin with hin | hin
      · exact absurd hin hout
      · exact mem_singleton.mp hin
    · rw [update_of_ne hb] at hin
      exact absurd hin hout
  · repeat' split at hin
    all_goals exact absurd hin hout
  · split at hin
    all_goals exact absurd hin hout
  · unfold leave at hin
    split at hin
    · exact absurd hin hout
    · exact absurd (mem_of_mem_erase hin) hout
  · exact absurd hin hout

theorem step_queues (h : Ok s) {ev : Event} {b : Nat} (hout : id ∉ s.bucket b) (hin : id ∈ (step s ev).bucket b) :
    (∃ expired, ev = .go id expired) ∧ s.mem (s.call id).mm (s.call id).uaddr = some (s.call id).val := by
  cases ev with
  | wait p val timeout bitset => exact absurd hin hout
  | go j expired =>
    unfold step at hin
    dsimp only at hin
    split at hin
    · obtain ⟨rfl, hmem⟩ := go_queues hout hin
      exact ⟨⟨expired, rfl⟩, hmem⟩
    · exact absurd hin hout
  | wake p n bitset =>
    refine absurd ?_ hout
    change id ∈ (futexWakeBitset s p n bitset).1.bucket b at hin
    unfold futexWakeBitset at hin
    split at hin
    · exact hin
    split at hin
    · exact hin
    · rw [(wakeKey_woke h _ n bitset).bucket b] at hin
      exact mem_of_mem_filter hin
  | store mem => exact absurd hin hout
  | signal j pending => exact absurd hin hout
  | rouse j => exact absurd hin hout

def Pc.left : Pc → Nat
  | .start => 4
  | .queued => 3
  | .asleep => 2
  | .back _ => 1
  | .done _ => 0

theorem go_advances (h : Ok s) (hw : (s.call id).woken = true) (expired : Bool) :
    ((go s id expired).call id).pc.left ≤ (s.call id).pc.left - 1 ∧ ((go s id expired).call id).woken = true := by
  have hlog : id ∈ s.log := by
    by_contra hid
    exact nomatch (h.fresh id hid).1.symm.trans hw
  unfold go
  dsimp only
  split
  · rename_i hpc
    exact absurd hpc (h.begun id hlog).2
  · rename_i hpc
    repeat' split
    all_goals
      rw [setCall_self, hpc]
      exact ⟨by simp [Pc.left], hw⟩
  · rename_i hpc
    rw [if_neg (by rw [h.ready id hw]; decide), setCall_self, hpc]
    exact ⟨Nat.le_refl _, hw⟩
  · rename_i ret hpc
    unfold leave
    rw [if_pos hw, setCall_self, hpc]
    exact ⟨Nat.le_refl _, hw⟩
  rename_i ret hpc
  rw [hpc]
  exact ⟨Nat.le_refl _, hw⟩

theorem step_go (hlt : id < s.calls) (expired : Bool) : step s (.go id expired) = go s id expired :=
  if_pos hlt

theorem Ok.lt_calls (h : Ok s) (hw : (s.call id).woken = true) : id < s.calls := by
  by_contra hlt
  have hid : id ∉ s.log := fun hlog => hlt (h.begun id hlog).1
  exact nomatch (h.fresh id hid).1.symm.trans hw

theorem woken_returns (h : Ok s) (hw : (s.call id).woken = true) (e1 e2 e3 : Bool) :
    ((run s [.go id e1, .go id e2, .go id e3]).call id).pc = .done 0 := by
  have hstep : ∀ {s : State}, Ok s → (s.call id).woken = true → ∀ e, Ok (step s (.go id e)) ∧
      ((step s (.go id e)).call id).woken = true ∧
      ((step s (.go id e)).call id).pc.left ≤ (s.call id).pc.left - 1 := by
    intro s h hw e
    have hadv := go_advances h hw e
    rw [← step_go (h.lt_calls hw) e] at hadv
    exact ⟨step_ok h _, hadv.2, hadv.1⟩
  obtain ⟨h1, hw1, hl1⟩ := hstep h hw e1
  obtain ⟨h2, hw2, hl2⟩ := hstep h1 hw1 e2
  obtain ⟨h3, hw3, hl3⟩ := hstep h2 hw2 e3
  have hstart : (s.call id).pc ≠ .start := by
    intro hpc
    exact nomatch (h.fresh id (h.not_mem_log hpc)).1.symm.trans hw
  have hleft : (s.call id).pc.left ≤ 3 := by
    cases hpc : (s.call id).pc with
    | start => exact absurd hpc hstart
    | queued => decide
    | asleep => decide
    | back ret => exact Nat.le_of_lt_succ (by decide : 1 < 4)
    | done ret => exact Nat.zero_le _
  change ((step (step (step s (.go id e1)) (.go id e2)) (.go id e3)).call id).pc = .done 0
  have hzero : ((step (step (step s (.go id e1)) (.go id e2)) (.go id e3)).call id).pc.left = 0 := by omega
  cases hpc : ((step (step (step s (.go id e1)) (.go id e2)) (.go id e3)).call id).pc with
  | done r => rw [(h3.ended id r hpc).mpr hw3]
  | start => rw [hpc] at hzero; cases hzero
  | queued => rw [hpc] at hzero; cases hzero
  | asleep => rw [hpc] at hzero; cases hzero
  | back ret => rw [hpc] at hzero; cases hzero

-- In every run: records are queued where the expected value is found, a wake dequeues the first n that it hits,
-- and a call that a wake has dequeued returns 0.
theorem futex_wait_wake (mem : BitVec 64 → BitVec 64 → Option (BitVec 32)) (evs : List Event) :
    let s := run (boot mem) evs
    (∀ ev id b, id ∉ s.bucket b → id ∈ (step s ev).bucket b →
        (∃ expired, ev = .go id expired) ∧ s.mem (s.call id).mm (s.call id).uaddr = some (s.call id).val) ∧
      ((∀ b, s.bucket b = s.log.filter fun id => (s.call id).queued && hash (s.call id).key == b) ∧ s.log.Nodup) ∧
      (∀ p key n bitset, bitset ≠ 0 → makeKey p = .ok key →
        Woke s (futexWakeBitset s p n bitset).1 (futexWakeBitset s p n bitset).2 ((hits s key bitset).take n.toNat)) ∧
      (∀ id, id ∈ s.dequeued → (∀ r, (s.call id).pc = .done r → r = 0) ∧
        ∀ e1 e2 e3, ((run s [.go id e1, .go id e2, .go id e3]).call id).pc = .done 0) ∧
      (∀ id r, (s.call id).pc = .done r → r ≠ 0 → id ∉ s.dequeued) ∧ s.dequeued.Nodup ∧
      (∀ id r b, (s.call id).pc = .done r → id ∉ s.bucket b) := by
  intro s
  have h : Ok s := run_ok mem evs
  refine ⟨fun ev id b => step_queues h, ⟨h.bucket, h.nodup⟩, fun p key n bitset hbits hkey => ?_, fun id hid => ?_,
    fun id r hpc hr hid => ?_, h.once, fun id r b hpc hid => ?_⟩
  · unfold futexWakeBitset
    rw [if_neg hbits, hkey]
    exact wakeKey_woke h key n bitset
  · have hw := (h.woken id).mp hid
    exact ⟨fun r hpc => (h.ended id r hpc).mpr hw, woken_returns h hw⟩
  · exact hr ((h.ended id r hpc).mpr ((h.woken id).mp hid))
  rw [h.bucket b] at hid
  have hq := ((Bool.and_eq_true _ _).mp (mem_filter.mp hid).2).1
  unfold Call.queued at hq
  rw [hpc, Bool.and_false] at hq
  cases hq

end Olux.Futex
