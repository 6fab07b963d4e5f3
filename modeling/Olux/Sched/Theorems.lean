import Olux.Sched

namespace Olux.Sched

variable {cred : Cred} {s s' : Threads}

def RealTime (s : Threads) (tid : Int) : Prop := ∃ t, s tid = some t ∧ isRt t.policy

def Call.Plain : Call → Prop
  | .setscheduler _ _ policy _ => isRt (toInt (policy &&& ~~~0x40000000)) → policy = 1 ∨ policy = 2
  | .setparam _ _ _ => True

instance (k : Call) : Decidable k.Plain := by
  cases k with
  | setscheduler => unfold Call.Plain; infer_instance
  | setparam => unfold Call.Plain; infer_instance

theorem schedSetscheduler_policy (t : Thread) (policy prio : Int) :
    (schedSetscheduler t policy prio).2.policy = policy ∨ (schedSetscheduler t policy prio).2 = t := by
  simp only [schedSetscheduler]
  split
  · split
    · exact .inr rfl
    · exact .inl rfl
  split
  · split
    · exact .inr rfl
    · exact .inl rfl
  · exact .inr rfl

theorem realTime_update {target : Int} {t t' : Thread} (ht : s target = some t) (hkeep : isRt t'.policy → isRt t.policy)
    {tid : Int} (h : RealTime (fun x => if x = target then some t' else s x) tid) : RealTime s tid := by
  obtain ⟨u, hu, hrt⟩ := h
  dsimp only at hu
  by_cases htid : tid = target
  · rw [if_pos htid] at hu
    obtain rfl := Option.some.inj hu
    exact ⟨t, htid ▸ ht, hkeep hrt⟩
  · rw [if_neg htid] at hu
    exact ⟨u, hu, hrt⟩

theorem Call.Plain.step (hcred : cred.euid ≠ 0) {k : Call} (hk : k.Plain) {tid : Int}
    (h : RealTime (k.run cred s).2 tid) : RealTime s tid := by
  cases k with
  | setscheduler cur pid policy param =>
    simp only [Call.Plain] at hk
    simp only [Call.run, sysSchedSetscheduler] at h
    generalize toInt (policy &&& ~~~0x40000000) = narrowed at hk h
    split at h
    · exact h
    rename_i t ht
    split at h
    · exact h
    rename_i prio
    split at h
    · exact h
    rename_i hperm
    have hraw : ¬(policy = 1 ∨ policy = 2) := fun hp => hperm ⟨hp, by simp [Cred.capableRoot, hcred]⟩
    refine realTime_update ht (fun hrt => ?_) h
    rcases schedSetscheduler_policy t narrowed prio with hp | hp
    · rw [hp] at hrt
      exact absurd (hk hrt) hraw
    · rwa [hp] at hrt
  | setparam cur pid param =>
  simp only [Call.run, sysSchedSetparam] at h
  split at h
  · exact h
  rename_i t ht
  split at h
  · exact h
  rename_i prio
  refine realTime_update ht (fun hrt => ?_) h
  rcases schedSetscheduler_policy t t.policy prio with hp | hp
  · rwa [hp] at hrt
  · rwa [hp] at hrt

-- In a run of calls without root whose policies are plain, no thread becomes a real-time one.
theorem after_realTime (hcred : cred.euid ≠ 0) (s : Threads) (calls : List Call) (hplain : ∀ k ∈ calls, k.Plain)
    {tid : Int} (h : RealTime (after cred calls s) tid) : RealTime s tid := by
  induction calls generalizing s with
  | nil => exact h
  | cons k calls ih =>
    have hrest := ih _ (fun k' hk' => hplain k' (List.mem_cons_of_mem k hk')) h
    exact (hplain k List.mem_cons_self).step hcred hrest

def userCred : Cred := ⟨1000, 1000, 1000, 1000, 1000, 1000, []⟩

def oneThread : Threads := fun tid => if tid = 7 then some ⟨SCHED_OTHER, 0, 27, 0⟩ else none

theorem after_realTime_batch :
    userCred.euid ≠ 0 ∧ (∀ k ∈ [Call.setscheduler 7 0 3 (some 0), .setscheduler 7 7 1 (some 50)], k.Plain) ∧
      ¬RealTime (after userCred [.setscheduler 7 0 3 (some 0), .setscheduler 7 7 1 (some 50)] oneThread) 7 := by
  have hplain : ∀ k ∈ [Call.setscheduler 7 0 3 (some 0), .setscheduler 7 7 1 (some 50)], k.Plain := by decide
  refine ⟨by decide, hplain, fun h => ?_⟩
  obtain ⟨t, ht, hrt⟩ := after_realTime (by decide) oneThread _ hplain h
  obtain rfl := Option.some.inj ht
  exact absurd hrt (by decide)

theorem masked_fifo_granted : userCred.euid ≠ 0 ∧ ¬RealTime oneThread 7 ∧
      RealTime (after userCred [.setscheduler 7 0 0x40000001 (some 1)] oneThread) 7 := by
  refine ⟨by decide, ?_, ⟨⟨SCHED_FIFO, 1, 23, 0⟩, by decide, by decide⟩⟩
  rintro ⟨t, ht, hrt⟩
  obtain rfl := Option.some.inj ht
  exact absurd hrt (by decide)

end Olux.Sched
