import Olux.Cred

namespace Olux.Cred

variable {c : Cred}

def Unprivileged (c : Cred) : Prop := c.uid ≠ 0 ∧ c.euid ≠ 0 ∧ c.suid ≠ 0

theorem Unprivileged.uidOk_ne (h : c.Unprivileged) {id : UInt32} (hok : c.uidOk id = true) : id ≠ 0 := by
  obtain ⟨hu, he, hs⟩ := h
  simp only [uidOk, he, decide_false, Bool.false_or, Bool.or_eq_true, decide_eq_true_eq] at hok
  rcases hok with (rfl | rfl) | rfl
  · exact hu
  · exact he
  · exact hs

theorem Unprivileged.pick (h : c.Unprivileged) {id old : UInt32} (hok : ¬((id ≠ keep && !c.uidOk id) = true))
    (hold : old ≠ 0) : (if id ≠ keep then id else old) ≠ 0 := by
  by_cases hk : id = keep
  · simpa [hk] using hold
  · rw [if_pos hk]
    exact h.uidOk_ne (by simpa [hk] using hok)

theorem Unprivileged.setresuid (h : c.Unprivileged) (r e s : UInt64) : (sysSetresuid r e s c).2.Unprivileged := by
  simp only [sysSetresuid]
  split
  · exact h
  rename_i hok
  simp only [Bool.or_eq_true, not_or] at hok
  exact ⟨h.pick hok.1.1 h.1, h.pick hok.1.2 h.2.1, h.pick hok.2 h.2.2⟩

theorem Unprivileged.setuid (h : c.Unprivileged) (uid : UInt64) : (sysSetuid uid c).2.Unprivileged := by
  simp only [sysSetuid, if_neg h.2.1]
  split
  · exact h
  rename_i hok
  refine ⟨h.1, ?_, h.2.2⟩
  by_cases hu : uid = c.uid.toUInt64
  · subst hu
    simpa using h.1
  by_cases hs : uid = c.suid.toUInt64
  · subst hs
    simpa using h.2.2
  · exact absurd ⟨hu, hs⟩ hok

theorem Unprivileged.run (h : c.Unprivileged) (k : UidCall) : (k.run c).2.Unprivileged := by
  cases k with
  | setuid uid => exact h.setuid uid
  | setreuid r e => exact h.setresuid r e _
  | setresuid r e s => exact h.setresuid r e s

theorem Unprivileged.after (h : c.Unprivileged) (calls : List UidCall) : (after calls c).Unprivileged := by
  induction calls generalizing c with
  | nil => exact h
  | cons k calls ih => exact ih (h.run k)

theorem uidOk_setresuid (h : c.Unprivileged) (r e s : UInt64) {id : UInt32}
    (hid : (sysSetresuid r e s c).2.uidOk id = true) : c.uidOk id = true := by
  have h' := h.setresuid r e s
  simp only [sysSetresuid] at hid h'
  split at hid
  · exact hid
  grind [uidOk, Unprivileged]

theorem uidOk_setuid (h : c.Unprivileged) (uid : UInt64) {id : UInt32} (hid : (sysSetuid uid c).2.uidOk id = true) :
    c.uidOk id = true := by
  have h' := h.setuid uid
  grind [uidOk, Unprivileged, sysSetuid, UInt32.toUInt32_toUInt64]

-- Without privilege the ids that a process may take are never more than those it has at the start.
theorem uidOk_after (h : c.Unprivileged) (calls : List UidCall) {id : UInt32}
    (hid : (after calls c).uidOk id = true) : c.uidOk id = true := by
  induction calls generalizing c with
  | nil => exact hid
  | cons k calls ih =>
    have hrun := ih (h.run k) hid
    cases k with
    | setuid uid => exact uidOk_setuid h uid hrun
    | setreuid r e => exact uidOk_setresuid h r e _ hrun
    | setresuid r e s => exact uidOk_setresuid h r e s hrun

theorem uidOk_after_user : (after [.setuid 7, .setreuid 5 0] ⟨5, 6, 7, 0, 0, 0, []⟩).uidOk 0 = false :=
  Bool.eq_false_iff.mpr fun h => absurd (uidOk_after (c := ⟨5, 6, 7, 0, 0, 0, []⟩) ⟨by decide, by decide, by decide⟩ _ h)
    (by decide)

inductive Drop where
  | setuid
  | setreuid
  | setresuid

def Drop.call (u : UInt64) : Drop → UidCall
  | .setuid => .setuid u
  | .setreuid => .setreuid u u
  | .setresuid => .setresuid u u u

-- What it takes for root to be gone for good. setreuid leaves the saved id behind, and the
-- two calls that go through setresuid do nothing for an id whose low half is all ones.
def Drop.Permanent (u : UInt64) (c : Cred) : Drop → Prop
  | .setuid => u.toUInt32 ≠ 0
  | .setreuid => u.toUInt32 ≠ 0 ∧ u.toUInt32 ≠ keep ∧ c.suid ≠ 0
  | .setresuid => u.toUInt32 ≠ 0 ∧ u.toUInt32 ≠ keep

theorem setresuid_of_root (hroot : c.euid = 0) (r e s : UInt64) : sysSetresuid r e s c = (0, { c with
      uid := if r.toUInt32 ≠ keep then r.toUInt32 else c.uid
      euid := if e.toUInt32 ≠ keep then e.toUInt32 else c.euid
      suid := if s.toUInt32 ≠ keep then s.toUInt32 else c.suid }) := by
  simp [sysSetresuid, uidOk, hroot]

theorem drop_succeeds (hroot : c.euid = 0) (k : Drop) (u : UInt64) : ((k.call u).run c).1 = 0 := by
  cases k with
  | setuid => simp [Drop.call, UidCall.run, sysSetuid, hroot]
  | setreuid => simp only [Drop.call, UidCall.run, sysSetreuid, setresuid_of_root hroot]
  | setresuid => simp only [Drop.call, UidCall.run, setresuid_of_root hroot]

theorem Drop.Permanent.unprivileged (hroot : c.euid = 0) {k : Drop} {u : UInt64} (h : k.Permanent u c) :
    ((k.call u).run c).2.Unprivileged := by
  cases k with
  | setuid =>
    simp only [Drop.call, UidCall.run, sysSetuid, if_pos hroot]
    exact ⟨h, h, h⟩
  | setreuid =>
    obtain ⟨h0, hk, hs⟩ := h
    simp only [Drop.call, UidCall.run, sysSetreuid, setresuid_of_root hroot, if_pos hk]
    exact ⟨h0, h0, by simpa [keep] using hs⟩
  | setresuid =>
    obtain ⟨h0, hk⟩ := h
    simp only [Drop.call, UidCall.run, setresuid_of_root hroot, if_pos hk]
    exact ⟨h0, h0, h0⟩

theorem regain_of_suid (heuid : c.euid ≠ 0) (hsuid : c.suid = 0) : (sysSetuid 0 c).2.euid = 0 := by
  simp [sysSetuid, heuid, hsuid]

theorem drop_permanent_iff (hroot : c.euid = 0) (k : Drop) (u : UInt64) : ((k.call u).run c).1 = 0 ∧
      ((∀ calls, (after calls ((k.call u).run c).2).euid ≠ 0 ∧ (after calls ((k.call u).run c).2).uid ≠ 0) ↔
        k.Permanent u c) := by
  refine ⟨drop_succeeds hroot k u, fun h => ?_, fun h calls => ?_⟩
  · have hnow : ((k.call u).run c).2.euid ≠ 0 := (h []).1
    cases k with
    | setuid => simpa [Drop.call, UidCall.run, sysSetuid, hroot, Drop.Permanent] using hnow
    | setreuid =>
      simp only [Drop.call, UidCall.run, sysSetreuid, setresuid_of_root hroot] at hnow h
      have hk : u.toUInt32 ≠ keep := by
        intro hk
        simp [hk, hroot] at hnow
      rw [if_pos hk] at hnow
      refine ⟨hnow, hk, fun hs => ?_⟩
      refine (h [.setuid 0]).1 (regain_of_suid ?_ ?_)
      · simpa [hk] using hnow
      · simpa [keep] using hs
    | setresuid =>
    simp only [Drop.call, UidCall.run, setresuid_of_root hroot] at hnow
    have hk : u.toUInt32 ≠ keep := by
      intro hk
      simp [hk, hroot] at hnow
    rw [if_pos hk] at hnow
    exact ⟨hnow, hk⟩
  · have hafter := (h.unprivileged hroot).after calls
    exact ⟨hafter.2.1, hafter.1⟩

def rootCred : Cred := ⟨0, 0, 0, 0, 0, 0, []⟩

theorem drop_permanent_iff_root : rootCred.euid = 0 ∧ ((Drop.setresuid.call 1000).run rootCred).1 = 0 ∧
      ∀ calls, (after calls ((Drop.setresuid.call 1000).run rootCred).2).euid ≠ 0 ∧
        (after calls ((Drop.setresuid.call 1000).run rootCred).2).uid ≠ 0 :=
  have h := drop_permanent_iff (c := rootCred) rfl .setresuid 1000
  ⟨rfl, h.1, h.2.mpr ⟨by decide, by decide⟩⟩

theorem setreuid_regains_root : rootCred.euid = 0 ∧ ((Drop.setreuid.call 1000).run rootCred).1 = 0 ∧
      (after [.setuid 0] ((Drop.setreuid.call 1000).run rootCred).2).euid = 0 := by decide

end Olux.Cred
