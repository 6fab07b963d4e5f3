import Olux.Fd

namespace Olux.Fd

open Olux.Lib

def InBounds (m : M α) (s : Task) : Prop := ∃ r, m.run s = .ok r

variable (s : Task)

def Task.openAt (fd : Int) : Option Nat :=
  if 0 ≤ fd ∧ fd < s.files.max then s.files.fd fd.toNat else none

@[simp] theorem ok_bind (a : α) (k : α → Except Fault β) : (Except.ok a >>= k) = k a := rfl

@[simp] theorem error_bind (e : Fault) (k : α → Except Fault β) : (Except.error e >>= k) = .error e := rfl

@[simp] theorem readFd_run (i : Nat) (s : Task) :
    (readFd i).run s = if i < s.files.max then .ok (s.files.fd i, s) else .error (.fd i) := by
  by_cases h : i < s.files.max <;> simp [readFd, h] <;> rfl

@[simp] theorem writeFd_run (i : Nat) (f : Option Nat) (s : Task) : (writeFd i f).run s = if i < s.files.max then
      .ok ((), { s with files := { s.files with fd := Function.update s.files.fd i f } })
    else .error (.fd i) := by
  by_cases h : i < s.files.max <;> simp [writeFd, h] <;> rfl

@[simp] theorem readCloexec_run (w : Nat) (s : Task) : (readCloexec w).run s =
      if w < s.files.words then .ok (s.files.cloexec w, s) else .error (.cloexec w) := by
  by_cases h : w < s.files.words <;> simp [readCloexec, h] <;> rfl

@[simp] theorem writeCloexec_run (w : Nat) (v : UInt64) (s : Task) :
    (writeCloexec w v).run s = if w < s.files.words then
      .ok ((), { s with files := { s.files with cloexec := Function.update s.files.cloexec w v } })
    else .error (.cloexec w) := by
  by_cases h : w < s.files.words <;> simp [writeCloexec, h] <;> rfl

theorem setCloexec_run (i : Nat) (on : Bool) (s : Task) : (setCloexec i on).run s =
      if i / 64 < s.files.words then
        (writeCloexec (i / 64) (cloexecBit (s.files.cloexec (i / 64)) i on)).run s
      else .error (.cloexec (i / 64)) := by
  unfold setCloexec
  by_cases h : i / 64 < s.files.words <;> simp [h]

theorem inBounds_bind {m : M α} {k : α → M β} {s s' : Task} {a : α}
    (h : m.run s = .ok (a, s')) : InBounds (m >>= k) s ↔ InBounds (k a) s' := by
  unfold InBounds
  simp only [StateT.run_bind, h]
  rfl

theorem not_inBounds_bind {m : M α} {k : α → M β} {s : Task} {e : Fault}
    (h : m.run s = .error e) : ¬InBounds (m >>= k) s := by
  unfold InBounds
  simp only [StateT.run_bind, h]
  rintro ⟨r, hr⟩
  cases hr

@[simp] theorem inBounds_pure (a : α) (s : Task) : InBounds (pure a : M α) s := ⟨_, rfl⟩

theorem inBounds_bind_iff {m : M α} {k : α → M β} {s : Task}
    (hk : ∀ a s', InBounds (k a) s') : InBounds (m >>= k) s ↔ InBounds m s := by
  cases h : m.run s with
  | error e =>
    refine iff_of_false (not_inBounds_bind h) ?_
    rintro ⟨r, hr⟩
    cases h.symm.trans hr
  | ok r =>
    rw [inBounds_bind h]
    exact iff_of_true (hk _ _) ⟨r, h⟩

theorem inBounds_setCloexec_iff (i : Nat) (on : Bool) (s : Task) :
    InBounds (setCloexec i on) s ↔ i / 64 < s.files.words := by
  unfold InBounds
  rw [setCloexec_run, writeCloexec_run]
  by_cases h : i / 64 < s.files.words <;> simp [h]

theorem inBounds_readCloexec_iff (w : Nat) (s : Task) : InBounds (readCloexec w) s ↔ w < s.files.words := by
  unfold InBounds
  rw [readCloexec_run]
  by_cases h : w < s.files.words <;> simp [h]

@[simp] theorem modifyFile_run (f : Nat) (g : File → File) (s : Task) : (modifyFile f g).run s =
      .ok ((), { s with file := Function.update s.file f (g (s.file f)) }) := rfl

theorem fget_run (fd : Int) (s : Task) :
    ∃ s', s'.files = s.files ∧ s'.nofile = s.nofile ∧ (fget fd).run s = .ok (s.openAt fd, s') := by
  unfold fget Task.openAt
  by_cases h : fd < 0 ∨ (s.files.max : Int) ≤ fd
  · refine ⟨s, rfl, rfl, ?_⟩
    rw [if_neg (by omega)]
    simp [h]
    rfl
  have hi : fd.toNat < s.files.max := by omega
  rw [if_pos (by omega)]
  cases hf : s.files.fd fd.toNat with
  | none =>
    refine ⟨s, rfl, rfl, ?_⟩
    simp [h, hi, hf]
    rfl
  | some f =>
    let taken : File := { s.file f with refcount := (s.file f).refcount + 1 }
    refine ⟨{ s with file := Function.update s.file f taken }, rfl, rfl, ?_⟩
    simp [h, hi, hf, fileGet, taken]

theorem inBounds_fdInstallFrom (f : Nat) (cloexec : Bool) (i n : Nat) (s : Task)
    (h : i + n ≤ s.files.max) : InBounds (fdInstallFrom f cloexec i n) s := by
  induction n generalizing i with
  | zero => exact inBounds_pure _ s
  | succ n ih =>
  have hi : i < s.files.max := by omega
  have hread := readFd_run i s
  rw [if_pos hi] at hread
  unfold fdInstallFrom
  rw [inBounds_bind hread]
  cases s.files.fd i with
  | some g => exact ih (i + 1) (by omega)
  | none =>
  have hwrite := writeFd_run i (some f) s
  rw [if_pos hi] at hwrite
  simp only [inBounds_bind hwrite]
  rw [inBounds_bind_iff (by intros; exact inBounds_pure _ _), inBounds_setCloexec_iff]
  simp only [FdTable.words]
  omega

theorem inBounds_fdInstall (f : Nat) (minFd : Int) (cloexec : Bool) (s : Task)
    (h : minFd.toNat ≤ s.files.max) : InBounds (fdInstall f minFd cloexec) s := by
  apply inBounds_fdInstallFrom
  split <;> omega

def Call.IndexFits : Call → Prop
  | .dup3 oldfd newfd flags =>
    newfd.toNat < 2 ^ 32 ∨ oldfd = newfd ∨ flags &&& ~~~O_CLOEXEC ≠ 0 ∨
      ¬(0 ≤ narrowInt newfd.toNat ∧ narrowInt newfd.toNat < s.files.max) ∨
      s.openAt (narrowInt oldfd.toNat) = none
  | .fcntl fd cmd _ =>
    fd.toNat < 2 ^ 32 ∨ (cmd ≠ F_GETFD ∧ cmd ≠ F_SETFD) ∨ s.openAt (narrowInt fd.toNat) = none
  | .ioctl fd cmd _ =>
    fd.toNat < 2 ^ 32 ∨ (cmd.toUInt32 ≠ FIOCLEX ∧ cmd.toUInt32 ≠ FIONCLEX) ∨ s.openAt (narrowInt fd.toNat) = none

theorem index_lt_iff (n : Nat) (t : FdTable) (h : 0 ≤ narrowInt n ∧ narrowInt n < t.max) : n < t.max ↔ n < 2 ^ 32 := by
  have hmax := t.max_lt
  have hn := toNat_narrowInt h.1
  omega

theorem word_lt_iff (n : Nat) (t : FdTable) (h : 0 ≤ narrowInt n ∧ narrowInt n < t.max) :
    n / 64 < t.words ↔ n < 2 ^ 32 := by
  have hmax := t.max_lt
  have hn := toNat_narrowInt h.1
  unfold FdTable.words
  omega

theorem openAt_range {s : Task} {fd : Int} {f : Nat} (h : s.openAt fd = some f) : 0 ≤ fd ∧ fd < s.files.max := by
  unfold Task.openAt at h
  split at h
  · assumption
  · cases h

theorem inBounds_replace_iff (n f : Nat) (on : Bool) (s : Task) (h : 0 ≤ narrowInt n ∧ narrowInt n < s.files.max) :
    InBounds (do writeFd n (some f); setCloexec n on; return (n : Int)) s ↔ n < 2 ^ 32 := by
  have hw := writeFd_run n (some f) s
  by_cases hn : n < 2 ^ 32
  · rw [if_pos ((index_lt_iff n s.files h).mpr hn)] at hw
    rw [inBounds_bind hw, inBounds_bind_iff (by intros; exact inBounds_pure _ _), inBounds_setCloexec_iff]
    exact iff_of_true ((word_lt_iff n s.files h).mpr hn) hn
  · rw [if_neg (fun hlt => hn ((index_lt_iff n s.files h).mp hlt))] at hw
    exact iff_of_false (not_inBounds_bind hw) hn

theorem inBounds_sysDup3_iff (oldfd newfd flags : UInt64) :
    InBounds (sysDup3 oldfd newfd flags) s ↔ (Call.dup3 oldfd newfd flags).IndexFits s := by
  unfold sysDup3 Call.IndexFits
  by_cases hsame : oldfd = newfd
  · simp [hsame]
  by_cases hflags : flags &&& ~~~O_CLOEXEC ≠ 0
  · simp [hflags]
  have hget : (get : M Task).run s = .ok (s, s) := rfl
  simp only [hsame, hflags, if_false, false_or, inBounds_bind hget]
  by_cases hrange : 0 ≤ narrowInt newfd.toNat ∧ narrowInt newfd.toNat < s.files.max
  · rw [if_neg (by omega)]
    obtain ⟨s', hfiles, -, hfget⟩ := fget_run (narrowInt oldfd.toNat) s
    rw [inBounds_bind hfget]
    cases hopen : s.openAt (narrowInt oldfd.toNat) with
    | none => simp
    | some f =>
    have hread := readFd_run newfd.toNat s'
    have hrange' : 0 ≤ narrowInt newfd.toNat ∧ narrowInt newfd.toNat < s'.files.max := by
      rwa [hfiles]
    simp only [hrange, true_and, not_true_eq_false, reduceCtorEq, or_false]
    by_cases hn : newfd.toNat < 2 ^ 32
    · rw [if_pos ((index_lt_iff _ _ hrange').mpr hn)] at hread
      simp only [inBounds_bind hread]
      cases s'.files.fd newfd.toNat with
      | none => exact inBounds_replace_iff _ f _ s' hrange'
      | some old =>
        have hput := modifyFile_run old (fun x => { x with refcount := x.refcount - 1 }) s'
        exact inBounds_replace_iff _ f _ _ hrange'
    · rw [if_neg (fun hlt => hn ((index_lt_iff _ _ hrange').mp hlt))] at hread
      exact iff_of_false (not_inBounds_bind hread) hn
  · rw [if_pos (by omega)]
    simp [hrange]

theorem inBounds_fcntlCmd_iff (f : Nat) (fd cmd arg : UInt64)
    (h : 0 ≤ narrowInt fd.toNat ∧ narrowInt fd.toNat < s.files.max) :
    InBounds (fcntlCmd f fd cmd arg) s ↔ fd.toNat < 2 ^ 32 ∨ (cmd ≠ F_GETFD ∧ cmd ≠ F_SETFD) := by
  have hget : (get : M Task).run s = .ok (s, s) := rfl
  unfold fcntlCmd
  rw [inBounds_bind hget]
  by_cases hdup : cmd = F_DUPFD ∨ cmd = F_DUPFD_CLOEXEC
  · have hne : cmd ≠ F_GETFD ∧ cmd ≠ F_SETFD := by rcases hdup with rfl | rfl <;> decide
    refine iff_of_true ?_ (.inr hne)
    rw [if_pos hdup]
    by_cases harg : s.files.max ≤ arg.toNat
    · simp [harg]
    have hmax := s.files.max_lt
    have hnarrow := narrowInt_of_lt (n := arg.toNat) (by omega)
    have htake := modifyFile_run f (fun x => { x with refcount := x.refcount + 1 }) s
    rw [if_neg harg]
    simp only [fileGet, inBounds_bind htake]
    refine (inBounds_bind_iff ?_).mpr (inBounds_fdInstall _ _ _ _ (by simp only; omega))
    intro r s'
    by_cases hr : r < 0
    · simp only [hr, if_true, filePut, inBounds_bind (modifyFile_run _ _ _)]
      exact inBounds_pure _ _
    · simp only [hr, if_false]
      exact inBounds_pure _ _
  rw [if_neg hdup]
  by_cases hgetfd : cmd = F_GETFD
  · rw [if_pos hgetfd, inBounds_bind_iff (by intros; exact inBounds_pure _ _),
      inBounds_readCloexec_iff, word_lt_iff _ _ h]
    simp [hgetfd]
  rw [if_neg hgetfd]
  by_cases hsetfd : cmd = F_SETFD
  · rw [if_pos hsetfd, inBounds_bind_iff (by intros; exact inBounds_pure _ _),
      inBounds_setCloexec_iff, word_lt_iff _ _ h]
    simp [hsetfd]
  -- no other command touches the table
  refine iff_of_true ?_ (.inr ⟨hgetfd, hsetfd⟩)
  rw [if_neg hsetfd]
  repeat' split
  all_goals exact inBounds_pure _ _

theorem inBounds_ioctlCmd_iff (f : Nat) (fd : UInt64) (cmd : UInt32) (arg : UInt64)
    (h : 0 ≤ narrowInt fd.toNat ∧ narrowInt fd.toNat < s.files.max) :
    InBounds (ioctlCmd f fd cmd arg) s ↔ fd.toNat < 2 ^ 32 ∨ (cmd ≠ FIOCLEX ∧ cmd ≠ FIONCLEX) := by
  have hget : (get : M Task).run s = .ok (s, s) := rfl
  unfold ioctlCmd
  rw [inBounds_bind hget]
  by_cases hset : cmd = FIOCLEX
  · rw [if_pos hset, inBounds_bind_iff (by intros; exact inBounds_pure _ _),
      inBounds_setCloexec_iff, word_lt_iff _ _ h]
    simp [hset]
  rw [if_neg hset]
  by_cases hclear : cmd = FIONCLEX
  · rw [if_pos hclear, inBounds_bind_iff (by intros; exact inBounds_pure _ _),
      inBounds_setCloexec_iff, word_lt_iff _ _ h]
    simp [hclear]
  refine iff_of_true ?_ (.inr ⟨hset, hclear⟩)
  rw [if_neg hclear]
  repeat' split
  all_goals exact inBounds_pure _ _

theorem inBounds_withFile_iff (fd : UInt64) (body : Nat → M Int) (fits : Prop)
    (h : ∀ f s', s'.files = s.files → s.openAt (narrowInt fd.toNat) = some f → (InBounds (body f) s' ↔ fits)) :
    InBounds (withFile fd body) s ↔ fits ∨ s.openAt (narrowInt fd.toNat) = none := by
  unfold withFile
  obtain ⟨s', hfiles, -, hfget⟩ := fget_run (narrowInt fd.toNat) s
  rw [inBounds_bind hfget]
  cases hopen : s.openAt (narrowInt fd.toNat) with
  | none => simp
  | some f =>
    have hput : ∀ (r : Int) (t : Task), InBounds (do filePut f; return r) t := by
      intro r t
      exact (inBounds_bind (modifyFile_run _ _ _)).mpr (inBounds_pure _ _)
    simp only [inBounds_bind_iff hput, h f s' hfiles hopen, reduceCtorEq, or_false]

-- The three calls index the table with the raw 64-bit argument after checking its
-- low half, so they stay in bounds exactly when the argument has no high half or
-- the call never gets to the access.
theorem call_inBounds_iff (c : Call) : InBounds c.run s ↔ c.IndexFits s := by
  cases c with
  | dup3 oldfd newfd flags => exact inBounds_sysDup3_iff s oldfd newfd flags
  | fcntl fd cmd arg =>
    have h := inBounds_withFile_iff s fd (fun f => fcntlCmd f fd cmd arg) _ (by
      intro f s' hfiles hopen
      have hrange := openAt_range hopen
      rw [← hfiles] at hrange
      exact inBounds_fcntlCmd_iff s' f fd cmd arg hrange)
    simpa only [Call.run, sysFcntl, Call.IndexFits, or_assoc] using h
  | ioctl fd cmd arg =>
  have h := inBounds_withFile_iff s fd (fun f => ioctlCmd f fd cmd.toUInt32 arg) _ (by
    intro f s' hfiles hopen
    have hrange := openAt_range hopen
    rw [← hfiles] at hrange
    exact inBounds_ioctlCmd_iff s' f fd cmd.toUInt32 arg hrange)
  simpa only [Call.run, sysIoctl, Call.IndexFits, or_assoc] using h

def oneFile : Task where
  files := { max := 1024, max_lt := by decide, fd := fun i => if i = 3 then some 0 else none, cloexec := fun _ => 0 }
  nofile := 1024
  file := fun _ => { refcount := 1, flags := 0, mode := 1, hasIoctl := false }
  copyOk := fun _ => true
  userWord := fun _ => 0
  fileIoctl := fun _ _ _ => 0

theorem dup3_high_half_faults : ¬InBounds (Call.dup3 3 0x100000004 0).run oneFile := by
  have hrun : (Call.dup3 3 0x100000004 0).run.run oneFile = .error (.fd 0x100000004) := rfl
  rintro ⟨r, hr⟩
  cases hrun.symm.trans hr

end Olux.Fd
