import Olux.Vfs.Attr
import Olux.Vfs.Search

namespace Olux.Vfs

variable {F : FsOps} {t : Tree} {s : St} {now : Time} {i j : Nat}

def Authority (s : St) (i : Nat) : Prop :=
  permission s.proc.cred (s.t.inode i) 2 = 0 ∨
    ∃ fd f, s.proc.fd fd = some f ∧ f.inode = i ∧ has f.mode FMODE_WRITE = true

-- Frame lemmas: only the inode a call is about changes.

theorem setInode_ne {n : Inode} (h : j ≠ i) : (t.setInode i n).inode j = t.inode j := if_neg h

theorem vfsSetattr_ne {a : Iattr} (h : j ≠ i) : (vfsSetattr F t now i a).2.inode j = t.inode j := by
  unfold vfsSetattr
  dsimp only
  split
  · rfl
  split
  · split
    · rfl
    · exact setInode_ne h
  split
  · rfl
  · exact setInode_ne h

theorem vfsTruncate_ne {len : Int} (h : j ≠ i) : (vfsTruncate F t now i len).2.inode j = t.inode j := by
  unfold vfsTruncate
  split
  · rfl
  split
  · rfl
  split
  · rfl
  · exact vfsSetattr_ne h

theorem onFd_same {fd : Int} {act : File → Int × Tree}
    (h : ∀ f, s.proc.fd fd = some f → (act f).2.inode i = s.t.inode i) :
    (onFd s fd act).2.t.inode i = s.t.inode i := by
  unfold onFd
  split
  · rfl
  · rename_i f hf
    exact h f hf

theorem onPath_same {dfd : Int} {path : Name} {follow : Bool} {act : Nat → Int × Tree}
    (h : ∀ p w, pathLookupat s.t s.proc dfd path follow false = (some (.ok p), w) →
      (act (s.t.dinode p.dentry)).2.inode i = s.t.inode i) :
    (onPath s dfd path follow act).2.t.inode i = s.t.inode i := by
  unfold onPath
  split
  · rfl
  · rfl
  · rename_i p w hp
    exact h p w hp

theorem ownerSetattr_same {a : Iattr} (hroot : s.proc.cred.euid ≠ 0) (hown : (s.t.inode i).uid ≠ s.proc.cred.euid)
    (k : Nat) : (ownerSetattr F now s a k).2.inode i = s.t.inode i := by
  unfold ownerSetattr
  split
  · rfl
  rename_i hk
  refine vfsSetattr_ne ?_
  rintro rfl
  exact hk ⟨hroot, hown.symm⟩

variable {proc : Proc} {dirfd : Int} {name : Name} {flags mode : UInt32}

theorem openCreate_same (hi : i < t.ninodes) (hno : permission proc.cred (t.inode i) 2 ≠ 0) :
    (openCreate F t proc dirfd name flags mode).2.1.inode i = t.inode i := by
  have hmake : ∀ {parent : Path} {last : Name} {m : UInt32} {t' : Tree}, mayCreate t proc parent = 0 →
      F.create t parent.dentry last m = .ok t' → t'.inode i = t.inode i := by
    intro parent last m t' hmay hcreate
    refine (F.create_keeps hcreate).2 i hi ?_
    rintro rfl
    refine hno ?_
    unfold mayCreate at hmay
    split at hmay
    · cases hmay
    split at hmay
    · cases hmay
    exact permission_mono (by decide) (by decide) hmay
  unfold openCreate
  split
  · rfl
  · rfl
  split
  · rfl
  dsimp only
  split
  · split
    · rfl
    split
    · rfl
    rename_i hmay
    split
    · rfl
    rename_i t' hcreate
    split <;> exact hmake (Decidable.not_not.mp hmay) hcreate
  split
  · rfl
  split
  · rfl
  split
  · split
    · rfl
    split <;> rfl
  · rfl

theorem openExisting_same : (openExisting t proc dirfd name flags).2.1 = t := by
  unfold openExisting
  split
  · rfl
  · rfl
  · split <;> rfl

theorem openResolve_same (hi : i < t.ninodes) (hno : permission proc.cred (t.inode i) 2 ≠ 0) :
    (openResolve F t proc dirfd name flags mode).2.1.inode i = t.inode i := by
  unfold openResolve
  split
  · exact openCreate_same hi hno
  · rw [openExisting_same]

theorem openResolve_found {p : Path} {t' : Tree} {w : Walk}
    (h : openResolve F t proc dirfd name flags mode = (some (.ok (p, false)), t', w)) : t' = t := by
  unfold openResolve at h
  split at h
  · unfold openCreate at h
    split at h
    · cases h
    · cases h
    split at h
    · cases h
    dsimp only at h
    split at h
    · split at h
      · cases h
      split at h
      · cases h
      split at h
      · cases h
      split at h <;> cases h
    split at h
    · cases h
    split at h
    · cases h
    split at h
    · split at h
      · cases h
      split at h
      · cases h
      · cases h
      · cases h
        rfl
    · cases h
      rfl
  · have ht : (openExisting t proc dirfd name flags).2.1 = t' := congrArg (fun r => r.2.1) h
    exact ht.symm.trans openExisting_same

theorem writable_of_openCheck {p : Path} (hcheck : openCheck t proc p false flags = 0)
    (htrunc : truncates t p false flags = true) (hpath : has flags O_PATH = false) :
    permission proc.cred (t.node p) 2 = 0 := by
  have hacc : flags &&& O_ACCMODE ≠ O_RDONLY := by
    unfold truncates at htrunc
    simp only [Bool.and_eq_true, decide_eq_true_eq] at htrunc
    exact htrunc.1.2
  unfold openCheck at hcheck
  dsimp only at hcheck
  split at hcheck
  · cases hcheck
  split at hcheck
  · cases hcheck
  rw [hpath, if_pos (by decide)] at hcheck
  split at hcheck
  · cases hcheck
  unfold accMask at hcheck
  rw [if_neg hacc] at hcheck
  split at hcheck
  · exact hcheck
  · exact permission_mono (by decide) (by decide) hcheck

theorem openFinish_same {p : Path} {created : Bool}
    (h : truncates t p created flags = true → openCheck t proc p created flags = 0 → i ≠ t.dinode p.dentry) :
    (openFinish F t proc now p created flags).2.inode i = t.inode i := by
  unfold openFinish
  split
  · rfl
  rename_i hcheck
  split
  · rename_i htrunc
    have hne := h htrunc (Decidable.not_not.mp hcheck)
    dsimp only
    split <;> exact vfsTruncate_ne hne
  · rfl

-- The calls for which the kernel looks at the rights to the inode before it changes it. It does not when an open with
-- O_PATH truncates, when fallocate makes the file longer, and in utimensat.
def Call.Checked (s : St) : Call → Prop
  | .openat _ _ flags _ => has flags O_PATH = true → has flags O_TRUNC = true → flags &&& O_ACCMODE = O_RDONLY
  | .fallocate fd mode off len => mode = 0 → ∀ f, s.proc.fd fd = some f →
      (off + len).toInt64.toInt ≤ (s.t.inode f.inode).size
  | .utimensat _ _ _ _ => False
  | _ => True

structure Outsider (s : St) (i : Nat) : Prop where
  unprivileged : s.proc.cred.euid ≠ 0
  exists_ : i < s.t.ninodes
  foreign : (s.t.inode i).uid ≠ s.proc.cred.euid
  powerless : ¬ Authority s i

theorem Outsider.ne (h : Outsider s i) (hk : Authority s j) : i ≠ j := by
  rintro rfl
  exact h.powerless hk

theorem Outsider.not_writable (h : Outsider s i) : permission s.proc.cred (s.t.inode i) 2 ≠ 0 :=
  fun hp => h.powerless (.inl hp)

theorem openat_same {dfd : Int} {path : Name} (h : Outsider s i) (hc : (Call.openat dfd path flags mode).Checked s) :
    (sysOpenat F now dfd path flags mode s).2.t.inode i = s.t.inode i := by
  have hres : (openResolve F s.t s.proc dfd path flags mode).2.1.inode i = s.t.inode i :=
    openResolve_same h.exists_ h.not_writable
  have hopen : (vfsOpen F s.t s.proc now dfd path flags mode).2.1.inode i = s.t.inode i := by
    unfold vfsOpen
    split
    · rename_i heq
      rw [heq] at hres
      exact hres
    · rename_i heq
      rw [heq] at hres
      exact hres
    rename_i p created t' w heq
    rw [heq] at hres
    refine (openFinish_same fun htrunc hcheck => ?_).trans hres
    cases created with
    | true =>
      unfold truncates at htrunc
      simp at htrunc
    | false =>
      cases openResolve_found heq
      cases hpath : has flags O_PATH with
      | true =>
        unfold truncates at htrunc
        simp only [Bool.and_eq_true, decide_eq_true_eq] at htrunc
        exact absurd (hc hpath htrunc.1.1.1) htrunc.1.2
      | false => exact h.ne (.inl (writable_of_openCheck hcheck htrunc hpath))
  unfold sysOpenat
  split
  · rename_i heq
    rw [heq] at hopen
    exact hopen
  · rename_i heq
    rw [heq] at hopen
    exact hopen
  rename_i heq
  rw [heq] at hopen
  exact hopen

theorem step_same (h : Outsider s i) (c : Call) (hc : c.Checked s) : (step F now s c).2.t.inode i = s.t.inode i := by
  cases c with
  | openat dfd path flags mode => exact openat_same h hc
  | truncate path len =>
    refine onPath_same fun p w _ => ?_
    split
    · rfl
    · rename_i hp
      exact vfsTruncate_ne (h.ne (.inl (Decidable.not_not.mp hp)))
  | ftruncate fd len =>
    refine onFd_same fun f hf => ?_
    split
    · rename_i hw
      exact vfsTruncate_ne (h.ne (.inr ⟨fd, f, hf, rfl, hw⟩))
    · rfl
  | fallocate fd mode off len =>
    show (sysFallocate F now fd mode off len s).2.t.inode i = s.t.inode i
    unfold sysFallocate
    split
    · rfl
    rename_i hmode
    refine onFd_same fun f hf => ?_
    rw [if_neg (Int.not_lt.mpr (hc (Decidable.not_not.mp hmode) f hf))]
  | utimensat dfd path times flags => exact hc.elim
  | fchmodat dfd path mode => exact onPath_same fun p w _ => ownerSetattr_same h.unprivileged h.foreign _
  | fchmod fd mode => exact onFd_same fun f _ => ownerSetattr_same h.unprivileged h.foreign _
  | fchownat dfd path uid gid flags =>
    have hroot : s.proc.cred.capableRoot = false := decide_eq_false h.unprivileged
    show (sysFchownat F now dfd path uid gid flags s).2.t.inode i = s.t.inode i
    unfold sysFchownat
    rw [hroot]
    rfl
  | fchown fd uid gid =>
  have hroot : s.proc.cred.capableRoot = false := decide_eq_false h.unprivileged
  show (sysFchown F now fd uid gid s).2.t.inode i = s.t.inode i
  unfold sysFchown
  rw [hroot]
  rfl

-- None of the calls changes the credentials.

theorem fdInstall_cred (proc : Proc) (f : File) : (fdInstall proc f).2.cred = proc.cred := by
  unfold fdInstall
  split <;> rfl

theorem onFd_proc {fd : Int} {act : File → Int × Tree} : (onFd s fd act).2.proc = s.proc := by
  unfold onFd
  split <;> rfl

theorem onPath_proc {dfd : Int} {path : Name} {follow : Bool} {act : Nat → Int × Tree} :
    (onPath s dfd path follow act).2.proc = s.proc := by
  unfold onPath
  split <;> rfl

theorem step_cred (c : Call) : (step F now s c).2.proc.cred = s.proc.cred := by
  cases c with
  | openat dfd path flags mode =>
    show (sysOpenat F now dfd path flags mode s).2.proc.cred = s.proc.cred
    unfold sysOpenat
    split
    · rfl
    · rfl
    · exact fdInstall_cred _ _
  | truncate path len => exact congrArg Proc.cred onPath_proc
  | ftruncate fd len => exact congrArg Proc.cred onFd_proc
  | fallocate fd mode off len =>
    show (sysFallocate F now fd mode off len s).2.proc.cred = s.proc.cred
    unfold sysFallocate
    split
    · rfl
    · exact congrArg Proc.cred onFd_proc
  | utimensat dfd path times flags =>
    cases path with
    | none => exact congrArg Proc.cred onFd_proc
    | some path => exact congrArg Proc.cred onPath_proc
  | fchmodat dfd path mode => exact congrArg Proc.cred onPath_proc
  | fchmod fd mode => exact congrArg Proc.cred onFd_proc
  | fchownat dfd path uid gid flags =>
    show (sysFchownat F now dfd path uid gid flags s).2.proc.cred = s.proc.cred
    unfold sysFchownat
    split
    · rfl
    · exact congrArg Proc.cred onPath_proc
  | fchown fd uid gid =>
  show (sysFchown F now fd uid gid s).2.proc.cred = s.proc.cred
  unfold sysFchown
  split
  · rfl
  · exact congrArg Proc.cred onFd_proc

theorem after_cred (s : St) (calls : List (Time × Call)) : (after F s calls).proc.cred = s.proc.cred := by
  induction calls generalizing s with
  | nil => rfl
  | cons c calls ih => exact (ih _).trans (step_cred c.2)

-- In a sequence of checked calls by a process without root's rights, whenever a call changes an
-- inode that the process does not own, the process had authority over it.
theorem change_needs_authority (F : FsOps) (s : St) (calls : List (Time × Call)) (hroot : s.proc.cred.euid ≠ 0)
    (hchecked : ∀ pre now c post, calls = pre ++ (now, c) :: post → c.Checked (after F s pre))
    (pre : List (Time × Call)) (now : Time) (c : Call) (post : List (Time × Call))
    (hcalls : calls = pre ++ (now, c) :: post) (i : Nat) (hi : i < (after F s pre).t.ninodes)
    (hown : ((after F s pre).t.inode i).uid ≠ s.proc.cred.euid)
    (hchange : (after F s (pre ++ [(now, c)])).t.inode i ≠ (after F s pre).t.inode i) :
    Authority (after F s pre) i := by
  refine Classical.byContradiction fun hno => hchange ?_
  have hcred := after_cred (F := F) s pre
  have hstep : after F s (pre ++ [(now, c)]) = (step F now (after F s pre) c).2 := by
    unfold after
    rw [List.foldl_append]
    rfl
  rw [hstep]
  refine step_same ⟨?_, hi, ?_, hno⟩ c (hchecked pre now c post hcalls)
  · rw [hcred]
    exact hroot
  · rw [hcred]
    exact hown

def sizeOps : FsOps := { plainOps with
  setattr _ := some fun n a => .ok { n with
    size := a.size.getD n.size, atime := a.atime.getD n.atime, mtime := a.mtime.getD n.mtime } }

def readableInodes : Nat → Inode
  | 2 => ⟨0o100644, 0, 0, 5, (0, 0), (0, 0), (0, 0)⟩
  | _ => ⟨0o040755, 0, 0, 0, (0, 0), (0, 0), (0, 0)⟩

def readableSt : St := ⟨plainTree readableInodes, plainProc⟩

def df : Name := [100, 47, 102]

def writableSt : St := ⟨plainTree fun i => if i = 2 then { readableInodes 2 with mode := 0o100666 } else readableInodes i,
  plainProc⟩

def openRdwr : Time × Call := ((1, 0), .openat AT_FDCWD df O_RDWR 0)

def cutTo3 : Time × Call := ((2, 0), .ftruncate 0 3)

-- A file of root that everyone may write is opened and made shorter.
theorem change_needs_authority_writable :
    (after sizeOps writableSt [openRdwr, cutTo3]).t.inode 2 ≠ (after sizeOps writableSt [openRdwr]).t.inode 2 ∧
      Authority (after sizeOps writableSt [openRdwr]) 2 := by
  have hchange : (after sizeOps writableSt [openRdwr, cutTo3]).t.inode 2 ≠
      (after sizeOps writableSt [openRdwr]).t.inode 2 := fun h =>
    absurd (congrArg Inode.size h) (by decide +kernel)
  refine ⟨hchange, change_needs_authority sizeOps writableSt [openRdwr, cutTo3] (by decide) ?_ [openRdwr] (2, 0)
    (.ftruncate 0 3) [] rfl 2 (by decide +kernel) (by decide +kernel) hchange⟩
  rintro pre now c post h
  match pre, h with
  | [], h =>
    cases h
    exact fun hpath => absurd hpath (by decide)
  | [_], h =>
    cases h
    trivial
  | _ :: _ :: pre, h => simp at h

theorem readableSt_powerless : ¬ Authority readableSt 2 := by
  rintro (h | ⟨_, _, h, _⟩)
  · exact absurd h (by decide)
  · cases h

theorem foreign_file_changed : plainProc.cred.euid ≠ 0 ∧ (readableInodes 2).uid ≠ plainProc.cred.euid ∧
      ¬ Authority readableSt 2 ∧
      ((after sizeOps readableSt [((9, 0), .utimensat AT_FDCWD (some df) (some ((7, 0), (7, 0))) 0)]).t.inode 2).mtime =
        (7, 0) ∧
      ((after sizeOps readableSt [((9, 0), .openat AT_FDCWD df (O_PATH ||| O_WRONLY ||| O_TRUNC) 0)]).t.inode 2).size =
        0 ∧
      ((after sizeOps readableSt
        [((9, 0), .openat AT_FDCWD df O_RDONLY 0), ((9, 0), .fallocate 0 0 0 4096)]).t.inode 2).size = 4096 :=
  ⟨by decide, by decide, readableSt_powerless, by decide +kernel, by decide +kernel, by decide +kernel⟩

end Olux.Vfs
