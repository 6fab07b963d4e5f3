import Olux.Vfs.Confinement
import Olux.Vfs.Open

namespace Olux.Vfs

open List

variable {t : Tree} {cred : Cred} {root : Path} {fl : Flags} {r : Option Name}

def Searchable (t : Tree) (cred : Cred) (d : Nat) : Prop := permission cred (t.inode (t.dinode d)) 1 = 0

theorem permission_mono {c : Cred} {n : Inode} {m k : UInt32} (hroot : k &&& 1 ≠ 0 → m &&& 1 ≠ 0)
    (hk : m &&& k = k) (h : permission c n m = 0) : permission c n k = 0 := by
  unfold permission at h ⊢
  split at h
  · rename_i h0
    rw [if_pos h0]
    split at h
    · cases h
    rename_i hno
    rw [if_neg fun hx => hno ⟨hroot hx.1, hx.2⟩]
  rename_i h0
  rw [if_neg h0]
  dsimp only at h ⊢
  generalize (if c.euid = n.uid then _ else _ : UInt32) = bits at h ⊢
  split at h
  · rename_i hb
    rw [if_pos]
    calc bits &&& k = bits &&& (m &&& k) := by rw [hk]
      _ = (bits &&& m) &&& k := (UInt32.and_assoc ..).symm
      _ = k := by rw [hb, hk]
  · cases h

def AllSearchable (t : Tree) (cred : Cred) (w : Walk) : Prop := ∀ d ∈ w.searched, Searchable t cred d

theorem AllSearchable.search {w : Walk} (h : AllSearchable t cred w) (hp : Searchable t cred w.p.dentry) :
    AllSearchable t cred w.search :=
  forall_mem_append.mpr ⟨h, forall_mem_singleton.mpr hp⟩

theorem keeps_allSearchable : Keeps t cred root (AllSearchable t cred) where
  search h hp := h.search hp
  down h _ _ := h
  peek h _ _ := h
  up h _ := h
  top h := h
  link h _ := h

theorem pathLookupat_searchable (proc : Proc) (dirfd : Int) (name : Name) (follow directory : Bool) :
    AllSearchable t proc.cred (pathLookupat t proc dirfd name follow directory).2 := by
  unfold pathLookupat
  split
  · exact forall_mem_nil _
  split
  · exact forall_mem_nil _
  rename_i p _
  have hw := (keeps_allSearchable : Keeps t proc.cred proc.root _).walk (w := Walk.start p) name
    ⟨follow, directory, false⟩ (forall_mem_nil _)
  split <;> (rename_i heq; rw [heq] at hw; exact hw)

theorem pathParentat_searchable (proc : Proc) (dirfd : Int) (name : Name) :
    AllSearchable t proc.cred (pathParentat t proc dirfd name).2 := by
  unfold pathParentat
  split
  · exact forall_mem_nil _
  split
  · exact forall_mem_nil _
  rename_i p _
  have hw := (keeps_allSearchable : Keeps t proc.cred proc.root _).walk (w := Walk.start p) name
    ⟨true, false, true⟩ (forall_mem_nil _)
  split
  · rename_i heq; rw [heq] at hw; exact hw
  · rename_i heq; rw [heq] at hw; exact hw
  · rename_i heq; rw [heq] at hw; split <;> exact hw

theorem not_mem_of_mem_components {name c : Name} (h : c ∈ components name) : c ≠ [] ∧ 47 ∉ c := by
  obtain ⟨hc, hne⟩ := mem_filter.mp h
  refine ⟨by simpa using hne, ?_⟩
  clear h hne
  unfold List.splitOn at hc
  induction name generalizing c with
  | nil =>
    rw [splitOnP_nil, mem_singleton] at hc
    rw [hc]
    exact not_mem_nil
  | cons b name ih =>
  rw [splitOnP_cons_eq_if_modifyHead] at hc
  split at hc
  · rcases mem_cons.mp hc with rfl | hc
    · exact not_mem_nil
    · exact ih hc
  rename_i hb
  cases hs : List.splitOnP (· == 47) name with
  | nil =>
    rw [hs] at hc
    cases hc
  | cons x xs =>
  rw [hs] at hc ih
  rcases mem_cons.mp hc with rfl | hc
  · refine fun hx => (mem_cons.mp hx).elim (fun h => hb ?_) (ih mem_cons_self)
    rw [← h]
    rfl
  · exact ih (mem_cons_of_mem _ hc)

theorem components_of_plain {c : Name} (hne : c ≠ []) (h : 47 ∉ c) : components c = [c] := by
  have hs : c.splitOn 47 = [c] := by
    unfold List.splitOn
    refine splitOnP_eq_singleton fun x hx => ?_
    have hx47 : x ≠ 47 := ne_of_mem_of_not_mem hx h
    simpa using hx47
  unfold components
  rw [hs]
  simp [hne]

-- A walk that stops early gives out `lastComp`: a link's target is walked to its end.
theorem lastComp_cons (c : Name) {rest : List Name} (h : rest ≠ []) : lastComp (c :: rest) = lastComp rest := by
  obtain ⟨r, rest, rfl⟩ := exists_cons_of_ne_nil h
  unfold lastComp
  rw [getLast?_cons_cons]

theorem lastComp_singleton (c : Name) : lastComp [c] = if c = DOT ∨ c = DOTDOT then DOT else c := rfl

theorem lastComp_mem (comps : List Name) : lastComp comps = DOT ∨ lastComp comps ∈ comps := by
  unfold lastComp
  split
  · exact .inl rfl
  rename_i c hc
  split
  · exact .inl rfl
  · exact .inr (mem_of_getLast? hc)

theorem walkComps_last {self : List Name → Bool → Flags → Walk → Res × Walk} (hfl : fl.parent = true)
    (hself : ∀ {cs tr w r}, (self cs tr fl w).1 = some (.ok r) → r = some (lastComp cs)) {comps : List Name}
    {trailing : Bool} {w : Walk}
    (h : (walkComps t cred root self comps trailing fl w).1 = some (.ok r)) : r = some (lastComp comps) := by
  induction comps generalizing w with
  | nil =>
    unfold walkComps at h
    rw [hfl] at h
    split at h
    · cases h
    · cases h
      rfl
  | cons comp rest ih =>
  unfold walkComps at h
  dsimp only at h
  split at h
  · cases h
  split at h
  · cases h
  split at h
  · rename_i hlast
    obtain rfl : rest = [] := isEmpty_iff.mp (Bool.and_eq_true_iff.mp hlast).2
    rw [lastComp_singleton]
    split at h
    · rename_i hdot
      cases h
      rw [if_pos (.inl hdot)]
    split at h
    · rename_i hdd
      rw [if_pos (.inr hdd)]
      split at h
      · cases h
      · cases h
        rfl
    rename_i hdot hdd
    cases h
    rw [if_neg (not_or.mpr ⟨hdot, hdd⟩)]
  rename_i hlast
  -- more components follow
  have hrest : rest ≠ [] := by
    rintro rfl
    exact hlast (Bool.and_eq_true_iff.mpr ⟨hfl, rfl⟩)
  rw [lastComp_cons comp hrest]
  split at h
  · cases h
  split at h
  · exact ih h
  split at h
  · split at h
    · cases h
    · exact ih h
  split at h
  · cases h
  split at h
  · cases h
  split at h
  · split at h
    · cases h
    split at h
    · cases h
    split at h
    · split at h
      · cases h
      · exact hself h
    · rename_i hno
      exact (hno r _ (Prod.ext h rfl)).elim
  split at h
  · cases h
  · exact ih h

theorem walkLinks_last {n : Nat} {comps : List Name} {trailing : Bool} {w : Walk} (hfl : fl.parent = true)
    (h : (walkLinks t cred root n comps trailing fl w).1 = some (.ok r)) :
    r = some (lastComp comps) := by
  induction n generalizing comps trailing w r with
  | zero => exact walkComps_last hfl (fun h => by cases h) h
  | succ n ih => exact walkComps_last hfl (fun h => ih h) h

theorem walkComps_cons_searchable {self : List Name → Bool → Flags → Walk → Res × Walk} {comp : Name}
    {rest : List Name} {trailing : Bool} {w : Walk} (hfl : fl.parent = false)
    (h : (walkComps t cred root self (comp :: rest) trailing fl w).1 = some (.ok r)) :
    Searchable t cred w.p.dentry := by
  unfold walkComps at h
  dsimp only at h
  split at h
  · cases h
  split at h
  · cases h
  rw [hfl, Bool.false_and, if_neg Bool.false_ne_true] at h
  split at h
  · cases h
  rename_i hp
  unfold Searchable
  exact Decidable.not_not.mp hp

theorem walk_plain_searchable {name : Name} {w : Walk} (hne : name ≠ []) (hslash : 47 ∉ name)
    (hfl : fl.parent = false) (h : (walk t cred root name fl w).1 = some (.ok r)) :
    Searchable t cred w.p.dentry := by
  have hstart : startAt root name w = w := by
    refine if_neg fun hh => hslash ?_
    exact mem_of_mem_head? hh
  unfold walk at h
  rw [components_of_plain hne hslash, hstart] at h
  exact walkComps_cons_searchable hfl h

theorem pathParentat_ok {proc : Proc} {dirfd : Int} {name last : Name} {parent : Path} {w : Walk}
    (h : pathParentat t proc dirfd name = (some (.ok (parent, last)), w)) :
    w.p = parent ∧ (last = DOT ∨ last ∈ components name) := by
  unfold pathParentat at h
  split at h
  · cases h
  split at h
  · cases h
  split at h
  · cases h
  · cases h
  rename_i r w' heq
  split at h
  · cases h
    rw [walkLinks_last rfl (congrArg Prod.fst heq)]
    exact ⟨rfl, lastComp_mem _⟩
  · cases h

-- The final component is there and is no symbolic link: `vfs_open` with O_CREAT takes it from
-- `lookup_last` and searches `parent` without having asked.
def FinalFound (t : Tree) (proc : Proc) (dirfd : Int) (name : Name) (flags : UInt32) (parent : Path) : Prop :=
  has flags O_CREAT = true ∧ ∃ last w c ps, pathParentat t proc dirfd name = (some (.ok (parent, last)), w) ∧
    t.lookup parent.dentry last = .ok c ∧ mountsOf t ⟨parent.mnt, c⟩ = some ps ∧
    isLnk (t.node (ps.getLast?.getD parent)).mode = false

variable {F : FsOps} {proc : Proc} {dirfd : Int} {name : Name} {flags mode : UInt32} {p : Path} {created : Bool}
  {t' : Tree} {w : Walk}

theorem openExisting_searchable (h : openExisting t proc dirfd name flags = (some (.ok (p, created)), t', w)) :
    AllSearchable t proc.cred w := by
  have hs := pathLookupat_searchable (t := t) proc dirfd name (!has flags O_NOFOLLOW) false
  unfold openExisting at h
  split at h
  · cases h
  · cases h
  rename_i heq
  rw [heq] at hs
  split at h
  · cases h
  · cases h
    exact hs

theorem openCreate_searchable (h : openCreate F t proc dirfd name flags mode = (some (.ok (p, created)), t', w))
    (hflags : has flags O_CREAT = true) :
    AllSearchable t proc.cred w ↔
      ∀ parent, FinalFound t proc dirfd name flags parent → Searchable t proc.cred parent.dentry := by
  have hs := pathParentat_searchable (t := t) proc dirfd name
  unfold openCreate at h
  split at h
  · cases h
  · cases h
  rename_i parent last w0 heq
  rw [heq] at hs
  obtain ⟨rfl, hlast⟩ := pathParentat_ok heq
  split at h
  · cases h
  rename_i hdot
  -- the parent and the last component are what the walk found
  have hfound : ∀ {q}, FinalFound t proc dirfd name flags q → q = w0.p ∧ ∃ c ps, t.lookup w0.p.dentry last = .ok c ∧
      mountsOf t ⟨w0.p.mnt, c⟩ = some ps ∧ isLnk (t.node (ps.getLast?.getD w0.p)).mode = false := by
    rintro q ⟨_, last', w', c, ps, heq', hc, hps, hl⟩
    rw [heq] at heq'
    cases heq'
    exact ⟨rfl, c, ps, hc, hps, hl⟩
  dsimp only at h
  split at h
  · rename_i e hlk
    have hnone : ∀ q, ¬ FinalFound t proc dirfd name flags q := by
      intro q hq
      obtain ⟨_, c, _, hc, _⟩ := hfound hq
      rw [hlk] at hc
      cases hc
    split at h
    · cases h
    split at h
    · cases h
    rename_i hmay
    have hparent : Searchable t proc.cred w0.p.dentry := by
      have hmay0 := Decidable.not_not.mp hmay
      unfold mayCreate at hmay0
      split at hmay0
      · cases hmay0
      split at hmay0
      · cases hmay0
      exact permission_mono (by decide) (by decide) hmay0
    split at h
    · cases h
    split at h
    · cases h
    · cases h
      exact ⟨fun _ q hq => absurd hq (hnone q), fun _ => hs.search hparent⟩
  rename_i c hlk
  split at h
  · cases h
  split at h
  · cases h
  rename_i ps hps
  split at h
  · rename_i hl
    have hnone : ∀ q, ¬ FinalFound t proc dirfd name flags q := by
      intro q hq
      obtain ⟨_, c', ps', hc, hps', hl'⟩ := hfound hq
      rw [hlk] at hc
      cases hc
      rw [hps] at hps'
      cases hps'
      rw [hl] at hl'
      cases hl'
    split at h
    · cases h
    split at h
    · cases h
    · cases h
    rename_i r w1 hwalk
    cases h
    -- the walk of the link's name asks for the directory it is in
    obtain ⟨hne, hslash⟩ := not_mem_of_mem_components (hlast.resolve_left hdot)
    have hparent := walk_plain_searchable hne hslash rfl (congrArg Prod.fst hwalk)
    have hw := (keeps_allSearchable : Keeps t proc.cred proc.root _).walk (w := { w0.search with depth := 0 })
      last ⟨true, false, false⟩ (hs.search hparent)
    rw [hwalk] at hw
    exact ⟨fun _ q hq => absurd hq (hnone q), fun _ => hw⟩
  rename_i hl
  cases h
  constructor
  · intro hall q hq
    rw [(hfound hq).1]
    exact hall _ (mem_append_right _ mem_cons_self)
  intro hcond
  have hl' : isLnk (t.node (ps.getLast?.getD w0.p)).mode = false := by simpa using hl
  exact hs.search (hcond _ ⟨hflags, last, w0, c, ps, heq, hlk, hps, hl'⟩)

-- An open that succeeds had search permission for every directory it looked in, exactly if the
-- parent of a final component that O_CREAT found in place may be searched.
theorem vfsOpen_searchable_iff (F : FsOps) (t : Tree) (proc : Proc) (now : Time) (dirfd : Int) (name : Name)
    (flags mode : UInt32) (f : File) (t' : Tree) (w : Walk)
    (h : vfsOpen F t proc now dirfd name flags mode = (some (.ok f), t', w)) :
    (∀ d ∈ w.searched, permission proc.cred (t.inode (t.dinode d)) 1 = 0) ↔
      ∀ parent, FinalFound t proc dirfd name flags parent → permission proc.cred (t.node parent) 1 = 0 := by
  unfold vfsOpen at h
  split at h
  · cases h
  · cases h
  rename_i p created t1 w1 heq
  have hw : w1 = w := congrArg (fun r => r.2.2) h
  subst hw
  unfold openResolve at heq
  split at heq
  · rename_i hflags
    exact openCreate_searchable heq hflags
  rename_i hflags
  have hall := openExisting_searchable heq
  exact ⟨fun _ q hq => absurd hq.1 hflags, fun _ => hall⟩

def plainOps : FsOps where
  create _ _ _ _ := .error (- EPERM)
  setattr _ := none
  openError _ _ _ := 0
  create_keeps := nofun

theorem vfsOpen_searchable_iff_plain :
    vfsOpen plainOps (plainTree openInodes) plainProc (0, 0) AT_FDCWD [100] O_RDONLY 0 =
        (some (.ok ⟨some ⟨0, 1⟩, 1, FMODE_READ⟩), plainTree openInodes, ⟨⟨0, 1⟩, 0, [⟨0, 0⟩, ⟨0, 1⟩], [0]⟩) ∧
      ((∀ d ∈ [0], permission plainProc.cred (openInodes d) 1 = 0) ↔
        ∀ parent, FinalFound (plainTree openInodes) plainProc AT_FDCWD [100] O_RDONLY parent →
          permission plainProc.cred ((plainTree openInodes).node parent) 1 = 0) := by
  have h : vfsOpen plainOps (plainTree openInodes) plainProc (0, 0) AT_FDCWD [100] O_RDONLY 0 =
      (some (.ok ⟨some ⟨0, 1⟩, 1, FMODE_READ⟩), plainTree openInodes, ⟨⟨0, 1⟩, 0, [⟨0, 0⟩, ⟨0, 1⟩], [0]⟩) := by
    rfl
  exact ⟨h, vfsOpen_searchable_iff _ _ _ _ _ _ _ _ _ _ _ h⟩

def closedInodes : Nat → Inode
  | 1 => ⟨0o040700, 0, 0, 0, (0, 0), (0, 0), (0, 0)⟩
  | 2 => ⟨0o100644, 0, 0, 0, (0, 0), (0, 0), (0, 0)⟩
  | _ => ⟨0o040755, 0, 0, 0, (0, 0), (0, 0), (0, 0)⟩

theorem creat_opens_in_closed_directory : plainProc.cred.euid ≠ 0 ∧
      (vfsOpen plainOps (plainTree closedInodes) plainProc (0, 0) AT_FDCWD [100, 47, 102] O_RDONLY 0).1 =
        some (.error (- EACCES)) ∧
      (vfsOpen plainOps (plainTree closedInodes) plainProc (0, 0) AT_FDCWD [100, 47, 102] O_CREAT 0).1 =
        some (.ok ⟨some ⟨0, 2⟩, 2, FMODE_READ⟩) ∧
      1 ∈ (vfsOpen plainOps (plainTree closedInodes) plainProc (0, 0) AT_FDCWD [100, 47, 102] O_CREAT 0).2.2.searched ∧
      permission plainProc.cred ((plainTree closedInodes).inode 1) 1 = - EACCES :=
  ⟨by decide, rfl, rfl, by decide +kernel, by decide⟩

end Olux.Vfs
