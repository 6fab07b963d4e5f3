import Olux.Vfs.Walk

namespace Olux.Vfs

open List Option

variable {t : Tree} {cred : Cred} {root p : Path} {ps : List Path} {w : Walk} {proc : Proc}

def Tree.Proper (t : Tree) (p : Path) : Prop := p.mnt = t.home p.dentry

-- The subtree of `root`, through mounts: `root`, the children of its paths, and the root of
-- what is mounted on one of them.
inductive Within (t : Tree) (root : Path) : Path → Prop
  | root : Within t root root
  | child {p : Path} {c : Nat} : Within t root p → t.parent c = some p.dentry → Within t root ⟨p.mnt, c⟩
  | mount {p : Path} {m : Nat} : Within t root p → t.mountpoint m = p.dentry → t.mparent m = some p.mnt →
      Within t root ⟨m, t.sbRoot m⟩

theorem Within.proper (hroot : t.Proper root) (h : Within t root p) : t.Proper p := by
  induction h with
  | root => exact hroot
  | child _ hc ih => exact ih.trans (t.home_child hc).symm
  | mount => exact (t.home_root _).symm

theorem within_followMounts (hroot : t.Proper root) {k : Nat} (hp : Within t root p)
    (h : followMounts t k p = some ps) : ∀ q ∈ ps, Within t root q := by
  induction k generalizing p ps with
  | zero => cases h
  | succ k ih =>
  unfold followMounts at h
  split at h
  · rename_i m hm
    obtain ⟨rest, hrest, rfl⟩ := map_eq_some_iff.mp h
    obtain ⟨hat, hpar, _⟩ := t.mounted_at hm
    have hin : Within t root ⟨m, t.sbRoot m⟩ := .mount hp hat (by rw [hpar, hp.proper hroot])
    exact forall_mem_cons.mpr ⟨hp, ih hin hrest⟩
  · cases h
    exact forall_mem_singleton.mpr hp

theorem within_followDotdot {k : Nat} (hp : Within t root p)
    (h : followDotdot t root k p = some ps) : ∀ q ∈ ps, Within t root q := by
  induction k generalizing p ps with
  | zero => cases h
  | succ k ih =>
  unfold followDotdot at h
  split at h
  · cases h
    exact forall_mem_nil _
  rename_i hne
  cases hp with
  | root => exact absurd rfl hne
  | @child q c hq hc =>
    have hnot : c ≠ t.sbRoot q.mnt := by
      rintro rfl
      rw [t.parent_root] at hc
      cases hc
    rw [if_pos hnot, hc] at h
    cases h
    exact forall_mem_singleton.mpr hq
  | @mount q m hq hat hpar =>
  rw [if_neg (not_not_intro rfl), hpar] at h
  obtain ⟨rest, hrest, rfl⟩ := map_eq_some_iff.mp h
  have hback : (⟨q.mnt, t.mountpoint m⟩ : Path) = q := by rw [hat]
  rw [hback] at hrest ⊢
  exact forall_mem_cons.mpr ⟨hq, ih hq hrest⟩

structure Confined (t : Tree) (root : Path) (w : Walk) : Prop where
  here : Within t root w.p
  visited : ∀ q ∈ w.visited, Within t root q
  links : w.depth ≤ MAX_SYMLINKS

theorem Confined.start (hp : Within t root p) : Confined t root (Walk.start p) :=
  ⟨hp, forall_mem_singleton.mpr hp, Nat.zero_le _⟩

theorem Confined.peek (h : Confined t root w) (hps : ∀ q ∈ ps, Within t root q) : Confined t root (w.peek ps) :=
  ⟨h.here, forall_mem_append.mpr ⟨h.visited, hps⟩, h.links⟩

theorem Confined.move (h : Confined t root w) (hps : ∀ q ∈ ps, Within t root q) : Confined t root (w.move ps) := by
  refine ⟨?_, (h.peek hps).visited, h.links⟩
  show Within t root (ps.getLast?.getD w.p)
  cases hlast : ps.getLast? with
  | none => exact h.here
  | some q => exact hps q (mem_of_getLast? hlast)

theorem keeps_confined (hroot : t.Proper root) : Keeps t cred root (Confined t root) where
  search h _ := ⟨h.here, h.visited, h.links⟩
  down h hc hps := h.move (within_followMounts hroot (.child h.here (t.parent_lookup hc)) hps)
  peek h hc hps := h.peek (within_followMounts hroot (.child h.here (t.parent_lookup hc)) hps)
  up h hps := h.move (within_followDotdot h.here hps)
  top h := h.move (forall_mem_singleton.mpr .root)
  link h hd := ⟨h.here, h.visited, hd⟩

structure Proc.Rooted (t : Tree) (proc : Proc) : Prop where
  root : t.Proper proc.root
  cwd : Within t proc.root proc.cwd
  fd : ∀ {n f p}, proc.fd n = some f → f.path = some p → Within t proc.root p

theorem Proc.Rooted.startPath (h : proc.Rooted t) {dirfd : Int} {name : Name}
    (hp : startPath t proc dirfd name = .ok p) : Within t proc.root p := by
  unfold Vfs.startPath at hp
  split at hp
  · cases hp
    exact .root
  split at hp
  · cases hp
    exact h.cwd
  split at hp
  · cases hp
  rename_i f hf
  split at hp
  · cases hp
  rename_i q hq
  split at hp
  · cases hp
    exact h.fd hf hq
  · cases hp

structure Settled {α : Type} (t : Tree) (root : Path) (place : α → Path) (r : Option (Except Int α) × Walk) : Prop where
  ends : r.1.isSome
  confined : Confined t root r.2
  result : ∀ a, r.1 = some (.ok a) → place a = r.2.p

theorem Settled.error {α : Type} {place : α → Path} (e : Int) (h : Confined t root w) :
    Settled t root place (some (.error e), w) := ⟨rfl, h, nofun⟩

theorem Settled.ok {α : Type} {place : α → Path} {a : α} (h : Confined t root w) (ha : place a = w.p) :
    Settled t root place (some (.ok a), w) := by
  refine ⟨rfl, h, fun b hb => ?_⟩
  cases hb
  exact ha

theorem idle_confined : Confined t proc.root (Walk.start proc.root) := .start .root

theorem pathLookupat_settled (h : proc.Rooted t) (dirfd : Int) (name : Name) (follow directory : Bool) :
    Settled t proc.root id (pathLookupat t proc dirfd name follow directory) := by
  unfold pathLookupat
  split
  · exact .error _ idle_confined
  split
  · exact .error _ idle_confined
  rename_i p hp
  have hw := (keeps_confined h.root : Keeps t proc.cred _ _).walk name ⟨follow, directory, false⟩
    (Confined.start (h.startPath hp))
  have hend : (walk t proc.cred proc.root name ⟨follow, directory, false⟩ (Walk.start p)).1.isSome := walk_ends _ _ _
  split
  · rename_i heq
    rw [heq] at hend
    cases hend
  · rename_i heq
    rw [heq] at hw
    exact .error _ hw
  rename_i heq
  rw [heq] at hw
  exact .ok hw rfl

theorem pathParentat_settled (h : proc.Rooted t) (dirfd : Int) (name : Name) :
    Settled t proc.root Prod.fst (pathParentat t proc dirfd name) := by
  unfold pathParentat
  split
  · exact .error _ idle_confined
  split
  · exact .error _ idle_confined
  rename_i p hp
  have hw := (keeps_confined h.root : Keeps t proc.cred _ _).walk name ⟨true, false, true⟩
    (Confined.start (h.startPath hp))
  have hend : (walk t proc.cred proc.root name ⟨true, false, true⟩ (Walk.start p)).1.isSome := walk_ends _ _ _
  split
  · rename_i heq
    rw [heq] at hend
    cases hend
  · rename_i heq
    rw [heq] at hw
    exact .error _ hw
  rename_i heq
  rw [heq] at hw
  split
  · exact .ok hw rfl
  · exact .error _ hw

-- Neither kind of lookup leaves the subtree of the process's root, at any point; its result lies
-- there, it follows at most MAX_SYMLINKS links, and it comes to an end.
theorem lookup_stays_within (t : Tree) (proc : Proc) (h : proc.Rooted t) (dirfd : Int) (name : Name) :
    (∀ follow directory, ∃ r w, pathLookupat t proc dirfd name follow directory = (some r, w) ∧
      (∀ q ∈ w.visited, Within t proc.root q) ∧ w.depth ≤ MAX_SYMLINKS ∧
      ∀ p, r = .ok p → Within t proc.root p) ∧
    ∃ r w, pathParentat t proc dirfd name = (some r, w) ∧
      (∀ q ∈ w.visited, Within t proc.root q) ∧ w.depth ≤ MAX_SYMLINKS ∧
      ∀ p last, r = .ok (p, last) → Within t proc.root p := by
  constructor
  · intro follow directory
    have hs := pathLookupat_settled h dirfd name follow directory
    obtain ⟨r, hr⟩ := isSome_iff_exists.mp hs.ends
    refine ⟨r, _, Prod.ext hr rfl, hs.confined.visited, hs.confined.links, fun p hp => ?_⟩
    have hat : p = _ := hs.result p (by rw [hr, hp])
    rw [hat]
    exact hs.confined.here
  have hs := pathParentat_settled h dirfd name
  obtain ⟨r, hr⟩ := isSome_iff_exists.mp hs.ends
  refine ⟨r, _, Prod.ext hr rfl, hs.confined.visited, hs.confined.links, fun p last hp => ?_⟩
  have hat : p = _ := hs.result (p, last) (by rw [hr, hp])
  rw [hat]
  exact hs.confined.here

def plainTree (inode : Nat → Inode) : Tree where
  dinode := id
  inode := inode
  ninodes := 3
  isb i := some (i / 3)
  parent d := if d = 1 then some 0 else if d = 2 then some 1 else none
  dead _ := false
  lookup d n := if d = 0 ∧ n = [100] then .ok 1 else if d = 1 ∧ n = [102] then .ok 2 else .error (- ENOENT)
  readlink _ := .error (- EINVAL)
  home d := d / 3
  mounted _ := none
  nmounts := 1
  sbRoot m := 3 * m
  rdonly _ := false
  mountpoint _ := 0
  mparent _ := none
  parent_lookup := by
    intro d n c h
    split at h
    · rename_i hd
      cases h
      exact congrArg some hd.1.symm
    split at h
    · rename_i hd
      cases h
      exact congrArg some hd.1.symm
    · cases h
  parent_root m := by
    rw [if_neg (by omega), if_neg (by omega)]
  home_child := by
    intro c d h
    split at h
    · rename_i hc
      cases h
      rw [hc]
    split at h
    · rename_i hc
      cases h
      rw [hc]
    · cases h
  home_root m := Nat.mul_div_cancel_left m (by decide)
  mounted_at := nofun
  mparent_lt := nofun

def plainProc : Proc where
  cred := ⟨1000, 1000, 1000, 1000, 1000, 1000, []⟩
  root := ⟨0, 0⟩
  cwd := ⟨0, 0⟩
  umask := 0o022
  maxFds := 16
  fd _ := none

def openInodes (_ : Nat) : Inode := ⟨0o040755, 0, 0, 0, (0, 0), (0, 0), (0, 0)⟩

theorem lookup_stays_within_plain : plainProc.Rooted (plainTree openInodes) ∧
      ∃ r w, pathParentat (plainTree openInodes) plainProc AT_FDCWD [100, 47, 46, 46, 47, 46, 46, 47, 102] = (some r, w) ∧
        (∀ q ∈ w.visited, Within (plainTree openInodes) plainProc.root q) ∧ w.depth ≤ MAX_SYMLINKS ∧
        ∀ p last, r = .ok (p, last) → Within (plainTree openInodes) plainProc.root p := by
  have h : plainProc.Rooted (plainTree openInodes) := ⟨rfl, .root, nofun⟩
  exact ⟨h, (lookup_stays_within _ plainProc h AT_FDCWD [100, 47, 46, 46, 47, 46, 46, 47, 102]).2⟩

end Olux.Vfs
