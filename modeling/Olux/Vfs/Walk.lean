import Olux.Vfs

namespace Olux.Vfs

variable {t : Tree} {cred : Cred} {root : Path} {I : Walk → Prop} {w : Walk}

-- What a walk does to its state, one clause per kind of step.
structure Keeps (t : Tree) (cred : Cred) (root : Path) (I : Walk → Prop) : Prop where
  search : ∀ {w}, I w → permission cred (t.node w.p) 1 = 0 → I w.search
  down : ∀ {w n c ps}, I w → t.lookup w.p.dentry n = .ok c → mountsOf t ⟨w.p.mnt, c⟩ = some ps → I (w.move ps)
  peek : ∀ {w n c ps}, I w → t.lookup w.p.dentry n = .ok c → mountsOf t ⟨w.p.mnt, c⟩ = some ps → I (w.peek ps)
  up : ∀ {w ps}, I w → dotdotOf t root w.p = some ps → I (w.move ps)
  top : ∀ {w}, I w → I (w.move [root])
  link : ∀ {w}, I w → w.depth < MAX_SYMLINKS → I w.link

theorem Keeps.startAt (h : Keeps t cred root I) (name : Name) (hw : I w) : I (startAt root name w) := by
  unfold Vfs.startAt
  split
  · exact h.top hw
  · exact hw

-- The step of the induction on links: what lies behind a link is `self`'s.
theorem Keeps.walkComps (h : Keeps t cred root I) {self : List Name → Bool → Flags → Walk → Res × Walk}
    (hself : ∀ cs tr fl w, I w → I (self cs tr fl w).2) (comps : List Name) (trailing : Bool) (fl : Flags)
    (hw : I w) :
    I (walkComps t cred root self comps trailing fl w).2 := by
  induction comps generalizing w with
  | nil =>
    unfold Vfs.walkComps
    split <;> exact hw
  | cons comp rest ih =>
  unfold Vfs.walkComps
  dsimp only
  split
  · exact hw
  split
  · exact hw
  split
  · split
    · exact hw
    split
    · split
      · exact hw
      · rename_i hps
        exact h.up hw hps
    · exact hw
  split
  · exact hw
  rename_i hperm
  have hs : I w.search := h.search hw (by simpa using hperm)
  split
  · exact ih hs
  split
  · split
    · exact hs
    · rename_i hps
      exact ih (h.up hs hps)
  split
  · exact hs
  rename_i c hc
  split
  · exact hs
  rename_i ps hps
  split
  · have hp : I (w.search.peek ps) := h.peek hs hc hps
    split
    · exact hp
    rename_i hd
    have hl : I (w.search.peek ps).link := h.link hp (by omega)
    split
    · exact hp
    rename_i target _
    have hr := hself (components (target.takeWhile (· ≠ 0))) (trailingSlash (target.takeWhile (· ≠ 0)))
      ⟨true, false, false⟩ _ (h.startAt (target.takeWhile (· ≠ 0)) hl)
    split
    · rename_i w' heq
      rw [heq] at hr
      split
      · exact hr
      · exact hself _ _ _ _ hr
    · exact hr
  split
  · exact h.down hs hc hps
  · exact ih (h.down hs hc hps)

theorem Keeps.walkLinks (h : Keeps t cred root I) (n : Nat) (comps : List Name) (trailing : Bool) (fl : Flags)
    (hw : I w) : I (walkLinks t cred root n comps trailing fl w).2 := by
  induction n generalizing comps trailing fl w with
  | zero => exact h.walkComps (fun _ _ _ _ hw => hw) comps trailing fl hw
  | succ n ih => exact h.walkComps (fun cs tr fl _ hw => ih cs tr fl hw) comps trailing fl hw

theorem Keeps.walk (h : Keeps t cred root I) (name : Name) (fl : Flags) (hw : I w) : I (walk t cred root name fl w).2 :=
  h.walkLinks _ _ _ _ (h.startAt name hw)

theorem followMounts_isSome {k : Nat} {p : Path} (h : t.nmounts - t.home p.dentry < k) :
    (followMounts t k p).isSome := by
  induction k generalizing p with
  | zero => omega
  | succ k ih =>
  unfold followMounts
  split
  · rename_i m hm
    obtain ⟨_, hpar, hlt⟩ := t.mounted_at hm
    have hup := t.mparent_lt hpar
    rw [Option.isSome_map]
    refine ih ?_
    dsimp only
    rw [t.home_root m]
    omega
  · rfl

theorem mountsOf_isSome (p : Path) : (mountsOf t p).isSome := followMounts_isSome (by omega)

theorem followDotdot_isSome {k : Nat} {p : Path} (h : p.mnt < k) : (followDotdot t root k p).isSome := by
  induction k generalizing p with
  | zero => omega
  | succ k ih =>
  unfold followDotdot
  split
  · rfl
  split
  · split <;> rfl
  split
  · rfl
  rename_i m hm
  have hlt := t.mparent_lt hm
  rw [Option.isSome_map]
  exact ih (by dsimp only; omega)

theorem dotdotOf_isSome (p : Path) : (dotdotOf t root p).isSome := followDotdot_isSome (by omega)

theorem keeps_depth (k : Nat) : Keeps t cred root (k ≤ ·.depth) where
  search h _ := h
  down h _ _ := h
  peek h _ _ := h
  up h _ := h
  top h := h
  link h _ := Nat.le_succ_of_le h

theorem startAt_depth (name : Name) (w : Walk) : (startAt root name w).depth = w.depth := by
  unfold startAt
  split <;> rfl

-- At depth `k` the walk goes on, if what lies behind a link does at every greater depth.
theorem walkComps_ends {self : List Name → Bool → Flags → Walk → Res × Walk} {k : Nat}
    (hself : ∀ cs tr fl w, k < MAX_SYMLINKS → k < w.depth → (self cs tr fl w).1.isSome ∧ k < (self cs tr fl w).2.depth)
    (comps : List Name) (trailing : Bool) (fl : Flags) (hw : k ≤ w.depth) :
    (walkComps t cred root self comps trailing fl w).1.isSome := by
  induction comps generalizing w with
  | nil =>
    unfold walkComps
    split <;> rfl
  | cons comp rest ih =>
  obtain ⟨up, hup⟩ := Option.isSome_iff_exists.mp (dotdotOf_isSome w.p)
  unfold walkComps
  rw [hup]
  dsimp only
  split
  · rfl
  split
  · rfl
  split
  · split
    · rfl
    split <;> rfl
  split
  · rfl
  split
  · exact ih hw
  split
  · exact ih hw
  split
  · rfl
  rename_i c _
  obtain ⟨ps, hps⟩ := Option.isSome_iff_exists.mp (mountsOf_isSome ⟨w.p.mnt, c⟩)
  rw [hps]
  dsimp only
  split
  · split
    · rfl
    rename_i hd
    have hlt : w.depth + 1 ≤ MAX_SYMLINKS := Nat.le_of_not_lt hd
    split
    · rfl
    rename_i target _
    obtain ⟨hr, hdepth⟩ := hself (components (target.takeWhile (· ≠ 0)))
      (trailingSlash (target.takeWhile (· ≠ 0))) ⟨true, false, false⟩
      (startAt root (target.takeWhile (· ≠ 0)) (w.search.peek ps).link) (by omega)
      (by rw [startAt_depth]; exact Nat.lt_succ_of_le hw)
    split
    · rename_i heq
      rw [heq] at hdepth
      split
      · rfl
      · exact (hself _ _ _ _ (by omega) hdepth).1
    · exact hr
  split
  · rfl
  · exact ih hw

theorem walkLinks_ends (n : Nat) (comps : List Name) (trailing : Bool) (fl : Flags)
    (hw : MAX_SYMLINKS ≤ w.depth + n) : (walkLinks t cred root n comps trailing fl w).1.isSome := by
  induction n generalizing comps trailing fl w with
  | zero => exact walkComps_ends (fun _ _ _ _ hk _ => absurd hk (Nat.lt_irrefl _)) comps trailing fl hw
  | succ n ih =>
    have hk : MAX_SYMLINKS - (n + 1) ≤ w.depth := by omega
    refine walkComps_ends (fun cs tr fl w' _ hw' => ⟨ih cs tr fl (by omega), ?_⟩) comps trailing fl hk
    exact (keeps_depth (MAX_SYMLINKS - (n + 1) + 1)).walkLinks n cs tr fl hw'

theorem walk_ends (name : Name) (fl : Flags) (w : Walk) : (walk t cred root name fl w).1.isSome :=
  walkLinks_ends _ _ _ _ (Nat.le_add_left _ _)

end Olux.Vfs
