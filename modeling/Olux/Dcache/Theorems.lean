import Olux.Dcache.Ops
import Olux.Vfs.Search

namespace Olux.Dcache

open List Option

open Vfs (Name DOT DOTDOT components)

variable {s : State} {fs fs' : Fs} {path name nname : Name}

theorem start_ok : Ok State.start where
  fs := by
    refine ⟨nodup_nil, ?_, ⟨Nat.one_pos, ?_⟩, rfl, ?_, ?_, ?_, ?_⟩
    · intro e he; cases he
    · intro e he; cases he
    · intro e he; cases he
    · intro e he; cases he
    · intro i _ hf; cases hf
    · intro d _ _; rfl
  dc := by
    refine ⟨?_, ?_, ?_, ?_, ?_⟩
    · intro c _ hl; cases hl
    · intro c _ c' _ hl; cases hl
    · intro c hc c' hc' _ _
      rw [mem_singleton.mp hc, mem_singleton.mp hc']
    · intro c _ _ _ e he; cases he
    · intro c _; exact Nat.one_pos
  counted := by
    have htotal : ∀ d, total State.start.held State.start.dc d = if d = 0 then 1 else 0 := fun d => Nat.zero_add _
    refine ⟨fun d hd => ?_, fun d => ?_, nodup_singleton _, fun d hd => ?_⟩
    · rw [htotal, mem_singleton.mp hd]
      rfl
    · rw [htotal]
      show d ∈ [0] ↔ _
      rw [mem_singleton]
      split
      · rename_i h
        exact iff_of_true h Nat.one_pos
      · rename_i h
        exact iff_of_false h (Nat.lt_irrefl 0)
    · rw [mem_singleton.mp hd]
      exact Nat.one_pos

theorem tmpfsMkdir_dir (d : Nat) (name : Name) {i : Nat} (hi : i < fs.next) :
    ((tmpfsMkdir fs d name).node i).dir = (fs.node i).dir := by
  refine (addLinks_dir ..).trans ?_
  show ((setNode fs fs.next ⟨true, 2, d⟩).node i).dir = _
  rw [setNode_node, if_neg (by omega)]

theorem tmpfsCreate_dir (d : Nat) (name : Name) {i : Nat} (hi : i < fs.next) :
    ((tmpfsCreate fs d name).node i).dir = (fs.node i).dir := by
  show ((setNode fs fs.next ⟨false, 1, 0⟩).node i).dir = _
  rw [setNode_node, if_neg (by omega)]

theorem parentFor_dir {p : Nat} (h : parentFor s p path = true) : (s.fs.node (s.dc.dent p).ino).dir = true := by
  unfold parentFor at h
  exact (of_decide_eq_true h).2.2

theorem act_ok (h : Ok s) (ev : Event) (huses : ev.uses ⊆ s.held) (hfits : ev.fits s = true) : Ok (ev.act s) := by
  have halive : ∀ d ∈ ev.uses, d ∈ s.dc.alive := fun d hd => h.counted.held_alive (huses hd)
  cases ev with
  | root =>
    refine h.get ((h.counted.alive 0).mpr ?_)
    unfold total
    rw [if_pos rfl]
    omega
  | lookup d name =>
    dsimp only [Event.act]
    split
    · rcases dLookup_spec h (halive d mem_cons_self) name with ⟨c, s', heq, hfound⟩ | ⟨heq, -⟩
      · rw [heq]
        exact hfound.ok
      · rw [heq]
        exact h
    · exact h
  | dotdot d =>
    dsimp only [Event.act]
    split
    · rename_i p hp
      exact h.get (h.counted.parent_alive (halive d mem_cons_self) hp)
    · exact h
  | get d => exact h.get (halive d mem_cons_self)
  | put d => exact (h.put (huses mem_cons_self)).1
  | create p path perm =>
    refine vfsCreate_ok h (halive p mem_cons_self) path perm (fun d name hnone hd hlt => ?_) (parentFor_dir hfits)
    exact ⟨tmpfsCreate_ok h.fs hd hlt hnone,
      h.dc.added rfl (Nat.le_succ _) (fun i hi => tmpfsCreate_dir d name hi) (.inl (Nat.le_refl _))⟩
  | mkdir p path perm =>
    refine vfsCreate_ok h (halive p mem_cons_self) path perm (fun d name hnone hd hlt => ?_) (parentFor_dir hfits)
    exact ⟨tmpfsMkdir_ok h.fs hd hlt hnone,
      h.dc.added rfl (Nat.le_succ _) (fun i hi => tmpfsMkdir_dir d name hi) (.inl (Nat.le_refl _))⟩
  | link t p path perm =>
    exact vfsLink_ok h (halive t mem_cons_self) (halive p (mem_cons_of_mem _ mem_cons_self)) path perm
      (parentFor_dir hfits)
  | unlink p path perm => exact vfsUnlink_ok h (halive p mem_cons_self) path perm
  | rmdir p path perm => exact vfsRmdir_ok h (halive p mem_cons_self) path perm
  | rename op old np new perm perm' =>
    have hnew : parentFor s np new = true := (Bool.and_eq_true_iff.mp hfits).2
    exact vfsRename_ok h (halive op mem_cons_self) (halive np (mem_cons_of_mem _ mem_cons_self)) old new
      perm perm' (parentFor_dir hnew)

theorem step_ok (h : Ok s) (ev : Event) : Ok (step s ev) := by
  unfold step
  split
  · rename_i hev
    exact act_ok h ev hev.1 hev.2
  · exact h

theorem run_ok (evs : List Event) (h : Ok s) : Ok (run s evs) := by
  induction evs generalizing s with
  | nil => exact h
  | cons ev evs ih => exact ih (step_ok h ev)

def Child (dc : Dc) (p c : Nat) : Prop := c ∈ dc.alive ∧ (dc.dent c).linked = true ∧ (dc.dent c).parent = some p

-- Lookups, references and calls in any order leave a cache that agrees with the filesystem. A
-- directory that has been removed is in no directory, and its dentry no child.
theorem dcache_coherent (evs : List Event) :
    let s := run State.start evs
    (∀ p c, Child s.dc p c → p ∈ s.dc.alive ∧ ⟨(s.dc.dent p).ino, (s.dc.dent c).name, (s.dc.dent c).ino⟩ ∈ s.fs.entries) ∧
    (∀ p c c', Child s.dc p c → Child s.dc p c' → (s.dc.dent c).name = (s.dc.dent c').name → c = c') ∧
    ∀ c ∈ s.dc.alive, (s.fs.node (s.dc.dent c).ino).dir = true → ∀ e ∈ s.fs.entries, e.ino = (s.dc.dent c).ino →
      (s.fs.node e.ino).parent = e.dir ∧ ∃ p, Child s.dc p c ∧ (s.dc.dent p).ino = e.dir := by
  intro s
  have h : Ok s := run_ok evs start_ok
  have hentry : ∀ p c, Child s.dc p c → ⟨(s.dc.dent p).ino, (s.dc.dent c).name, (s.dc.dent c).ino⟩ ∈ s.fs.entries := by
    intro p c hc
    obtain ⟨q, hq, hin⟩ := h.dc.shown c hc.1 hc.2.1
    obtain rfl : q = p := some.inj (hq.symm.trans hc.2.2)
    exact hin
  refine ⟨fun p c hc => ⟨h.counted.parent_alive hc.1 hc.2.2, hentry p c hc⟩, fun p c c' hc hc' hname => ?_,
    fun c hc hd e he hino => ⟨h.fs.parent e he (hino ▸ hd), ?_⟩⟩
  · exact h.dc.single c hc.1 c' hc'.1 hc.2.1 hc'.2.1 (hc.2.2.trans hc'.2.2.symm) hname
  cases hl : (s.dc.dent c).linked with
  | false => exact absurd hino (h.dc.dropped c hc hl hd e he)
  | true =>
    obtain ⟨p, hp, hin⟩ := h.dc.shown c hc hl
    -- a directory is in one directory only
    have heq := h.fs.once _ hin e he hino.symm hd
    exact ⟨p, ⟨hc, hl, hp⟩, congrArg Ent.dir heq⟩

def Valid (name : Name) : Prop := name ≠ [] ∧ 47 ∉ name ∧ name ≠ DOT ∧ name ≠ DOTDOT

theorem lastOf_valid (h : lastOf path ≠ DOT) : Valid (lastOf path) := by
  unfold lastOf Vfs.lastComp at h ⊢
  cases hl : (components path).getLast? with
  | none =>
    rw [hl] at h
    exact absurd rfl h
  | some c =>
  rw [hl] at h
  dsimp only at h ⊢
  split at h
  · exact absurd rfl h
  rename_i hc
  rw [if_neg hc]
  obtain ⟨hne, hslash⟩ := Vfs.not_mem_of_mem_components (mem_of_getLast? hl)
  exact ⟨hne, hslash, fun h => hc (.inl h), fun h => hc (.inr h)⟩

def Grows (fs fs' : Fs) : Prop := ∀ e ∈ fs'.entries, e ∈ fs.entries ∨ Valid e.name

theorem dLookup_fs (p : Nat) (name : Name) (s : State) : (dLookup p name s).2.fs = s.fs := by
  unfold dLookup
  split
  · rfl
  split
  · rfl
  · rfl

theorem removeEntry_grows (h : Grows fs fs') (d : Nat) (name : Name) : Grows fs (removeEntry fs' d name) :=
  fun e he => h e (mem_of_mem_eraseP he)

theorem addEntry_grows (h : Grows fs fs') (d : Nat) (hv : Valid name) (i : Nat) : Grows fs (addEntry fs' d name i) := by
  intro e he
  rcases mem_append.mp he with he | he
  · exact h e he
  · rw [mem_singleton.mp he]
    exact .inr hv

theorem Grows.refl (fs : Fs) : Grows fs fs := fun _ he => .inl he

theorem moveEntry_grows (h : Grows fs fs') (od : Nat) (oname : Name) (nd : Nat) (hv : Valid nname)
    (victim : Nat) : Grows fs (moveEntry fs' od oname nd nname victim) := by
  unfold moveEntry
  refine removeEntry_grows ?_ od oname
  split
  · exact addEntry_grows h nd hv victim
  · exact addEntry_grows h nd hv victim

theorem vfsCreate_grows (p : Nat) (path : Name) (perm : Int) {make : Fs → Nat → Name → Fs}
    (hmake : ∀ d name, Valid name → Grows s.fs (make s.fs d name)) : Grows s.fs (vfsCreate p path perm make s).2.fs := by
  unfold vfsCreate
  split
  · exact .refl _
  rename_i hdot
  have hfs := dLookup_fs p (lastOf path) s
  generalize dLookup p (lastOf path) s = r at hfs
  obtain ⟨_ | d, s'⟩ := r
  · dsimp only at hfs ⊢
    split
    · exact hfs ▸ Grows.refl _
    dsimp only
    rw [hfs]
    exact hmake _ _ (lastOf_valid hdot)
  · exact hfs ▸ Grows.refl _

theorem vfsLink_grows (t p : Nat) (hdot : lastOf path ≠ DOT) (perm : Int) :
    Grows s.fs (vfsLink t p path perm s).2.fs := by
  unfold vfsLink
  split
  · exact .refl _
  have hfs := dLookup_fs p (lastOf path) s
  generalize dLookup p (lastOf path) s = r at hfs
  obtain ⟨_ | d, s'⟩ := r
  · dsimp only at hfs ⊢
    split
    · exact hfs ▸ Grows.refl _
    dsimp only
    rw [hfs]
    exact addEntry_grows (.refl _) _ (lastOf_valid hdot) _
  · exact hfs ▸ Grows.refl _

theorem vfsRemove_grows (p : Nat) (path : Name) (perm : Int) (dir : Bool) (dot wrong : Int)
    {remove : Fs → Nat → Name → Nat → Except Int Fs}
    (hremove : ∀ d name victim fs', remove s.fs d name victim = .ok fs' → Grows s.fs fs') :
    Grows s.fs (vfsRemove p path perm dir dot wrong remove s).2.fs := by
  unfold vfsRemove
  split
  · exact .refl _
  have hfs := dLookup_fs p (lastOf path) s
  generalize dLookup p (lastOf path) s = r at hfs
  obtain ⟨_ | d, s'⟩ := r
  · exact hfs ▸ Grows.refl _
  dsimp only at hfs ⊢
  split
  · exact hfs ▸ Grows.refl _
  split
  · exact hfs ▸ Grows.refl _
  split
  · exact hfs ▸ Grows.refl _
  · rename_i hr
    exact hremove _ _ _ _ (hfs ▸ hr)

theorem tmpfsUnlink_grows {d victim : Nat} (h : tmpfsUnlink fs d name victim = .ok fs') : Grows fs fs' := by
  unfold tmpfsUnlink at h
  split at h
  · cases h
  · obtain rfl := Except.ok.inj h
    exact removeEntry_grows (.refl fs) d name

theorem tmpfsRmdir_grows {d victim : Nat} (h : tmpfsRmdir fs d name victim = .ok fs') : Grows fs fs' := by
  unfold tmpfsRmdir at h
  split at h
  · cases h
  split at h
  · cases h
  · obtain rfl := Except.ok.inj h
    exact removeEntry_grows (.refl fs) d name

theorem tmpfsRename_grows {od nd victim : Nat} {oname : Name} {target : Option Nat} (hv : Valid nname)
    (h : tmpfsRename fs od oname nd nname victim target = .ok fs') : Grows fs fs' := by
  unfold tmpfsRename at h
  split at h
  · cases h
  split at h
  · obtain rfl := Except.ok.inj h
    exact moveEntry_grows (.refl fs) od oname nd hv victim
  split at h
  · cases h
  split at h
  · obtain rfl := Except.ok.inj h
    exact moveEntry_grows (.refl fs) od oname nd hv victim
  obtain rfl := Except.ok.inj h
  refine moveEntry_grows ?_ od oname nd hv victim
  split
  · exact removeEntry_grows (.refl fs) nd nname
  · exact removeEntry_grows (.refl fs) nd nname

theorem renameDentries_grows (op np : Nat) (oname : Name) (hv : Valid nname) (od : Nat) (nd : Option Nat) :
    Grows s.fs (renameDentries op np oname nname od nd s).2.fs := by
  unfold renameDentries
  dsimp only
  split
  · exact .refl _
  split
  · exact .refl _
  split
  · exact .refl _
  split
  · exact .refl _
  split
  · exact .refl _
  rename_i hr
  dsimp only
  split
  · exact tmpfsRename_grows hv hr
  · exact tmpfsRename_grows hv hr

theorem vfsRename_grows (op : Nat) (old : Name) (np : Nat) (new : Name) (perm perm' : Int) :
    Grows s.fs (vfsRename op old np new perm perm' s).2.fs := by
  unfold vfsRename
  split
  · exact .refl _
  rename_i hdot
  have hfs := dLookup_fs op (lastOf old) s
  generalize dLookup op (lastOf old) s = r at hfs
  obtain ⟨_ | od, s'⟩ := r
  · exact hfs ▸ Grows.refl _
  dsimp only at hfs ⊢
  rw [← hfs]
  split
  · exact .refl _
  split
  · exact .refl _
  have hv : Valid (lastOf new) := lastOf_valid fun h => hdot (.inr h)
  have hfs' := dLookup_fs np (lastOf new) s'
  generalize dLookup np (lastOf new) s' = r' at hfs'
  obtain ⟨_ | nd, s''⟩ := r'
  · exact hfs' ▸ renameDentries_grows op np (lastOf old) hv od none
  · exact hfs' ▸ renameDentries_grows op np (lastOf old) hv od (some nd)

def Event.dotLink : Event → Bool
  | .link _ _ path _ => lastOf path = DOT
  | _ => false

theorem act_grows (s : State) {ev : Event} (hev : ev.dotLink = false) : Grows s.fs (ev.act s).fs := by
  cases ev with
  | root => exact .refl _
  | lookup d name =>
    dsimp only [Event.act]
    split
    · exact dLookup_fs d name s ▸ Grows.refl _
    · exact .refl _
  | dotdot d =>
    dsimp only [Event.act]
    split
    · exact .refl _
    · exact .refl _
  | get d => exact .refl _
  | put d => exact .refl _
  | create p path perm => exact vfsCreate_grows p path perm fun d _ hv => addEntry_grows (.refl _) d hv _
  | mkdir p path perm => exact vfsCreate_grows p path perm fun d _ hv => addEntry_grows (.refl _) d hv _
  | link t p path perm => exact vfsLink_grows t p (of_decide_eq_false hev) perm
  | unlink p path perm => exact vfsRemove_grows p path perm _ _ _ fun _ _ _ _ h => tmpfsUnlink_grows h
  | rmdir p path perm => exact vfsRemove_grows p path perm _ _ _ fun _ _ _ _ h => tmpfsRmdir_grows h
  | rename op old np new perm perm' => exact vfsRename_grows op old np new perm perm'

theorem step_names {ev : Event} (hev : ev.dotLink = false) (h : ∀ e ∈ s.fs.entries, Valid e.name) :
    ∀ e ∈ (step s ev).fs.entries, Valid e.name := by
  unfold step
  split
  · intro e he
    exact (act_grows s hev e he).elim (h e) id
  · exact h

theorem run_names {evs : List Event} (hevs : ∀ ev ∈ evs, ev.dotLink = false) (h : ∀ e ∈ s.fs.entries, Valid e.name) :
    ∀ e ∈ (run s evs).fs.entries, Valid e.name := by
  induction evs generalizing s with
  | nil => exact h
  | cons ev evs ih => exact ih (fun ev' hev' => hevs ev' (mem_cons_of_mem _ hev')) (step_names (hevs ev mem_cons_self) h)

def namesIn (fs : Fs) (d : Nat) : List Name := (fs.entries.filter (·.dir = d)).map (·.name)

theorem FsOk.namesIn_nodup (h : FsOk fs) (d : Nat) : (namesIn fs d).Nodup := by
  refine .map_on (fun e he e' he' hname => ?_) ((h.keys.of_map _).filter _)
  rw [mem_filter, decide_eq_true_iff] at he he'
  exact inj_on_of_nodup_map h.keys he.1 he'.1 (Prod.ext (he.2.trans he'.2.symm) hname)

-- The namespace of tmpfs is well formed whatever is called, unless `vfs_link` is asked for a new
-- path that ends in ".", "..", or has slashes only.
theorem namespace_well_formed (evs : List Event) (hevs : ∀ ev ∈ evs, ev.dotLink = false) :
    let fs := (run State.start evs).fs
    (∀ d, (namesIn fs d).Nodup ∧ ∀ name ∈ namesIn fs d, Valid name) ∧
    (∀ i < fs.next, (fs.node i).dir = false → (fs.node i).nlink = refs fs i) ∧
    ∀ d, (fs.node d).dir = true → Linked fs d → (fs.node d).nlink = 2 + subdirs fs d := by
  intro fs
  have h : FsOk fs := (run_ok evs start_ok).fs
  refine ⟨fun d => ⟨h.namesIn_nodup d, fun name hname => ?_⟩, h.files, h.dirs⟩
  obtain ⟨e, he, rfl⟩ := mem_map.mp hname
  exact run_names hevs (fun e he => absurd he not_mem_nil) e (mem_of_mem_filter he)

def movedTree : List Event :=
  [.root, .mkdir 0 [100] 0, .lookup 0 [100], .mkdir 1 [100, 47, 101] 0, .create 0 [97] 0, .lookup 0 [97],
    .link 2 1 [100, 47, 99] 0, .rename 0 [97] 1 [100, 47, 98] 0 0]

theorem namespace_well_formed_moved :
    let fs := (run State.start movedTree).fs
    fs.entries = [⟨0, [100], 1⟩, ⟨1, [101], 2⟩, ⟨1, [99], 3⟩, ⟨1, [98], 3⟩] ∧ (namesIn fs 1).Nodup ∧
      (fs.node 1).nlink = 2 + subdirs fs 1 ∧ (fs.node 3).nlink = refs fs 3 :=
  have h := namespace_well_formed movedTree (by decide)
  ⟨by decide +kernel, (h.1 1).1, h.2.2 1 (by decide +kernel) (.inr ⟨⟨0, [100], 1⟩, by decide +kernel, rfl⟩),
    h.2.1 3 (by decide +kernel) (by decide +kernel)⟩

theorem link_adds_dot : namesIn (run State.start [.root, .create 0 [97] 0, .lookup 0 [97], .link 1 0 [46] 0]).fs 0 =
    [[97], DOT] := by
  decide +kernel

end Olux.Dcache
