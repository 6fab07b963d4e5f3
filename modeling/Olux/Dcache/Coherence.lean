import Olux.Dcache.Dentries

namespace Olux.Dcache

open List Option

open Vfs (Name)

variable {fs fs' : Fs} {dc dc' : Dc} {held : List Nat} {s : State}

theorem Counted.perm (h : Counted held dc) {held' : List Nat} (hp : held.Perm held') : Counted held' dc := by
  have htotal : ∀ d, total held dc d = total held' dc d := fun d => by
    unfold total
    rw [hp.count_eq]
  exact ⟨fun d hd => by rw [← htotal]; exact h.ref d hd, fun d => by rw [← htotal]; exact h.alive d, h.nodup, h.bound⟩

section alloc

variable {p : Nat} {name : Name} {e : Ent}

theorem dAlloc_dent (ino c : Nat) (hp : p ≠ dc.next) : (dAlloc p name ino dc).dent c =
    if c = dc.next then ⟨name, ino, some p, true, false, 1⟩
    else { dc.dent c with ref := (dc.dent c).ref + if c = p then 1 else 0 } := by
  have hx : ∀ (x : Dentry), (dc.set dc.next x).dent p = dc.dent p := fun x => by rw [set_dent, if_neg hp]
  unfold dAlloc dGet
  rw [set_dent]
  dsimp only
  rw [hx, set_dent]
  by_cases hc : c = p
  · subst hc
    rw [if_pos rfl, if_neg hp, if_pos rfl]
  · rw [if_neg hc, if_neg hc]
    rfl

theorem dAlloc_counted (h : Counted held dc) (hp : p ∈ dc.alive) (ino : Nat) :
    Counted (dc.next :: held) (dAlloc p name ino dc) := by
  have hpn : p ≠ dc.next := Nat.ne_of_lt (h.bound p hp)
  have hnew : dc.next ∉ dc.alive := fun hc => Nat.lt_irrefl _ (h.bound _ hc)
  have hparents : (dAlloc p name ino dc).parents = p :: dc.parents := by
    unfold Dc.parents
    show List.filterMap _ (dc.next :: dc.alive) = _
    rw [filterMap_cons_some (by rw [dAlloc_dent ino _ hpn, if_pos rfl])]
    refine congrArg (p :: ·) (filterMap_congr fun c hc => ?_)
    rw [dAlloc_dent ino _ hpn, if_neg (by rintro rfl; exact hnew hc)]
  have htotal : ∀ x, total (dc.next :: held) (dAlloc p name ino dc) x =
      total held dc x + (if dc.next = x then 1 else 0) + if p = x then 1 else 0 := by
    intro x
    unfold total
    rw [hparents, count_cons, count_cons]
    simp only [beq_iff_eq]
    omega
  have hzero : total held dc dc.next = 0 := by
    have := (h.alive dc.next).not.mp hnew
    omega
  refine ⟨fun x hx => ?_, fun x => ?_, nodup_cons.mpr ⟨hnew, h.nodup⟩, fun x hx => ?_⟩
  · rw [htotal, dAlloc_dent ino _ hpn]
    rcases mem_cons.mp hx with rfl | hx
    · rw [if_pos rfl, hzero, if_pos rfl, if_neg hpn]
    have hne : x ≠ dc.next := fun heq => hnew (heq ▸ hx)
    rw [if_neg hne, if_neg (Ne.symm hne), ← h.ref x hx]
    simp only [Nat.add_zero, eq_comm]
  · rw [htotal]
    show x ∈ dc.next :: dc.alive ↔ _
    rw [mem_cons, h.alive x]
    by_cases hx : dc.next = x
    · rw [if_pos hx]
      exact iff_of_true (.inl hx.symm) (by omega)
    rw [if_neg hx]
    by_cases hpx : p = x
    · subst hpx
      rw [if_pos rfl]
      exact iff_of_true (.inr ((h.alive p).mp hp)) (by omega)
    · rw [if_neg hpx]
      exact ⟨fun hc => by rcases hc with hc | hc <;> omega, fun hc => .inr (by omega)⟩
  rcases mem_cons.mp hx with rfl | hx
  · exact Nat.lt_succ_self _
  · exact Nat.lt_succ_of_lt (h.bound x hx)

theorem dCached_none {c : Nat} (hcached : dCached dc p name = none) (hc : c ∈ dc.alive) (hl : (dc.dent c).linked = true)
    (hpar : (dc.dent c).parent = some p) (hn : (dc.dent c).name = name) : False := by
  have := find?_eq_none.mp hcached c hc
  simp [hl, hpar, hn] at this

theorem DcOk.unseen (hfs : FsOk fs) (h : DcOk fs dc) (hc : Counted held dc) (hp : p ∈ dc.alive)
    (hcached : dCached dc p name = none) (he : findEntry fs (dc.dent p).ino name = some e) {c : Nat} (hca : c ∈ dc.alive)
    (hino : (dc.dent c).ino = e.ino) (hdir : (fs.node e.ino).dir = true) : False := by
  obtain ⟨hmem, hed, hen, -⟩ := findEntry_some he
  have hpdir := (hfs.bound e hmem).2.2
  rw [hed] at hpdir
  cases hl : (dc.dent c).linked with
  | false => exact h.dropped c hca hl (hino ▸ hdir) e hmem hino.symm
  | true =>
  obtain ⟨q, hq, hin⟩ := h.shown c hca hl
  have hsame := hfs.once _ hin e hmem hino (show (fs.node (dc.dent c).ino).dir = true by rw [hino]; exact hdir)
  have hqi : (dc.dent q).ino = (dc.dent p).ino := (congrArg Ent.dir hsame).trans hed
  have hqp : q = p := h.dirs q (hc.parent_alive hca hq) p hp hqi (hqi ▸ hpdir)
  exact dCached_none hcached hca hl (hqp ▸ hq) ((congrArg Ent.name hsame).trans hen)

theorem dAlloc_ok (hfs : FsOk fs) (h : DcOk fs dc) (hc : Counted held dc) (hp : p ∈ dc.alive)
    (hcached : dCached dc p name = none) (he : findEntry fs (dc.dent p).ino name = some e) :
    DcOk fs (dAlloc p name e.ino dc) := by
  have hpn : p ≠ dc.next := Nat.ne_of_lt (hc.bound p hp)
  have hnew : dc.next ∉ dc.alive := fun hc' => Nat.lt_irrefl _ (hc.bound _ hc')
  obtain ⟨hmem, hed, hen, -⟩ := findEntry_some he
  have hself : (dAlloc p name e.ino dc).dent dc.next = ⟨name, e.ino, some p, true, false, 1⟩ := by
    rw [dAlloc_dent _ _ hpn, if_pos rfl]
  have hold : ∀ c ∈ dc.alive, (dAlloc p name e.ino dc).dent c =
      { dc.dent c with ref := (dc.dent c).ref + if c = p then 1 else 0 } := by
    intro c hc'
    rw [dAlloc_dent _ _ hpn, if_neg (by rintro rfl; exact hnew hc')]
  refine ⟨fun c hc' => ?_, fun c hc' c' hc'' => ?_, fun c hc' c' hc'' => ?_, fun c hc' => ?_, fun c hc' => ?_⟩
  · rcases mem_cons.mp hc' with rfl | hc'
    · rw [hself]
      refine fun _ => ⟨p, rfl, ?_⟩
      rw [hold p hp]
      show (⟨(dc.dent p).ino, name, e.ino⟩ : Ent) ∈ fs.entries
      rw [← hed, ← hen]
      exact hmem
    · rw [hold c hc']
      intro hl
      obtain ⟨q, hq, hin⟩ := h.shown c hc' hl
      refine ⟨q, hq, ?_⟩
      rw [hold q (hc.parent_alive hc' hq)]
      exact hin
  · rcases mem_cons.mp hc' with rfl | hc' <;> rcases mem_cons.mp hc'' with rfl | hc''
    · exact fun _ _ _ _ => rfl
    · rw [hself, hold c' hc'']
      exact fun _ hl hpar hn => (dCached_none hcached hc'' hl hpar.symm hn.symm).elim
    · rw [hself, hold c hc']
      exact fun hl _ hpar hn => (dCached_none hcached hc' hl hpar hn).elim
    · rw [hold c hc', hold c' hc'']
      exact h.single c hc' c' hc''
  · rcases mem_cons.mp hc' with rfl | hc' <;> rcases mem_cons.mp hc'' with rfl | hc''
    · exact fun _ _ => rfl
    · rw [hself, hold c' hc'']
      exact fun hino hdir => (h.unseen hfs hc hp hcached he hc'' hino.symm hdir).elim
    · rw [hself, hold c hc']
      intro hino hdir
      have hino : (dc.dent c).ino = e.ino := hino
      have hdir : (fs.node (dc.dent c).ino).dir = true := hdir
      exact (h.unseen hfs hc hp hcached he hc' hino (hino ▸ hdir)).elim
    · rw [hold c hc', hold c' hc'']
      exact h.dirs c hc' c' hc''
  · rcases mem_cons.mp hc' with rfl | hc'
    · rw [hself]
      exact fun hl => by cases hl
    · rw [hold c hc']
      exact h.dropped c hc'
  rcases mem_cons.mp hc' with rfl | hc'
  · rw [hself]
    exact (hfs.bound e hmem).1
  · rw [hold c hc']
    exact h.bound c hc'

end alloc

theorem DcOk.added (h : DcOk fs dc) {e : Ent} (hentries : fs'.entries = fs.entries ++ [e]) (hnext : fs.next ≤ fs'.next)
    (hdir : ∀ i < fs.next, (fs'.node i).dir = (fs.node i).dir) (he : fs.next ≤ e.ino ∨ (fs.node e.ino).dir = false) :
    DcOk fs' dc where
  shown := by
    intro c hc hl
    obtain ⟨p, hp, hmem⟩ := h.shown c hc hl
    exact ⟨p, hp, by rw [hentries]; exact mem_append_left _ hmem⟩
  single := h.single
  dirs := by
    intro c hc c' hc' hino hd
    rw [hdir _ (h.bound c hc)] at hd
    exact h.dirs c hc c' hc' hino hd
  dropped := by
    intro c hc hl hd e' he'
    rw [hdir _ (h.bound c hc)] at hd
    rw [hentries] at he'
    rcases mem_append.mp he' with he' | he'
    · exact h.dropped c hc hl hd e' he'
    rw [mem_singleton.mp he']
    intro heq
    have := h.bound c hc
    rcases he with he | he
    · omega
    · rw [heq, hd] at he
      cases he
  bound := fun c hc => Nat.lt_of_lt_of_le (h.bound c hc) hnext

theorem dDrop_dent (d c : Nat) : (dDrop d dc).dent c =
    if c = d then { dc.dent d with linked := false, dead := true } else dc.dent c := set_dent ..

theorem dDrop_ino (dc : Dc) (d c : Nat) : ((dDrop d dc).dent c).ino = (dc.dent c).ino ∧
    ((dDrop d dc).dent c).parent = (dc.dent c).parent ∧ ((dDrop d dc).dent c).name = (dc.dent c).name ∧
    ((dDrop d dc).dent c).ref = (dc.dent c).ref := by
  rw [dDrop_dent]
  split
  · rename_i heq
    rw [heq]
    exact ⟨rfl, rfl, rfl, rfl⟩
  · exact ⟨rfl, rfl, rfl, rfl⟩

theorem dDrop_linked {d c : Nat} (h : ((dDrop d dc).dent c).linked = true) : c ≠ d ∧ (dc.dent c).linked = true := by
  rw [dDrop_dent] at h
  split at h
  · cases h
  · rename_i hne
    exact ⟨hne, h⟩

theorem dDrop_counted (h : Counted held dc) (d : Nat) : Counted held (dDrop d dc) := by
  have hparents : (dDrop d dc).parents = dc.parents := by
    unfold Dc.parents
    exact filterMap_congr fun c _ => (dDrop_ino dc d c).2.1
  have htotal : ∀ x, total held (dDrop d dc) x = total held dc x := fun x => by
    unfold total
    rw [hparents]
  refine ⟨fun x hx => ?_, fun x => ?_, h.nodup, h.bound⟩
  · rw [htotal, (dDrop_ino dc d x).2.2.2]
    exact h.ref x hx
  · rw [htotal]
    exact h.alive x

theorem DcOk.of_entry (hfs : FsOk fs) (h : DcOk fs dc) (hc : Counted held dc) {c d p q : Nat} (hca : c ∈ dc.alive)
    (hda : d ∈ dc.alive) (hcl : (dc.dent c).linked = true) (hdl : (dc.dent d).linked = true)
    (hcp : (dc.dent c).parent = some q) (hdp : (dc.dent d).parent = some p) (hino : (dc.dent q).ino = (dc.dent p).ino)
    (hname : (dc.dent c).name = (dc.dent d).name) : c = d := by
  obtain ⟨p', hp', hin⟩ := h.shown d hda hdl
  obtain rfl : p = p' := some.inj (hdp.symm.trans hp')
  have hdir : (fs.node (dc.dent p).ino).dir = true := (hfs.bound _ hin).2.2
  have hqp : q = p := h.dirs q (hc.parent_alive hca hcp) p (hc.parent_alive hda hdp) hino (hino ▸ hdir)
  exact h.single c hca d hda hcl hdl (hcp.trans (hqp ▸ hdp.symm)) hname

theorem dDrop_ok (hfs : FsOk fs) (h : DcOk fs dc) (hc : Counted held dc) {d p : Nat} (hda : d ∈ dc.alive)
    (hdl : (dc.dent d).linked = true) (hdp : (dc.dent d).parent = some p)
    (hentries : fs.entries.Perm (⟨(dc.dent p).ino, (dc.dent d).name, (dc.dent d).ino⟩ :: fs'.entries))
    (hnext : fs'.next = fs.next) (hdir : ∀ i, (fs'.node i).dir = (fs.node i).dir)
    (hgone : (fs.node (dc.dent d).ino).dir = true → ∀ e ∈ fs'.entries, e.ino ≠ (dc.dent d).ino) :
    DcOk fs' (dDrop d dc) where
  shown := by
    intro c hca hl
    obtain ⟨hne, hcl⟩ := dDrop_linked hl
    obtain ⟨q, hq, hin⟩ := h.shown c hca hcl
    obtain ⟨hi, hpar, hn, -⟩ := dDrop_ino dc d c
    refine ⟨q, hpar.trans hq, ?_⟩
    rw [hi, hn, (dDrop_ino dc d q).1]
    rcases mem_cons.mp (hentries.mem_iff.mp hin) with heq | hin
    · have hsame := Ent.mk.inj heq
      exact absurd (DcOk.of_entry hfs h hc hca hda hcl hdl hq hdp hsame.1 hsame.2.1) hne
    · exact hin
  single := by
    intro c hca c' hca' hl hl'
    rw [(dDrop_ino dc d c).2.1, (dDrop_ino dc d c').2.1, (dDrop_ino dc d c).2.2.1, (dDrop_ino dc d c').2.2.1]
    exact h.single c hca c' hca' (dDrop_linked hl).2 (dDrop_linked hl').2
  dirs := by
    intro c hca c' hca'
    rw [(dDrop_ino dc d c).1, (dDrop_ino dc d c').1, hdir]
    exact h.dirs c hca c' hca'
  dropped := by
    intro c hca hl hd e he
    rw [(dDrop_ino dc d c).1] at hd ⊢
    rw [hdir] at hd
    by_cases hcd : c = d
    · rw [hcd] at hd ⊢
      exact hgone hd e he
    · rw [dDrop_dent, if_neg hcd] at hl
      exact h.dropped c hca hl hd e (hentries.mem_iff.mpr (mem_cons_of_mem _ he))
  bound := by
    intro c hca
    rw [(dDrop_ino dc d c).1, hnext]
    exact h.bound c hca

end Olux.Dcache
