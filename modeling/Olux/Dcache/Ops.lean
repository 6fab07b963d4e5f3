import Olux.Dcache.Coherence

namespace Olux.Dcache

open List Option

open Vfs (Name)

variable {fs fs' : Fs} {dc dc' : Dc} {held : List Nat} {s : State} {c p : Nat}

section move

variable {d op np : Nat} {name : Name}

theorem dMove_dent (dc : Dc) (d np : Nat) (name : Name) (c : Nat) : ∃ ref, (dMove d np name dc).dent c =
    { (if c = d then { dc.dent d with parent := some np, name } else dc.dent c) with ref } ∧
      ref = (dc.dent c).ref + if c = np then 1 else 0 := by
  unfold dMove dGet
  dsimp only
  rw [set_dent]
  by_cases hc : c = np
  · subst hc
    rw [if_pos rfl, set_dent]
    refine ⟨_, rfl, ?_⟩
    rw [if_pos rfl]
    split
    · rename_i heq
      rw [heq]
    · rfl
  rw [if_neg hc, set_dent]
  refine ⟨(dc.dent c).ref, ?_, by rw [if_neg hc, Nat.add_zero]⟩
  split
  · rename_i heq
    rw [heq]
  · rfl

theorem dMove_self (dc : Dc) (d np : Nat) (name : Name) : ((dMove d np name dc).dent d).ino = (dc.dent d).ino ∧
    ((dMove d np name dc).dent d).parent = some np ∧ ((dMove d np name dc).dent d).name = name ∧
    ((dMove d np name dc).dent d).linked = (dc.dent d).linked := by
  obtain ⟨ref, h, -⟩ := dMove_dent dc d np name d
  rw [h, if_pos rfl]
  exact ⟨rfl, rfl, rfl, rfl⟩

theorem dMove_other (dc : Dc) (hc : c ≠ d) (np : Nat)
    (name : Name) : ((dMove d np name dc).dent c).ino = (dc.dent c).ino ∧
    ((dMove d np name dc).dent c).parent = (dc.dent c).parent ∧ ((dMove d np name dc).dent c).name = (dc.dent c).name ∧
    ((dMove d np name dc).dent c).linked = (dc.dent c).linked := by
  obtain ⟨ref, h, -⟩ := dMove_dent dc d np name c
  rw [h, if_neg hc]
  exact ⟨rfl, rfl, rfl, rfl⟩

theorem dMove_ino (d np : Nat) (name : Name) (c : Nat) : ((dMove d np name dc).dent c).ino = (dc.dent c).ino := by
  by_cases hc : c = d
  · rw [hc]
    exact (dMove_self dc d np name).1
  · exact (dMove_other dc hc np name).1

theorem dMove_alive (hd : d ∈ dc.alive) : (dMove d np name dc).alive.Perm dc.alive := (perm_cons_erase hd).symm

theorem dMove_counted (h : Counted held dc) (hd : d ∈ dc.alive) (hop : (dc.dent d).parent = some op) (hnp : np ∈ dc.alive)
    (name : Name) : Counted (op :: held) (dMove d np name dc) := by
  have hrest : ∀ c ∈ dc.alive.erase d, ((dMove d np name dc).dent c).parent = (dc.dent c).parent := fun c hc =>
    (dMove_other dc (h.nodup.mem_erase_iff.mp hc).1 np name).2.1
  have hnew : (dMove d np name dc).parents = np :: (dc.alive.erase d).filterMap fun c => (dc.dent c).parent := by
    unfold Dc.parents
    show List.filterMap _ (d :: dc.alive.erase d) = _
    rw [filterMap_cons_some (f := fun c => ((dMove d np name dc).dent c).parent) (dMove_self dc d np name).2.1]
    exact congrArg (np :: ·) (filterMap_congr hrest)
  have hold : dc.parents.Perm (op :: (dc.alive.erase d).filterMap fun c => (dc.dent c).parent) := by
    have := (perm_cons_erase hd).filterMap fun c => (dc.dent c).parent
    rwa [filterMap_cons_some (f := fun c => (dc.dent c).parent) hop] at this
  have htotal : ∀ x, total (op :: held) (dMove d np name dc) x = total held dc x + if np = x then 1 else 0 := by
    intro x
    unfold total
    rw [hnew, hold.count_eq, count_cons, count_cons, count_cons]
    simp only [beq_iff_eq]
    omega
  refine ⟨fun x hx => ?_, fun x => ?_, (dMove_alive hd).nodup_iff.mpr h.nodup, fun x hx => ?_⟩
  · obtain ⟨ref, heq, href⟩ := dMove_dent dc d np name x
    rw [htotal, heq, ← h.ref x ((dMove_alive hd).mem_iff.mp hx)]
    simp only [href, eq_comm]
  · rw [htotal, (dMove_alive hd).mem_iff, h.alive x]
    split
    · rename_i heq
      subst heq
      exact iff_of_true ((h.alive np).mp hnp) (by omega)
    · omega
  · exact h.bound x ((dMove_alive hd).mem_iff.mp hx)

theorem dMove_ok (hfs : FsOk fs) (h : DcOk fs dc) (hc : Counted held dc) (hd : d ∈ dc.alive)
    (hdl : (dc.dent d).linked = true) (hop : (dc.dent d).parent = some op)
    (hfree : ∀ c ∈ dc.alive, (dc.dent c).linked = true → (dc.dent c).parent = some np → (dc.dent c).name = name → False)
    {rest : List Ent} (hentries : fs.entries.Perm (⟨(dc.dent op).ino, (dc.dent d).name, (dc.dent d).ino⟩ :: rest))
    (hentries' : fs'.entries.Perm (⟨(dc.dent np).ino, name, (dc.dent d).ino⟩ :: rest)) (hnext : fs'.next = fs.next)
    (hdir : ∀ i, (fs'.node i).dir = (fs.node i).dir) : DcOk fs' (dMove d np name dc) := by
  have hmem : ∀ {c}, c ∈ (dMove d np name dc).alive → c ∈ dc.alive := fun hx => (dMove_alive hd).mem_iff.mp hx
  refine ⟨fun c hca hl => ?_, fun c hca c' hca' hl hl' => ?_, fun c hca c' hca' => ?_, fun c hca hl hdc e he => ?_,
    fun c hca => ?_⟩
  · by_cases hcd : c = d
    · subst hcd
      obtain ⟨hi, hpar, hn, -⟩ := dMove_self dc c np name
      refine ⟨np, hpar, hentries'.mem_iff.mpr ?_⟩
      rw [hi, hn, dMove_ino]
      exact mem_cons_self
    · obtain ⟨hi, hpar, hn, hlk⟩ := dMove_other dc hcd np name
      rw [hlk] at hl
      obtain ⟨q, hq, hin⟩ := h.shown c (hmem hca) hl
      refine ⟨q, hpar.trans hq, hentries'.mem_iff.mpr (mem_cons_of_mem _ ?_)⟩
      rw [hi, hn, dMove_ino]
      rcases mem_cons.mp (hentries.mem_iff.mp hin) with heq | hin
      · have hsame := Ent.mk.inj heq
        exact absurd (DcOk.of_entry hfs h hc (hmem hca) hd hl hdl hq hop hsame.1 hsame.2.1) hcd
      · exact hin
  · by_cases hcd : c = d <;> by_cases hcd' : c' = d
    · exact fun _ _ => hcd.trans hcd'.symm
    · subst hcd
      obtain ⟨-, hpar', hn', hlk'⟩ := dMove_other dc hcd' np name
      rw [(dMove_self dc c np name).2.1, (dMove_self dc c np name).2.2.1, hpar', hn']
      rw [hlk'] at hl'
      exact fun hp hn => (hfree c' (hmem hca') hl' hp.symm hn.symm).elim
    · subst hcd'
      obtain ⟨-, hpar, hn, hlk⟩ := dMove_other dc hcd np name
      rw [(dMove_self dc c' np name).2.1, (dMove_self dc c' np name).2.2.1, hpar, hn]
      rw [hlk] at hl
      exact fun hp hn => (hfree c (hmem hca) hl hp hn).elim
    · obtain ⟨-, hpar, hn, hlk⟩ := dMove_other dc hcd np name
      obtain ⟨-, hpar', hn', hlk'⟩ := dMove_other dc hcd' np name
      rw [hpar, hn, hpar', hn']
      rw [hlk] at hl
      rw [hlk'] at hl'
      exact h.single c (hmem hca) c' (hmem hca') hl hl'
  · rw [dMove_ino, dMove_ino, hdir]
    exact h.dirs c (hmem hca) c' (hmem hca')
  · rw [dMove_ino] at hdc ⊢
    rw [hdir] at hdc
    have hcd : c ≠ d := by
      rintro rfl
      rw [(dMove_self dc c np name).2.2.2, hdl] at hl
      cases hl
    rw [(dMove_other dc hcd np name).2.2.2] at hl
    rcases mem_cons.mp (hentries'.mem_iff.mp he) with rfl | he
    · intro heq
      exact hcd (h.dirs c (hmem hca) d hd heq.symm hdc)
    · exact h.dropped c (hmem hca) hl hdc e (hentries.mem_iff.mpr (mem_cons_of_mem _ he))
  · rw [dMove_ino, hnext]
    exact h.bound c (hmem hca)

end move

structure Ok (s : State) : Prop where
  fs : FsOk s.fs
  dc : DcOk s.fs s.dc
  counted : Counted s.held s.dc

theorem Ok.get (h : Ok s) {d : Nat} (hd : d ∈ s.dc.alive) : Ok (s.get d) :=
  ⟨h.fs, h.dc.frame (setRef_frame ..), dGet_counted h.counted hd⟩

theorem Ok.put (h : Ok s) {d : Nat} (hd : d ∈ s.held) : Ok (s.put d) ∧ Frame s.dc (s.put d).dc := by
  have hc := h.counted.perm (perm_cons_erase hd)
  obtain ⟨hcounted, hframe⟩ := dPut_counted (s.dc.alive.length + 1) hc (Nat.le_succ _)
  exact ⟨⟨h.fs, h.dc.frame hframe, hcounted⟩, hframe⟩

structure Found (s s' : State) (p : Nat) (name : Name) (c : Nat) : Prop where
  ok : Ok s'
  fs : s'.fs = s.fs
  held : s'.held = c :: s.held
  alive : c ∈ s'.dc.alive
  linked : (s'.dc.dent c).linked = true
  parent : (s'.dc.dent c).parent = some p
  name : (s'.dc.dent c).name = name
  old : ∀ d ∈ s.dc.alive, d ∈ s'.dc.alive ∧ (s'.dc.dent d).ino = (s.dc.dent d).ino ∧
    (s'.dc.dent d).parent = (s.dc.dent d).parent ∧ (s'.dc.dent d).name = (s.dc.dent d).name ∧
    (s'.dc.dent d).linked = (s.dc.dent d).linked

theorem dLookup_spec (h : Ok s) (hp : p ∈ s.dc.alive) (name : Name) :
    (∃ c s', dLookup p name s = (some c, s') ∧ Found s s' p name c) ∨
      dLookup p name s = (none, s) ∧ findEntry s.fs (s.dc.dent p).ino name = none := by
  unfold dLookup
  cases hcached : dCached s.dc p name with
  | some c =>
    have hc := mem_of_find?_eq_some hcached
    have hprop := find?_some hcached
    simp only [decide_eq_true_eq] at hprop
    have hframe : Frame s.dc (s.get c).dc := setRef_frame ..
    obtain ⟨hn, -, hpar, hl⟩ := hframe.fields c
    refine .inl ⟨c, s.get c, rfl, h.get hc, rfl, rfl, hc, hl.trans hprop.1, hpar.trans hprop.2.1, hn.trans hprop.2.2,
      fun d hd => ?_⟩
    obtain ⟨hn, hi, hpar, hl⟩ := hframe.fields d
    exact ⟨hd, hi, hpar, hn, hl⟩
  | none =>
  cases he : findEntry s.fs (s.dc.dent p).ino name with
  | none => exact .inr ⟨rfl, rfl⟩
  | some e =>
  have hpn : p ≠ s.dc.next := Nat.ne_of_lt (h.counted.bound p hp)
  have hself : (dAlloc p name e.ino s.dc).dent s.dc.next = ⟨name, e.ino, some p, true, false, 1⟩ := by
    rw [dAlloc_dent _ _ hpn, if_pos rfl]
  refine .inl ⟨_, _, rfl, ⟨h.fs, dAlloc_ok h.fs h.dc h.counted hp hcached he, dAlloc_counted h.counted hp e.ino⟩,
    rfl, rfl, mem_cons_self, ?_, ?_, ?_, fun d hd => ?_⟩
  · show ((dAlloc p name e.ino s.dc).dent s.dc.next).linked = true
    rw [hself]
  · show ((dAlloc p name e.ino s.dc).dent s.dc.next).parent = some p
    rw [hself]
  · show ((dAlloc p name e.ino s.dc).dent s.dc.next).name = name
    rw [hself]
  have hne : d ≠ s.dc.next := Nat.ne_of_lt (h.counted.bound d hd)
  have hdent : (dAlloc p name e.ino s.dc).dent d = _ := dAlloc_dent e.ino d hpn
  rw [if_neg hne] at hdent
  refine ⟨mem_cons_of_mem _ hd, ?_⟩
  show ((dAlloc p name e.ino s.dc).dent d).ino = _ ∧ ((dAlloc p name e.ino s.dc).dent d).parent = _ ∧
    ((dAlloc p name e.ino s.dc).dent d).name = _ ∧ ((dAlloc p name e.ino s.dc).dent d).linked = _
  rw [hdent]
  exact ⟨rfl, rfl, rfl, rfl⟩

theorem Found.entry {s' : State} {name : Name} (h : Found s s' p name c) :
    ⟨(s'.dc.dent p).ino, name, (s'.dc.dent c).ino⟩ ∈ s'.fs.entries := by
  obtain ⟨q, hq, hin⟩ := h.ok.dc.shown c h.alive h.linked
  obtain rfl : q = p := some.inj (hq.symm.trans h.parent)
  rwa [h.name] at hin

theorem Found.put_ok {s' : State} {name : Name} (h : Found s s' p name c) : Ok (s'.put c) :=
  (h.ok.put (by rw [h.held]; exact mem_cons_self)).1

theorem vfsCreate_ok (h : Ok s) (hp : p ∈ s.dc.alive) (path : Name) (perm : Int) {make : Fs → Nat → Name → Fs}
    (hmake : ∀ d name, findEntry s.fs d name = none → (s.fs.node d).dir = true → d < s.fs.next → FsOk (make s.fs d name) ∧
      DcOk (make s.fs d name) s.dc)
    (hdir : (s.fs.node (s.dc.dent p).ino).dir = true) : Ok (vfsCreate p path perm make s).2 := by
  unfold vfsCreate
  split
  · exact h
  rcases dLookup_spec h hp (lastOf path) with ⟨c, s', heq, hfound⟩ | ⟨heq, hnone⟩
  · rw [heq]
    exact hfound.put_ok
  rw [heq]
  dsimp only
  split
  · exact h
  · obtain ⟨hfs, hdc⟩ := hmake _ _ hnone hdir (h.dc.bound p hp)
    exact ⟨hfs, hdc, h.counted⟩

theorem vfsLink_ok (h : Ok s) {t : Nat} (ht : t ∈ s.dc.alive) (hp : p ∈ s.dc.alive) (path : Name) (perm : Int)
    (hdir : (s.fs.node (s.dc.dent p).ino).dir = true) : Ok (vfsLink t p path perm s).2 := by
  unfold vfsLink
  split
  · exact h
  rename_i htd
  have htd : (s.fs.node (s.dc.dent t).ino).dir = false := by simpa using htd
  rcases dLookup_spec h hp (lastOf path) with ⟨c, s', heq, hfound⟩ | ⟨heq, hnone⟩
  · rw [heq]
    exact hfound.put_ok
  rw [heq]
  dsimp only
  split
  · exact h
  · refine ⟨tmpfsLink_ok h.fs hdir (h.dc.bound p hp) htd (h.dc.bound t ht) hnone, ?_, h.counted⟩
    exact h.dc.added rfl (Nat.le_refl _) (fun i _ => addLinks_dir ..) (.inr htd)

structure Detached (fs fs' : Fs) (e : Ent) : Prop where
  ok : FsOk fs'
  entries : fs.entries.Perm (e :: fs'.entries)
  next : fs'.next = fs.next
  dir : ∀ i, (fs'.node i).dir = (fs.node i).dir
  gone : (fs.node e.ino).dir = true → ∀ e' ∈ fs'.entries, e'.ino ≠ e.ino

theorem removeFile_detached (h : FsOk fs) {e : Ent} (he : e ∈ fs.entries) (hf : (fs.node e.ino).dir = false) :
    Detached fs (removeEntry (addLinks fs e.ino (-1)) e.dir e.name) e := by
  have hfind := h.findEntry he
  refine ⟨removeFile_ok h hfind hf, (findEntry_some hfind).2.2.2, rfl, fun i => addLinks_dir .., fun hd => ?_⟩
  rw [hf] at hd
  cases hd

theorem detachDir_detached (h : FsOk fs) {e : Ent} (he : e ∈ fs.entries) (hd : (fs.node e.ino).dir = true) :
    Detached fs (detachDir fs e.dir e.name e.ino) e := by
  have hfind := h.findEntry he
  exact ⟨detachDir_ok h hfind hd, (findEntry_some hfind).2.2.2, rfl, fun i => (detachDir_node ..).1, fun hd => h.gone hfind hd⟩

theorem Detached.drop {e : Ent} (h : Ok s) (hdet : Detached s.fs fs' e) {d : Nat} (hda : d ∈ s.dc.alive)
    (hdl : (s.dc.dent d).linked = true) (hdp : (s.dc.dent d).parent = some p)
    (he : e = ⟨(s.dc.dent p).ino, (s.dc.dent d).name, (s.dc.dent d).ino⟩) :
    Ok { s with fs := fs', dc := dDrop d s.dc } := by
  subst he
  exact ⟨hdet.ok, dDrop_ok h.fs h.dc h.counted hda hdl hdp hdet.entries hdet.next hdet.dir hdet.gone,
    dDrop_counted h.counted d⟩

theorem vfsRemove_ok (h : Ok s) (hp : p ∈ s.dc.alive) (path : Name) (perm : Int) {dir : Bool} (dot wrong : Int)
    {remove : Fs → Nat → Name → Nat → Except Int Fs}
    (hremove : ∀ e ∈ s.fs.entries, ∀ fs', (s.fs.node e.ino).dir = dir → remove s.fs e.dir e.name e.ino = .ok fs' →
      Detached s.fs fs' e) : Ok (vfsRemove p path perm dir dot wrong remove s).2 := by
  unfold vfsRemove
  split
  · exact h
  rcases dLookup_spec h hp (lastOf path) with ⟨c, s', heq, hfound⟩ | ⟨heq, -⟩
  · rw [heq]
    dsimp only
    split
    · exact hfound.put_ok
    rename_i hkind
    split
    · exact hfound.put_ok
    split
    · exact hfound.put_ok
    rename_i fs' hok
    have hin := hfound.entry
    rw [hfound.fs] at hin hok hkind
    have hdet := hremove _ hin fs' (by simpa using hkind) hok
    rw [← hfound.fs] at hdet
    have hdropped := hdet.drop hfound.ok hfound.alive hfound.linked hfound.parent (by rw [hfound.name])
    exact (hdropped.put (by
      show c ∈ s'.held
      rw [hfound.held]
      exact mem_cons_self)).1
  · rw [heq]
    exact h

theorem vfsUnlink_ok (h : Ok s) (hp : p ∈ s.dc.alive) (path : Name) (perm : Int) : Ok (vfsUnlink p path perm s).2 := by
  refine vfsRemove_ok h hp path perm _ _ fun e he fs' hf hok => ?_
  unfold tmpfsUnlink at hok
  rw [h.fs.findEntry he] at hok
  obtain rfl := Except.ok.inj hok
  exact removeFile_detached h.fs he hf

theorem vfsRmdir_ok (h : Ok s) (hp : p ∈ s.dc.alive) (path : Name) (perm : Int) : Ok (vfsRmdir p path perm s).2 := by
  refine vfsRemove_ok h hp path perm _ _ fun e he fs' hd hok => ?_
  unfold tmpfsRmdir at hok
  rw [h.fs.findEntry he] at hok
  split at hok
  · cases hok
  obtain rfl := Except.ok.inj hok
  exact detachDir_detached h.fs he hd

theorem Ok.move (h : Ok s) {od op np : Nat} (nname : Name) (hod : od ∈ s.dc.alive) (hl : (s.dc.dent od).linked = true)
    (hop : (s.dc.dent od).parent = some op) (hnp : np ∈ s.dc.alive) (hnd : (s.fs.node (s.dc.dent np).ino).dir = true)
    (hfree : findEntry s.fs (s.dc.dent np).ino nname = none) :
    Ok ⟨moveEntry s.fs (s.dc.dent op).ino (s.dc.dent od).name (s.dc.dent np).ino nname (s.dc.dent od).ino,
      dMove od np nname s.dc, op :: s.held⟩ := by
  obtain ⟨p, hp, hin⟩ := h.dc.shown od hod hl
  obtain rfl : p = op := some.inj (hp.symm.trans hop)
  have hfind := h.fs.findEntry hin
  obtain ⟨-, -, -, hperm⟩ := findEntry_some hfind
  refine ⟨moveEntry_ok h.fs hfind hfree hnd (h.dc.bound np hnp), ?_, dMove_counted h.counted hod hop hnp nname⟩
  refine dMove_ok h.fs h.dc h.counted hod hl hop (fun c hc hcl hcp hcn => ?_) hperm ?_ (moveEntry_next ..)
    fun i => (moveEntry_node ..).1
  · obtain ⟨q, hq, hcin⟩ := h.dc.shown c hc hcl
    obtain rfl : q = np := some.inj (hq.symm.trans hcp)
    exact findEntry_none hfree _ hcin ⟨rfl, hcn⟩
  · rw [moveEntry_entries hfind]
    exact perm_append_singleton _ _

structure Named (s : State) (d p : Nat) (name : Name) : Prop where
  alive : d ∈ s.dc.alive
  linked : (s.dc.dent d).linked = true
  parent : (s.dc.dent d).parent = some p
  name : (s.dc.dent d).name = name

theorem Found.named {s' : State} {name : Name} (h : Found s s' p name c) : Named s' c p name :=
  ⟨h.alive, h.linked, h.parent, h.name⟩

theorem Named.entry (h : Ok s) {d : Nat} {name : Name} (hd : Named s d p name) :
    ⟨(s.dc.dent p).ino, name, (s.dc.dent d).ino⟩ ∈ s.fs.entries := by
  obtain ⟨q, hq, hin⟩ := h.dc.shown d hd.alive hd.linked
  obtain rfl : q = p := some.inj (hq.symm.trans hd.parent)
  rwa [hd.name] at hin

theorem renameDentries_ok (h : Ok s) {op np od : Nat} {oname nname : Name} {nd : Option Nat} (hod : Named s od op oname)
    (hnp : np ∈ s.dc.alive) (hdir : (s.fs.node (s.dc.dent np).ino).dir = true)
    (hnd : (∃ n, nd = some n ∧ Named s n np nname) ∨ nd = none ∧ findEntry s.fs (s.dc.dent np).ino nname = none) :
    Ok (renameDentries op np oname nname od nd s).2 ∧ (renameDentries op np oname nname od nd s).2.held = s.held := by
  have hoe := hod.entry h
  have hofind := h.fs.findEntry hoe
  unfold renameDentries
  dsimp only
  split
  · exact ⟨h, rfl⟩
  rename_i hne
  split
  · exact ⟨h, rfl⟩
  split
  · exact ⟨h, rfl⟩
  split
  · exact ⟨h, rfl⟩
  split
  · exact ⟨h, rfl⟩
  rename_i fs' hok
  unfold tmpfsRename at hok
  rw [show findEntry s.fs (s.dc.dent op).ino oname = some _ from hofind] at hok
  rcases hnd with ⟨n, rfl, hn⟩ | ⟨rfl, hfree⟩
  · have hne : od ≠ n := fun heq => hne (congrArg some heq.symm)
    have hne' := hn.entry h
    have hnfind := h.fs.findEntry hne'
    -- the target goes first
    obtain ⟨fs1, hdet, hmoved⟩ : ∃ fs1, Detached s.fs fs1 ⟨(s.dc.dent np).ino, nname, (s.dc.dent n).ino⟩ ∧
        fs' = moveEntry fs1 (s.dc.dent op).ino oname (s.dc.dent np).ino nname (s.dc.dent od).ino := by
      dsimp only [map_some] at hok
      rw [show findEntry s.fs (s.dc.dent np).ino nname = some _ from hnfind] at hok
      split at hok
      · cases hok
      refine ⟨_, ?_, (Except.ok.inj hok).symm⟩
      split
      · rename_i hd
        exact detachDir_detached h.fs hne' hd
      · rename_i hd
        exact removeFile_detached h.fs hne' (by simpa using hd)
    have h1 := hdet.drop h hn.alive hn.linked hn.parent (by rw [hn.name])
    obtain ⟨hoi, hopar, honame, -⟩ := dDrop_ino s.dc n od
    have holinked : ((dDrop n s.dc).dent od).linked = true := by
      rw [dDrop_dent, if_neg hne]
      exact hod.linked
    have hfree : findEntry fs1 (s.dc.dent np).ino nname = none := by
      cases hf : findEntry fs1 (s.dc.dent np).ino nname with
      | none => rfl
      | some e' =>
        obtain ⟨he', hed, hen, -⟩ := findEntry_some hf
        have hnodup := (hdet.entries.map fun e => (e.dir, e.name)).nodup_iff.mp h.fs.keys
        rw [map_cons, nodup_cons] at hnodup
        exact absurd (List.mem_map.mpr ⟨e', he', Prod.ext hed hen⟩) hnodup.1
    have hmove := h1.move nname hod.alive holinked (hopar.trans hod.parent) hnp
      (by rw [(dDrop_ino s.dc n np).1, hdet.dir]; exact hdir) (by rw [(dDrop_ino s.dc n np).1]; exact hfree)
    rw [(dDrop_ino s.dc n op).1, (dDrop_ino s.dc n np).1, hoi, honame, hod.name, ← hmoved] at hmove
    dsimp only
    rw [hopar, hod.parent]
    exact ⟨(hmove.put mem_cons_self).1, erase_cons_head ..⟩
  obtain rfl := Except.ok.inj hok
  have hmove := h.move nname hod.alive hod.linked hod.parent hnp hdir hfree
  rw [hod.name] at hmove
  dsimp only
  rw [hod.parent]
  exact ⟨(hmove.put mem_cons_self).1, erase_cons_head ..⟩

theorem Ok.put_put (h : Ok s) {a b : Nat} (rest : List Nat) (hheld : s.held.Perm (b :: a :: rest)) :
    Ok ((s.put a).put b) := by
  have hb : b ∈ s.held.erase a := by
    refine (hheld.erase a).mem_iff.mpr ?_
    by_cases hab : b = a
    · subst hab
      rw [erase_cons_head]
      exact mem_cons_self
    · rw [erase_cons_tail (by simpa using hab)]
      exact mem_cons_self
  have ha : a ∈ s.held := hheld.mem_iff.mpr (mem_cons_of_mem _ mem_cons_self)
  exact ((h.put ha).1.put hb).1

theorem vfsRename_ok (h : Ok s) {op np : Nat} (hop : op ∈ s.dc.alive) (hnp : np ∈ s.dc.alive) (old new : Name)
    (perm perm' : Int) (hdir : (s.fs.node (s.dc.dent np).ino).dir = true) :
    Ok (vfsRename op old np new perm perm' s).2 := by
  unfold vfsRename
  split
  · exact h
  rcases dLookup_spec h hop (lastOf old) with ⟨od, s1, heq, hfound⟩ | ⟨heq, -⟩
  · rw [heq]
    dsimp only
    split
    · exact hfound.put_ok
    split
    · exact hfound.put_ok
    obtain ⟨hnp1, hnpi, -⟩ := hfound.old np hnp
    have hdir1 : (s1.fs.node (s1.dc.dent np).ino).dir = true := by rw [hnpi, hfound.fs]; exact hdir
    rcases dLookup_spec hfound.ok hnp1 (lastOf new) with ⟨nd, s2, heq2, hfound2⟩ | ⟨heq2, hfree⟩
    · rw [heq2]
      dsimp only
      obtain ⟨hod2, -, hpar, hname, hlinked⟩ := hfound2.old od hfound.alive
      obtain ⟨hnp2, hnpi2, -⟩ := hfound2.old np hnp1
      have hnamed : Named s2 od op (lastOf old) :=
        ⟨hod2, hlinked.trans hfound.linked, hpar.trans hfound.parent, hname.trans hfound.name⟩
      obtain ⟨hok, hheld⟩ := renameDentries_ok hfound2.ok hnamed hnp2 (by rw [hnpi2, hfound2.fs]; exact hdir1)
        (.inl ⟨nd, rfl, hfound2.named⟩)
      refine hok.put_put s.held ?_
      rw [hheld, hfound2.held, hfound.held]
    rw [heq2]
    dsimp only
    obtain ⟨hok, hheld⟩ := renameDentries_ok hfound.ok hfound.named hnp1 hdir1 (.inr ⟨rfl, hfree⟩)
    exact (hok.put (by rw [hheld, hfound.held]; exact mem_cons_self)).1
  · rw [heq]
    exact h

end Olux.Dcache
