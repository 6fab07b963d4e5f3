import Olux.Fat.Count.Serve
import Olux.Fat.Fsck.Lemmas
import Olux.Fat.Slots
import Olux.Fat.Volume.Owner

namespace Olux.Fat

open Olux.Lib Relation List Option

variable {g : Geom} {s t u : St} {own : Owner → List Nat} {l l' : List Nat} {d x : Nat} {o : Owner} {e : De}

theorem dirWrite_ok (hro : g.ro = false) (D : Dir) (a b : Nat) (s : St) : ∃ t, dirWrite g D a b s = (.ok (), t) := by
  unfold dirWrite
  generalize b - a = k
  induction k generalizing a s with
  | zero => exact ⟨s, rfl⟩
  | succ k ih =>
  unfold dirWriteLoop
  split
  · dsimp only
    rw [Prog.bind_ok (devWrite_eq hro _ _)]
    exact ih _ _
  · exact ⟨s, rfl⟩

structure Room (g : Geom) (s : St) (l : List Nat) (u : St) (l' : List Nat) : Prop where
  grown : Grown g s l u l'
  server : Server g u
  blank : ∃ m, (dirAt g u l').e = (dirAt g s l).e ++ List.replicate m De.zero

section Failure

variable (hro : g.ro = false) (hm : Marked g)
include hro hm

theorem dirExtend_room (h : Room g s l t l') : (dirExtend g (dirAt g t l')).Holds t fun r u =>
    ∃ l'', Room g s l u l'' ∧ ∀ D, r = .ok D → D = dirAt g u l'' := by
  refine (dirExtend_step hro hm h.server h.grown.chain).mono fun r w hstep => ?_
  rcases hstep with ⟨⟨err, rfl⟩, rfl⟩ | ⟨e, hmore, rfl⟩
  · exact ⟨l', h, fun D hD => by cases hD⟩
  have hne : l ≠ [] := fun hnil => hmore.ne (h.grown.root hnil)
  obtain ⟨m, hm⟩ := h.blank
  refine ⟨l' ++ [e], ⟨h.grown.snoc hmore.swap hne hmore.len hmore.blk hmore.zero, hmore.server, m + per g, ?_⟩,
    fun D hD => (Except.ok.inj hD).symm⟩
  rw [hmore.dirAt_eq]
  dsimp only
  rw [hm, append_assoc, replicate_append_replicate]

theorem dirAdd_fails (h : Room g s l t l') (name : List UInt8) (tmpl : De) :
    (dirAdd g (dirAt g t l') name tmpl).Holds t fun r u => ∀ err, r = .error err → ∃ l'', Room g s l u l'' := by
  unfold dirAdd
  refine .bind (m := .query _) (R := fun _ u => u = t) rfl ?_ fun e u hu _ _ => ⟨l', hu ▸ h⟩
  rintro ents u rfl
  refine .bind (dirAllocLoop_inv (P := fun u l'' => Room g s l u l'') (fun _ _ ht => dirExtend_room hro hm ht) h)
    ?_ fun e w hw _ _ => ?_
  · rintro ⟨D, first⟩ w _
    dsimp only
    obtain ⟨v, hv⟩ := dirWrite_ok hro { D with e := splice D.e first ents } first (first + ents.length) w
    refine .bind_eq hv fun err hr => ?_
    cases hr
  · obtain ⟨l'', hl, _⟩ := hw
    exact ⟨l'', hl⟩

end Failure

-- The volume as a caller sees it is the same: the directories up to blank slots at their ends, the
-- files, and all clusters in use.
structure Intact (g : Geom) (s : St) (own : Owner → List Nat) (u : St) : Prop where
  listing : ∀ d, (vol g s).Reach g d → ∃ m, slots g u d = slots g s d ++ List.replicate m De.zero
  contents : ∀ p e, (vol g s).Reach g p.dclus → (vol g s).ent p = some e → e.isDir = false → ∀ c ∈ own (.entry p),
    fatGet g u c = fatGet g s c ∧ ∀ j < g.cs, u.dev (clusOff g c + j) = s.dev (clusOff g c + j)
  allocated : ∀ o, ∀ c ∈ own o, fatGet g u c ≠ 0

theorem Room.refl (h : Consistent g (vol g s) own) (hs : Server g s) (ho : DirOwner g (vol g s) own d o) :
    Room g s (own o) s (own o) :=
  ⟨.refl (h.books.chain o) ho.len, hs, 0, by simp⟩

theorem Room.intact (h : Consistent g (vol g s) own) (ho : DirOwner g (vol g s) own d o) (hr : Room g s (own o) u l') :
    Intact g s own u := by
  have hg := hr.grown
  refine ⟨fun x hx => ?_, fun p e hp he hfile c hc => ?_, fun o' c hc => ?_⟩
  · obtain ⟨o', ho'⟩ := h.dirOwner hx
    by_cases hxd : x = d
    · subst hxd
      obtain ⟨m, hm⟩ := hr.blank
      refine ⟨m, ?_⟩
      have hslots : slots g u x = (dirAt g u l').e := by
        rw [hg.head ho]
        exact slots_eq hg.chain hg.len (hg.nil_small h ho)
      rw [hslots, hm, h.slots_owner ho]
    have hoo : o' ≠ o := by
      rintro rfl
      exact hxd (ho'.head.trans ho.head.symm)
    refine ⟨0, ?_⟩
    rw [h.slots_same ho' (hg.rows_other h hoo) fun b hb => hg.blk b (h.used_block hb).1 (h.used_block hb).2]
    simp
  · have hoo : Owner.entry p ≠ o := by
      rintro rfl
      rcases ho.kind with ⟨hroot, _⟩ | ⟨q, f, hq, _, hf, hdir, _⟩
      · cases hroot
      obtain rfl := Owner.entry.inj hq
      obtain rfl := some.inj (he.symm.trans hf)
      rw [hfile] at hdir
      cases hdir
    have h2 := (valid_iff.mp (h.valid_of_mem hc)).1
    have hblk := hg.blk c (.inr h2) (.inr ((h.books.chain _).ne_free hc))
    refine ⟨hg.rows_other h hoo c hc, fun j hj => ?_⟩
    have hb := hblk j
    simp only [blkLen, blkOff, if_neg (show c ≠ 0 by omega)] at hb
    exact hb hj
  by_cases hoo : o' = o
  · subst hoo
    exact hg.chain.ne_free (hg.pre.subset hc)
  · rw [hg.rows_other h hoo c hc]
    exact (h.books.chain o').ne_free hc

structure Edit (g : Geom) (s t : St) (l l' freed : List Nat) : Prop where
  chain : (rows g).Chain (fatGet g t) l'
  server : Server g t
  len : l'.length * per g ≤ MAX_DIR_ENTRIES
  pre : l <+: l'
  root : l = [] → l' = []
  kept : ∀ c, fatGet g s c ≠ 0 → c ∉ l → c ∉ freed → fatGet g t c = fatGet g s c
  fresh : ∀ c ∈ l', c ∉ l → fatGet g s c = 0
  blk : ∀ b, IsBlk b → b = 0 ∨ fatGet g s b ≠ 0 → b ∉ dirBlocks l → SameBlk g s t b

theorem dropEntry_spec (hro : g.ro = false) (h : Consistent g (vol g s) own) (hs : Server g s)
    (ho : DirOwner g (vol g s) own d o) {a : Ent} (hfirst : a.first ≤ a.idx)
    (hat : (dirAt g s (own o)).e[a.idx]? = some e) (hlive : live e = true) :
    (dropEntry g (dirAt g s (own o)) a).Holds s fun r t => r = .ok (dirAt g t (own o)) ∧
      Edit g s t (own o) (own o) (own (.entry ⟨d, a.idx⟩)) ∧
      (dirAt g t (own o)).e = markDeleted (dirAt g s (own o)).e a.first a.idx := by
  have hproper := Proper.of_chain (h.books.chain o)
  have hidx := (List.getElem?_eq_some_iff.mp hat).1
  have hlen : (markDeleted (dirAt g s (own o)).e a.first a.idx).length = (dirAt g s (own o)).e.length :=
    markDeleted_length _ _ _
  obtain ⟨w, dev, hrun, hwrote, hw, hblk⟩ := dirWrite_spec (s := s)
    (D := { dirAt g s (own o) with e := markDeleted (dirAt g s (own o)).e a.first a.idx }) (a := a.first)
    (b := a.idx + 1) hro
    hproper rfl (hlen.trans (dirAt_length _)) (by omega) (by rw [hlen]; omega)
    fun i hi => (markDeleted_get _ _ _ i).trans (if_neg (by omega))
  have hget : fatGet g w = fatGet g s := hwrote.fatGet_eq
  have hent : (vol g s).ent ⟨d, a.idx⟩ = some e := by
    rw [h.ent_eq ho, hat, filter_some, if_pos hlive]
  have hstart := (h.entry ⟨d, a.idx⟩ e (h.dirOwner_reach ho) hent).1
  have hgetD : (dirAt g s (own o)).e.getD a.idx De.zero = e := by
    rw [getD_eq_getElem?_getD, hat, getD_some]
  have hremove : dirRemove g (dirAt g s (own o)) a s =
      (.ok { dirAt g s (own o) with e := markDeleted (dirAt g s (own o)).e a.first a.idx }, w) := by
    unfold dirRemove
    exact Prog.bind_ok hrun
  -- the state behind the freed chain
  have hend : ∀ v : St, v.dev = w.dev → (∀ c, c ∉ own (.entry ⟨d, a.idx⟩) → fatGet g v c = fatGet g s c) →
      Server g v → ∀ q,
      Except.ok (ε := Int) { dirAt g s (own o) with e := markDeleted (dirAt g s (own o)).e a.first a.idx } =
        .ok (dirAt g (ntRelocate q none v) (own o)) ∧
        Edit g s (ntRelocate q none v) (own o) (own o) (own (.entry ⟨d, a.idx⟩)) ∧
        (dirAt g (ntRelocate q none v) (own o)).e = markDeleted (dirAt g s (own o)).e a.first a.idx := by
    intro v hdev hrows hv q
    have hv' : dirAt g (ntRelocate q none v) (own o) =
        { dirAt g s (own o) with e := markDeleted (dirAt g s (own o)).e a.first a.idx } := by
      rw [← hw]
      exact dirAt_dev hdev _
    refine ⟨by rw [hv'], ⟨(h.books.chain o).congr fun c hc => hrows c fun hc' => ?_, ⟨hv.nextFree, hv.cache⟩, ho.len,
      prefix_refl _, id, fun c _ _ hc => hrows c hc, fun c hc hno => absurd hc hno, fun b hb _ hno j hj => ?_⟩,
      by rw [hv']⟩
    · exact h.owner_ne ho a.idx (h.books.disjoint hc hc')
    show v.dev _ = s.dev _
    rw [hdev]
    exact hblk b hb hno j hj
  unfold dropEntry
  refine .bind_eq hremove ?_
  rw [hgetD]
  split
  · rename_i hv
    refine .bind_update (.bind_update ?_)
    have hchain : (rows g).Chain (fatGet g w) (own (.entry ⟨d, a.idx⟩)) := by
      rw [hget]
      exact h.books.chain _
    refine hend (freeChain g (deStart g e) w) freeChain_aside.dev (fun c hc => ?_) (freeChain_server ?_) _
    · rw [hstart, freeChain_get hchain, if_neg hc, hget]
    · exact (hwrote.server hs).nextFree
  · refine .bind_update ?_
    exact hend w rfl (fun c _ => by rw [hget]) (hwrote.server hs) _

def Replaces (g : Geom) (odino : Nat) (oname : List UInt8) (ndino : Nat) (nname : List UInt8) (s : St) : Prop :=
  ∃ od nd t src dst, renameDirs g odino ndino s = (.ok (od, nd), t) ∧ dirFind od oname = some src ∧
    ((od.e.getD src.idx De.zero).isDir && !decide (od.clus = nd.clus) &&
      dirWithin g nd.clus (deStart g (od.e.getD src.idx De.zero)) t) = false ∧
    checkName nname = .ok () ∧ dirFind nd nname = some dst ∧ ¬(od.clus = nd.clus ∧ src.idx = dst.idx) ∧
    (removable g (nd.e.getD dst.idx De.zero) (od.e.getD src.idx De.zero).isDir t).1 = .ok ()

theorem removable_same (e : De) (b : Bool) : (removable g e b).Holds s fun _ t => t = s := by
  unfold removable
  split
  · rfl
  split
  · rfl
  split
  · refine .bind (m := .query _) (R := fun _ t => t = s) rfl ?_ fun _ _ ht => ht
    rintro c t rfl
    split
    · rfl
    · rfl
  · rfl

section Call

variable (hro : g.ro = false) (h : Consistent g (vol g s) own) (hs : Server g s) (ho : DirOwner g (vol g s) own d o)
include hro h hs ho

theorem replaceTarget_spec (nname : List UInt8) (sdir : Bool) (src : Option Nat) :
    (replaceTarget g (dirAt g s (own o)) nname sdir src).Holds s fun r t =>
      (∃ err, r = .error err) ∧ t = s ∧ (∀ dst, dirFind (dirAt g s (own o)) nname = some dst → src ≠ some dst.idx →
        (removable g ((dirAt g s (own o)).e.getD dst.idx De.zero) sdir s).1 ≠ .ok ()) ∨
      r = .ok (dirAt g s (own o), none) ∧ t = s ∧
        (∀ dst, dirFind (dirAt g s (own o)) nname = some dst → src = some dst.idx) ∨
      ∃ dst, dirFind (dirAt g s (own o)) nname = some dst ∧ src ≠ some dst.idx ∧
        (removable g ((dirAt g s (own o)).e.getD dst.idx De.zero) sdir s).1 = .ok () ∧
        r = .ok (dirAt g t (own o), some ⟨d, dst.idx⟩) ∧ Edit g s t (own o) (own o) (own (.entry ⟨d, dst.idx⟩)) ∧
        (dirAt g t (own o)).e = markDeleted (dirAt g s (own o)).e dst.first dst.idx := by
  unfold replaceTarget
  cases hfind : dirFind (dirAt g s (own o)) nname with
  | none => exact .inr (.inl ⟨rfl, rfl, fun _ hdst => by cases hdst⟩)
  | some dst =>
  dsimp only
  split
  · rename_i hsame
    refine .inr (.inl ⟨rfl, rfl, fun dst' hdst => ?_⟩)
    obtain rfl := some.inj hdst
    exact hsame
  rename_i hother
  obtain ⟨hfirst, e, he, hlive, _⟩ := dirFind_found hfind
  have hrem := removable_same (g := g) (s := s) ((dirAt g s (own o)).e.getD dst.idx De.zero) sdir
  unfold Prog.Holds at hrem
  refine .bind (R := fun r t => removable g ((dirAt g s (own o)).e.getD dst.idx De.zero) sdir s = (r, t)) rfl
    (fun _ t ht => ?_) fun err t ht => ?_
  · rw [ht] at hrem
    subst hrem
    have hok : (removable g ((dirAt g t (own o)).e.getD dst.idx De.zero) sdir t).1 = .ok () := by rw [ht]
    refine .bind (dropEntry_spec hro h hs ho hfirst he hlive) (fun nd v hv => ?_) fun err v hv => ?_
    · obtain ⟨hnd, hedit, hmark⟩ := hv
      obtain rfl := Except.ok.inj hnd
      refine .inr (.inr ⟨dst, rfl, hother, hok, ?_, hedit, hmark⟩)
      rw [ho.head]
      rfl
    · cases hv.1
  rw [ht] at hrem
  subst hrem
  refine .inl ⟨⟨err, rfl⟩, rfl, fun dst' hdst _ hok => ?_⟩
  obtain rfl := some.inj hdst
  rw [ht] at hok
  cases hok

end Call

theorem OnlyNt.server (h : OnlyNt s t) (hs : Server g s) : Server g t := by
  rw [h]
  exact ⟨hs.nextFree, hs.cache⟩

theorem Intact.of_onlyNt (h : Consistent g (vol g s) own) (hnt : OnlyNt s t) : Intact g s own t := by
  have hget : fatGet g t = fatGet g s := fatGet_of_fat hnt.fat_eq
  refine ⟨fun d _ => ⟨0, ?_⟩, fun p e _ _ _ c _ => ⟨by rw [hget], fun j _ => by rw [hnt.dev_eq]⟩, fun o c hc => ?_⟩
  · have hslots := congrFun (congrArg Vol.slots (vol_congr (g := g) hnt.fat_eq hnt.dev_eq)) d
    rw [replicate_zero, append_nil]
    exact hslots
  · rw [hget]
    exact (h.books.chain o).ne_free hc

theorem intact_congr (hnt : OnlyNt s u) : Intact g s own t ↔ Intact g u own t := by
  have hvol := vol_congr (g := g) hnt.fat_eq hnt.dev_eq
  have hkeep : ∀ {a b : St}, vol g a = vol g b → a.dev = b.dev → Intact g b own t → Intact g a own t := by
    intro a b hab hdev hi
    have hlist : ∀ d, (vol g b).Reach g d → ∃ m, slots g t d = (vol g b).slots d ++ List.replicate m De.zero :=
      hi.listing
    have hcont : ∀ p e, (vol g b).Reach g p.dclus → (vol g b).ent p = some e → e.isDir = false → ∀ c ∈ own (.entry p),
        fatGet g t c = (vol g b).get c ∧ ∀ j < g.cs, t.dev (clusOff g c + j) = b.dev (clusOff g c + j) := hi.contents
    rw [← hab] at hlist
    rw [← hab, ← hdev] at hcont
    exact ⟨hlist, hcont, hi.allocated⟩
  exact ⟨hkeep hvol hnt.dev_eq, hkeep hvol.symm hnt.dev_eq.symm⟩

theorem setDotdot_ok (hro : g.ro = false) (start parent : Nat) (s : St) :
    (setDotdot g start parent).Holds s fun r _ => r = .ok () := by
  unfold setDotdot
  refine .bind (R := fun r t => (∃ a, r = .ok a) ∧ t = s) ⟨⟨_, rfl⟩, rfl⟩ (fun r t _ => ?_) fun _ _ hr => by
    obtain ⟨⟨_, hr⟩, _⟩ := hr
    cases hr
  split
  · rfl
  split
  · rename_i c _ _
    obtain ⟨v, hv⟩ := dirWrite_ok hro
      { c with e := c.e.set 1 (deSetStart g (c.e.getD 1 De.zero) (dotdotStart g parent)) } 1 2 t
    show (dirWrite g _ 1 2 t).1 = .ok ()
    rw [hv]
  · rfl

theorem Room.changed (h : Consistent g (vol g s) own) (ho : DirOwner g (vol g s) own d o) {i : Nat}
    (hat : (dirAt g s (own o)).e[i]? = some e) (hlive : live e = true)
    (hmark : (dirAt g t (own o)).e[i]? = some (deleted e))
    (hr : Room g t (own o) u l') : ¬Intact g s own u := by
  intro hintact
  obtain ⟨m, hm⟩ := hintact.listing d (h.dirOwner_reach ho)
  obtain ⟨m', hm'⟩ := hr.blank
  have hslots : slots g u d = (dirAt g u l').e := by
    have hhead : l'.headD 0 = d := by
      rw [ho.head]
      obtain ⟨post, hpost⟩ := hr.grown.pre
      cases hown : own o with
      | nil => rw [hr.grown.root hown]
      | cons a m =>
        rw [← hpost, hown]
        rfl
    rw [← hhead]
    refine slots_eq hr.grown.chain hr.grown.len fun hnil => h.nil_small ho ?_
    obtain ⟨post, hpost⟩ := hr.grown.pre
    rw [hnil] at hpost
    exact (append_eq_nil_iff.mp hpost).1
  have hnow : (slots g u d)[i]? = some (deleted e) := by
    rw [hslots, hm', List.getElem?_append_left (List.getElem?_eq_some_iff.mp hmark).1, hmark]
  have hwas : (slots g u d)[i]? = some e := by
    rw [hm, h.slots_owner ho, List.getElem?_append_left (List.getElem?_eq_some_iff.mp hat).1, hat]
  have hdead := (deleted_free e).not_live
  rw [← some.inj (hwas.symm.trans hnow), hlive] at hdead
  cases hdead

theorem replaces_iff {odino ndino : Nat} (oname nname : List UInt8) {od nd : Dir}
    (hrd : renameDirs g odino ndino s = (.ok (od, nd), u)) :
    Replaces g odino oname ndino nname s ↔ ∃ src dst, dirFind od oname = some src ∧
      ((od.e.getD src.idx De.zero).isDir && !decide (od.clus = nd.clus) &&
        dirWithin g nd.clus (deStart g (od.e.getD src.idx De.zero)) u) = false ∧
      checkName nname = .ok () ∧ dirFind nd nname = some dst ∧ ¬(od.clus = nd.clus ∧ src.idx = dst.idx) ∧
      (removable g (nd.e.getD dst.idx De.zero) (od.e.getD src.idx De.zero).isDir u).1 = .ok () := by
  constructor
  · rintro ⟨od', nd', t', src, dst, hd, hrest⟩
    rw [hrd] at hd
    obtain ⟨hr, rfl⟩ := Prod.mk.inj hd
    obtain ⟨rfl, rfl⟩ := Prod.mk.inj (Except.ok.inj hr)
    exact ⟨src, dst, hrest⟩
  · rintro ⟨src, dst, hrest⟩
    exact ⟨od, nd, u, src, dst, hrd, hrest⟩

theorem dirRemove_ok (hro : g.ro = false) (D : Dir) (a : Ent) (s : St) :
    ∃ t, dirRemove g D a s = (.ok { D with e := markDeleted D.e a.first a.idx }, t) := by
  obtain ⟨t, ht⟩ := dirWrite_ok hro { D with e := markDeleted D.e a.first a.idx } a.first (a.idx + 1) s
  exact ⟨t, Prog.bind_ok ht⟩

theorem renameFinish_ok (hro : g.ro = false) (same : Prop) [Decidable same] (od nd : Dir) (e : De) (src : Ent)
    (nidx : Nat) (gone : Option Loc) (s : St) :
    (renameFinish g same od nd e src nidx gone).Holds s fun r _ => ∃ x, r = .ok x := by
  unfold renameFinish
  obtain ⟨y, hy⟩ := dirRemove_ok hro (if same then nd else od) src s
  refine .bind_eq hy (.bind_update (.bind_update (.bind_update ?_)))
  refine .bind (R := fun r _ => r = .ok (.ok ())) ?_ ?_ fun _ _ hr => by cases hr
  · rw [Prog.holds_attempt]
    split
    · exact (setDotdot_ok hro _ _ _).mono fun _ _ hr => congrArg Except.ok hr
    · rfl
  rintro r z hr
  obtain rfl := Except.ok.inj hr
  refine .bind (R := fun f _ => f = .ok (.ok ())) (congrArg Except.ok (fatFlush_flushed hro).1) ?_
    fun _ _ hr => by cases hr
  rintro f z' hf
  obtain rfl := Except.ok.inj hf
  exact ⟨_, rfl⟩

-- The target is taken away before the new entry is made, and stays away when that fails.
theorem dirAdd_fails_changed (hro : g.ro = false) (h : Consistent g (vol g s) own) (ho : DirOwner g (vol g s) own d o)
    {name : List UInt8} {dst : Ent} {freed : List Nat} {tmpl : De} {err : Int}
    (hdst : dirFind (dirAt g s (own o)) name = some dst) (hedit : Edit g s t (own o) (own o) freed)
    (hmark : (dirAt g t (own o)).e = markDeleted (dirAt g s (own o)).e dst.first dst.idx)
    (hadd : dirAdd g (dirAt g t (own o)) name tmpl t = (.error err, u)) : ¬Intact g s own u := by
  have hroom : Room g t (own o) t (own o) := ⟨.refl hedit.chain ho.len, hedit.server, 0, by simp⟩
  obtain ⟨hfirst, e, hat, hlive, _⟩ := dirFind_found hdst
  have hgone : (dirAt g t (own o)).e[dst.idx]? = some (deleted e) := by
    rw [hmark, markDeleted_get, if_pos ⟨hfirst, Nat.le_refl _⟩, hat]
    rfl
  obtain ⟨l', hroom'⟩ := (dirAdd_fails hro h.marked hroom name tmpl).run hadd err rfl
  exact hroom'.changed h ho hat hlive hgone

theorem opRename_failed (hro : g.ro = false) (h : Consistent g (vol g s) own) (hserver : Server g s)
    {odino ndino : Nat} (oname nname : List UInt8)
    (hdirs : ∀ od nd t, renameDirs g odino ndino s = (.ok (od, nd), t) →
      (vol g s).Reach g od.clus ∧ (vol g s).Reach g nd.clus) :
    (opRename g odino oname ndino nname).Holds s fun r t => ∀ err, r = .error err →
      (Intact g s own t ↔ ¬Replaces g odino oname ndino nname s) := by
  unfold opRename
  rw [hro, if_neg (by simp)]
  refine renameDirs_holds (fun od nd u hnt hrd hload hload' => ?_) fun _ u hnt hnone _ _ => ?_
  swap
  · refine iff_of_true (.of_onlyNt h hnt) ?_
    rintro ⟨od, nd, t, src, dst, hd, _⟩
    exact hnone _ _ hd
  obtain ⟨_, hreach⟩ := hdirs od nd u hrd
  dsimp only
  have hrep := replaces_iff oname nname hrd
  refine .mono (Q := fun r t => ∀ err, r = .error err →
    (Intact g u own t ↔ ¬Replaces g odino oname ndino nname s)) ?_
    fun r t hq err hr => (intact_congr hnt).trans (hq err hr)
  rw [← vol_congr hnt.fat_eq hnt.dev_eq] at h hreach
  have hserver := hnt.server hserver
  obtain ⟨o, ho⟩ := h.dirOwner hreach
  obtain rfl : nd = dirAt g u (own o) := h.dirLoad_owner ho hload'
  have huntouched : Intact g u own u := .of_onlyNt h rfl
  rw [hrep]
  split
  · rename_i hnone
    rintro _ _
    refine iff_of_true huntouched ?_
    rintro ⟨src, dst, hsrc, _⟩
    rw [hnone] at hsrc
    cases hsrc
  rename_i src hsrc
  refine .bind_read ?_
  split
  · rename_i hinside
    rintro _ _
    refine iff_of_true huntouched ?_
    rintro ⟨src', dst, hsrc', hout, _⟩
    obtain rfl := some.inj (hsrc.symm.trans hsrc')
    rw [hinside] at hout
    cases hout
  rename_i hinside
  refine .bind (m := .query _) (R := fun r v => r = checkName nname ∧ v = u) ⟨rfl, rfl⟩ ?_ ?_
  swap
  · rintro err v ⟨hname, rfl⟩ _ _
    refine iff_of_true huntouched ?_
    rintro ⟨src', dst, _, _, hok, _⟩
    rw [← hname] at hok
    cases hok
  rintro _ v ⟨hname, rfl⟩
  refine .bind (replaceTarget_spec hro h hserver ho nname _ _) ?_ ?_
  swap
  · rintro err w hw _ _
    rcases hw with ⟨_, rfl, hrem⟩ | ⟨hr, _⟩ | ⟨_, _, _, _, hr, _⟩
    · refine iff_of_true huntouched ?_
      rintro ⟨src', dst, hsrc', _, _, hdst, hother, hok⟩
      obtain rfl := some.inj (hsrc.symm.trans hsrc')
      exact hrem dst hdst (fun hs => hother (by simpa using hs)) hok
    · cases hr
    · cases hr
  -- from here on only the new entry can fail
  rintro ⟨A, gone⟩ w hw
  refine .bind (R := fun r x => dirAdd g A nname (od.e.getD src.idx De.zero) w = (r, x)) rfl ?_ ?_
  · rintro ⟨A', nidx⟩ x _
    refine (renameFinish_ok hro _ _ _ _ _ _ _ x).mono fun r _ hok err hr => ?_
    obtain ⟨_, rfl⟩ := hok
    cases hr
  intro err x hx _ _
  rcases hw with ⟨⟨_, hr⟩, _⟩ | ⟨hr, rfl, hnone⟩ | ⟨dst, hdst, hother, hok, hr, hedit, hmark⟩
  · cases hr
  · obtain ⟨rfl, -⟩ := Prod.mk.inj (Except.ok.inj hr)
    obtain ⟨l', hroom⟩ := (dirAdd_fails hro h.marked (Room.refl h hserver ho) nname _).run hx err rfl
    refine iff_of_true (hroom.intact h ho) ?_
    rintro ⟨src', dst, hsrc', _, _, hdst, hother, _⟩
    obtain rfl := some.inj (hsrc.symm.trans hsrc')
    exact hother (by simpa using hnone dst hdst)
  obtain ⟨rfl, -⟩ := Prod.mk.inj (Except.ok.inj hr)
  refine iff_of_false (dirAdd_fails_changed hro h ho hdst hedit hmark hx) fun hno =>
    hno ⟨src, dst, hsrc, ?_, hname.symm, hdst, ?_, hok⟩
  · simpa using hinside
  · simpa using hother

-- A rename that fails has changed nothing exactly if it has not taken away an entry with the
-- new name before.
theorem rename_failed_iff (h : Consistent g (vol g s) own) (hserver : Server g s) {odino ndino : Nat}
    {oname nname : List UInt8}
    (hdirs : ∀ od nd t, renameDirs g odino ndino s = (.ok (od, nd), t) →
      (vol g s).Reach g od.clus ∧ (vol g s).Reach g nd.clus)
    {err : Int} (hfail : (opRename g odino oname ndino nname s).1 = .error err) :
    Intact g s own (opRename g odino oname ndino nname s).2 ↔ g.ro = true ∨ ¬Replaces g odino oname ndino nname s := by
  by_cases hro : g.ro = true
  · have hrun : opRename g odino oname ndino nname s = (.error (- EROFS), s) := by
      rw [opRename, if_pos hro]
      rfl
    rw [hrun]
    exact iff_of_true (.of_onlyNt h rfl) (.inl hro)
  · rw [opRename_failed (Bool.not_eq_true _ ▸ hro) h hserver oname nname hdirs err hfail]
    exact ⟨.inr, fun hor => hor.resolve_left hro⟩

def crowdedSlot (i : Nat) : De :=
  { De.zero with name := shortName (if i < 15 then [65 + UInt8.ofNat i] else [70, 79, 79]) [], attr := A_ARCH }

def crowded : St :=
  { blank with
    dev := fun x =>
      if x < 1024 ∨ 1536 ≤ x then 0 else (crowdedSlot ((x - 1024) / 32)).raw.getD ((x - 1024) % 32) 0 }

theorem crowded_slots :
    ∀ e ∈ slots tiny crowded 0, deStart tiny e = 0 ∧ e.isDir = false ∧ e.size = 0 ∧ lead e.name ≠ 0 := by
  decide +kernel

theorem crowded_ent {i : Nat} {e : De} (h : (vol tiny crowded).ent ⟨0, i⟩ = some e) : e ∈ slots tiny crowded 0 :=
  mem_of_getElem? (filter_eq_some_iff.mp h).1

theorem crowded_reach {d : Nat} (h : (vol tiny crowded).Reach tiny d) : d = 0 := by
  induction h with
  | refl => rfl
  | tail _ hedge ih =>
    subst ih
    obtain ⟨i, e, he, hdir, _⟩ := hedge
    rw [(crowded_slots e (crowded_ent he)).2.1] at hdir
    cases hdir

theorem crowded_consistent : Consistent tiny (vol tiny crowded) fun _ => [] := by
  refine ⟨⟨fun _ => trivial, fun hc => absurd hc not_mem_nil, fun c _ h0 => absurd (blank_get c) h0⟩,
    ⟨by decide, by decide⟩,
    fun p e hp he => ?_, fun _ => .inr rfl, fun d hd => ?_⟩
  · obtain ⟨d, i⟩ := p
    obtain rfl : d = 0 := crowded_reach hp
    obtain ⟨hst, hfile, hsize, _⟩ := crowded_slots e (crowded_ent he)
    refine ⟨hst, ?_⟩
    rw [hfile, if_neg (by simp), hsize]
    decide
  obtain rfl := crowded_reach hd
  intro i j e e' _ he _ hz
  exact absurd hz (crowded_slots e (mem_of_getElem? he)).2.2.2

theorem crowded_server : Server tiny crowded :=
  ⟨fun _ => by decide, fun hv => absurd hv (by decide)⟩

theorem crowded_dirs : renameDirs tiny ROOT_INO ROOT_INO crowded =
    (.ok (dirAt tiny crowded [], dirAt tiny crowded []), crowded) := by
  have hload := dirLoad_zero (g := tiny) (s := crowded) (by decide)
  have hopen : openDir tiny ROOT_INO crowded = (.ok (dirAt tiny crowded []), crowded) := by
    have hrun : openDir tiny ROOT_INO crowded = (dirLoad tiny 0 crowded, crowded) := rfl
    rw [hrun, hload]
  unfold renameDirs
  rw [Prog.bind_ok hopen]
  rfl

theorem rename_failed_crowded :
    Intact tiny crowded (fun _ => []) (opRename tiny ROOT_INO [65] ROOT_INO [66, 97, 114] crowded).2 := by
  refine (rename_failed_iff crowded_consistent crowded_server (fun od nd t hd => ?_)
    (show (opRename tiny ROOT_INO [65] ROOT_INO [66, 97, 114] crowded).1 = .error (- ENOSPC) by decide +kernel)).mpr
    (.inr ?_)
  · rw [crowded_dirs] at hd
    obtain ⟨rfl, rfl⟩ := Prod.mk.inj (Except.ok.inj (Prod.mk.inj hd).1)
    exact ⟨.refl, .refl⟩
  rintro ⟨od, nd, t, src, dst, hd, _, _, _, hdst, _⟩
  rw [crowded_dirs] at hd
  obtain ⟨rfl, rfl⟩ := Prod.mk.inj (Except.ok.inj (Prod.mk.inj hd).1)
  have hnone : dirFind (dirAt tiny crowded []) [66, 97, 114] = none := by decide +kernel
  rw [hnone] at hdst
  cases hdst

theorem rename_loses_target : Consistent tiny (vol tiny crowded) (fun _ => []) ∧
    (opRename tiny ROOT_INO [65] ROOT_INO [70, 111, 111] crowded).1 = .error (- ENOSPC) ∧
    ¬Intact tiny crowded (fun _ => []) (opRename tiny ROOT_INO [65] ROOT_INO [70, 111, 111] crowded).2 := by
  refine ⟨crowded_consistent, by decide +kernel, fun hintact => ?_⟩
  have hgone : lead ((slots tiny (opRename tiny ROOT_INO [65] ROOT_INO [70, 111, 111] crowded).2 0).getD 15
      De.zero).name = 0xE5 := by
    decide +kernel
  have hwas : lead ((slots tiny crowded 0).getD 15 De.zero).name = 70 := by decide +kernel
  have hlen : (slots tiny crowded 0).length = 16 := by decide +kernel
  obtain ⟨m, hm⟩ := hintact.listing 0 .refl
  rw [hm, getD_append _ _ _ _ (by rw [hlen]; decide), hwas] at hgone
  cases hgone

end Olux.Fat
