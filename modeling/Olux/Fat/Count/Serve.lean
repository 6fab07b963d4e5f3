import Olux.Fat.Count

namespace Olux.Fat

open Olux.Lib Function List Option

variable {g : Geom} {s t u : St} {dino ino odino ndino : Nat}

-- The request puts nothing behind a free cluster: the chain that it may extend or cut has
-- none, and the target that a rename frees first does not share the last cluster of its
-- directory.
def Orderly (g : Geom) (s : St) : Request → Prop
  | .write ino _ _ | .setattr ino _ =>
    ∀ n t, nodeGet g ino s = (.ok n, t) → n.root = false → ChainUsed g s (deStart g n.e)
  | .create dino _ _ | .mkdir dino _ => ∀ d t, openDir g dino s = (.ok d, t) → TailUsed g s d
  | .rename odino _ ndino nname => ∀ od nd t, renameDirs g odino ndino s = (.ok (od, nd), t) →
      TailUsed g s nd ∧ ∀ dst, dirFind nd nname = some dst → ∀ b, nd.cl.getLast? = some b →
        b ∉ clustersFrom g s g.nclus (deStart g (nd.e.getD dst.idx De.zero))
  | _ => True

theorem newEntry_table (attr : UInt8) : (Prog.act (newEntry attr) : Prog St Int De).Holds s fun _ t => SameTable s t :=
  time_table s

theorem openDir_tail (hd : ∀ d t, openDir g dino s = (.ok d, t) → TailUsed g s d) :
    (openDir g dino).Holds s fun r t => SameTable s t ∧ ∀ d, r = .ok d → TailUsed g t d := by
  have hsame := (openDir_onlyNt (g := g) (s := s) dino).1.table
  refine ⟨hsame, fun d hr => (hd d (openDir g dino s).2 ?_).of_fat hsame.fat⟩
  rw [← hr]

theorem opCreate_counted (hm : Marked g) (name : List UInt8) (mode : UInt32) (h : Counted g s)
    (hd : ∀ d t, openDir g dino s = (.ok d, t) → TailUsed g s d) : Counted g (opCreate g dino name mode s).2 := by
  have hrun : (opCreate g dino name mode).Holds s fun _ t => Counted g t := by
    unfold opCreate
    split
    · exact h
    split
    · exact h
    refine (openDir_tail hd).bind (fun d t ht => ?_) fun _ _ ht => h.same ht.1
    have htc := h.same ht.1
    split
    · exact htc
    refine .bind (newEntry_table _) (fun e u hu => ?_) fun _ _ hu => htc.same hu
    refine (dirAdd_counted hm name e (htc.same hu) ((ht.2 d rfl).of_fat hu.fat)).attempt.bind (fun r v hv => ?_)
      fun _ _ hv => hv.1
    refine fatFlush_table.attempt.bind (fun f w hw => ?_) fun _ _ hw => hv.1.same hw
    refine .bind (m := .query _) (R := fun _ x => x = w) rfl ?_ ?_
    · rintro p _ rfl
      exact .bind_update ((hv.1.same hw).same (ntSet_onlyNt _ _).table)
    · rintro _ _ rfl
      exact hv.1.same hw
  exact hrun

theorem opMkdir_counted (hm : Marked g) (name : List UInt8) (h : Counted g s)
    (hd : ∀ d t, openDir g dino s = (.ok d, t) → TailUsed g s d) : Counted g (opMkdir g dino name s).2 := by
  have hrun : (opMkdir g dino name).Holds s fun _ t => Counted g t := by
    unfold opMkdir
    split
    · exact h
    refine (openDir_tail hd).bind (fun d t ht => ?_) fun _ _ ht => h.same ht.1
    have htc := h.same ht.1
    split
    · exact htc
    refine .bind (m := .query _) (R := fun _ x => x = t) rfl ?_ ?_
    swap
    · rintro _ _ rfl
      exact htc
    rintro _ t rfl
    generalize hr : allocCluster g 0 t = r
    obtain ⟨c, u⟩ := r
    refine .bind_act ?_
    rw [hr]
    dsimp only
    rcases allocCluster_counted hm htc (fun h0 => absurd rfl h0) hr with ⟨rfl, rfl⟩ | ⟨hc, hfree, hu, -, hget⟩
    · rw [if_pos rfl]
      exact htc
    have hc0 : c ≠ 0 := by
      have h2 := (valid_iff.mp hc).1
      omega
    have heoc : eoc g ≠ 0 := by
      unfold eoc
      split <;> decide
    rw [if_pos rfl] at hget
    rw [if_neg hc0]
    have hcu : fatGet g u c ≠ 0 := by
      rw [hget, update_self]
      exact heoc
    have htail : TailUsed g u d := by
      intro b hb
      obtain ⟨hv, hbu⟩ := ht.2 d rfl b hb
      refine ⟨hv, ?_⟩
      rw [hget, update_of_ne]
      · exact hbu
      · rintro rfl
        exact hbu hfree
    -- the new cluster stays in use until it is given back
    refine .bind (m := .attempt _) (R := fun _ x => Counted g x ∧ fatGet g x c ≠ 0) ?_ (fun r x hx => ?_)
      fun _ _ hx => hx.1
    · rw [Prog.holds_attempt]
      refine .bind (newEntry_table _) (fun e x hx => ?_) fun _ _ hx => ?_
      · refine .bind (devWrite_table _ _) (fun _ y hy => ?_) fun _ y hy => ?_
        · refine .bind (newEntry_table _) (fun e' z hz => ?_) fun _ _ hz => ?_
          · have hsame := (hx.trans hy).trans hz
            refine (dirAdd_counted hm name _ (hu.same hsame) (htail.of_fat hsame.fat)).mono fun _ _ hw => ⟨hw.1, hw.2 c ?_⟩
            rw [fatGet_of_fat hsame.fat]
            exact hcu
          · have hsame := (hx.trans hy).trans hz
            exact ⟨hu.same hsame, by rw [fatGet_of_fat hsame.fat]; exact hcu⟩
        · have hsame := hx.trans hy
          exact ⟨hu.same hsame, by rw [fatGet_of_fat hsame.fat]; exact hcu⟩
      · exact ⟨hu.same hx, by rw [fatGet_of_fat hx.fat]; exact hcu⟩
    have hrest : ∀ x, Counted g x → (do
        let f ← (fatFlush g).attempt
        let p ← Prog.query fun _ => firstError r f
        Prog.update (ntSet c ⟨p.1.clus, p.2⟩)
        let a ← Prog.read (fillAttr g c (some (p.1.e.getD p.2 De.zero)))
        pure ⟨⟨p.1.clus, p.2⟩, a⟩ : Prog St Int Found).Holds x fun _ t => Counted g t := by
      intro x hx
      refine fatFlush_table.attempt.bind (fun f w hw => ?_) fun _ _ hw => hx.same hw
      refine .bind (m := .query _) (R := fun _ y => y = w) rfl ?_ ?_
      · rintro p _ rfl
        exact .bind_update ((hx.same hw).same (ntSet_onlyNt _ _).table)
      · rintro _ _ rfl
        exact hx.same hw
    split
    · exact hrest x hx.1
    · exact .bind_update (hrest _ (hx.1.release hc hx.2))
  exact hrun

theorem clustersFrom_of_fat (h : t.fat = s.fat) (k c : Nat) : clustersFrom g t k c = clustersFrom g s k c := by
  induction k generalizing c with
  | zero => rfl
  | succ k ih =>
    rw [clustersFrom, clustersFrom, ih]
    unfold next
    rw [fatGet_of_fat h]

theorem clustersFrom_cut {k c a : Nat} (h : ∀ x, x ≠ a → fatGet g t x = fatGet g s x) (ha : fatGet g t a = 0) :
    ∀ x ∈ clustersFrom g t k c, x ∈ clustersFrom g s k c := by
  induction k generalizing c with
  | zero => simp [clustersFrom]
  | succ k ih =>
  intro x hx
  rw [clustersFrom] at hx ⊢
  split at hx
  · rename_i hv
    rw [if_pos hv]
    rcases mem_cons.mp hx with rfl | hx
    · exact mem_cons_self
    by_cases hca : c = a
    · have hz : next g t c = 0 := by
        unfold next
        rw [hca, ha]
        simp [valid]
      rw [hz] at hx
      cases k <;> simp [clustersFrom, valid] at hx
    refine mem_cons_of_mem _ ?_
    have hn : next g t c = next g s c := by
      unfold next
      rw [h c hca]
    rw [hn] at hx
    exact ih x hx
  · cases hx

theorem freeLoop_outside (k c x : Nat) (hx : x ∉ clustersFrom g s k c) :
    fatGet g (freeLoop g k c s) x = fatGet g s x := by
  induction k generalizing c s with
  | zero => rfl
  | succ k ih =>
  rw [clustersFrom] at hx
  simp only [freeLoop]
  split
  · rename_i hv
    rw [if_pos hv] at hx
    rw [mem_cons, not_or] at hx
    obtain ⟨hxc, hx⟩ := hx
    split
    · rfl
    have hget : fatGet g (fatSet g c 0 s) = update (fatGet g s) c 0 := fatGet_fatSet (Nat.zero_le _)
    have hcut := clustersFrom_cut (g := g) (s := s)
      (t := { fatSet g c 0 s with freeCount := ((fatSet g c 0 s).freeCount + 1) % 2 ^ 32 }) (k := k)
      (c := next g s c) (a := c)
      (fun y hy => (congrFun hget y).trans (update_of_ne hy _ _))
      ((congrFun hget c).trans (update_self _ _ _))
    refine (ih (next g s c) fun h => hx (hcut x h)).trans ?_
    exact (congrFun hget x).trans (update_of_ne hxc _ _)
  · rfl

theorem dirRemove_table (d : Dir) (e : Ent) : (dirRemove g d e).Holds s fun r t => SameTable s t ∧
    ∀ d', r = .ok d' → d'.cl = d.cl := by
  unfold dirRemove
  refine (dirWrite_table _ _ _).bind (fun _ t ht => ?_) fun _ t ht => ⟨ht, fun _ hr => by cases hr⟩
  exact Prog.holds_pure.mpr ⟨ht, fun _ hr => by rw [← Except.ok.inj hr]⟩

theorem dropEntry_counted (d : Dir) (e : Ent) (h : Counted g s) : (dropEntry g d e).Holds s fun r t => Counted g t ∧
    (∀ d', r = .ok d' → d'.cl = d.cl) ∧
    ∀ x, x ∉ clustersFrom g s g.nclus (deStart g (d.e.getD e.idx De.zero)) → fatGet g t x = fatGet g s x := by
  unfold dropEntry
  refine (dirRemove_table d e).bind (fun d' t ht => ?_) fun _ t ht => ?_
  swap
  · exact ⟨h.same ht.1, fun _ hr => (by cases hr), fun x _ => by rw [fatGet_of_fat ht.1.fat]⟩
  have hcl := ht.2 d' rfl
  have hkeep : ∀ x, x ∉ clustersFrom g s g.nclus (deStart g (d.e.getD e.idx De.zero)) →
      fatGet g (freeChain g (deStart g (d.e.getD e.idx De.zero)) t) x = fatGet g s x := by
    intro x hx
    rw [← fatGet_of_fat ht.1.fat]
    exact freeLoop_outside g.nclus _ x (by rw [clustersFrom_of_fat ht.1.fat]; exact hx)
  split
  · refine .bind_update (.bind_update (Prog.holds_pure.mpr ⟨?_, ?_, hkeep⟩))
    · exact (freeChain_counted (h.same ht.1)).same ⟨rfl, rfl, rfl⟩
    · exact fun _ hr => by rw [← Except.ok.inj hr, hcl]
  refine .bind_update (Prog.holds_pure.mpr ⟨?_, ?_, fun x _ => ?_⟩)
  · exact (h.same ht.1).same ⟨rfl, rfl, rfl⟩
  · exact fun _ hr => by rw [← Except.ok.inj hr, hcl]
  · rw [← fatGet_of_fat ht.1.fat]
    rfl

theorem removable_table (e : De) (wantDir : Bool) : (removable g e wantDir).Holds s fun _ t => t = s := by
  unfold removable
  split
  · exact rfl
  split
  · exact rfl
  split
  · refine .bind (m := .query _) (R := fun _ t => t = s) rfl ?_ fun _ _ ht => ht
    rintro c _ rfl
    split <;> exact rfl
  · exact rfl

theorem removeEntry_counted (dino : Nat) (name : List UInt8) (wantDir : Bool) (h : Counted g s) :
    Counted g (removeEntry g dino name wantDir s).2 := by
  have hrun : (removeEntry g dino name wantDir).Holds s fun _ t => Counted g t := by
    unfold removeEntry
    split
    · exact h
    refine (openDir_onlyNt dino).bind (fun d t ht => ?_) fun _ _ ht => h.same ht.1.table
    have htc := h.same ht.1.table
    split
    · exact htc
    rename_i e _
    refine (removable_table _ _).bind ?_ fun _ _ hu => by rw [hu]; exact htc
    rintro _ _ rfl
    refine (dropEntry_counted d e htc).bind (fun d' u hu => ?_) fun _ _ hu => hu.1
    refine fatFlush_table.bind (fun _ v hv => ?_) fun _ _ hv => hu.1.same hv
    exact hu.1.same hv
  exact hrun

theorem setDotdot_table (start parent : Nat) : (setDotdot g start parent).Holds s fun _ t => SameTable s t := by
  unfold setDotdot
  refine SameTable.bind (m := .attempt _) .refl fun r t => ?_
  split
  · exact .refl
  split
  · exact dirWrite_table _ _ _
  · exact .refl

theorem replaceTarget_counted {nd : Dir} {nname : List UInt8} (sdir : Bool) (src : Option Nat) (h : Counted g s)
    (hd : TailUsed g s nd) (hfree : ∀ dst, dirFind nd nname = some dst → ∀ b, nd.cl.getLast? = some b →
      b ∉ clustersFrom g s g.nclus (deStart g (nd.e.getD dst.idx De.zero))) :
    (replaceTarget g nd nname sdir src).Holds s fun r t => Counted g t ∧ ∀ p, r = .ok p → TailUsed g t p.1 := by
  unfold replaceTarget
  split
  · exact ⟨h, fun p hr => by rw [← Except.ok.inj hr]; exact hd⟩
  rename_i dst hdst
  split
  · exact ⟨h, fun p hr => by rw [← Except.ok.inj hr]; exact hd⟩
  refine (removable_table _ _).bind ?_ ?_
  swap
  · rintro _ _ rfl
    exact ⟨h, fun _ hr => by cases hr⟩
  rintro _ s rfl
  refine (dropEntry_counted nd dst h).bind (fun d' t ht => ?_) fun _ _ ht => ⟨ht.1, fun _ hr => by cases hr⟩
  refine Prog.holds_pure.mpr ⟨ht.1, fun p hr => ?_⟩
  rw [← Except.ok.inj hr]
  intro b hb
  rw [ht.2.1 d' rfl] at hb
  rw [ht.2.2 b (hfree dst hdst b hb)]
  exact hd b hb

theorem OnlyNt.fat_eq (h : OnlyNt s t) : t.fat = s.fat := by rw [h]

theorem OnlyNt.dev_eq (h : OnlyNt s t) : t.dev = s.dev := by rw [h]

theorem OnlyNt.trans (h : OnlyNt s t) (h' : OnlyNt t u) : OnlyNt s u := by
  unfold OnlyNt at h h' ⊢
  rw [h', h]

theorem openDir_loads {r : Except Int Dir} (h : openDir g ino s = (r, t)) :
    OnlyNt s t ∧ ∀ D, r = .ok D → dirLoad g D.clus t = .ok D := by
  obtain ⟨hnt, hload⟩ := (openDir_onlyNt ino).run h
  refine ⟨hnt, fun D hD => ?_⟩
  rw [dirLoad_congr hnt.fat_eq hnt.dev_eq]
  exact hload D hD

theorem renameDirs_loads : (renameDirs g odino ndino).Holds s fun r u => OnlyNt s u ∧ ∀ od nd, r = .ok (od, nd) →
    dirLoad g od.clus u = .ok od ∧ dirLoad g nd.clus u = .ok nd := by
  unfold renameDirs
  refine .bind (R := fun r t => openDir g odino s = (r, t)) rfl (fun od t hod => ?_)
    fun _ t ht => ⟨(openDir_loads ht).1, fun _ _ hr => by cases hr⟩
  obtain ⟨hst, hload⟩ := openDir_loads hod
  have hload := hload od rfl
  rw [Prog.ite_bind]
  refine .bind (R := fun r u => OnlyNt s u ∧ dirLoad g od.clus u = .ok od ∧
    ∀ nd, r = .ok nd → dirLoad g nd.clus u = .ok nd)
    ?_ (fun nd u hu => ?_) fun _ u hu => ⟨hu.1, fun _ _ hr => by cases hr⟩
  · split
    · refine ⟨hst, hload, fun nd hr => ?_⟩
      obtain rfl := Except.ok.inj hr
      exact hload
    generalize hnd : openDir g ndino t = q
    obtain ⟨r, u⟩ := q
    obtain ⟨htu, hload'⟩ := openDir_loads hnd
    rw [← dirLoad_congr htu.fat_eq htu.dev_eq] at hload
    unfold Prog.Holds
    rw [hnd]
    exact ⟨hst.trans htu, hload, hload'⟩
  obtain ⟨hnt, hload, hload'⟩ := hu
  refine ⟨hnt, fun od' nd' hr => ?_⟩
  obtain ⟨rfl, rfl⟩ := Prod.mk.inj (Except.ok.inj hr)
  refine ⟨hload, ?_⟩
  split
  · exact hload
  · exact hload' nd rfl

theorem renameDirs_holds {α : Type} {f : Dir × Dir → Prog St Int α} {Q : Except Int α → St → Prop}
    (hok : ∀ od nd u, OnlyNt s u → renameDirs g odino ndino s = (.ok (od, nd), u) → dirLoad g od.clus u = .ok od →
      dirLoad g nd.clus u = .ok nd → (f (od, nd)).Holds u Q)
    (herr : ∀ err u, OnlyNt s u → (∀ p u', renameDirs g odino ndino s ≠ (.ok p, u')) → Q (.error err) u) :
    (renameDirs g odino ndino >>= f).Holds s Q := by
  refine .bind (R := fun r t => renameDirs g odino ndino s = (r, t)) rfl (fun p u hp => ?_) fun err u hu => ?_
  · obtain ⟨hnt, hload⟩ := renameDirs_loads.run hp
    obtain ⟨hod, hnd⟩ := hload p.1 p.2 rfl
    exact hok p.1 p.2 u hnt hp hod hnd
  refine herr err u (renameDirs_loads.run hu).1 fun p u' hd => ?_
  rw [hu] at hd
  cases hd

theorem renameFinish_table (same : Prop) [Decidable same] (od nd : Dir) (e : De) (src : Ent) (nidx : Nat)
    (gone : Option Loc) :
    (renameFinish g same od nd e src nidx gone).Holds s fun _ t => SameTable s t := by
  unfold renameFinish
  refine (dirRemove_table _ _).bind (fun od' x hx => ?_) fun _ _ hx => hx.1
  refine .bind_update (.bind_update (.bind_update ?_))
  generalize hy : ntSet _ _ (ntSet _ _ (ntRelocate _ _ x)) = y
  have hxy : SameTable x y := by
    rw [← hy]
    exact (SameTable.trans (s := x) (t := ntRelocate _ _ x) ⟨rfl, rfl, rfl⟩ (ntSet_onlyNt _ _).table).trans
      (ntSet_onlyNt _ _).table
  have hsy := hx.1.trans hxy
  have hdot : (if e.isDir = true ∧ ¬same then setDotdot g (deStart g e) (if same then od' else nd).clus else pure () :
      Prog St Int Unit).Holds y fun _ z => SameTable y z := by
    split
    · exact setDotdot_table _ _
    · exact .refl
  refine hdot.attempt.bind (fun r z hz => ?_) fun _ _ hz => hsy.trans hz
  exact fatFlush_table.attempt.bind (fun f z' hz' => (hsy.trans hz).trans hz') fun _ _ hz' => (hsy.trans hz).trans hz'

theorem opRename_counted (hm : Marked g) (oname nname : List UInt8) (h : Counted g s)
    (ho : Orderly g s (.rename odino oname ndino nname)) : Counted g (opRename g odino oname ndino nname s).2 := by
  have hrun : (opRename g odino oname ndino nname).Holds s fun _ t => Counted g t := by
    unfold opRename
    split
    · exact h
    refine renameDirs_holds (fun od nd u hnt hdirs _ _ => ?_) fun _ u hnt _ => h.same hnt.table
    dsimp only
    obtain ⟨htail, hfree⟩ := ho od nd u hdirs
    have hsu := hnt.table
    have hu := h.same hsu
    have hclusters : ∀ k c, clustersFrom g u k c = clustersFrom g s k c := clustersFrom_of_fat hsu.fat
    split
    · exact hu
    rename_i src _
    refine .bind_read ?_
    split
    · exact hu
    refine .bind (m := .query _) (R := fun _ x => x = u) rfl ?_ ?_
    swap
    · rintro _ _ rfl
      exact hu
    rintro _ u rfl
    refine (replaceTarget_counted _ _ hu (htail.of_fat hsu.fat) (fun dst hdst b hb => ?_)).bind (fun p v hv => ?_)
      fun _ _ hv => hv.1
    · rw [hclusters]
      exact hfree dst hdst b hb
    refine (dirAdd_counted hm nname _ hv.1 (hv.2 p rfl)).bind (fun q w hw => ?_) fun _ _ hw => hw.1
    exact (renameFinish_table _ _ _ _ _ _ _).mono fun _ _ hx => hw.1.same hx
  exact hrun

theorem writeFile_counted (n : Node) (off : Nat) (buf : List UInt8) (start : Nat) (h : Counted g s) :
    (writeFile g n off buf start).Holds s fun _ t => Counted g t := by
  have hdata : (do
      if off > n.e.size.toNat then
        writeRange g start n.e.size.toNat (List.replicate (off - n.e.size.toNat) 0) else pure ()
      writeRange g start off buf : Prog St Int Unit).Holds s fun _ t => SameTable s t := by
    split
    · exact SameTable.bind (writeRange_table _ _ _) fun _ _ => writeRange_table _ _ _
    · exact writeRange_table _ _ _
  unfold writeFile
  refine hdata.attempt.bind (fun r t ht => ?_) fun _ _ ht => h.same ht
  refine (saveFile_table _ _ _ _).bind (fun n' u hu => ?_) fun _ _ hu => (h.same ht).same hu
  exact .bind_read ((h.same ht).same hu)

theorem opWrite_counted (hm : Marked g) (off : Nat) (buf : List UInt8) (h : Counted g s)
    (ho : Orderly g s (.write ino off buf)) : Counted g (opWrite g ino off buf s).2 := by
  have hrun : (opWrite g ino off buf).Holds s fun _ t => Counted g t := by
    unfold opWrite
    split
    · exact h
    refine .bind (R := fun r t => nodeGet g ino s = (r, t)) rfl (fun n t hn => ?_) fun _ t ht => ?_
    swap
    · exact h.same ((nodeGet_onlyNt ino).run ht).table
    have hnt := (nodeGet_onlyNt ino).run hn
    have htc := h.same hnt.table
    split
    · exact htc
    rename_i hdir
    split
    · exact htc
    split
    · exact htc
    have hroot : n.root = false := by
      unfold nodeIsdir at hdir
      simp only [Bool.or_eq_true, not_or, Bool.not_eq_true] at hdir
      exact hdir.1
    have hused : ChainUsed g t (deStart g n.e) :=
      (ho n t hn hroot).same hnt.table.fat (by rw [hnt])
    obtain ⟨hgc, hgu⟩ := chainGrow_counted hm
      (clustersFor g (off + (buf.take (MAX_FILE - off)).length)) htc hused
    refine .bind_act ?_
    dsimp only
    split
    · split
      · refine .bind_act ?_
        have hcut := chainTrim_counted (clustersFor32 g n.e.size.toNat) hgc hgu
        refine fatFlush_table.attempt.bind (fun _ v hv => ?_) fun _ _ hv => hcut.same hv
        exact hcut.same hv
      · exact writeFile_counted _ _ _ _ hgc
    · exact writeFile_counted _ _ _ _ hgc
  exact hrun

theorem fileResize_counted (hm : Marked g) (n : Node) (size : Nat) (h : Counted g s)
    (hu : ChainUsed g s (deStart g n.e)) : (fileResize g n size).Holds s fun _ t => Counted g t := by
  unfold fileResize
  dsimp only
  split
  · exact h
  split
  · obtain ⟨hgc, hgu⟩ := chainGrow_counted hm (clustersFor g size) h hu
    refine .bind_act ?_
    dsimp only
    split
    · refine .bind_act ?_
      have hcut := chainTrim_counted (clustersFor32 g n.e.size.toNat) hgc hgu
      exact (saveFile_table _ _ _ _).mono fun _ _ hv => hcut.same hv
    · refine (writeRange_table _ _ _).attempt.bind (fun r t ht => ?_) fun _ _ ht => hgc.same ht
      exact (saveFile_table _ _ _ _).mono fun _ _ hv => (hgc.same ht).same hv
  refine .bind_act ?_
  have hcut := chainTrim_counted (clustersFor g size) h hu
  exact (saveFile_table _ _ _ _).mono fun _ _ hv => hcut.same hv

theorem opSetattr_counted (hm : Marked g) (q : Req) (h : Counted g s)
    (ho : Orderly g s (.setattr ino q)) : Counted g (opSetattr g ino q s).2 := by
  have hrun : (opSetattr g ino q).Holds s fun _ t => Counted g t := by
    unfold opSetattr
    refine .bind (R := fun r t => nodeGet g ino s = (r, t)) rfl (fun n t hn => ?_) fun _ t ht => ?_
    swap
    · exact h.same ((nodeGet_onlyNt ino).run ht).table
    have hnt := (nodeGet_onlyNt ino).run hn
    have htc := h.same hnt.table
    split
    · exact htc
    rename_i hroot
    split
    · exact htc
    split
    · exact htc
    have hused : ChainUsed g t (deStart g n.e) :=
      (ho n t hn (by simpa using hroot)).same hnt.table.fat (by rw [hnt])
    have hsize : (if q.valid &&& UFS_ATTR_SIZE = 0 then pure n
        else if nodeIsdir n then Prog.fail (- EISDIR) else fileResize g n q.size : Prog St Int Node).Holds t
          fun _ u => Counted g u := by
      split
      · exact htc
      split
      · exact htc
      · exact fileResize_counted hm n q.size htc hused
    dsimp only
    rw [Prog.ite_bind, Prog.ite_bind]
    refine hsize.bind (fun n' u hu => ?_) fun _ _ hu => hu
    refine (dirWrite_table _ _ _).bind (fun _ v hv => ?_) fun _ _ hv => hu.same hv
    exact hu.same hv
  exact hrun

theorem opLookup_table (dino : Nat) (name : List UInt8) : (opLookup g dino name).Holds s fun _ t => SameTable s t := by
  unfold opLookup
  refine SameTable.bind ((openDir_onlyNt dino).mono fun _ _ ht => ht.1.table) fun d t => ?_
  split
  · exact .refl
  · exact .bind_update (.bind_read (ntSet_onlyNt _ _).table)

theorem opRead_table (ino off len : Nat) : (opRead g ino off len).Holds s fun _ t => SameTable s t := by
  unfold opRead
  refine SameTable.bind ((nodeGet_onlyNt ino).mono fun _ _ ht => ht.table) fun n t => ?_
  split
  · exact .refl
  refine .bind_read ?_
  split
  · exact .refl
  · exact SameTable.bind (readLoop_table _ _ _ _ _) fun _ _ => .refl

theorem serve_counted (hm : Marked g) (q : Request) (h : Counted g s) (ho : Orderly g s q) : Counted g (serve g s q) := by
  cases q with
  | lookup dino name => exact h.same (opLookup_table dino name)
  | read ino off len => exact h.same (opRead_table ino off len)
  | write ino off buf => exact opWrite_counted hm off buf h ho
  | create dino name mode => exact opCreate_counted hm name mode h ho
  | mkdir dino name => exact opMkdir_counted hm name h ho
  | unlink dino name => exact removeEntry_counted dino name false h
  | rmdir dino name => exact removeEntry_counted dino name true h
  | rename odino oname ndino nname => exact opRename_counted hm oname nname h ho
  | setattr ino q => exact opSetattr_counted hm q h ho
  | sync =>
  unfold serve
  dsimp only
  split
  · exact h
  · exact h.same fatFlush_table

end Olux.Fat
