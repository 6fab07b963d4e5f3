import Olux.Fat.Entry
import Olux.Fat.Dir.Lemmas

namespace Olux.Fat

open Olux.Lib Function List Option

variable {g : Geom} {s t u : St} {l l' : List Nat} {e count : Nat}

-- What `t` has of a state `s` in which a directory lay in the chain `l`, while the directory
-- grows to `l'`: what was in use is as it was, and the clusters that are added are blank.
structure Grown (g : Geom) (s : St) (l : List Nat) (t : St) (l' : List Nat) : Prop where
  kept : ∀ x, fatGet g s x ≠ 0 → x ∉ l → fatGet g t x = fatGet g s x
  chain : (rows g).Chain (fatGet g t) l'
  pre : l <+: l'
  fresh : ∀ x ∈ l', x ∉ l → fatGet g s x = 0
  root : l = [] → l' = []
  len : l'.length * per g ≤ MAX_DIR_ENTRIES
  blk : ∀ b, IsBlk b → b = 0 ∨ fatGet g s b ≠ 0 → SameBlk g s t b
  zero : ∀ x ∈ l', x ∉ l → ∀ k < g.cs, t.dev (clusOff g x + k) = 0

theorem Grown.refl (hl : (rows g).Chain (fatGet g s) l) (hlen : l.length * per g ≤ MAX_DIR_ENTRIES) : Grown g s l s l :=
  ⟨fun _ _ _ => rfl, hl, prefix_refl _, fun _ hx hout => absurd hx hout, id, hlen, fun _ _ _ _ _ => rfl,
    fun _ hx hout => absurd hx hout⟩

theorem Grown.snoc (h : Grown g s l t l') (hswap : (rows g).Swap (fatGet g t) (fatGet g u) l' (l' ++ [e]))
    (hne : l ≠ []) (hlen : (l' ++ [e]).length * per g ≤ MAX_DIR_ENTRIES)
    (hblk : ∀ b, IsBlk b → b ≠ e → SameBlk g t u b) (hzero : ∀ k < g.cs, u.dev (clusOff g e + k) = 0) :
    Grown g s l u (l' ++ [e]) := by
  have hnot : e ∉ l' := by
    intro hmem
    have hnodup := hswap.chain.nodup
    exact (nodup_append.mp hnodup).2.2 e hmem e (by simp) rfl
  have hfree : fatGet g t e = 0 := hswap.fresh e (by simp) hnot
  have hfree0 : fatGet g s e = 0 := by
    by_contra hused
    have hout : e ∉ l := fun hmem => hnot (h.pre.subset hmem)
    exact hused ((h.kept e hused hout).symm.trans hfree)
  refine ⟨fun x hx hout => ?_, hswap.chain, h.pre.trans (prefix_append _ _), fun x hx hout => ?_,
    fun hnil => absurd hnil hne, hlen, fun b hb hused => ?_, fun x hx hout k hk => ?_⟩
  · have hx' : x ∉ l' := fun hmem => hx (h.fresh x hmem hout)
    have hxe : x ≠ e := by
      rintro rfl
      exact hx hfree0
    rw [hswap.same x hx' (by simp [hx', hxe]), h.kept x hx hout]
  · rcases mem_append.mp hx with hx | hx
    · exact h.fresh x hx hout
    · rw [mem_singleton.mp hx, hfree0]
  · have he2 := (valid_iff.mp (hswap.chain.valid (c := e) (by simp))).1
    have hbe : b ≠ e := by
      rintro rfl
      rcases hused with h0 | hused
      · omega
      · exact hused hfree0
    exact (h.blk b hb hused).trans (hblk b hb hbe)
  rcases mem_append.mp hx with hx | hx
  · have hx2 := (valid_iff.mp (h.chain.valid hx)).1
    have hsame := hblk x (.inr hx2) (fun heq => hnot (heq ▸ hx)) k
    simp only [blkLen, blkOff, if_neg (show x ≠ 0 by omega)] at hsame
    rw [hsame hk, h.zero x hx hout k hk]
  · rw [mem_singleton.mp hx]
    exact hzero k hk

theorem dirAt_snoc (hl : Proper g (l ++ [e])) (hne : l ≠ []) (hsame : ∀ b ∈ l, SameBlk g s t b)
    (hzero : ∀ k < g.cs, t.dev (clusOff g e + k) = 0) :
    dirAt g t (l ++ [e]) =
      { dirAt g s l with e := (dirAt g s l).e ++ List.replicate (per g) De.zero, cl := l ++ [e] } := by
  have hne' : l ++ [e] ≠ [] := by simp
  have hslots : dirSlots g (l ++ [e]) = dirSlots g l + per g := by
    rw [dirSlots, dirSlots, if_neg hne', if_neg hne, length_append, length_singleton, Nat.add_mul, Nat.one_mul]
  have hproper : Proper g l := ⟨fun c hc => hl.valid c (by simp [hc]), (nodup_append.mp hl.nodup).1⟩
  have hold : dirAt g t l = dirAt g s l := by
    refine dirAt_congr hproper fun b hb => ?_
    rw [dirBlocks, if_neg hne] at hb
    exact hsame b hb
  have hhead : (l ++ [e]).headD 0 = l.headD 0 := by
    cases l with
    | nil => exact absurd rfl hne
    | cons a l => rfl
  rw [← hold]
  simp only [dirAt, hhead, Dir.mk.injEq, and_true, true_and]
  rw [hslots, List.range_add, List.map_append, List.map_map]
  congr 1
  · refine map_congr_left fun i hi => ?_
    have hlt := div_per_lt hne (mem_range.mp hi)
    simp only [entOff, slotBlk, slotOff, if_neg hne, if_neg hne']
    rw [getD_append _ _ _ _ hlt]
  rw [eq_replicate_iff]
  refine ⟨by simp, fun d hd => ?_⟩
  obtain ⟨i, hi, rfl⟩ := mem_map.mp hd
  have hi := mem_range.mp hi
  have he2 := (valid_iff.mp (hl.valid e (by simp))).1
  have hdiv : (dirSlots g l + i) / per g = l.length := by
    rw [dirSlots, if_neg hne, Nat.mul_comm, Nat.mul_add_div per_pos, Nat.div_eq_of_lt hi, Nat.add_zero]
  have hmod : (dirSlots g l + i) % per g = i := by
    rw [dirSlots, if_neg hne, Nat.mul_comm, Nat.mul_add_mod, Nat.mod_eq_of_lt hi]
  have hcs := cs_eq (g := g)
  have hoff : entOff g (l ++ [e]) (dirSlots g l + i) = clusOff g e + i * 32 := by
    simp only [entOff, slotBlk, slotOff, if_neg hne', hdiv, hmod]
    rw [getD_append_right _ _ _ _ (Nat.le_refl _), Nat.sub_self, getD_cons_zero, blkOff, if_neg (by omega)]
  simp only [comp_apply]
  rw [hoff]
  refine De.ofBytes_zero fun k hk => ?_
  rw [Nat.add_assoc]
  exact hzero _ (by omega)

structure OneMore (g : Geom) (t : St) (l : List Nat) (e : Nat) (w : St) : Prop where
  ne : l ≠ []
  swap : (rows g).Swap (fatGet g t) (fatGet g w) l (l ++ [e])
  server : Server g w
  len : (l ++ [e]).length * per g ≤ MAX_DIR_ENTRIES
  blk : ∀ b, IsBlk b → b ≠ e → SameBlk g t w b
  zero : ∀ k < g.cs, w.dev (clusOff g e + k) = 0

theorem OneMore.dirAt_eq (h : OneMore g t l e u) : dirAt g u (l ++ [e]) =
    { dirAt g t l with e := (dirAt g t l).e ++ List.replicate (per g) De.zero, cl := l ++ [e] } := by
  refine dirAt_snoc (.of_chain h.swap.chain) h.ne (fun b hb => ?_) h.zero
  refine h.blk b (.of_valid (h.swap.chain.valid (mem_append_left _ hb))) ?_
  rintro rfl
  exact (nodup_append.mp h.swap.chain.nodup).2.2 b hb b (by simp) rfl

section Growth

variable {c : Nat} (hro : g.ro = false) (hm : Marked g)
include hro

include hm in
theorem dirExtend_step (hserver : Server g t) (hchain : (rows g).Chain (fatGet g t) l) :
    (dirExtend g (dirAt g t l)).Holds t fun r w =>
      (∃ err, r = .error err) ∧ w = t ∨ ∃ e, OneMore g t l e w ∧ r = .ok (dirAt g w (l ++ [e])) := by
  unfold dirExtend
  split
  · exact .inl ⟨⟨_, rfl⟩, rfl⟩
  rename_i hroom
  obtain ⟨hclus, hsmall⟩ := not_or.mp hroom
  have hne : l ≠ [] := by
    rintro rfl
    exact hclus rfl
  refine .bind_act ?_
  generalize heq : allocCluster g ((dirAt g t l).cl.getLast?.getD 0) t = r
  obtain ⟨e, u⟩ := r
  rcases allocCluster_spec hm hserver hchain heq with ⟨rfl, rfl⟩ | ⟨hv, hswap, hserver', haside⟩
  · exact .inl ⟨⟨_, rfl⟩, rfl⟩
  have he2 := (valid_iff.mp hv).1
  dsimp only
  rw [if_neg (by omega)]
  have hzeroed : zeroCluster g e u = (.ok (), commit (putBytes u.dev (clusOff g e) (List.replicate g.cs 0)) u) :=
    devWrite_eq hro _ _
  unfold Prog.Holds
  rw [Prog.bind_ok hzeroed]
  generalize hw : commit (putBytes u.dev (clusOff g e) (List.replicate g.cs 0)) u = w
  have hdev : w.dev = putBytes t.dev (clusOff g e) (List.replicate g.cs 0) := by
    rw [← hw, commit, haside.dev]
  have hget : fatGet g w = fatGet g u := by rw [← hw]; rfl
  have hmore : OneMore g t l e w := by
    refine ⟨hne, by rw [hget]; exact hswap, by rw [← hw]; exact Wrote.commit.server hserver', ?_, fun b hb hbe => ?_,
      fun k hk => ?_⟩
    · rw [dirAt_length, dirSlots, if_neg hne] at hsmall
      rw [length_append, length_singleton, Nat.add_mul, Nat.one_mul]
      omega
    · refine putBytes_blk (o := 0) (.inr he2) hb hbe ?_ (by rw [hdev, blkOff, if_neg (by omega), Nat.add_zero])
      simp [blkLen, show e ≠ 0 by omega]
    · rw [hdev, putBytes_inside (by simpa using hk)]
      simp
  exact .inr ⟨e, hmore, congrArg Except.ok hmore.dirAt_eq.symm⟩

omit hro in
theorem dirAllocLoop_inv {P : St → List Nat → Prop}
    (hstep : ∀ t l, P t l → (dirExtend g (dirAt g t l)).Holds t fun r u =>
      ∃ l', P u l' ∧ ∀ D, r = .ok D → D = dirAt g u l') {k : Nat} (h : P t l) :
    (dirAllocLoop g count k (dirAt g t l)).Holds t fun r u =>
      ∃ l', P u l' ∧ ∀ D first, r = .ok (D, first) →
        D = dirAt g u l' ∧ freeRun D.e.length count D.e 0 0 = some first := by
  induction k generalizing t l with
  | zero => exact ⟨l, h, fun _ _ hr => by cases hr⟩
  | succ k ih =>
  rw [dirAllocLoop]
  cases hrun : freeRun (dirAt g t l).e.length count (dirAt g t l).e 0 0 with
  | some first =>
    refine ⟨l, h, fun D first' hr => ?_⟩
    obtain ⟨rfl, rfl⟩ := Prod.mk.inj (Except.ok.inj hr)
    exact ⟨rfl, hrun⟩
  | none =>
  refine .bind (hstep t l h) ?_ ?_
  · rintro D u ⟨l', hu, hD⟩
    rw [hD D rfl]
    exact ih hu
  · rintro e u ⟨l', hu, _⟩
    exact ⟨l', hu, fun _ _ hr => by cases hr⟩

end Growth

end Olux.Fat
