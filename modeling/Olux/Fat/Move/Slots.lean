import Olux.Fat.Rename

namespace Olux.Fat

open Olux.Lib Relation List Option

variable {g : Geom} {s t u : St} {own : Owner → List Nat} {l l' m freed : List Nat} {d x j i y : Nat} {o : Owner}
  {e f : De} {D : Dir} {a : Ent} {es : List De} {p : Loc}

def liveAt (es : List De) (j : Nat) : Option De := (es[j]?).filter live

theorem liveAt_dead {a : List De} (h : ∀ f, a[j]? = some f → live f = false) : liveAt a j = none := by
  unfold liveAt
  cases hf : a[j]? with
  | none => rfl
  | some f => rw [filter_some, if_neg (by rw [h f hf]; simp)]

theorem getElem?_blank {n : Nat} (h : (es ++ List.replicate n De.zero)[j]? = some f) :
    es[j]? = some f ∨ f = De.zero := by
  by_cases hj : j < es.length
  · rw [getElem?_append_left hj] at h
    exact .inl h
  · rw [getElem?_append_right (by omega)] at h
    exact .inr (eq_of_mem_replicate (mem_of_getElem? h))

theorem Ended.blank (h : Ended es) (n : Nat) : Ended (es ++ List.replicate n De.zero) := by
  intro i j a b hij ha hb hz
  rcases getElem?_blank hb with hb | rfl
  · have hi : i < es.length := Nat.lt_trans hij (List.getElem?_eq_some_iff.mp hb).1
    rw [List.getElem?_append_left hi] at ha
    exact h i j a b hij ha hb hz
  · decide

theorem Edit.other (h : Edit g s t l l' freed) (hm : (rows g).Chain (fatGet g s) m) (hout : ∀ c ∈ m, c ∉ l ∧ c ∉ freed)
    (hblk : ∀ b ∈ dirBlocks m, b ∉ dirBlocks l) :
    (∀ c ∈ m, fatGet g t c = fatGet g s c) ∧ dirAt g t m = dirAt g s m := by
  refine ⟨fun c hc => h.kept c (hm.ne_free hc) (hout c hc).1 (hout c hc).2, ?_⟩
  have hproper := Proper.of_chain hm
  refine dirAt_congr hproper fun b hb => h.blk b (hproper.isBlk hb) ?_ (hblk b hb)
  unfold dirBlocks at hb
  split at hb
  · exact .inl (mem_singleton.mp hb)
  · exact .inr (hm.ne_free hb)

section Steps

variable (hro : g.ro = false)
include hro

theorem setDotdot_edit (hl : (rows g).Chain (fatGet g s) l) (hne : l ≠ []) (hs : Server g s)
    (hlen : l.length * per g ≤ MAX_DIR_ENTRIES) (hf : (dirAt g s l).e[1]? = some f) (hdot : f.name = DOTDOT)
    (parent : Nat) : ∃ t, setDotdot g (l.headD 0) parent s = (.ok (), t) ∧ Edit g s t l l [] ∧
      (dirAt g t l).e = (dirAt g s l).e.set 1 (deSetStart g f (dotdotStart g parent)) := by
  have hload := dirLoad_eq hl (length_le_maxClus hlen) fun hnil => absurd hnil hne
  have hone := (List.getElem?_eq_some_iff.mp hf).1
  have hgetD : (dirAt g s l).e.getD 1 De.zero = f := by rw [List.getD_eq_getElem?_getD, hf, Option.getD_some]
  have hslen : ((dirAt g s l).e.set 1 (deSetStart g f (dotdotStart g parent))).length = (dirAt g s l).e.length :=
    length_set
  obtain ⟨w, dev, hrun, hwrote, hw, hblk⟩ := dirWrite_spec (s := s)
    (D := { dirAt g s l with e := (dirAt g s l).e.set 1 (deSetStart g f (dotdotStart g parent)) }) (a := 1) (b := 2) hro
    (.of_chain hl) rfl (hslen.trans (dirAt_length _)) (by omega) (by rw [hslen]; omega)
    fun i hi => getElem?_set_ne (by omega)
  refine ⟨w, ?_, ⟨by rw [hwrote.fatGet_eq]; exact hl, hwrote.server hs, hlen, prefix_refl _, id,
    fun c _ _ _ => by rw [hwrote.fatGet_eq], fun c hc hno => absurd hc hno, fun b hb _ hno => hblk b hb hno⟩,
    congrArg Dir.e hw⟩
  have hload' : Prog.attempt (.query (dirLoad g (l.headD 0)) : Prog St Int Dir) s = (.ok (.ok (dirAt g s l)), s) := by
    show (Except.ok (dirLoad g (l.headD 0) s), s) = _
    rw [hload]
  unfold setDotdot
  rw [Prog.bind_ok hload']
  dsimp only
  rw [hgetD, if_pos ⟨hone, by rw [hdot]; rfl⟩]
  exact hrun

end Steps

theorem liveAt_set {f' : De} (hf : es[i]? = some f) (hdead : live f = false) (hdead' : live f' = false)
    (j : Nat) : liveAt (es.set i f') j = liveAt es j := by
  by_cases hji : j = i
  · subst hji
    rw [liveAt_dead (a := es) fun a ha => by rw [← some.inj (hf.symm.trans ha)]; exact hdead]
    refine liveAt_dead fun a ha => ?_
    rw [List.getElem?_set_self (List.getElem?_eq_some_iff.mp hf).1] at ha
    rw [← Option.some.inj ha]
    exact hdead'
  · rw [liveAt, getElem?_set_ne (Ne.symm hji)]
    rfl

def Separate (l m : List Nat) : Prop := (∀ c ∈ m, c ∉ l) ∧ ∀ b ∈ dirBlocks m, b ∉ dirBlocks l

theorem Separate.symm (h : Separate l m) : Separate m l :=
  ⟨fun c hc hc' => h.1 c hc' hc, fun b hb hb' => h.2 b hb' hb⟩

theorem Consistent.separate {q : Owner} (h : Consistent g (vol g s) own) (hx : DirOwner g (vol g s) own x o)
    (hy : DirOwner g (vol g s) own y q) (hne : x ≠ y) : Separate (own o) (own q) := by
  refine ⟨fun c hc hc' => ?_, fun b hb => h.blocks_apart hy hx (Ne.symm hne) hb⟩
  obtain rfl := h.books.disjoint hc hc'
  exact hne (hx.head.trans hy.head.symm)

theorem Edit.separate (h : Edit g s t l l' freed) (hm : (rows g).Chain (fatGet g s) m) (hsep : Separate l m) :
    Separate l' m := by
  have hout : ∀ c ∈ m, c ∉ l' := fun c hc hc' => hm.ne_free hc (h.fresh c hc' (hsep.1 c hc))
  refine ⟨hout, fun b hb hb' => ?_⟩
  by_cases hnil : l' = []
  · have hl : l = [] := prefix_nil.mp (hnil ▸ h.pre)
    rw [hnil] at hb'
    exact hsep.2 b hb (by rw [hl]; exact hb')
  rw [dirBlocks, if_neg hnil] at hb'
  have h2 := (valid_iff.mp (h.chain.valid hb')).1
  unfold dirBlocks at hb
  split at hb
  · have := mem_singleton.mp hb
    omega
  · exact hout b hb hb'

structure At (g : Geom) (s : St) (l : List Nat) (es : List De) : Prop where
  chain : (rows g).Chain (fatGet g s) l
  len : l.length * per g ≤ MAX_DIR_ENTRIES
  slots : (dirAt g s l).e = es

theorem Consistent.at (h : Consistent g (vol g s) own) (hx : DirOwner g (vol g s) own x o) :
    At g s (own o) (dirAt g s (own o)).e := ⟨h.books.chain o, hx.len, rfl⟩

theorem At.edit (h : At g s m es) (he : Edit g s t l l' freed) (hsep : Separate l m)
    (hfreed : ∀ c ∈ m, c ∉ freed) : At g t m es := by
  obtain ⟨hrows, hdir⟩ := he.other h.chain (fun c hc => ⟨hsep.1 c hc, hfreed c hc⟩) hsep.2
  exact ⟨h.chain.congr hrows, h.len, by rw [hdir, h.slots]⟩

theorem At.keep (h : At g s m es) (he : Edit g s t l l' []) (hsep : Separate l m) : At g t m es :=
  h.edit he hsep fun _ _ => not_mem_nil

theorem At.same (h : At g s m es) (hfat : t.fat = s.fat) (hdev : ∀ y, g.rootOff ≤ y → t.dev y = s.dev y) :
    At g t m es := by
  have hget : fatGet g t = fatGet g s := fatGet_of_fat hfat
  refine ⟨by rw [hget]; exact h.chain, h.len, ?_⟩
  rw [← h.slots, dirAt_congr (.of_chain h.chain) fun b _ j _ => hdev _ ?_]
  exact Nat.le_trans (rootOff_le_blkOff b) (Nat.le_add_right _ _)

theorem At.slots_eq (h : At g s m es) (hroot : m = [] → g.type ≠ .fat32) : Fat.slots g s (m.headD 0) = es := by
  rw [Fat.slots_eq h.chain h.len hroot, h.slots]

theorem At.ent (h : At g s m es) (hroot : m = [] → g.type ≠ .fat32) (j : Nat) :
    (vol g s).ent ⟨m.headD 0, j⟩ = liveAt es j := by
  show ((Fat.slots g s (m.headD 0))[j]?).filter live = _
  rw [h.slots_eq hroot]
  rfl

end Olux.Fat
