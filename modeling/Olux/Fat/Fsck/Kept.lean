import Olux.Fat.Slots
import Olux.Fat.Tower
import Olux.Fat.Volume.Owner

namespace Olux.Fat

open Olux.Lib Relation Function List Option

variable {g : Geom} {s : St} {own : Owner → List Nat} {k k' : Fsck} {l : List Nat} {pos pos' pos'' : Nat → Nat}
  {x c d a n i : Nat} {o : Owner} {e : De}

structure Took (k k' : Fsck) (l : List Nat) : Prop where
  st : k'.st = k.st
  used : ∀ x, k'.used x = true ↔ x ∈ l ∨ k.used x = true

theorem next_of_chain (h : (rows g).Chain (fatGet g s) (a :: l)) : next g s a = l.headD 0 := by
  rw [next_eq]
  cases l with
  | nil => rw [h.2.1]; rfl
  | cons b l => rw [h.2.1]; rfl

theorem Took.cons (h : Took (k.setUsed a) k' l) : Took k k' (a :: l) := by
  refine ⟨h.st, fun x => ?_⟩
  rw [h.used]
  simp only [Fsck.setUsed, Bool.or_eq_true, decide_eq_true_eq, mem_cons]
  tauto

theorem fresh_setUsed (h : (rows g).Chain (fatGet g s) (a :: l)) (hfresh : ∀ x ∈ a :: l, k.used x = false) :
    ∀ x ∈ l, (k.setUsed a).used x = false := by
  intro x hx
  have hne : x ≠ a := by
    rintro rfl
    exact (nodup_cons.mp h.nodup).1 hx
  simp [Fsck.setUsed, hne, hfresh x (mem_cons_of_mem _ hx)]

theorem claimLoop_took (h : (rows g).Chain (fatGet g k.st) l) (hfresh : ∀ x ∈ l, k.used x = false) (prev : Nat)
    (hlen : l.length < n) : Took k (claimLoop g n prev (l.headD 0) k) l := by
  induction l generalizing n prev k with
  | nil =>
    obtain ⟨n, rfl⟩ := Nat.exists_eq_succ_of_ne_zero (Nat.pos_iff_ne_zero.mp hlen)
    rw [claimLoop, if_neg (by simp [valid])]
    exact ⟨rfl, by simp⟩
  | cons a l ih =>
    obtain ⟨n, rfl⟩ := Nat.exists_eq_succ_of_ne_zero (Nat.pos_iff_ne_zero.mp (Nat.zero_lt_of_lt hlen))
    have hv : valid g a = true := h.1
    rw [claimLoop, headD_cons, if_pos hv, if_neg (by simp [hfresh a mem_cons_self]), next_of_chain h]
    exact (ih (k := k.setUsed a) h.tail (fresh_setUsed h hfresh) a (Nat.lt_of_succ_lt_succ hlen)).cons

theorem claimDir_took (h : (rows g).Chain (fatGet g k.st) l) (hfresh : ∀ x ∈ l, k.used x = false) :
    Took k (claimDir g (l.headD 0) k) l := by
  unfold claimDir
  split
  · rename_i hz
    cases l with
    | nil => exact ⟨rfl, by simp⟩
    | cons a l =>
      have h2 := (valid_iff.mp h.1).1
      rw [headD_cons] at hz
      omega
  · exact claimLoop_took h hfresh 0 (Nat.lt_succ_of_le (length_le_nclus h.nodup fun _ hx => h.valid hx))

theorem fileLoop_took (h : (rows g).Chain (fatGet g k.st) l) (hfresh : ∀ x ∈ l, k.used x = false) (cnt prev : Nat) :
    (fileLoop g l.length (l.headD 0) cnt prev k).1 = cnt + l.length ∧
      (fileLoop g l.length (l.headD 0) cnt prev k).2.1 = l.getLast?.getD prev ∧
      Took k (fileLoop g l.length (l.headD 0) cnt prev k).2.2 l := by
  induction l generalizing cnt prev k with
  | nil => exact ⟨rfl, rfl, rfl, by simp [fileLoop]⟩
  | cons a l ih =>
  have hv : (valid g a && !k.used a) = true := by
    have hv : valid g a = true := h.1
    simp [hv, hfresh a mem_cons_self]
  rw [length_cons, fileLoop, headD_cons, if_pos hv, next_of_chain h]
  obtain ⟨h1, h2, h3⟩ := ih (k := k.setUsed a) h.tail (fresh_setUsed h hfresh) (cnt + 1) a
  refine ⟨by rw [h1]; omega, ?_, h3.cons⟩
  rw [h2, getLast?_cons, getD_some]

theorem fsckFile_took (h : FileFits g k.st e l) (hfresh : ∀ x ∈ l, k.used x = false) (D : Dir) (i : Nat) :
    (fsckFile g D i e k).1 = D ∧ Took k (fsckFile g D i e k).2 l := by
  obtain ⟨hcnt, hprev, htook⟩ := fileLoop_took h.chain hfresh 0 0
  unfold fsckFile
  dsimp only
  rw [← h.length, h.start]
  generalize fileLoop g l.length (l.headD 0) 0 0 k = r at *
  obtain ⟨cnt, prev, k1⟩ := r
  dsimp only at *
  rw [Nat.zero_add] at hcnt
  have hstart : ¬(cnt = 0 ∧ l.headD 0 ≠ 0) := by
    rintro ⟨hz, hne⟩
    have hnil : l = [] := eq_nil_of_length_eq_zero (hcnt.symm.trans hz)
    exact hne (by rw [hnil]; rfl)
  have hend : ¬(prev ≠ 0 ∧ fatGet g k1.st prev < eocMin g) := by
    rintro ⟨hne, hlt⟩
    cases hlast : l.getLast? with
    | none =>
      rw [hlast] at hprev
      exact hne hprev
    | some b =>
      rw [hlast, getD_some] at hprev
      have hle : eocMin g ≤ fatGet g k.st b := h.chain.last_ends hlast
      rw [htook.st, hprev] at hlt
      omega
  rw [if_neg hstart, if_neg hend, if_neg (show ¬cnt < l.length by omega)]
  rw [fileSave, if_neg (by simp [hcnt])]
  exact ⟨rfl, htook⟩

def Cut (g : Geom) (s : St) (p : Loc) : Prop :=
  (vol g s).Depth g 65 p.dclus ∧ ∃ e, (vol g s).ent p = some e ∧ e.isDir = true

def span (g : Geom) (s : St) (d : Nat) : Nat := ((slots g s d).takeWhile inUse).length

def Had (g : Geom) (s : St) (pos : Nat → Nat) (o : Owner) : Prop :=
  o = .root ∨ ∃ p, o = .entry p ∧ p.idx < pos p.dclus ∧ ¬Cut g s p

-- The repair of the consistent volume `s` on its way: nothing has changed, but that the
-- entries of directories that are too deep are gone.
structure Passing (g : Geom) (s : St) (own : Owner → List Nat) (k : Fsck) (pos : Nat → Nat) : Prop where
  get : fatGet g k.st = fatGet g s
  used : ∀ c, k.used c = true ↔ ∃ o, Had g s pos o ∧ c ∈ own o
  kept : ∀ y o i, DirOwner g (vol g s) own y o → ¬(i < pos y ∧ Cut g s ⟨y, i⟩) →
    (dirAt g k.st (own o)).e[i]? = (dirAt g s (own o)).e[i]?
  lost : ∀ y o i, DirOwner g (vol g s) own y o → i < pos y → Cut g s ⟨y, i⟩ →
    (dirAt g k.st (own o)).e[i]? = ((dirAt g s (own o)).e[i]?).map deleted
  data : ∀ b, IsBlk b → (∀ y o, DirOwner g (vol g s) own y o → b ∉ dirBlocks (own o)) → SameBlk g s k.st b
  bound : ∀ y, pos y ≤ span g s y
  entered : ∀ y p, DirOwner g (vol g s) own y (.entry p) → 0 < pos y → p.idx < pos p.dclus

theorem had_update (hpos : pos x = i) (o' : Owner) : Had g s (Function.update pos x (i + 1)) o' ↔
    Had g s pos o' ∨ o' = .entry ⟨x, i⟩ ∧ ¬Cut g s ⟨x, i⟩ := by
  unfold Had
  constructor
  · rintro (hr | ⟨p, rfl, hlt, hcut⟩)
    · exact .inl (.inl hr)
    · by_cases hp : p = ⟨x, i⟩
      · subst hp
        exact .inr ⟨rfl, hcut⟩
      · exact .inl (.inr ⟨p, rfl, lt_of_lt_update hpos hlt hp, hcut⟩)
  rintro ((hr | ⟨p, rfl, hlt, hcut⟩) | ⟨rfl, hcut⟩)
  · exact .inl hr
  · exact .inr ⟨p, rfl, Nat.lt_of_lt_of_le hlt (le_update hpos _), hcut⟩
  · exact .inr ⟨⟨x, i⟩, rfl, by rw [update_self]; exact Nat.lt_succ_self i, hcut⟩

theorem Passing.step (h : Consistent g (vol g s) own) (hk : Passing g s own k pos) (k' : Fsck) (e' : De)
    (hx : DirOwner g (vol g s) own x o) (hin : ∀ p, o = .entry p → p.idx < pos p.dclus) (hpos : pos x = i)
    (hi : i < span g s x) (he : (dirAt g s (own o)).e[i]? = some e) (hget : fatGet g k'.st = fatGet g k.st)
    (hused : ∀ c, k'.used c = true ↔ c ∈ own (.entry ⟨x, i⟩) ∧ ¬Cut g s ⟨x, i⟩ ∨ k.used c = true)
    (hdir : (dirAt g k'.st (own o)).e = (dirAt g k.st (own o)).e.set i e') (hcut : Cut g s ⟨x, i⟩ → e' = deleted e)
    (hnot : ¬Cut g s ⟨x, i⟩ → e' = e) (hblk : ∀ b, IsBlk b → b ∉ dirBlocks (own o) → SameBlk g k.st k'.st b) :
    Passing g s own k' (Function.update pos x (i + 1)) := by
  have hlen : i < (dirAt g k.st (own o)).e.length := by
    rw [dirAt_length, ← dirAt_length (s := s)]
    exact (List.getElem?_eq_some_iff.mp he).1
  have hat : (dirAt g k'.st (own o)).e[i]? = some e' := by rw [hdir, List.getElem?_set_self hlen]
  have hother : ∀ y o' j, DirOwner g (vol g s) own y o' → (⟨y, j⟩ : Loc) ≠ ⟨x, i⟩ →
      (dirAt g k'.st (own o')).e[j]? = (dirAt g k.st (own o')).e[j]? := by
    intro y o' j hy hp
    by_cases hyx : y = x
    · subst hyx
      obtain rfl := h.dirOwner_unique hx hy
      rw [hdir, getElem?_set_ne fun hij => hp (by rw [hij])]
    · have hproper := Proper.of_chain (h.books.chain o')
      rw [dirAt_congr hproper fun b hb => hblk b (hproper.isBlk hb) (h.blocks_apart hy hx hyx hb)]
  refine ⟨hget.trans hk.get, fun c => ?_, fun y o' j hy hj => ?_, fun y o' j hy hj hc => ?_, fun b hb hout => ?_,
    fun y => ?_, fun y p hy hlt => ?_⟩
  · rw [hused, hk.used]
    constructor
    · rintro (⟨hc, hn⟩ | ⟨o', ho', hc⟩)
      · exact ⟨_, (had_update hpos _).mpr (.inr ⟨rfl, hn⟩), hc⟩
      · exact ⟨o', (had_update hpos _).mpr (.inl ho'), hc⟩
    rintro ⟨o', ho', hc⟩
    rcases (had_update hpos _).mp ho' with ho' | ⟨rfl, hn⟩
    · exact .inr ⟨o', ho', hc⟩
    · exact .inl ⟨hc, hn⟩
  · by_cases hp : (⟨y, j⟩ : Loc) = ⟨x, i⟩
    · obtain ⟨rfl, rfl⟩ := Loc.mk.inj hp
      obtain rfl := h.dirOwner_unique hx hy
      rw [update_self] at hj
      rw [hat, he, hnot fun hc => hj ⟨Nat.lt_succ_self j, hc⟩]
    · rw [hother y o' j hy hp]
      exact hk.kept y o' j hy fun hc => hj ⟨Nat.lt_of_lt_of_le hc.1 (le_update hpos _), hc.2⟩
  · by_cases hp : (⟨y, j⟩ : Loc) = ⟨x, i⟩
    · obtain ⟨rfl, rfl⟩ := Loc.mk.inj hp
      obtain rfl := h.dirOwner_unique hx hy
      rw [hat, he, hcut hc]
      rfl
    · rw [hother y o' j hy hp]
      exact hk.lost y o' j hy (lt_of_lt_update hpos hj hp) hc
  · exact (hk.data b hb hout).trans (hblk b hb (hout x o hx))
  · by_cases hyx : y = x
    · subst hyx
      rw [update_self]
      exact hi
    · rw [update_of_ne hyx]
      exact hk.bound y
  refine Nat.lt_of_lt_of_le ?_ (le_update hpos _)
  by_cases hyx : y = x
  · subst hyx
    exact hin p (h.dirOwner_unique hx hy)
  · rw [update_of_ne hyx] at hlt
    exact hk.entered y p hy hlt

theorem Passing.dirAt_eq (hk : Passing g s own k pos) (hk' : Passing g s own k' pos') (hx : DirOwner g (vol g s) own x o)
    (hpos : ∀ j, Cut g s ⟨x, j⟩ → (j < pos x ↔ j < pos' x)) : dirAt g k'.st (own o) = dirAt g k.st (own o) := by
  have he : (dirAt g k'.st (own o)).e = (dirAt g k.st (own o)).e := by
    refine ext_getElem? fun j => ?_
    by_cases hc : j < pos x ∧ Cut g s ⟨x, j⟩
    · rw [hk.lost x o j hx hc.1 hc.2, hk'.lost x o j hx ((hpos j hc.2).mp hc.1) hc.2]
    · rw [hk.kept x o j hx hc, hk'.kept x o j hx fun hc' => hc ⟨(hpos j hc'.2).mpr hc'.1, hc'.2⟩]
  exact congrArg (fun e => (⟨(own o).headD 0, e, own o⟩ : Dir)) he

-- The repair goes on in directory `x` and below: of the directories that it has been in
-- before only `x` gets further, and those it comes to are done.
structure Onward (g : Geom) (s : St) (x : Nat) (pos pos' : Nat → Nat) : Prop where
  mono : ∀ y, pos y ≤ pos' y
  kept : ∀ y, y ≠ x → 0 < pos y → pos' y = pos y
  full : ∀ y j e, (vol g s).Reach g y → pos y ≤ j → j < pos' y → (vol g s).ent ⟨y, j⟩ = some e → e.isDir = true →
    ¬Cut g s ⟨y, j⟩ → pos' (deStart g e) = span g s (deStart g e)

theorem Onward.refl : Onward g s x pos pos :=
  ⟨fun _ => Nat.le_refl _, fun _ _ _ => rfl, fun _ _ _ _ h1 h2 => absurd h1 (Nat.not_le.mpr h2)⟩

theorem Onward.trans (h : Consistent g (vol g s) own) (hx : DirOwner g (vol g s) own x o)
    (hin : ∀ p, o = .entry p → p.idx < pos p.dclus) (h₁ : Onward g s x pos pos') (h₂ : Onward g s x pos' pos'')
    (hbound : ∀ y, pos'' y ≤ span g s y) : Onward g s x pos pos'' := by
  refine ⟨fun y => (h₁.mono y).trans (h₂.mono y), fun y hy hlt => ?_, fun y j e hy hj hj' he hdir hcut => ?_⟩
  · have heq := h₁.kept y hy hlt
    exact (h₂.kept y hy (heq ▸ hlt)).trans heq
  by_cases hmid : j < pos' y
  · have hfull := h₁.full y j e hy hj hmid he hdir hcut
    have hcx : deStart g e ≠ x := by
      rintro rfl
      -- the entry of `x` itself was dealt with before
      have hp := hin ⟨y, j⟩ (h.dirOwner_unique hx (h.child_owner (p := ⟨y, j⟩) hy he hdir).1)
      exact absurd hp (Nat.not_lt.mpr hj)
    rcases Nat.eq_zero_or_pos (pos' (deStart g e)) with hz | hlt
    · have hle := hbound (deStart g e)
      omega
    · exact (h₂.kept _ hcx hlt).trans hfull
  · exact h₂.full y j e hy (Nat.not_lt.mp hmid) hj' he hdir hcut

theorem Onward.slot {c : Nat} (hpos : pos x = i) (hc : c = x ∨ pos c = 0)
    (hon : Onward g s c (Function.update pos x (i + 1)) pos') (hslot : ∀ e, (vol g s).ent ⟨x, i⟩ = some e → e.isDir = true →
      ¬Cut g s ⟨x, i⟩ → pos' (deStart g e) = span g s (deStart g e)) : Onward g s x pos pos' := by
  refine ⟨fun y => (le_update hpos y).trans (hon.mono y), fun y hy hlt => ?_, fun y j e hy hj hj' he hdir hcut => ?_⟩
  · have hup : update pos x (i + 1) y = pos y := update_of_ne hy _ _
    have hyc : y ≠ c := by
      rintro rfl
      rcases hc with rfl | hz
      · exact hy rfl
      · omega
    rw [hon.kept y hyc (by rw [hup]; exact hlt), hup]
  by_cases hp : (⟨y, j⟩ : Loc) = ⟨x, i⟩
  · obtain ⟨rfl, rfl⟩ := Loc.mk.inj hp
    exact hslot e he hdir hcut
  · exact hon.full y j e hy (Nat.not_lt.mp fun hlt => Nat.not_lt.mpr hj (lt_of_lt_update hpos hlt hp)) hj' he hdir hcut

def Passes (g : Geom) (s : St) (own : Owner → List Nat) (d : Nat) (sub : Nat → Fsck → Fsck) : Prop :=
  ∀ {k pos c o}, Passing g s own (claimDir g c k) pos → (vol g s).Depth g d c → DirOwner g (vol g s) own c o →
    (∀ p, o = .entry p → p.idx < pos p.dclus) → pos c = 0 →
    ∃ pos', Passing g s own (sub c k) pos' ∧ Onward g s c pos pos' ∧ pos' c = span g s c

theorem Passing.fresh (h : Consistent g (vol g s) own) (hk : Passing g s own k pos) (hpos : pos x = i) :
    ∀ c ∈ own (.entry ⟨x, i⟩), k.used c = false := by
  intro c hc
  rw [← Bool.not_eq_true]
  intro hu
  obtain ⟨o', ho', hc'⟩ := (hk.used c).mp hu
  obtain rfl := h.books.disjoint hc hc'
  rcases ho' with hr | ⟨p, hp, hlt, _⟩
  · cases hr
  · obtain rfl := Owner.entry.inj hp
    exact absurd hlt (by rw [hpos]; exact Nat.lt_irrefl i)

theorem Passing.below (h : Consistent g (vol g s) own) (hk : Passing g s own k pos) (hd : (vol g s).Depth g d x)
    (hx : DirOwner g (vol g s) own x o) (hin : ∀ p, o = .entry p → p.idx < pos p.dclus) (hpos : pos x = i)
    (he : (vol g s).ent ⟨x, i⟩ = some e) (hdir : e.isDir = true) (hnc : ¬Cut g s ⟨x, i⟩) {f : Nat → Fsck → Fsck}
    (hpass : Passes g s own (d + 1) f)
    (hclaimed : Passing g s own (claimDir g (deStart g e) k) (Function.update pos x (i + 1))) :
    ∃ pos', Passing g s own (f (deStart g e) k) pos' ∧ Onward g s x pos pos' ∧ pos' x = i + 1 ∧
      dirAt g (f (deStart g e) k).st (own o) = dirAt g k.st (own o) := by
  obtain ⟨hchild, _⟩ := h.child_owner (p := ⟨x, i⟩) (h.dirOwner_reach hx) he hdir
  have hxc : deStart g e ≠ x := by
    intro hcx
    have hp := hin ⟨x, i⟩ (h.dirOwner_unique hx (hcx ▸ hchild))
    exact absurd hp (by rw [hpos]; exact Nat.lt_irrefl i)
  have hzero : pos (deStart g e) = 0 := by
    by_contra hne
    have hp := hk.entered _ _ hchild (Nat.pos_of_ne_zero hne)
    rw [hpos] at hp
    exact Nat.lt_irrefl i hp
  obtain ⟨pos1, hk1, hon1, hfull1⟩ := hpass hclaimed (.step hd ⟨i, e, he, hdir, rfl⟩) hchild
    (fun p hp => by
      obtain rfl := Owner.entry.inj hp
      rw [update_self]
      exact Nat.lt_succ_self i)
    (by rw [update_of_ne hxc]; exact hzero)
  have hx1 : pos1 x = i + 1 := by
    rw [hon1.kept x (Ne.symm hxc) (by rw [update_self]; exact Nat.succ_pos i), update_self]
  refine ⟨pos1, hk1, .slot hpos (.inr hzero) hon1 fun f' hf _ _ => ?_, hx1, hk.dirAt_eq hk1 hx fun j hj => ?_⟩
  · obtain rfl := some.inj (he.symm.trans hf)
    exact hfull1
  have hji : j ≠ i := by
    rintro rfl
    exact hnc hj
  rw [hpos, hx1]
  omega

section Slot

variable (h : Consistent g (vol g s) own) (hk : Passing g s own k pos) (hx : DirOwner g (vol g s) own x o)
  (hin : ∀ p, o = .entry p → p.idx < pos p.dclus) (hpos : pos x = i) (hi : i < span g s x)
  (hat : (dirAt g s (own o)).e[i]? = some e)

include h hx hat in
theorem Consistent.ent_slot : (vol g s).ent ⟨x, i⟩ = if live e = true then some e else Option.none := by
  rw [h.ent_eq hx, hat, filter_some]

include hk hx hpos hat in
theorem Passing.slot_now : (dirAt g k.st (own o)).e[i]? = some e := by
  rw [hk.kept x o i hx fun hc => by omega, hat]

include h hx hpos hat in
theorem Onward.one (hcut : live e = true → e.isDir = true → Cut g s ⟨x, i⟩) : Onward g s x pos (update pos x (i + 1)) := by
  refine .slot hpos (.inl rfl) .refl fun f hf hdir hnc => ?_
  rw [h.ent_eq hx, hat] at hf
  obtain ⟨hef, hlive⟩ := filter_eq_some_iff.mp hf
  obtain rfl := some.inj hef
  exact absurd (hcut hlive hdir) hnc

include h hk hx hin hpos hi hat

-- The slot is left as it is, while the chain it has is claimed.
theorem Passing.take (hnc : ¬Cut g s ⟨x, i⟩) (htook : Took k k' (own (.entry ⟨x, i⟩))) :
    Passing g s own k' (update pos x (i + 1)) := by
  have hsame : (dirAt g k.st (own o)).e.set i e = (dirAt g k.st (own o)).e := by
    obtain ⟨_, hget⟩ := List.getElem?_eq_some_iff.mp (hk.slot_now hx hpos hat)
    rw [← hget, List.set_getElem_self]
  refine hk.step h k' e hx hin hpos hi hat (by rw [htook.st]) (fun c => ?_) (by rw [htook.st, hsame])
    (fun hc => absurd hc hnc) (fun _ => rfl) fun b _ _ j _ => by rw [htook.st]
  rw [htook.used]
  exact or_congr_left ⟨fun hc => ⟨hc, hnc⟩, And.left⟩

-- The slot of a directory that is too deep is deleted.
theorem Passing.drop (hro : g.ro = false) (hcut : Cut g s ⟨x, i⟩) (n : Nat) :
    Passing g s own { (fsckWrite g (dirAt g k.st (own o)) i (deleted e) k).2 with fixDirs := n } (update pos x (i + 1)) ∧
      dirAt g (fsckWrite g (dirAt g k.st (own o)) i (deleted e) k).2.st (own o) =
        (fsckWrite g (dirAt g k.st (own o)) i (deleted e) k).1 := by
  have hnow := hk.slot_now hx hpos hat
  obtain ⟨hslot, hused, hget⟩ := fsckWrite_spec (k := k) hro (Proper.of_chain (h.books.chain o))
    (List.getElem?_eq_some_iff.mp hnow).1 (deleted e)
  have hset := congrArg Dir.e hslot.now
  rw [hslot.dir] at hset
  refine ⟨hk.step h _ (deleted e) hx hin hpos hi hat hget (fun c => ?_) hset (fun _ => rfl) (fun hc => absurd hcut hc)
    hslot.blk, hslot.now⟩
  have hc := congrFun hused c
  exact ⟨fun hu => .inr (hc.symm.trans hu), fun hor => hor.elim (fun hu => absurd hcut hu.2) fun hu => hc.trans hu⟩

end Slot

section Slots

variable (hro : g.ro = false) (h : Consistent g (vol g s) own) {sub : Option (Nat → Fsck → Fsck)}
  (hnone : sub = none → d = 65) (hsome : ∀ f, sub = some f → d < 65 ∧ Passes g s own (d + 1) f)
include hro h hnone hsome

theorem fsckSlots_passing (es : List De) (hk : Passing g s own k pos) (hd : (vol g s).Depth g d x)
    (hx : DirOwner g (vol g s) own x o) (hin : ∀ p, o = .entry p → p.idx < pos p.dclus) (hpos : pos x = i)
    (hes : es = (dirAt g s (own o)).e.drop i) :
    ∃ pos', Passing g s own (fsckSlots g sub es i (dirAt g k.st (own o)) k) pos' ∧ Onward g s x pos pos' ∧
      pos' x = span g s x := by
  have hspan : span g s x = ((dirAt g s (own o)).e.takeWhile inUse).length := by rw [span, h.slots_owner hx]
  have hb := hk.bound x
  induction es generalizing i k pos with
  | nil =>
    refine ⟨pos, hk, .refl, ?_⟩
    have hlen : (dirAt g s (own o)).e.length ≤ i := drop_eq_nil_iff.mp hes.symm
    have hle : ((dirAt g s (own o)).e.takeWhile inUse).length ≤ (dirAt g s (own o)).e.length :=
      (takeWhile_sublist _).length_le
    omega
  | cons e es ih =>
  obtain ⟨hat, hrest⟩ := cons_eq_drop hes
  obtain ⟨hthere, hend⟩ := takeWhile_at (p := inUse) (by omega) hat
  -- the slot is dealt with, and the walk goes on
  have hgo : ∀ {k' pos1}, Passing g s own k' pos1 → Onward g s x pos pos1 → pos1 x = i + 1 → ∃ pos',
      Passing g s own (fsckSlots g sub es (i + 1) (dirAt g k'.st (own o)) k') pos' ∧ Onward g s x pos pos' ∧
        pos' x = span g s x := by
    intro k' pos1 hk' hon hx1
    obtain ⟨pos', hk'', hon', hfull⟩ := ih hk' (fun p hp => Nat.lt_of_lt_of_le (hin p hp) (hon.mono _)) hx1 hrest
      (hk'.bound x)
    exact ⟨pos', hk'', hon.trans h hx hin hon' hk''.bound, hfull⟩
  have hfresh := hk.fresh h hpos
  have hent := h.ent_slot hx hat
  unfold fsckSlots
  split
  · rename_i hz
    refine ⟨pos, hk, .refl, ?_⟩
    rw [hpos, hspan]
    exact (hend (by simp [inUse, hz])).symm
  rename_i hz
  have hi : i < span g s x := by
    rw [hspan]
    exact (hthere (by simpa [inUse] using hz)).2
  split
  · rename_i hlive
    have hdead : live e = false := by simpa using hlive
    rw [if_neg (by simp [hdead])] at hent
    have hnc : ¬Cut g s ⟨x, i⟩ := by
      rintro ⟨_, f, hf, _⟩
      rw [hent] at hf
      cases hf
    have hnil : own (.entry ⟨x, i⟩) = [] := (h.none ⟨x, i⟩).resolve_left fun hne => hne.2 hent
    have htook : Took k k (own (.entry ⟨x, i⟩)) := ⟨rfl, by simp [hnil]⟩
    exact hgo (hk.take h hx hin hpos hi hat hnc htook) (.one h hx hpos hat fun hl => by rw [hdead] at hl; cases hl)
      (update_self _ _ _)
  rename_i hlive
  have hlive : live e = true := by simpa using hlive
  rw [if_pos hlive] at hent
  have hreach := h.dirOwner_reach hx
  split
  · rename_i hdir
    split
    · rename_i f
      obtain ⟨hlt, hpass⟩ := hsome f rfl
      obtain ⟨hchild, hv⟩ := h.child_owner (p := ⟨x, i⟩) hreach hent hdir
      have hnc : ¬Cut g s ⟨x, i⟩ := fun hc => by
        have := h.depth_unique hd hc.1
        omega
      have hmem : deStart g e ∈ own (.entry ⟨x, i⟩) := by
        rw [hchild.head]
        refine Consistent.headD_mem ?_
        rw [← hchild.head]
        have h2 := (valid_iff.mp hv).1
        omega
      rw [if_neg (by
        have hv : valid g (deStart g e) = true := hv
        simp [hv, hfresh _ hmem])]
      have htook : Took k (claimDir g (deStart g e) k) (own (.entry ⟨x, i⟩)) := by
        rw [hchild.head]
        exact claimDir_took (by rw [hk.get]; exact h.books.chain _) hfresh
      obtain ⟨pos1, hk1, hon1, hx1, hdirs⟩ := hk.below h hd hx hin hpos hent hdir hnc hpass
        (hk.take h hx hin hpos hi hat hnc htook)
      have hnext := hgo hk1 hon1 hx1
      rw [hdirs] at hnext
      exact hnext
    · have hcut : Cut g s ⟨x, i⟩ := ⟨hnone rfl ▸ hd, e, hent, hdir⟩
      obtain ⟨hpass, hdirs⟩ := hk.drop h hx hin hpos hi hat hro hcut (k.fixDirs + 1)
      have hnext := hgo hpass (.one h hx hpos hat fun _ _ => hcut) (update_self _ _ _)
      dsimp only at hnext
      rw [hdirs] at hnext
      exact hnext
  rename_i hdir
  have hnc : ¬Cut g s ⟨x, i⟩ := by
    rintro ⟨_, f, hf, hfd⟩
    obtain rfl := some.inj (hent.symm.trans hf)
    exact hdir hfd
  obtain ⟨hstart, hfits⟩ := h.entry ⟨x, i⟩ e hreach hent
  rw [if_neg hdir] at hfits
  obtain ⟨hD, htook⟩ := fsckFile_took (k := k) ⟨by rw [hk.get]; exact h.books.chain _, hstart, hfits⟩ hfresh
    (dirAt g k.st (own o)) i
  have hnext := hgo (hk.take h hx hin hpos hi hat hnc htook) (.one h hx hpos hat fun _ hd' => absurd hd' hdir)
    (update_self _ _ _)
  rw [htook.st] at hnext
  dsimp only
  rw [hD]
  exact hnext

theorem fsckTree_passes : Passes g s own d (fsckTree g sub) := by
  intro k pos c o hk hd hc hin hpos
  have hchain : (rows g).Chain (fatGet g (claimDir g c k).st) (own o) := by
    rw [hk.get]
    exact h.books.chain o
  have hload := dirLoad_eq hchain (length_le_maxClus hc.len) (h.nil_small hc)
  rw [← hc.head] at hload
  have he : (dirAt g (claimDir g c k).st (own o)).e = (dirAt g s (own o)).e :=
    ext_getElem? fun j => hk.kept c o j hc fun hlt => by omega
  unfold fsckTree
  dsimp only
  rw [hload]
  dsimp only
  rw [he]
  exact fsckSlots_passing hro h hnone hsome _ hk hd hc hin hpos (drop_zero).symm

end Slots

theorem fsckDir_passes (hro : g.ro = false) (h : Consistent g (vol g s) own) (n : Nat) (hd : d + n = 65) :
    Passes g s own d (fsckDir g n) := by
  induction n generalizing d with
  | zero => exact fsckTree_passes hro h (fun _ => hd) fun _ hf => by cases hf
  | succ n ih =>
    refine fsckTree_passes hro h (fun hf => by cases hf) fun f hf => ?_
    obtain rfl := some.inj hf
    exact ⟨by omega, ih (by omega)⟩

theorem lt_length_takeWhile {α : Type} {p : α → Bool} {xs : List α} (hi : i < xs.length)
    (hp : ∀ j ≤ i, ∀ a, xs[j]? = some a → p a = true) : i < (xs.takeWhile p).length := by
  induction xs generalizing i with
  | nil => exact absurd hi (Nat.not_lt_zero _)
  | cons a xs ih =>
  rw [takeWhile_cons, if_pos (hp 0 (Nat.zero_le i) a rfl), length_cons]
  cases i with
  | zero => exact Nat.succ_pos _
  | succ i =>
    refine Nat.succ_lt_succ (ih (Nat.lt_of_succ_lt_succ hi) fun j hj b hb => hp (j + 1) (Nat.succ_le_succ hj) b ?_)
    rwa [getElem?_cons_succ]

theorem Consistent.lt_span (h : Consistent g (vol g s) own) {p : Loc} (hp : (vol g s).Reach g p.dclus)
    (he : (vol g s).ent p = some e) : p.idx < span g s p.dclus := by
  obtain ⟨hat, hlive⟩ := filter_eq_some_iff.mp he
  have huse : lead e.name ≠ 0 := by
    intro hz
    simp [live, hz] at hlive
  refine lt_length_takeWhile (List.getElem?_eq_some_iff.mp hat).1 fun j hj f hf => ?_
  rw [inUse, decide_eq_true_eq]
  rcases Nat.lt_or_eq_of_le hj with hlt | rfl
  · exact fun hz => huse (h.ended _ hp j p.idx f e hlt hf hat hz)
  · obtain rfl := some.inj (hf.symm.trans hat)
    exact huse

theorem fsckWalk_passes (hro : g.ro = false) (h : Consistent g (vol g s) own) : ∃ pos, Passing g s own (fsckWalk g s) pos ∧
    ∀ n d, n ≤ 65 → (vol g s).Depth g n d → pos d = span g s d := by
  have hroot : DirOwner g (vol g s) own (rootClus g) .root := ⟨h.root.1, h.root.2, .inl ⟨rfl, rfl⟩⟩
  have hclaim : Took ⟨s, fun _ => false, 0, 0⟩ (claimDir g (rootClus g) ⟨s, fun _ => false, 0, 0⟩) (own .root) := by
    rw [hroot.head]
    exact claimDir_took (h.books.chain _) fun _ _ => rfl
  have hk : Passing g s own (claimDir g (rootClus g) ⟨s, fun _ => false, 0, 0⟩) fun _ => 0 := by
    refine ⟨by rw [hclaim.st], fun c => ?_, fun y o i _ _ => by rw [hclaim.st], fun _ _ _ _ hlt => absurd hlt (Nat.not_lt_zero _),
      fun b _ _ j _ => by rw [hclaim.st], fun _ => Nat.zero_le _, fun _ _ _ hlt => absurd hlt (Nat.lt_irrefl 0)⟩
    rw [hclaim.used]
    constructor
    · rintro (hc | hc)
      · exact ⟨.root, .inl rfl, hc⟩
      · cases hc
    rintro ⟨o, rfl | ⟨_, _, hlt, _⟩, hc⟩
    · exact .inl hc
    · exact absurd hlt (Nat.not_lt_zero _)
  obtain ⟨pos, hpass, hon, hfull⟩ := fsckDir_passes hro h 65 rfl hk .root hroot (fun _ hp => by cases hp) rfl
  refine ⟨pos, hpass, fun n d hn hd => ?_⟩
  induction hd with
  | root => exact hfull
  | @step n y _ hy hedge ih =>
  obtain ⟨i, e, he, hdir, rfl⟩ := hedge
  have hreach := hy.reach
  refine hon.full y i e hreach (Nat.zero_le i) ?_ he hdir fun hc => ?_
  · rw [ih (by omega)]
    exact h.lt_span (p := ⟨y, i⟩) hreach he
  · have := h.depth_unique hy hc.1
    omega

-- What the repair has to leave as it is: the directories, the rows of the chains that are
-- reached from them, and what is in the files.
structure Untouched (g : Geom) (s : St) (own : Owner → List Nat) (t : St) : Prop where
  listing : ∀ d, (vol g s).Reach g d → slots g t d = slots g s d
  rows : ∀ o, o ≠ .new → ∀ c ∈ own o, fatGet g t c = fatGet g s c
  contents : ∀ p e, (vol g s).Reach g p.dclus → (vol g s).ent p = some e → e.isDir = false →
    ∀ c ∈ own (.entry p), ∀ j < g.cs, t.dev (clusOff g c + j) = s.dev (clusOff g c + j)

theorem fsck_blk (hro : g.ro = false) (s : St) (b : Nat) : SameBlk g (fsckWalk g s).st (fsck g s).2 b := fun _ _ =>
  (fsck_get hro s).2 _ (Nat.le_trans (rootOff_le_blkOff b) (Nat.le_add_right _ _))

theorem Vol.Depth.above {v : Vol} {m : Nat} (hd : v.Depth g n d) (hm : m ≤ n) : ∃ y, v.Depth g m y := by
  induction hd with
  | root =>
    obtain rfl := Nat.le_zero.mp hm
    exact ⟨_, .root⟩
  | @step n y z hy hedge ih =>
    rcases Nat.lt_or_eq_of_le hm with hlt | rfl
    · exact ih (Nat.le_of_lt_succ hlt)
    · exact ⟨z, .step hy hedge⟩

theorem Passing.untouched (hro : g.ro = false) (h : Consistent g (vol g s) own) (hk : Passing g s own (fsckWalk g s) pos)
    (hfull : ∀ n d, n ≤ 65 → (vol g s).Depth g n d → pos d = span g s d) (hshallow : ∀ n d, (vol g s).Depth g n d → n ≤ 65) :
    Untouched g s own (fsck g s).2 := by
  have hnc : ∀ p, ¬Cut g s p := by
    rintro p ⟨hd, e, he, hdir⟩
    have := hshallow _ _ (.step hd ⟨p.idx, e, he, hdir, rfl⟩)
    omega
  -- every chain has been claimed
  have hused : ∀ o, o ≠ .new → ∀ c ∈ own o, (fsckWalk g s).used c = true := by
    intro o hnew c hc
    refine (hk.used c).mpr ⟨o, ?_, hc⟩
    cases o with
    | root => exact .inl rfl
    | new => exact absurd rfl hnew
    | entry p =>
    rcases h.none p with ⟨hp, hne⟩ | hnil
    · obtain ⟨e, he⟩ := ne_none_iff_exists'.mp hne
      obtain ⟨n, hn⟩ := Vol.Depth.of_reach hp
      refine .inr ⟨p, rfl, ?_, hnc p⟩
      rw [hfull n _ (hshallow n _ hn) hn]
      exact h.lt_span hp he
    · rw [hnil] at hc
      cases hc
  have hrows : ∀ o, o ≠ .new → ∀ c ∈ own o, fatGet g (fsck g s).2 c = fatGet g s c := fun o hnew c hc =>
    (fsck_used hro s (hused o hnew c hc)).trans (congrFun hk.get c)
  refine ⟨fun d hd => ?_, hrows, fun p e hp he hdir c hc j hj => ?_⟩
  · obtain ⟨o, ho⟩ := h.dirOwner hd
    have hproper := Proper.of_chain (h.books.chain o)
    have hnow : (dirAt g (fsckWalk g s).st (own o)).e = (dirAt g s (own o)).e :=
      ext_getElem? fun i => hk.kept d o i ho fun hc => hnc _ hc.2
    have hslots := slots_eq ((h.books.chain o).congr (hrows o ho.ne_new)) ho.len (h.nil_small ho)
    rw [← ho.head, dirAt_congr hproper fun b _ => fsck_blk hro s b] at hslots
    rw [hslots, hnow, h.slots_owner ho]
  have h2 := (valid_iff.mp (h.valid_of_mem hc)).1
  have hout : ∀ y o, DirOwner g (vol g s) own y o → c ∉ dirBlocks (own o) := by
    intro y o hy hmem
    unfold dirBlocks at hmem
    split at hmem
    · have := mem_singleton.mp hmem
      omega
    obtain rfl := h.books.disjoint hc hmem
    rcases hy.kind with ⟨hr, _⟩ | ⟨q, f, hq, _, hf, hfd, _⟩
    · cases hr
    obtain rfl := Owner.entry.inj hq
    obtain rfl := some.inj (he.symm.trans hf)
    rw [hdir] at hfd
    cases hfd
  have hblk := ((hk.data c (.inr h2) hout).trans (fsck_blk hro s c)) j
  simp only [blkLen, blkOff, if_neg (show c ≠ 0 by omega)] at hblk
  exact hblk hj

theorem Passing.shallow (hro : g.ro = false) (h : Consistent g (vol g s) own)
    (hk : Passing g s own (fsckWalk g s) pos) (hfull : ∀ n d, n ≤ 65 → (vol g s).Depth g n d → pos d = span g s d)
    (hun : Untouched g s own (fsck g s).2) (hd : (vol g s).Depth g n d) : n ≤ 65 := by
  by_contra hdeep
  obtain ⟨z, hz⟩ := hd.above (show 66 ≤ n by omega)
  cases hz with
  | @step _ y _ hy hedge =>
  obtain ⟨i, e, he, hdir, rfl⟩ := hedge
  have hreach := hy.reach
  obtain ⟨o, ho⟩ := h.dirOwner hreach
  have hproper := Proper.of_chain (h.books.chain o)
  have hlt : i < pos y := by
    rw [hfull 65 y (Nat.le_refl _) hy]
    exact h.lt_span (p := ⟨y, i⟩) hreach he
  have hlost := hk.lost y o i ho hlt ⟨hy, e, he, hdir⟩
  rw [h.ent_eq ho] at he
  obtain ⟨hat, hlive⟩ := filter_eq_some_iff.mp he
  have hslots := slots_eq ((h.books.chain o).congr (hun.rows o ho.ne_new)) ho.len (h.nil_small ho)
  rw [← ho.head, dirAt_congr hproper fun b _ => fsck_blk hro s b, hun.listing y hreach, h.slots_owner ho] at hslots
  rw [← hslots, hat, map_some] at hlost
  have hsunk : live (deleted e) = false := by simp [live, deleted]
  rw [← some.inj hlost, hlive] at hsunk
  cases hsunk

-- A repair leaves a consistent volume alone exactly if no directory is more than 65 levels
-- below the root.
theorem fsck_keeps_iff (hro : g.ro = false) (h : Consistent g (vol g s) own) :
    Untouched g s own (fsck g s).2 ↔ ∀ n d, (vol g s).Depth g n d → n ≤ 65 := by
  obtain ⟨pos, hk, hfull⟩ := fsckWalk_passes hro h
  exact ⟨fun hun n d hd => hk.shallow hro h hfull hun hd, hk.untouched hro h hfull⟩

theorem fsck_keeps_tower : Untouched wide (tower 3) (towerOwn 3) (fsck wide (tower 3)).2 := by
  refine (fsck_keeps_iff rfl (tower_consistent (by decide))).mpr fun m d hd => ?_
  exact Nat.le_trans (tower_depth_le (by decide) hd) (by decide)

theorem fsck_cuts_deep_tree : Consistent wide (vol wide (tower 66)) (towerOwn 66) ∧
    (vol wide (tower 66)).Depth wide 66 67 ∧ ¬Untouched wide (tower 66) (towerOwn 66) (fsck wide (tower 66)).2 := by
  have h := tower_consistent (n := 66) (by decide)
  have hd := tower_depth (n := 66) (by decide) (m := 65) (by decide)
  obtain ⟨pos, hk, hfull⟩ := fsckWalk_passes (g := wide) rfl h
  refine ⟨h, hd, fun hun => ?_⟩
  have := hk.shallow rfl h hfull hun hd
  omega

end Olux.Fat
