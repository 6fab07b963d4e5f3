import Olux.Fat.Move.Slots

namespace Olux.Fat

open Olux.Lib Relation List Option

variable {g : Geom} {s t u : St} {own : Owner → List Nat} {l l' m freed : List Nat} {d x j i y : Nat} {o : Owner}
  {e f : De} {D : Dir} {a : Ent} {es : List De} {p : Loc}

theorem Ended.markDeleted (h : Ended D.e) (ha : Lists D a) : Ended (markDeleted D.e a.first a.idx) := by
  obtain ⟨_, e, he, hlive, _⟩ := ha
  intro i j f f' hij hf hf' hz
  rw [markDeleted_get] at hf hf'
  split at hf
  · obtain ⟨b, _, rfl⟩ := map_eq_some_iff.mp hf
    simp [deleted] at hz
  split at hf'
  · rename_i hin
    have hend := h i a.idx f e (by omega) hf he hz
    exact absurd (Free.not_live (.inl hend)) (by simp [hlive])
  · exact h i j f f' hij hf hf' hz

theorem Lists.markDeleted {b : Ent} (ha : Lists D a) (hb : Lists D b) (hne : a.idx ≠ b.idx) :
    Lists { D with e := markDeleted D.e a.first a.idx } b := by
  obtain ⟨_, e, he, hlive, hlong⟩ := ha
  obtain ⟨hfirst, f, hf, hlive', hlong'⟩ := hb
  have hkeep : ∀ j, b.first ≤ j → j ≤ b.idx → (Fat.markDeleted D.e a.first a.idx)[j]? = D.e[j]? := by
    intro j hj hj'
    rw [markDeleted_get, if_neg]
    rintro ⟨h1, h2⟩
    rcases Nat.lt_or_gt_of_ne hne with hlt | hlt
    · obtain ⟨x, hx, hl⟩ := hlong' a.idx (by omega) hlt
      obtain rfl := some.inj (he.symm.trans hx)
      rw [hl.not_live] at hlive
      cases hlive
    obtain ⟨x, hx, hl⟩ := hlong b.idx (by omega) hlt
    obtain rfl := some.inj (hf.symm.trans hx)
    rw [hl.not_live] at hlive'
    cases hlive'
  refine ⟨hfirst, f, (hkeep _ hfirst (Nat.le_refl _)).trans hf, hlive', fun j hj hlt => ?_⟩
  obtain ⟨x, hx, hl⟩ := hlong' j hj hlt
  exact ⟨x, (hkeep j hj (Nat.le_of_lt hlt)).trans hx, hl⟩

theorem Lists.keep {D' : Dir} (h : Lists D a)
    (hkeep : ∀ (j : Nat) f, D.e[j]? = some f → ¬Free f → D'.e[j]? = some f) : Lists D' a := by
  obtain ⟨hfirst, e, he, hlive, hlong⟩ := h
  refine ⟨hfirst, e, hkeep _ e he (not_free_of_live hlive), hlive, fun j hj hlt => ?_⟩
  obtain ⟨f, hf, hl⟩ := hlong j hj hlt
  exact ⟨f, hkeep j f hf hl.not_free, hl⟩

theorem Edit.refl (h : Consistent g (vol g s) own) (hs : Server g s) (ho : DirOwner g (vol g s) own d o) :
    Edit g s s (own o) (own o) [] :=
  ⟨h.books.chain o, hs, ho.len, prefix_refl _, id, fun _ _ _ _ => rfl, fun _ hc hno => absurd hc hno,
    fun _ _ _ _ _ _ => rfl⟩

def Spared (g : Geom) (s t : St) (own : Owner → List Nat) (x d : Nat) (gone : Option Loc) (l' : List Nat) : Prop :=
  ∀ z q, DirOwner g (vol g s) own z q → z ≠ d → z ≠ x → (∀ p, gone = some p → q ≠ .entry p) →
    At g t (own q) (dirAt g s (own q)).e ∧ Separate l' (own q)

structure Shifted (g : Geom) (s : St) (own : Owner → List Nat) (x : Nat) (ox : Owner) (d : Nat) (o : Owner)
    (i nidx : Nat) (e' : De) (gone : Option Loc) (l' : List Nat) (t : St) : Prop where
  head : l'.headD 0 = d
  root : l' = [] → g.type ≠ .fat32
  new : ∃ es, At g t l' es ∧ ∀ j, liveAt es j = if j = nidx then some e' else
    if (x = d ∧ j = i) ∨ gone = some ⟨d, j⟩ then none else liveAt (dirAt g s (own o)).e j
  old : x ≠ d → ∃ es, At g t (own ox) es ∧ ∀ j, liveAt es j = if j = i then none else liveAt (dirAt g s (own ox)).e j
  other : ∀ y q, DirOwner g (vol g s) own y q → y ≠ d → y ≠ x → (∀ p, gone = some p → q ≠ .entry p) →
    ∃ es, At g t (own q) es ∧ ∀ j, liveAt es j = liveAt (dirAt g s (own q)).e j

theorem Edit.head (h : Edit g s t l l' freed) : l'.headD 0 = l.headD 0 := by
  cases hl : l with
  | nil => rw [h.root hl]
  | cons a m =>
    obtain ⟨tl, htl⟩ := h.pre
    rw [← htl, hl]
    rfl

section Steps

variable {ox : Owner} {src : Ent} {gone : Option Loc} {sdir : Bool} {nidx : Nat} {e' : De} {w v : St}

theorem Shifted.same (h : Shifted g s own x ox d o i nidx e' gone l' t) (hfat : u.fat = t.fat)
    (hdev : ∀ y, g.rootOff ≤ y → u.dev y = t.dev y) : Shifted g s own x ox d o i nidx e' gone l' u := by
  refine ⟨h.head, h.root, ?_, fun hne => ?_, fun y q hq hyd hyx hg => ?_⟩
  · obtain ⟨es, hat, hes⟩ := h.new
    exact ⟨es, hat.same hfat hdev, hes⟩
  · obtain ⟨es, hat, hes⟩ := h.old hne
    exact ⟨es, hat.same hfat hdev, hes⟩
  · obtain ⟨es, hat, hes⟩ := h.other y q hq hyd hyx hg
    exact ⟨es, hat.same hfat hdev, hes⟩

theorem Spared.same (h : Spared g s t own x d gone l') (hfat : u.fat = t.fat)
    (hdev : ∀ y, g.rootOff ≤ y → u.dev y = t.dev y) : Spared g s u own x d gone l' := by
  intro z q hq hzd hzx hg
  obtain ⟨hat, hsep⟩ := h z q hq hzd hzx hg
  exact ⟨hat.same hfat hdev, hsep⟩

theorem live_dotdot (h : f.name = DOTDOT) : live f = false := by
  simp [live, isDot, h, DOTDOT]

theorem deStart_dotdot (h : Consistent g (vol g s) own) (hd : DirOwner g (vol g s) own d o) (f : De) :
    deStart g (deSetStart g f (dotdotStart g d)) = dotdotStart g d := by
  unfold dotdotStart
  split
  · exact deStart_zero f
  rename_i hne
  rcases hd.kind with ⟨_, hr⟩ | ⟨p, e, rfl, hp, he, hdir, _⟩
  · exact absurd hr hne
  obtain ⟨_, hv⟩ := h.child_owner hp he hdir
  rw [(h.entry p e hp he).1, ← hd.head] at hv
  exact deStart_deSetStart hv f

theorem Shifted.dotdot (hro : g.ro = false) (h : Consistent g (vol g s) own) (hdot : Dotted g (vol g s))
    (ho : DirOwner g (vol g s) own d o) (hox : DirOwner g (vol g s) own x ox) (he : (vol g s).ent ⟨x, i⟩ = some e)
    (hdir : e.isDir = true) (hde : d ≠ deStart g e) (hgone : ∀ p, gone = some p → p ≠ ⟨x, i⟩)
    (hsh : Shifted g s own x ox d o i nidx e' gone l' t) (hs : Server g t) (hother : Spared g s t own x d gone l') :
    ∃ u, setDotdot g (deStart g e) d t = (.ok (), u) ∧ Shifted g s own x ox d o i nidx e' gone l' u ∧
      ∃ es f, At g u (own (.entry ⟨x, i⟩)) es ∧ es[1]? = some f ∧ f.name = DOTDOT ∧ deStart g f = dotdotStart g d := by
  have hreach := h.dirOwner_reach hox
  obtain ⟨hc, hv⟩ := h.child_owner (p := ⟨x, i⟩) hreach he hdir
  have hcx : deStart g e ≠ x := by
    intro heq
    exact h.owner_ne (heq ▸ hc) i rfl
  obtain ⟨hat, hsep⟩ := hother _ _ hc (Ne.symm hde) hcx fun p hp heq => hgone p hp (Owner.entry.inj heq).symm
  have hne : own (.entry ⟨x, i⟩) ≠ [] := by
    intro hnil
    have hz := hc.head
    rw [hnil, headD_nil] at hz
    have := (valid_iff.mp hv).1
    omega
  obtain ⟨f, hf, hname, hfdir, hfst⟩ := hdot x (deStart g e) hreach ⟨i, e, he, hdir, rfl⟩
  rw [show (vol g s).slots (deStart g e) = (dirAt g s (own (.entry ⟨x, i⟩))).e from h.slots_owner hc, ← hat.slots] at hf
  obtain ⟨u, hrun, hedit, hset⟩ := setDotdot_edit hro hat.chain hne hs hat.len hf hname d
  rw [← hc.head] at hrun
  have hatu : At g u (own (.entry ⟨x, i⟩)) _ := ⟨hedit.chain, hedit.len, hset⟩
  refine ⟨u, hrun, ⟨hsh.head, hsh.root, ?_, fun hn => ?_, fun z q hq hzd hzx hg => ?_⟩, _,
    deSetStart g f (dotdotStart g d), hatu, List.getElem?_set_self (List.getElem?_eq_some_iff.mp hf).1, hname, deStart_dotdot h ho f⟩
  · obtain ⟨es, hnew, hes⟩ := hsh.new
    exact ⟨es, hnew.keep hedit hsep.symm, hes⟩
  · obtain ⟨es, hold, hes⟩ := hsh.old hn
    exact ⟨es, hold.keep hedit (h.separate hc hox hcx), hes⟩
  by_cases hzc : z = deStart g e
  · obtain rfl := h.dirOwner_unique (hzc ▸ hq) hc
    refine ⟨_, hatu, fun j => ?_⟩
    rw [liveAt_set hf (live_dotdot hname) (live_dotdot (f := deSetStart g f _) hname), hat.slots]
  · exact ⟨_, (hother z q hq hzd hzx hg).1.keep hedit (h.separate hc hq (Ne.symm hzc)), fun _ => rfl⟩

end Steps

end Olux.Fat
