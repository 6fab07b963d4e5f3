import Olux.Fat.Move.Shift

namespace Olux.Fat

open Olux.Lib Relation List Option

variable {g : Geom} {s t u : St} {own : Owner → List Nat} {l l' m freed : List Nat} {d x j i y : Nat} {o : Owner}
  {e f : De} {D : Dir} {a : Ent} {es : List De} {p : Loc}

-- The directory `d` is `n` levels below `x`.
inductive Vol.Below (g : Geom) (v : Vol) (x : Nat) : Nat → Nat → Prop
  | refl : v.Below g x 0 x
  | step {n d c : Nat} : v.Below g x n d → v.Edge g d c → v.Below g x (n + 1) c

namespace Vol.Below

variable {v : Vol} {n k : Nat}

theorem reach (hb : v.Below g x n d) : ReflTransGen (v.Edge g) x d := by
  induction hb with
  | refl => exact .refl
  | step _ hedge ih => exact ih.tail hedge

theorem of_reach (hd : ReflTransGen (v.Edge g) x d) : ∃ n, v.Below g x n d := by
  induction hd with
  | refl => exact ⟨0, .refl⟩
  | tail _ hedge ih =>
    obtain ⟨n, hn⟩ := ih
    exact ⟨n + 1, .step hn hedge⟩

theorem depth (hb : v.Below g x n d) (hx : v.Depth g k x) : v.Depth g (k + n) d := by
  induction hb with
  | refl => exact hx
  | step _ hedge ih => exact .step ih hedge

end Vol.Below

namespace Consistent

variable {n k : Nat} (h : Consistent g (vol g s) own)
include h

theorem below_ne_root (hy : (vol g s).Reach g y) (hedge : (vol g s).Edge g y x) (hb : (vol g s).Below g x n d) :
    d ≠ rootClus g := by
  rintro rfl
  cases hb with
  | refl => exact h.root_not_child hy hedge
  | step hb hlast => exact h.root_not_child ((hy.tail hedge).trans hb.reach) hlast

section Climb

variable (hdot : Dotted g (vol g s)) (hy : (vol g s).Reach g y)
include hdot hy

-- One turn of the climb: from a directory to its parent.
theorem dirWithinLoop_succ {c : Nat} (hedge : (vol g s).Edge g y c) (outer : Nat) : dirWithinLoop g outer s (k + 1) c =
    (decide (c = outer) || dirWithinLoop g outer s k (dotdotStart g y)) := by
  obtain ⟨f, hf, hname, _, hst⟩ := hdot y c hy hedge
  have hroot : c ≠ rootClus g := fun heq => h.root_not_child hy (heq ▸ hedge)
  obtain ⟨i, e, he, hdir, rfl⟩ := hedge
  obtain ⟨ho, hv⟩ := h.child_owner (p := ⟨y, i⟩) hy he hdir
  rw [show (vol g s).slots (deStart g e) = _ from h.slots_owner ho] at hf
  have hload : dirLoad g (deStart g e) s = .ok (dirAt g s (own (.entry ⟨y, i⟩))) := by
    rw [ho.head]
    exact dirLoad_eq (h.books.chain _) (length_le_maxClus ho.len) (h.nil_small ho)
  have hgetD : (dirAt g s (own (.entry ⟨y, i⟩))).e.getD 1 De.zero = f := by
    rw [List.getD_eq_getElem?_getD, hf, Option.getD_some]
  have hzero : deStart g e ≠ 0 := by
    have := (valid_iff.mp hv).1
    omega
  rw [dirWithinLoop, if_neg (not_or.mpr ⟨hroot, hzero⟩)]
  by_cases hout : deStart g e = outer
  · rw [if_pos hout, decide_eq_true hout, Bool.true_or]
  rw [if_neg hout, hload, decide_eq_false hout, Bool.false_or]
  dsimp only
  rw [hgetD, if_pos ⟨(List.getElem?_eq_some_iff.mp hf).1, by rw [hname]; rfl⟩, hst]

variable (hx : (vol g s).Edge g y x)
include hx

theorem dirWithinLoop_iff (hd : (vol g s).Reach g d) :
    dirWithinLoop g x s k d = true ↔ ∃ n < k, (vol g s).Below g x n d := by
  induction k generalizing d with
  | zero =>
    refine iff_of_false (by simp [dirWithinLoop]) ?_
    rintro ⟨n, hn, _⟩
    omega
  | succ k ih =>
  rcases ReflTransGen.cases_tail hd with rfl | ⟨z, hz, hedge⟩
  · refine iff_of_false (by simp [dirWithinLoop]) ?_
    rintro ⟨n, _, hb⟩
    exact h.below_ne_root hy hx hb rfl
  have hup : dirWithinLoop g x s k (dotdotStart g z) = true ↔ ∃ n < k, (vol g s).Below g x n z := by
    unfold dotdotStart
    split
    · rename_i hroot
      refine iff_of_false ?_ ?_
      · cases k with
        | zero => simp [dirWithinLoop]
        | succ k => simp [dirWithinLoop]
      · rintro ⟨n, _, hb⟩
        exact h.below_ne_root hy hx hb hroot
    · exact ih hz
  rw [h.dirWithinLoop_succ hdot hz hedge, Bool.or_eq_true, decide_eq_true_eq, hup]
  constructor
  · rintro (rfl | ⟨n, hn, hb⟩)
    · exact ⟨0, Nat.succ_pos k, .refl⟩
    · exact ⟨n + 1, Nat.succ_lt_succ hn, .step hb hedge⟩
  rintro ⟨n, hn, hb⟩
  cases hb with
  | refl => exact .inl rfl
  | step hb hlast =>
    obtain rfl := h.parent_unique hz ((hy.tail hx).trans hb.reach) hedge hlast
    exact .inr ⟨_, Nat.lt_of_succ_lt_succ hn, hb⟩

-- `dir_within` finds the moved directory exactly if it is less than 256 levels up.
theorem dirWithin_iff (hd : (vol g s).Reach g d) : dirWithin g d x s = true ↔ ∃ n < 256, (vol g s).Below g x n d :=
  h.dirWithinLoop_iff hdot hy hx hd

theorem deep (hd : (vol g s).Reach g d) (hout : (!decide (y = d) && dirWithin g d x s) = false)
    (hb : (vol g s).Below g x n d) : 256 ≤ n := by
  by_contra hn
  have hin := (h.dirWithin_iff hdot hy hx hd).mpr ⟨n, by omega, hb⟩
  by_cases hyd : y = d
  · obtain ⟨k, hk⟩ := Vol.Depth.of_reach hy
    have heq := h.depth_unique hk (hyd ▸ hb.depth (.step hk hx))
    omega
  simp [hyd, hin] at hout

end Climb

end Consistent

structure Moved (g : Geom) (s t : St) (own : Owner → List Nat) (r : Renamed) (e e' : De) : Prop where
  src : (vol g s).ent r.src = some e
  reach : (vol g s).Reach g r.src.dclus ∧ (vol g s).Reach g r.dst.dclus
  like : ∃ sn ntres, e' = { e with name := sn, ntres := ntres }
  fresh : r.gone = some r.dst ∨ (vol g s).ent r.dst = none
  gone : ∀ p, r.gone = some p → p ≠ r.src ∧ p.dclus = r.dst.dclus ∧ ∃ x, (vol g s).ent p = some x ∧ x.isDir = e.isDir ∧
    (x.isDir = true → ∀ j, (vol g s).ent ⟨deStart g x, j⟩ = none)
  ents : ∀ y j, (vol g s).Reach g y → (∀ p, r.gone = some p → ¬DirOwner g (vol g s) own y (.entry p)) →
    (vol g t).ent ⟨y, j⟩ = if ⟨y, j⟩ = r.dst then some e' else if ⟨y, j⟩ = r.src ∨ r.gone = some ⟨y, j⟩ then none
      else (vol g s).ent ⟨y, j⟩
  deep : e.isDir = true → ∀ n, (vol g s).Below g (deStart g e) n r.dst.dclus → 256 ≤ n
  dotdot : e.isDir = true → ∃ f, (slots g t (deStart g e))[1]? = some f ∧ f.name = DOTDOT ∧
    deStart g f = dotdotStart g r.dst.dclus

theorem Moved.congr {r : Renamed} {e' : De} (hvol : vol g u = vol g s) (hm : Moved g u t own r e e') :
    Moved g s t own r e e' :=
  ⟨hvol ▸ hm.src, hvol ▸ hm.reach, hm.like, hvol ▸ hm.fresh, hvol ▸ hm.gone, hvol ▸ hm.ents, hvol ▸ hm.deep, hm.dotdot⟩

theorem Shifted.moved {ox : Owner} {nidx : Nat} {e' : De} {gone : Option Loc} (h : Consistent g (vol g s) own)
    (ho : DirOwner g (vol g s) own d o) (hox : DirOwner g (vol g s) own x ox) (he : (vol g s).ent ⟨x, i⟩ = some e)
    (hlike : ∃ sn ntres, e' = { e with name := sn, ntres := ntres })
    (hfresh : gone = some ⟨d, nidx⟩ ∨ (vol g s).ent ⟨d, nidx⟩ = none)
    (hgone : ∀ p, gone = some p → p ≠ ⟨x, i⟩ ∧ p.dclus = d ∧ ∃ y, (vol g s).ent p = some y ∧ y.isDir = e.isDir ∧
      (y.isDir = true → ∀ j, (vol g s).ent ⟨deStart g y, j⟩ = none))
    (hdeep : e.isDir = true → ∀ n, (vol g s).Below g (deStart g e) n d → 256 ≤ n)
    (hdot : e.isDir = true → ∃ f, (slots g t (deStart g e))[1]? = some f ∧ f.name = DOTDOT ∧
      deStart g f = dotdotStart g d)
    (hsh : Shifted g s own x ox d o i nidx e' gone l' t) : Moved g s t own ⟨⟨x, i⟩, ⟨d, nidx⟩, gone⟩ e e' := by
  refine ⟨he, ⟨h.dirOwner_reach hox, h.dirOwner_reach ho⟩, hlike, hfresh, hgone, fun y j hy hng => ?_, hdeep, hdot⟩
  obtain ⟨q, hq⟩ := h.dirOwner hy
  have hent : ∀ {z} {o' : Owner}, DirOwner g (vol g s) own z o' →
      (vol g s).ent ⟨z, j⟩ = liveAt (dirAt g s (own o')).e j :=
    fun ho' => h.ent_eq ho' j
  simp only [Loc.mk.injEq]
  by_cases hyd : y = d
  · subst hyd
    obtain ⟨es, hat, hes⟩ := hsh.new
    have ht := hat.ent hsh.root j
    rw [hsh.head] at ht
    rw [ht, hes, ← hent ho]
    simp [eq_comm]
  by_cases hyx : y = x
  · subst hyx
    obtain ⟨es, hat, hes⟩ := hsh.old hyd
    have ht := hat.ent (h.nil_small hox) j
    rw [← hox.head] at ht
    have hno : gone ≠ some ⟨y, j⟩ := fun hg => hyd (hgone _ hg).2.1
    rw [ht, hes, ← hent hox]
    simp [hyd, hno]
  obtain ⟨es, hat, hes⟩ := hsh.other y q hq hyd hyx fun p hp heq => hng p hp (heq ▸ hq)
  have ht := hat.ent (h.nil_small hq) j
  rw [← hq.head] at ht
  have hno : gone ≠ some ⟨y, j⟩ := fun hg => hyd (hgone _ hg).2.1
  rw [ht, hes, ← hent hq]
  simp [hyd, hyx, hno]

end Olux.Fat
