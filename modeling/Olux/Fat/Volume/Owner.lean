import Olux.Fat.Volume.Slots

namespace Olux.Fat

open Olux.Lib Relation

variable {g : Geom} {s : St} {own : Owner → List Nat} {x d : Nat} {o : Owner} {e : De}

theorem DirOwner.ne_new {v : Vol} (hx : DirOwner g v own x o) : o ≠ .new := by
  rintro rfl
  rcases hx.kind with ⟨hr, _⟩ | ⟨_, _, hp, _⟩
  · cases hr
  · cases hp

namespace Consistent

variable (h : Consistent g (vol g s) own)
include h

theorem blocks_apart {y : Nat} {o' : Owner} (hx : DirOwner g (vol g s) own x o) (hy : DirOwner g (vol g s) own y o')
    (hne : x ≠ y) {b : Nat} (hb : b ∈ dirBlocks (own o)) : b ∉ dirBlocks (own o') := by
  intro hb'
  unfold dirBlocks at hb hb'
  split at hb
  · rename_i hz
    obtain rfl := List.mem_singleton.mp hb
    split at hb'
    · rename_i hz'
      exact hne (by rw [hx.head, hy.head, hz, hz'])
    · have h2 := (valid_iff.mp (h.valid_of_mem hb')).1
      omega
  have h2 := (valid_iff.mp (h.valid_of_mem hb)).1
  split at hb'
  · have := List.mem_singleton.mp hb'
    omega
  · obtain rfl := h.books.disjoint hb hb'
    exact hne (hx.head.trans hy.head.symm)

theorem ent_eq (hx : DirOwner g (vol g s) own x o) (i : Nat) :
    (vol g s).ent ⟨x, i⟩ = ((dirAt g s (own o)).e[i]?).filter live := by
  unfold Vol.ent
  rw [show (vol g s).slots x = slots g s x from rfl, h.slots_owner hx]

theorem dirOwner_reach (hx : DirOwner g (vol g s) own x o) : (vol g s).Reach g x := by
  rcases hx.kind with ⟨_, rfl⟩ | ⟨p, e, rfl, hp, he, hdir, _⟩
  · exact .refl
  · refine hp.tail ⟨p.idx, e, he, hdir, ?_⟩
    rw [(h.entry p e hp he).1, hx.head]

theorem child_owner {p : Loc} (hp : (vol g s).Reach g p.dclus) (he : (vol g s).ent p = some e) (hdir : e.isDir = true) :
    DirOwner g (vol g s) own (deStart g e) (.entry p) ∧ valid g (deStart g e) := by
  obtain ⟨hstart, hfits⟩ := h.entry p e hp he
  rw [if_pos hdir] at hfits
  refine ⟨⟨hstart, hfits.2, .inr ⟨p, e, rfl, hp, he, hdir, hfits.1⟩⟩, ?_⟩
  obtain ⟨a, m, ham⟩ := List.exists_cons_of_ne_nil hfits.1
  rw [hstart, ham]
  exact h.valid_of_mem (o := .entry p) (by simp [ham])

theorem root_not_child {y : Nat} (hy : (vol g s).Reach g y) : ¬(vol g s).Edge g y (rootClus g) := by
  rintro ⟨i, e, he, hdir, hst⟩
  have ho := (h.child_owner (p := ⟨y, i⟩) hy he hdir).1
  rw [hst] at ho
  cases h.dirOwner_unique ho ⟨h.root.1, h.root.2, .inl ⟨rfl, rfl⟩⟩

theorem parent_unique {y y' : Nat} (hy : (vol g s).Reach g y) (hy' : (vol g s).Reach g y') (hd : (vol g s).Edge g y d)
    (hd' : (vol g s).Edge g y' d) : y = y' := by
  obtain ⟨i, e, he, hdir, rfl⟩ := hd
  obtain ⟨i', e', he', hdir', hst⟩ := hd'
  have ho := (h.child_owner (p := ⟨y, i⟩) hy he hdir).1
  have ho' := (h.child_owner (p := ⟨y', i'⟩) hy' he' hdir').1
  rw [hst] at ho'
  exact (Loc.mk.inj (Owner.entry.inj (h.dirOwner_unique ho ho'))).1

theorem depth_unique {n m : Nat} (hn : (vol g s).Depth g n d) (hm : (vol g s).Depth g m d) : n = m := by
  induction hn generalizing m with
  | root =>
    generalize hr : rootClus g = r at hm
    cases hm with
    | root => rfl
    | step hy hedge => exact absurd (hr ▸ hedge) (h.root_not_child hy.reach)
  | @step n y z hy hedge ih =>
  cases hm with
  | root => exact absurd hedge (h.root_not_child hy.reach)
  | @step m y' _ hy' hedge' =>
  obtain rfl := h.parent_unique hy.reach hy'.reach hedge hedge'
  rw [ih hy']

end Consistent

theorem Vol.Depth.of_reach {v : Vol} (hd : v.Reach g d) : ∃ n, v.Depth g n d := by
  induction hd with
  | refl => exact ⟨0, .root⟩
  | tail _ hedge ih =>
    obtain ⟨n, hn⟩ := ih
    exact ⟨n + 1, .step hn hedge⟩

theorem Consistent.owner_ne (h : Consistent g (vol g s) own) (hx : DirOwner g (vol g s) own x o) (i : Nat) :
    o ≠ .entry ⟨x, i⟩ := by
  rintro rfl
  obtain ⟨n, hn⟩ := Vol.Depth.of_reach (h.dirOwner_reach hx)
  rcases hx.kind with ⟨hr, _⟩ | ⟨p, e, hp, hreach, he, hdir, _⟩
  · cases hr
  obtain rfl := Owner.entry.inj hp
  have hst : deStart g e = x := (h.entry _ e hreach he).1.trans hx.head.symm
  have := h.depth_unique hn (.step hn ⟨i, e, he, hdir, hst⟩)
  omega

end Olux.Fat
