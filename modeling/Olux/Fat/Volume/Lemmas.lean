import Olux.Fat.Volume

namespace Olux.Fat

open Olux.Lib Relation

variable {g : Geom} {v v' : Vol} {own : Owner → List Nat} {p q : Loc} {e e' : De} {o : Owner} {d d' : Nat} {l' : List Nat}

structure DirOwner (g : Geom) (v : Vol) (own : Owner → List Nat) (d : Nat) (o : Owner) : Prop where
  head : d = (own o).headD 0
  len : (own o).length * per g ≤ MAX_DIR_ENTRIES
  kind : o = .root ∧ d = rootClus g ∨
    ∃ p e, o = .entry p ∧ v.Reach g p.dclus ∧ v.ent p = some e ∧ e.isDir ∧ own o ≠ []

theorem Vol.Depth.reach {n : Nat} (hd : v.Depth g n d) : v.Reach g d := by
  induction hd with
  | root => exact .refl
  | step _ hedge ih => exact ih.tail hedge

namespace Consistent

theorem dirOwner (h : Consistent g v own) (hd : v.Reach g d) : ∃ o, DirOwner g v own d o := by
  cases hd with
  | refl => exact ⟨.root, h.root.1, h.root.2, .inl ⟨rfl, rfl⟩⟩
  | @tail d' _ hd' hedge =>
    obtain ⟨i, e, he, hdir, rfl⟩ := hedge
    obtain ⟨hstart, hfits⟩ := h.entry ⟨d', i⟩ e hd' he
    rw [if_pos hdir] at hfits
    exact ⟨.entry ⟨d', i⟩, hstart, hfits.2, .inr ⟨_, e, rfl, hd', he, hdir, hfits.1⟩⟩

theorem valid_of_mem (h : Consistent g v own) {c : Nat} (hc : c ∈ own o) : valid g c := (h.books.chain o).valid hc

theorem headD_eq_zero (h : Consistent g v own) (hz : (own o).headD 0 = 0) : own o = [] := by
  cases hl : own o with
  | nil => rfl
  | cons a l =>
    have ha : a ∈ own o := by simp [hl]
    have h2 := (valid_iff.mp (h.valid_of_mem ha)).1
    simp [hl] at hz
    omega

theorem headD_mem (hz : (own o).headD 0 ≠ 0) : (own o).headD 0 ∈ own o := by
  cases hl : own o with
  | nil => simp [hl] at hz
  | cons a l => simp

theorem dirOwner_unique (h : Consistent g v own) {o' : Owner} (ho : DirOwner g v own d o) (ho' : DirOwner g v own d o') :
    o = o' := by
  by_cases hz : d = 0
  · have hnil : ∀ {o}, DirOwner g v own d o → o = .root := by
      intro o ho
      rcases ho.kind with ⟨rfl, _⟩ | ⟨_, _, _, _, _, _, hne⟩
      · rfl
      · exact absurd (h.headD_eq_zero (ho.head.symm.trans hz)) hne
    rw [hnil ho, hnil ho']
  have hmem := headD_mem (ho.head ▸ hz)
  have hmem' := headD_mem (ho'.head ▸ hz)
  rw [← ho.head] at hmem
  rw [← ho'.head] at hmem'
  exact h.books.disjoint hmem hmem'

end Consistent

end Olux.Fat
