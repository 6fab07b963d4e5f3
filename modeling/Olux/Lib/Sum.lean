import Mathlib

namespace Olux.Lib

open List Option

theorem sum_change {ι : Type*} [DecidableEq ι] {s : Finset ι} {x : ι} (hx : x ∈ s) (f g : ι → Nat)
    (h : ∀ y ∈ s, y ≠ x → f y = g y) : ∑ y ∈ s, f y + g x = ∑ y ∈ s, g y + f x := by
  have hrest : ∑ y ∈ s.erase x, f y = ∑ y ∈ s.erase x, g y :=
    Finset.sum_congr rfl fun y hy => h y (Finset.mem_of_mem_erase hy) (Finset.ne_of_mem_erase hy)
  have hf := Finset.add_sum_erase s f hx
  have hg := Finset.add_sum_erase s g hx
  omega

theorem countP_change {α : Type*} {l : List α} {x : α} (hl : l.Nodup) (hx : x ∈ l) (f g : α → Bool)
    (h : ∀ y ∈ l, y ≠ x → f y = g y) : l.countP f + (g x).toNat = l.countP g + (f x).toNat := by
  induction l with
  | nil => cases hx
  | cons a l ih =>
  obtain ⟨ha, hl'⟩ := nodup_cons.mp hl
  rw [countP_cons, countP_cons]
  rcases mem_cons.mp hx with rfl | hx'
  · have hrest : l.countP f = l.countP g := countP_congr fun y hy => by
      rw [h y (mem_cons_of_mem _ hy) (ne_of_mem_of_not_mem hy ha)]
    rw [hrest]
    cases f x <;> cases g x <;> rfl
  have hax : a ≠ x := (ne_of_mem_of_not_mem hx' ha).symm
  have hstep := ih hl' hx' fun y hy => h y (mem_cons_of_mem _ hy)
  rw [h a mem_cons_self hax]
  omega

theorem sum_map_set {α : Type*} {l : List α} {i : Nat} {a b : α} (h : l[i]? = some a) (f : α → Nat) :
    ((l.set i b).map f).sum + f a = (l.map f).sum + f b := by
  induction l generalizing i with
  | nil => cases h
  | cons c l ih =>
  cases i with
  | zero =>
    obtain rfl := some.inj h
    rw [set_cons_zero, map_cons, map_cons, sum_cons, sum_cons]
    omega
  | succ i =>
    have hrest := ih (i := i) h
    rw [set_cons_succ, map_cons, map_cons, sum_cons, sum_cons]
    omega

theorem getElem?_set_cases {α : Type*} {l : List α} {i j : Nat} {a b : α} (h : (l.set i a)[j]? = some b) :
    j = i ∧ b = a ∨ j ≠ i ∧ l[j]? = some b := by
  by_cases hj : i = j
  · subst hj
    rw [getElem?_set_self'] at h
    obtain ⟨_, _, rfl⟩ := map_eq_some_iff.mp h
    exact .inl ⟨rfl, rfl⟩
  · rw [getElem?_set_ne hj] at h
    exact .inr ⟨Ne.symm hj, h⟩

end Olux.Lib
