import Mathlib

namespace Olux.Lib

open List Option

variable {α : Type*} {next next' : α → Option α} {fin fin' : α → Prop} {a : α} {l : List α}

-- The list that starts with `a` and goes on with `l`, in a table of successors; its last
-- element has none and is marked as an end.
def Linked (next : α → Option α) (fin : α → Prop) : α → List α → Prop
  | a, [] => next a = none ∧ fin a
  | a, b :: l => next a = some b ∧ Linked next fin b l

def walk (next : α → Option α) : Nat → α → Option α
  | 0, a => some a
  | n + 1, a => (next a).bind (walk next n)

theorem walk_extend {b : α} {n : Nat} (h : walk next n a = some b)
    (hkeep : ∀ c, next c ≠ none → next' c = next c) : walk next' n a = some b := by
  induction n generalizing a with
  | zero => exact h
  | succ n ih =>
    simp only [walk] at h ⊢
    obtain ⟨c, hc, hn⟩ := bind_eq_some_iff.mp h
    rw [hkeep a (by simp [hc]), hc]
    exact ih hn

theorem Linked.unique {l' : List α} (h : Linked next fin a l) (h' : Linked next fin' a l') : l = l' := by
  induction l generalizing a l' with
  | nil =>
    cases l' with
    | nil => rfl
    | cons b l' => exact absurd (h.1.symm.trans h'.1) (by simp)
  | cons b l ih =>
  cases l' with
  | nil => exact absurd (h.1.symm.trans h'.1) (by simp)
  | cons b' l' =>
    obtain rfl : b = b' := some.inj (h.1.symm.trans h'.1)
    rw [ih h.2 h'.2]

theorem Linked.suffix (h : Linked next fin a l) {c : α} (hc : c ∈ a :: l) :
    ∃ pre post, a :: l = pre ++ c :: post ∧ Linked next fin c post := by
  induction l generalizing a with
  | nil =>
    obtain rfl := mem_singleton.mp hc
    exact ⟨[], [], rfl, h⟩
  | cons b l ih =>
    rcases mem_cons.mp hc with rfl | hc
    · exact ⟨[], b :: l, rfl, h⟩
    · obtain ⟨pre, post, heq, hpost⟩ := ih h.2 hc
      exact ⟨a :: pre, post, by rw [heq]; rfl, hpost⟩

theorem Linked.nodup (h : Linked next fin a l) : (a :: l).Nodup := by
  induction l generalizing a with
  | nil => exact nodup_singleton a
  | cons b l ih =>
  refine nodup_cons.mpr ⟨fun hmem => ?_, ih h.2⟩
  obtain ⟨pre, post, heq, hpost⟩ := h.2.suffix hmem
  have hsame := h.unique hpost
  have hlen := congrArg List.length heq
  rw [hsame] at hlen
  simp only [length_append, length_cons] at hlen
  omega

theorem Linked.last (h : Linked next fin a l) {c : α} (hc : (a :: l).getLast? = some c) : next c = none := by
  induction l generalizing a with
  | nil =>
    obtain rfl : a = c := by simpa using hc
    exact h.1
  | cons b l ih => exact ih h.2 (by simpa using hc)

theorem Linked.congr (h : Linked next fin a l) (hnext : ∀ c ∈ a :: l, next' c = next c)
    (hfin : ∀ c ∈ a :: l, fin c → fin' c) : Linked next' fin' a l := by
  induction l generalizing a with
  | nil => exact ⟨(hnext a mem_cons_self).trans h.1, hfin a mem_cons_self h.2⟩
  | cons b l ih =>
    refine ⟨(hnext a mem_cons_self).trans h.1, ih h.2 ?_ ?_⟩
    · exact fun c hc => hnext c (mem_cons_of_mem a hc)
    · exact fun c hc => hfin c (mem_cons_of_mem a hc)

theorem Linked.snoc (h : Linked next fin a l) {c : α} (hlast : ∀ b, (a :: l).getLast? = some b → next' b = some c)
    (hkeep : ∀ d ∈ a :: l, next d ≠ none → next' d = next d) (hc : next' c = none) (hfin : fin' c) :
    Linked next' fin' a (l ++ [c]) := by
  induction l generalizing a with
  | nil => exact ⟨hlast a rfl, hc, hfin⟩
  | cons b l ih =>
  have ha : next a = some b := h.1
  refine ⟨?_, ih h.2 ?_ ?_⟩
  · rw [hkeep a mem_cons_self (by simp [ha]), ha]
  · exact fun d hd => hlast d (by simpa using hd)
  · exact fun d hd => hkeep d (mem_cons_of_mem a hd)

end Olux.Lib
