import Mathlib

namespace Olux.Lib

variable {mem mem' : Nat → Nat} {a b : Nat} {l : List Nat}

-- A list that is threaded through memory: each cell holds the address of the next one, and
-- address 0 ends it.
def Threaded (mem : Nat → Nat) : Nat → List Nat → Prop
  | a, [] => a = 0
  | a, b :: l => a = b ∧ b ≠ 0 ∧ Threaded mem (mem b) l

theorem Threaded.congr (h : Threaded mem a l) (hm : ∀ b ∈ l, mem' b = mem b) : Threaded mem' a l := by
  induction l generalizing a with
  | nil => exact h
  | cons b l ih =>
    obtain ⟨rfl, hne, hl⟩ := h
    refine ⟨rfl, hne, ?_⟩
    rw [hm a List.mem_cons_self]
    exact ih hl fun c hc => hm c (List.mem_cons_of_mem _ hc)

theorem Threaded.head_eq_zero (h : Threaded mem a l) : a = 0 ↔ l = [] := by
  cases l with
  | nil => exact iff_of_true h rfl
  | cons b l => exact iff_of_false (h.1 ▸ h.2.1) (List.cons_ne_nil _ _)

def scan (mem : Nat → Nat) (b : Nat) : Nat → Nat → Option Bool
  | 0, _ => none
  | k + 1, a => if a = 0 then some false else if a = b then some true else scan mem b k (mem a)

theorem Threaded.scan_eq (h : Threaded mem a l) {k : Nat} (hk : l.length < k) : scan mem b k a = some (decide (b ∈ l)) := by
  induction l generalizing a k with
  | nil =>
    obtain ⟨k, rfl⟩ := Nat.exists_eq_succ_of_ne_zero (Nat.ne_of_gt hk)
    rw [show a = 0 from h]
    rfl
  | cons c l ih =>
  obtain ⟨k, rfl⟩ := Nat.exists_eq_succ_of_ne_zero (Nat.ne_of_gt (Nat.zero_lt_of_lt hk))
  obtain ⟨rfl, hne, hl⟩ := h
  unfold scan
  rw [if_neg hne]
  split
  · rename_i hab
    rw [hab, decide_eq_true List.mem_cons_self]
  rename_i hab
  rw [ih hl (Nat.lt_of_succ_lt_succ hk)]
  simp [Ne.symm hab]

end Olux.Lib
