import Mathlib

namespace Olux.Lib

open List Option

-- A ring of `N` places with counters that run freely modulo `M`.
structure RingBuf (α : Type) where
  buf : Nat → α
  head : Nat
  tail : Nat

namespace RingBuf

variable {α : Type} (N M : Nat)

def used (r : RingBuf α) : Nat := (r.head + M - r.tail) % M

def contents (r : RingBuf α) : List α := (List.range (r.used M)).map fun k => r.buf ((r.tail + k) % N)

def peek (n : Nat) (r : RingBuf α) : List α := (List.range n).map fun k => r.buf (r.tail % N + k)

def advance (n : Nat) (r : RingBuf α) : RingBuf α := { r with tail := (r.tail + n) % M }

def push (xs : List α) (r : RingBuf α) : RingBuf α :=
  { r with
    buf := fun x =>
      if r.head % N ≤ x then (xs[x - r.head % N]?).getD (r.buf x) else r.buf x
    head := (r.head + xs.length) % M }

structure Ok (r : RingBuf α) : Prop where
  head : r.head < M
  tail : r.tail < M
  used : r.used M ≤ N

variable {N M} {r : RingBuf α}

@[simp] theorem length_contents : (r.contents N M).length = r.used M := by
  simp [contents]

theorem tail_add_used (h : r.Ok N M) : (r.tail + r.used M) % M = r.head := by
  have ht := h.tail
  unfold used
  rw [Nat.add_mod_mod, show r.tail + (r.head + M - r.tail) = r.head + M by omega, Nat.add_mod_right, Nat.mod_eq_of_lt h.head]

theorem used_eq {k : Nat} (ht : r.tail < M) (hk : k < M) (h : (r.tail + k) % M = r.head) : r.used M = k := by
  unfold used
  by_cases hwrap : r.tail + k < M
  · rw [← h, Nat.mod_eq_of_lt hwrap, show r.tail + k + M - r.tail = k + M by omega, Nat.add_mod_right, Nat.mod_eq_of_lt hk]
  · rw [← h, Nat.mod_eq_sub_mod (Nat.le_of_not_lt hwrap), Nat.mod_eq_of_lt (show r.tail + k - M < M by omega),
      show r.tail + k - M + M - r.tail = k by omega, Nat.mod_eq_of_lt hk]

theorem used_advance (h : r.Ok N M) {n : Nat} (hn : n ≤ r.used M) : (r.advance M n).used M = r.used M - n := by
  have hM : 0 < M := Nat.zero_lt_of_lt h.head
  have hlt : r.used M < M := Nat.mod_lt _ hM
  refine used_eq (Nat.mod_lt _ hM) (by omega) ?_
  show ((r.tail + n) % M + (r.used M - n)) % M = r.head
  rw [Nat.mod_add_mod, show r.tail + n + (r.used M - n) = r.tail + r.used M by omega, tail_add_used h]

theorem used_push (h : r.Ok N M) (hNM : N < M) {xs : List α} (hxs : r.used M + xs.length ≤ N) :
    (r.push N M xs).used M = r.used M + xs.length := by
  refine used_eq h.tail (Nat.lt_of_le_of_lt hxs hNM) ?_
  show (r.tail + (r.used M + xs.length)) % M = (r.head + xs.length) % M
  rw [← Nat.add_assoc, ← Nat.mod_add_mod, tail_add_used h]

theorem head_modEq (h : r.Ok N M) (hdvd : N ∣ M) : (r.tail + r.used M) % N = r.head % N := by
  have hN := congrArg (· % N) (tail_add_used h)
  simpa only [Nat.mod_mod_of_dvd _ hdvd] using hN

theorem contents_advance (h : r.Ok N M) (hdvd : N ∣ M) {n : Nat} (hn : n ≤ r.used M) (hend : r.tail % N + n ≤ N) :
    r.peek N n = (r.contents N M).take n ∧ (r.advance M n).contents N M = (r.contents N M).drop n ∧
      (r.advance M n).Ok N M := by
  have hu := used_advance h hn
  have hM : 0 < M := Nat.zero_lt_of_lt h.head
  refine ⟨?_, ?_, h.head, Nat.mod_lt _ hM, by rw [hu]; exact (Nat.sub_le _ _).trans h.used⟩
  · unfold peek contents
    rw [← map_take, take_range, Nat.min_eq_left hn]
    refine map_congr_left fun k hk => ?_
    have hk : k < n := mem_range.mp hk
    rw [Nat.add_mod r.tail k N, Nat.mod_eq_of_lt (show k < N by omega), Nat.mod_eq_of_lt (show r.tail % N + k < N by omega)]
  refine ext_getElem ?_ fun k h1 h2 => ?_
  · rw [length_drop, length_contents, length_contents, hu]
  · simp only [contents, getElem_drop, getElem_map, getElem_range]
    show r.buf (((r.tail + n) % M + k) % N) = r.buf ((r.tail + (n + k)) % N)
    rw [← Nat.mod_add_mod ((r.tail + n) % M) N k, Nat.mod_mod_of_dvd _ hdvd, Nat.mod_add_mod, Nat.add_assoc]

theorem contents_push (h : r.Ok N M) (hdvd : N ∣ M) (hNM : N < M) {xs : List α} (hxs : r.used M + xs.length ≤ N)
    (hend : r.head % N + xs.length ≤ N) :
    (r.push N M xs).contents N M = r.contents N M ++ xs ∧ (r.push N M xs).Ok N M := by
  have hu := used_push h hNM hxs
  have hM : 0 < M := Nat.zero_lt_of_lt h.head
  have hhead := head_modEq h hdvd
  refine ⟨?_, Nat.mod_lt _ hM, h.tail, by rw [hu]; exact hxs⟩
  refine ext_getElem ?_ fun k h1 h2 => ?_
  · rw [length_append, length_contents, length_contents, hu]
  rw [length_contents, hu] at h1
  by_cases hk : k < r.used M
  · rw [getElem_append_left (by rwa [length_contents])]
    simp only [contents, getElem_map, getElem_range]
    show (if r.head % N ≤ (r.tail + k) % N then
      (xs[(r.tail + k) % N - r.head % N]?).getD (r.buf ((r.tail + k) % N)) else r.buf ((r.tail + k) % N)) = _
    split
    · rename_i hle
      -- an old place lies behind what has been copied
      have hfar : xs.length ≤ (r.tail + k) % N - r.head % N := by
        by_contra hlt
        have hmod : (r.tail + k) % N = (r.tail + (r.used M + ((r.tail + k) % N - r.head % N))) % N := by
          rw [← Nat.add_assoc, ← Nat.mod_add_mod (r.tail + r.used M), hhead]
          rw [show r.head % N + ((r.tail + k) % N - r.head % N) = (r.tail + k) % N by omega, Nat.mod_mod]
        have heq : k ≡ r.used M + ((r.tail + k) % N - r.head % N) [MOD N] :=
          Nat.ModEq.add_left_cancel' r.tail hmod
        have := Nat.ModEq.eq_of_lt_of_lt heq (by omega) (by omega)
        omega
      rw [getElem?_eq_none hfar, getD_none]
    · rfl
  rw [getElem_append_right (by rw [length_contents]; omega)]
  simp only [contents, getElem_map, getElem_range, length_map, length_range]
  have hplace : (r.tail + k) % N = r.head % N + (k - r.used M) := by
    rw [show r.tail + k = r.tail + r.used M + (k - r.used M) by omega, ← Nat.mod_add_mod (r.tail + r.used M), hhead,
      Nat.mod_eq_of_lt (by omega)]
  show (if r.head % N ≤ (r.tail + k) % N then
    (xs[(r.tail + k) % N - r.head % N]?).getD (r.buf ((r.tail + k) % N)) else r.buf ((r.tail + k) % N)) = _
  rw [hplace, if_pos (by omega), Nat.add_sub_cancel_left, getElem?_eq_getElem (by omega), getD_some]

end RingBuf

end Olux.Lib
