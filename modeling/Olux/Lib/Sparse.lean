import Mathlib

namespace Olux.Lib

-- A byte file: zero where nothing has been written and behind its end.
@[ext] structure Sparse where
  size : Nat
  byte : Nat → UInt8
  zero : ∀ k, size ≤ k → byte k = 0

namespace Sparse

def empty : Sparse := ⟨0, fun _ => 0, fun _ _ => rfl⟩

-- `data` over the bytes from `pos` on; a hole in front of it reads as zeros.
def write (a : Sparse) (pos : Nat) (data : List UInt8) : Sparse where
  size := max a.size (pos + data.length)
  byte k := if pos ≤ k ∧ k < pos + data.length then data.getD (k - pos) 0 else a.byte k
  zero k hk := by
    rw [if_neg (by omega)]
    exact a.zero k (by omega)

def resize (a : Sparse) (n : Nat) : Sparse where
  size := n
  byte k := if k < n then a.byte k else 0
  zero k hk := if_neg (by omega)

def read (a : Sparse) (pos len : Nat) : List UInt8 :=
  (List.range (min len (a.size - pos))).map fun j => a.byte (pos + j)

theorem resize_of_le {a : Sparse} {n : Nat} (h : a.size ≤ n) (k : Nat) : (a.resize n).byte k = a.byte k := by
  show (if k < n then a.byte k else 0) = a.byte k
  split
  · rfl
  · exact (a.zero k (by omega)).symm

end Sparse

end Olux.Lib
