import Mathlib

namespace Olux.Lib

def narrowInt (n : Nat) : Int :=
  if n % 2 ^ 32 < 2 ^ 31 then (n % 2 ^ 32 : Nat) else (n % 2 ^ 32 : Nat) - 2 ^ 32

theorem narrowInt_of_lt {n : Nat} (h : n < 2 ^ 31) : narrowInt n = n := by
  unfold narrowInt
  rw [if_pos (by omega)]
  omega

theorem toNat_narrowInt {n : Nat} (h : 0 ≤ narrowInt n) : (narrowInt n).toNat = n % 2 ^ 32 := by
  unfold narrowInt at h ⊢
  split at h <;> omega

-- `ALIGN_DOWN` and `ALIGN_UP` on 64-bit words; the sum of the latter wraps around.
def alignDown (x a : Nat) : Nat := x / a * a

def alignUp (x a : Nat) : Nat := (x + (a - 1)) % 2 ^ 64 / a * a

end Olux.Lib
