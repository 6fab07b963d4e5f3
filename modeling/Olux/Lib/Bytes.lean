import Mathlib

namespace Olux.Lib

def leField (b : List UInt8) (off : Nat) : Nat → Nat
  | 0 => 0
  | n + 1 => (b.getD off 0).toNat + 256 * leField b (off + 1) n

def leBytes (v : Nat) : Nat → List UInt8
  | 0 => []
  | n + 1 => UInt8.ofNat v :: leBytes (v / 256) n

@[simp] theorem leBytes_length (v n : Nat) : (leBytes v n).length = n := by
  induction n generalizing v with
  | zero => rfl
  | succ n ih => simp [leBytes, ih]

theorem leField_append (a b : List UInt8) (off n : Nat) : leField (a ++ b) (a.length + off) n = leField b off n := by
  induction n generalizing off with
  | zero => rfl
  | succ n ih =>
    simp only [leField]
    rw [List.getD_append_right a b 0 _ (by omega), Nat.add_sub_cancel_left, Nat.add_assoc, ih]

theorem leField_leBytes (v n : Nat) (rest : List UInt8) : leField (leBytes v n ++ rest) 0 n = v % 256 ^ n := by
  induction n generalizing v with
  | zero => simp [leField, Nat.mod_one]
  | succ n ih =>
  have hshift := leField_append [UInt8.ofNat v] (leBytes (v / 256) n ++ rest) 0 n
  simp only [leField, leBytes, List.cons_append, List.getD_cons_zero]
  simp only [List.singleton_append, List.length_singleton, Nat.add_zero] at hshift
  rw [Nat.zero_add, hshift, ih, Nat.pow_succ, Nat.mul_comm (256 ^ n) 256, Nat.mod_mul]
  simp [UInt8.toNat_ofNat']

end Olux.Lib
