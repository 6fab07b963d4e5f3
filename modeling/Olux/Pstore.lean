import Olux.Basic

namespace Olux.Pstore

open Function List Option

def PSTORE_MAGIC : BitVec 32 := 0x504c584f
def PSTORE_RUNNING : BitVec 32 := 1
def PSTORE_RESTART : BitVec 32 := 2
def PSTORE_POWEROFF : BitVec 32 := 3

structure Region where
  magic : BitVec 32
  size : BitVec 32
  head : BitVec 64
  state : BitVec 32
  boot : BitVec 32
  csum : BitVec 32
  data : Nat → UInt8

def csum (h : Region) : BitVec 32 :=
  h.magic ^^^ h.size ^^^ h.head.setWidth 32 ^^^ (h.head >>> 32).setWidth 32 ^^^ h.state ^^^ h.boot ^^^ 0x5a5a5a5a

inductive Call where
  | write (s : List UInt8)
  | setState (st : BitVec 32)

def Call.text : Call → List UInt8
  | .write s => s
  | .setState _ => []

def writeBytes (dsize : Nat) : Nat → List UInt8 → (Nat → UInt8) → Nat → UInt8
  | _, [], data => data
  | head, b :: s, data => writeBytes dsize (head + 1) s (Function.update data (head % 2 ^ 64 % dsize) b)

-- The region after `k` stores of a call: the bytes, then the head or the state, then the checksum.
def stores (h : Region) : Call → Nat → Region
  | .write s, k =>
    let h' := { h with data := writeBytes h.size.toNat h.head.toNat (s.take k) h.data }
    if k ≤ s.length then h'
    else
      let h' := { h' with head := h.head + BitVec.ofNat 64 s.length }
      if k = s.length + 1 then h' else { h' with csum := csum h' }
  | .setState st, k =>
    if (st = PSTORE_RESTART ∨ st = PSTORE_POWEROFF) ∧ h.state ≠ PSTORE_RUNNING ∨ k = 0 then h
    else
      let h' := { h with state := st }
      if k = 1 then h' else { h' with csum := csum h' }

def call (h : Region) (c : Call) : Region := stores h c (c.text.length + 2)

def run (h : Region) (cs : List Call) : Region := cs.foldl call h

def fresh (dsize boot : BitVec 32) (data : Nat → UInt8) : Region :=
  let h : Region := ⟨PSTORE_MAGIC, dsize, 0, PSTORE_RUNNING, boot, 0, data⟩
  { h with csum := csum h }

def InRing (n : Nat) (text : List UInt8) (data : Nat → UInt8) : Prop :=
  ∀ p b, text[p]? = some b → text.length ≤ p + n → data (p % n) = b

variable {n : Nat} {text s : List UInt8} {h : Region} {dsize : BitVec 32} {data : Nat → UInt8}

theorem InRing.push (hr : InRing n text data) (b : UInt8) :
    InRing n (text ++ [b]) (Function.update data (text.length % n) b) := by
  intro p b' hb hlen
  rw [length_append, length_singleton] at hlen
  rcases Nat.lt_trichotomy p text.length with hlt | rfl | hgt
  · have hne : p % n ≠ text.length % n := fun heq => by
      have hmod := Nat.sub_mod_eq_zero_of_mod_eq heq.symm
      rw [Nat.mod_eq_of_lt (by omega)] at hmod
      omega
    rw [getElem?_append_left hlt] at hb
    rw [update_of_ne hne]
    exact hr p b' hb (by omega)
  · rw [getElem?_concat_length] at hb
    rw [update_self]
    exact some.inj hb
  · rw [getElem?_eq_none (by rw [length_append, length_singleton]; omega)] at hb
    cases hb

theorem InRing.write (hr : InRing n text data) (hlen : text.length + s.length ≤ 2 ^ 64) :
    InRing n (text ++ s) (writeBytes n text.length s data) := by
  induction s generalizing text data with
  | nil => rwa [append_nil]
  | cons b s ih =>
    rw [length_cons] at hlen
    have hpush := ih (hr.push b) (by rw [length_append, length_singleton]; omega)
    rw [append_assoc, length_append] at hpush
    rwa [writeBytes, Nat.mod_eq_of_lt (show text.length < 2 ^ 64 by omega)]

end Olux.Pstore
