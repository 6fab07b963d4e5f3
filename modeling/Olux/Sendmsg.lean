import Olux.Kmalloc
import Olux.Lib.Word

namespace Olux.Sendmsg

open Olux.Lib

def SOL_SOCKET : Int := 1
def SCM_RIGHTS : Int := 1
def SCM_CREDENTIALS : Int := 2
def SCM_MAX_FD : Int := 253

structure Ucmsg where
  len : Nat
  level : Int
  type : Int

-- What the call works on: user memory (unmapped bytes are `none`), the control
-- fields of the message header, the files that `fget` finds, and whether each
-- successive kernel allocation succeeds.
structure Env where
  mem : Nat → Option UInt8
  control : Nat
  controllen : Nat
  controllen_lt : controllen < 2 ^ 32
  fget : Int → Option Nat
  allocOk : Nat → Bool

def accessOk (addr size : Nat) : Bool := addr ≤ USER_VA_END && size ≤ USER_VA_END - addr

variable (e : Env)

def Env.copyFromUser (addr n : Nat) : Option (List UInt8) :=
  if accessOk (addr % 2 ^ 64) n then
    (List.range n).mapM fun i => e.mem (addr % 2 ^ 64 + i)
  else none

def leNat : List UInt8 → Nat
  | [] => 0
  | b :: rest => b.toNat + 256 * leNat rest

def Env.ucmsgAt (off : Nat) : Option Ucmsg :=
  (e.copyFromUser (e.control + off) 16).map fun b =>
    { len := leNat (b.take 8) % 2 ^ 64
      level := narrowInt (leNat ((b.drop 8).take 4))
      type := narrowInt (leNat (b.drop 12)) }

def Env.ufdAt (off : Nat) : Option Int :=
  (e.copyFromUser (e.control + off) 4).map fun b => narrowInt (leNat b)

def CMSG_ALIGN (n : Nat) : Nat := (n + 7) % 2 ^ 64 / 8 * 8

inductive Block where
  | null
  | bytes (size : Nat)
  | hang

-- `kmalloc`, with `ok` saying whether a slab object or page run of the right size is left.
def kmalloc (size : Nat) (ok : Bool) : Block :=
  if size = 0 then .null
  else if (Kmalloc.sizeClass size).isSome then if ok then .bytes size else .null
  else match Kmalloc.orderFor size with
    | none => .hang
    | some order => if order < MAX_ORDER ∧ ok then .bytes size else .null

-- A use of the file-pointer array: entries copied over from the old array, or one
-- store, with the number of elements the current array was allocated for.
inductive Access where
  | copy (count : Int) (elems : Nat)
  | store (index : Int) (elems : Nat)

structure Parse where
  off : Nat := 0
  nfds : Int := 0
  r : Int := 0
  iter : Nat := 0
  hung : Bool := false
  accepted : List (Nat × Nat) := []
  accesses : List Access := []

def takeFds (e : Env) (base elems : Nat) : Nat → Nat → Parse → Parse
  | _, 0, s => s
  | i, n + 1, s =>
    match e.ufdAt (base + i * 4) with
    | none => { s with r := -EFAULT }
    | some ufd =>
      match e.fget ufd with
      | none => { s with r := -EBADF }
      | some _ => takeFds e base elems (i + 1) n
          { s with nfds := s.nfds + 1, accesses := s.accesses ++ [.store s.nfds elems] }

def rights (c : Ucmsg) (s : Parse) : Parse :=
  let n := narrowInt ((c.len - 16) / 4)
  if SCM_MAX_FD < n + s.nfds then { s with r := -EINVAL }
  else
    let size := (8 * (s.nfds + n + 1) % 2 ^ 64).toNat
    match kmalloc size (e.allocOk s.iter) with
    | .hang => { s with hung := true }
    | .null => { s with r := -ENOMEM }
    | .bytes b =>
      let moved := if s.nfds ≠ 0 then s.accesses ++ [.copy s.nfds (b / 8)] else s.accesses
      takeFds e (s.off + 16) (b / 8) 0 n.toNat { s with accesses := moved }

def message (c : Ucmsg) (s : Parse) : Parse :=
  if c.level = SOL_SOCKET ∧ c.type = SCM_RIGHTS then rights e c s
  else if c.level = SOL_SOCKET ∧ c.type = SCM_CREDENTIALS then s
  else { s with r := -EINVAL }

def Parse.Done (s : Parse) : Prop :=
  s.r ≠ 0 ∨ e.control = 0 ∨ e.controllen < (s.off + 16) % 2 ^ 64

instance (e : Env) (s : Parse) : Decidable (s.Done e) :=
  inferInstanceAs (Decidable (_ ∨ _ ∨ _))

def step (s : Parse) : Parse :=
  if s.Done e ∨ s.hung then s
  else match e.ucmsgAt s.off with
    | none => { s with r := -EFAULT }
    | some c =>
      if c.len < 16 ∨ e.controllen < (s.off + c.len) % 2 ^ 64 then { s with r := -EINVAL }
      else
        let s' := message e c { s with accepted := s.accepted ++ [(s.off, c.len)] }
        { s' with off := (s.off + CMSG_ALIGN c.len) % 2 ^ 64, iter := s.iter + 1 }

def run (e : Env) : Nat → Parse
  | 0 => {}
  | k + 1 => step e (run e k)

end Olux.Sendmsg
