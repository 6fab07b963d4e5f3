import Olux.Vm.Layout

namespace Olux.Vm

open Olux.Lib

-- The address spaces by number, and the memory they share.
structure Kernel where
  frame : Nat → Frame
  mms : Nat → Option Mm
  next : Nat
  panicked : Bool

variable (k : Kernel)

def Kernel.space (mm : Mm) (u : Supply) : Space :=
  { frame := k.frame, mm := mm, supply := u, panicked := k.panicked }

def Kernel.commit (i : Nat) (mm : Option Mm) (s : Space) : Kernel :=
  { k with frame := s.frame, mms := Function.update k.mms i mm, panicked := s.panicked }

def Kernel.enter (mm : Mm) : Kernel :=
  { k with mms := Function.update k.mms k.next (some mm), next := k.next + 1 }

def Pte.writable (e : Pte) : Bool := e.valid && !e.rdonly

def Space.store (s : Space) (va : Nat) (b : UInt8) : Space :=
  let p := (s.mm.pte va).frame
  s.setFrame p { s.frame p with data := Function.update (s.frame p).data (va % PAGE_SIZE) b }

def userWrite (s : Space) (va : Nat) (b : UInt8) : Space :=
  if USER_VA_END ≤ va then s
  else if (s.mm.pte va).writable then s.store va b
  else
    match handleMmFault s va true false with
    | (r, s) => if r = 0 ∧ (s.mm.pte va).writable then s.store va b else s

def Space.load (s : Space) (va : Nat) : Option UInt8 :=
  if USER_VA_END ≤ va then none
  else if (s.mm.pte va).valid then some ((s.frame (s.mm.pte va).frame).data (va % PAGE_SIZE))
  else none

def userRead (s : Space) (va : Nat) : Option UInt8 × Space :=
  if (s.load va).isSome then (s.load va, s)
  else
    match handleMmFault s va false false with
    | (r, s) => if r = 0 then (s.load va, s) else (none, s)

inductive Op where
  | create
  | dup (i : Nat)
  | get (i : Nat)
  | put (i : Nat)
  | call (i : Nat) (c : Call)
  -- what exec does to a new address space
  | map (i start stop : Nat) (flags : VmFlags) (file : Option Nat) (off bytes : Nat)
  | setBrk (i brk : Nat)
  | write (i : Nat) (va : UInt64) (b : UInt8)
  | read (i : Nat) (va : UInt64)

def Kernel.on (i : Nat) (u : Supply) (f : Space → Space) : Kernel :=
  match k.mms i with
  | none => k
  | some mm => k.commit i (some (f (k.space mm u)).mm) (f (k.space mm u))

def step (u : Supply) : Op → Kernel
  | .create =>
    match mmCreate u with
    | (none, _) => k
    | (some mm, _) => k.enter mm
  | .dup i =>
    match k.mms i with
    | none => k
    | some mm =>
      match mmDup (k.space mm u) with
      | (none, s) => k.commit i (some s.mm) s
      | (some child, s) => (k.commit i (some s.mm) s).enter child
  | .get i => k.on i u fun s => { s with mm := { s.mm with refcount := s.mm.refcount + 1 } }
  | .put i =>
    match k.mms i with
    | none => k
    | some mm =>
      match mmPut (k.space mm u) with
      | (rest, s) => k.commit i rest s
  | .call i c => k.on i u fun s => (c.run s).2
  | .map i start stop flags file off bytes => k.on i u fun s => (mapVma s start stop flags file off bytes).2
  | .setBrk i brk => k.on i u fun s => { s with mm := { s.mm with brkStart := brk, brk := brk } }
  | .write i va b => k.on i u fun s => userWrite s va.toNat b
  | .read i va => k.on i u fun s => (userRead s va.toNat).2

def Op.InRange : Op → Prop
  | .call i c => ∀ mm, k.mms i = some mm → c.Fits mm
  | .map i start stop _ _ _ _ => ∀ mm, k.mms i = some mm → start < stop ∧ stop ≤ USER_VA_END ∧ PAGE_SIZE ∣ start ∧
      PAGE_SIZE ∣ stop ∧ ∀ v ∈ mm.vmas, v.stop ≤ start ∨ stop ≤ v.start
  | .setBrk _ brk => brk ≤ USER_VA_END
  | _ => True

def bootKernel (data : Nat → Nat → UInt8) : Kernel :=
  { frame := fun p => { free := true, refcount := 0, data := data p }
    mms := fun _ => none
    next := 0
    panicked := false }

inductive Kernel.Reach : Kernel → Prop where
  | boot (data : Nat → Nat → UInt8) : Reach (bootKernel data)
  | step {k : Kernel} (h : Reach k) (u : Supply) (op : Op) (hr : op.InRange k) : Reach (step k u op)

end Olux.Vm
