import Olux.Fat.Fsck
import Olux.Fat.Tree

namespace Olux.Fat

open Olux.Lib

variable (g : Geom)

def freeRows (s : St) : Nat := ((List.range g.nclus).map (· + 2)).countP fun c => decide (fatGet g s c = 0)

-- `fat_open` once the geometry is accepted and the table is read; `hint` is what the FSInfo
-- sector has for the next free cluster.
def fatOpen (hint : Nat) (s : St) : St :=
  { s with
    freeCount := freeRows g s
    nextFree := if g.type = .fat32 ∧ valid g hint then hint else 2 }

def cleanBit : Nat :=
  match g.type with
  | .fat32 => 0x08000000
  | .fat16 => 0x8000
  | .fat12 => 0

def cleanWord (s : St) : Nat :=
  match g.type with
  | .fat32 => le32 s.fat 4
  | _ => fatGet g s 1

def setBit (clean : Bool) (v bit : Nat) : Nat := if clean then v ||| bit else v - (v &&& bit)

def setClean (clean : Bool) (s : St) : St :=
  if cleanBit g = 0 ∨ g.ro then s
  else
    let off := if g.type = .fat32 then 0x41 else 0x25
    let flag := s.dev off
    let s := commit (putBytes s.dev off [if clean then flag &&& 0xFE else flag ||| 1]) s
    let v := setBit clean (cleanWord g s) (cleanBit g)
    if g.type = .fat32 then markDirty g 4 4 { s with fat := putBytes s.fat 4 (bytes4 v) }
    else fatSet g 1 v s

def Unclean (s : St) : Prop := cleanBit g ≠ 0 ∧ cleanWord g s &&& cleanBit g = 0

instance (s : St) : Decidable (Unclean g s) := inferInstanceAs (Decidable (_ ∧ _))

def main (hint : Nat) (s : St) : St :=
  let s := fatOpen g hint s
  if g.ro then s
  else
    let s := if Unclean g s then (fsck g s).2 else s
    (fatFlush g (setClean g false s)).2

inductive Request where
  | lookup (dino : Nat) (name : List UInt8)
  | read (ino off len : Nat)
  | write (ino off : Nat) (buf : List UInt8)
  | create (dino : Nat) (name : List UInt8) (mode : UInt32)
  | mkdir (dino : Nat) (name : List UInt8)
  | unlink (dino : Nat) (name : List UInt8)
  | rmdir (dino : Nat) (name : List UInt8)
  | rename (odino : Nat) (oname : List UInt8) (ndino : Nat) (nname : List UInt8)
  | setattr (ino : Nat) (q : Req)
  | sync

def serve (s : St) : Request → St
  | .lookup dino name => (opLookup g dino name s).2
  | .read ino off len => (opRead g ino off len s).2
  | .write ino off buf => (opWrite g ino off buf s).2
  | .create dino name mode => (opCreate g dino name mode s).2
  | .mkdir dino name => (opMkdir g dino name s).2
  | .unlink dino name => (opUnlink g dino name s).2
  | .rmdir dino name => (opRmdir g dino name s).2
  | .rename odino oname ndino nname => (opRename g odino oname ndino nname s).2
  | .setattr ino q => (opSetattr g ino q s).2
  | .sync => if g.ro then s else (fatFlush g s).2

end Olux.Fat
