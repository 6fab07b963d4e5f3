import Olux.Userfs

namespace Olux.Userfs

open Olux.Lib

structure Rec where
  ino : Nat
  next : Nat
  type : Nat
  name : List UInt8
deriving DecidableEq

def Rec.shown (r : Rec) : List UInt8 := r.name.take UFS_NAME_MAX

def Rec.size (r : Rec) : Nat := (DIRENT_SIZE + r.shown.length + 7) / 8 * 8

def Rec.encode (r : Rec) : List UInt8 :=
  leBytes r.ino 8 ++ (leBytes r.next 8 ++ (leBytes r.size 2 ++ (leBytes r.type 1 ++ (leBytes r.shown.length 1 ++
    (r.shown ++ List.replicate (r.size - NAME_OFF - r.shown.length) 0)))))

structure Fill where
  cap : Nat
  buf : List UInt8

def filler (f : Fill) (r : Rec) : Option Fill :=
  if f.buf.length + r.size > f.cap then none else some { f with buf := f.buf ++ r.encode }

def replyBytes (err : Int) (id : Nat) (data : List UInt8) : List UInt8 :=
  leBytes (err % 2 ^ 32).toNat 4 ++ (leBytes id 4 ++ (leBytes data.length 4 ++ (List.replicate 124 0 ++ data)))

def handleReaddir (len id : Nat) (readdir : Fill → Int × Fill) : List UInt8 :=
  let (err, f) := readdir ⟨min len UFS_MAX_IO, []⟩
  replyBytes err id (if err ≠ 0 then [] else f.buf)

def fillAll (f : Fill) : List Rec → Fill
  | [] => f
  | r :: rs =>
    match filler f r with
    | none => f
    | some f => fillAll f rs

end Olux.Userfs
