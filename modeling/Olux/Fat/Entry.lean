import Olux.Fat.Name

namespace Olux.Fat

open Olux.Lib

-- "$%'-_@~`!(){}^#&"
def shortSymbols : List UInt8 := [36, 37, 39, 45, 95, 64, 126, 96, 33, 40, 41, 123, 125, 94, 35, 38]

def shortCharOk (c : UInt8) : Bool :=
  isUpper c || isLower c || (48 ≤ c && c ≤ 57) || c ≥ 0x80 || shortSymbols.contains c

-- "\\/:*?\"<>|"
def forbidden : List UInt8 := [92, 47, 58, 42, 63, 34, 60, 62, 124]

def checkName (name : List UInt8) : Except Int Unit :=
  if name = [] ∨ name = [46] ∨ name = [46, 46] then .error (- EINVAL)
  else if name.length > 255 then .error (- ENAMETOOLONG)
  else if name.any fun c => c < 0x20 || forbidden.contains c then .error (- EINVAL)
  else .ok ()

def splitDot (name : List UInt8) : Option (List UInt8 × List UInt8) :=
  match name.reverse.span (· ≠ 46) with
  | (_, []) => none
  | (ext, _ :: base) => some (base.reverse, ext.reverse)

def upper (c : UInt8) : UInt8 := if isLower c then c - 32 else c

def shortName (base ext : List UInt8) : Vector UInt8 11 :=
  Vector.ofFn fun i => if i.val < 8 then base.getD i.val 32 else ext.getD (i.val - 8) 32

def mixedCase (l : List UInt8) : Bool := l.any isLower && l.any isUpper

def fits83 (name : List UInt8) : Option (Vector UInt8 11 × UInt8) :=
  let dot := splitDot name
  let base := (dot.map Prod.fst).getD name
  let ext := (dot.map Prod.snd).getD []
  if base.length < 1 ∨ base.length > 8 ∨ ext.length > 3 ∨ dot.isSome ∧ ext.length = 0 then none
  else if (base ++ ext).any fun c => c ≥ 0x80 || !shortCharOk c then none
  else if mixedCase base || mixedCase ext then none
  else
    let sn := shortName (base.map upper) (ext.map upper)
    let sn := if lead sn = 0xE5 then setLead sn 0x05 else sn
    some (sn, (if base.any isLower then 0x08 else 0) ||| (if ext.any isLower then 0x10 else 0))

def shortExists (d : Dir) (sn : Vector UInt8 11) : Bool :=
  (d.e.takeWhile fun e => lead e.name ≠ 0).any fun e => lead e.name ≠ 0xE5 && e.attr ≠ A_LFN && e.name = sn

def shortChars (dots : Bool) : Bool → List UInt8 → List UInt8
  | _, [] => []
  | skip, p :: l =>
    if skip && (p &&& 0xC0 = 0x80 : Bool) then shortChars dots true l
    else if p = 32 || (dots && (p = 46 : Bool)) then shortChars dots false l
    else (if p ≥ 0x80 || !shortCharOk p then 95 else upper p) :: shortChars dots (p ≥ 0x80) l

def tail (n : Nat) : List UInt8 := 126 :: (Nat.toDigits 10 n).map fun c => UInt8.ofNat c.toNat

def numbered (base ext : List UInt8) (n : Nat) : Vector UInt8 11 :=
  let keep := if base.length + (tail n).length > 8 then 8 - (tail n).length else base.length
  shortName (base.take keep ++ tail n) ext

def genLoop (d : Dir) (base ext : List UInt8) : Nat → Nat → Except Int (Vector UInt8 11)
  | 0, _ => .error (- EEXIST)
  | k + 1, n =>
    if !shortExists d (numbered base ext n) then .ok (numbered base ext n) else genLoop d base ext k (n + 1)

def genShort (d : Dir) (name : List UInt8) : Except Int (Vector UInt8 11) :=
  let name := name.dropWhile (· = 46)
  let dot := splitDot name
  let base := (shortChars true false ((dot.map Prod.fst).getD name)).take 6
  let ext := (shortChars false false ((dot.map Prod.snd).getD [])).take 3
  genLoop d (if base = [] then [95] else base) ext 999999 1

def lfnSlot (u : List Nat) (nl : Nat) (sum : UInt8) (k : Nat) : De :=
  let seq := nl - k
  let head := fun o => if o = 0 then UInt8.ofNat (seq + if k = 0 then 0x40 else 0)
    else if o = 11 then A_LFN else if o = 13 then sum else 0
  let ch := fun j =>
    let ci := (seq - 1) * 13 + j
    if ci < u.length then u.getD ci 0 else if ci = u.length then 0 else 0xFFFF
  De.ofBytes (lfnOff.zipIdx.foldl (fun p oj => putBytes p oj.1 (bytes2 (ch oj.2))) head) 0

def buildEntries (d : Dir) (name : List UInt8) (tmpl : De) : Except Int (List De) := do
  checkName name
  let s := { tmpl with ntres := tmpl.ntres &&& 0xE7 }
  match fits83 name with
  | some (sn, ntres) => pure [{ s with name := sn, ntres := s.ntres ||| ntres }]
  | none => do
    let u ← utf8ToUtf16 name 255
    let sn ← genShort d name
    let nl := (u.length + 12) / 13
    pure ((List.range nl).map (lfnSlot u nl (lfnSum sn)) ++ [{ s with name := sn }])

def splice (l : List De) (first : Nat) (ents : List De) : List De :=
  l.take first ++ ents ++ l.drop (first + ents.length)

def markDeleted (l : List De) (first idx : Nat) : List De :=
  l.mapIdx fun i e => if first ≤ i ∧ i ≤ idx then { e with name := setLead e.name 0xE5 } else e

variable (g : Geom)

def dirAdd (d : Dir) (name : List UInt8) (tmpl : De) : Prog St Int (Dir × Nat) := do
  let ents ← .query fun _ => buildEntries d name tmpl
  let (d, first) ← dirAlloc g d ents.length
  let d := { d with e := splice d.e first ents }
  dirWrite g d first (first + ents.length)
  pure (d, first + ents.length - 1)

def dirRemove (d : Dir) (e : Ent) : Prog St Int Dir := do
  let d := { d with e := markDeleted d.e e.first e.idx }
  dirWrite g d e.first (e.idx + 1)
  pure d

def dirEmpty (d : Dir) : Bool := (dirNext d 0).isNone

end Olux.Fat
