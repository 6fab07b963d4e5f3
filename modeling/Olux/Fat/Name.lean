import Olux.Fat.Dir

namespace Olux.Fat

open Olux.Lib

structure Ent where
  first : Nat
  idx : Nat
  name : List UInt8
deriving DecidableEq

def putUtf8 (cp : Nat) : List UInt8 :=
  if cp < 0x80 then [UInt8.ofNat cp]
  else if cp < 0x800 then [UInt8.ofNat (0xC0 + cp / 2 ^ 6), UInt8.ofNat (0x80 + cp % 2 ^ 6)]
  else if cp < 0x10000 then
    [UInt8.ofNat (0xE0 + cp / 2 ^ 12), UInt8.ofNat (0x80 + cp / 2 ^ 6 % 2 ^ 6), UInt8.ofNat (0x80 + cp % 2 ^ 6)]
  else
    [UInt8.ofNat (0xF0 + cp / 2 ^ 18), UInt8.ofNat (0x80 + cp / 2 ^ 12 % 2 ^ 6),
      UInt8.ofNat (0x80 + cp / 2 ^ 6 % 2 ^ 6), UInt8.ofNat (0x80 + cp % 2 ^ 6)]

def loneUnit (u : Nat) : Nat := if 0xD800 ≤ u ∧ u < 0xE000 then 63 else u

-- `o` bytes are written so far, into a buffer of `cap`.
def utf16ToUtf8 (cap : Nat) : List Nat → Nat → List UInt8
  | [], _ => []
  | [u], o => if o + 5 < cap then putUtf8 (loneUnit u) else []
  | u :: v :: us, o =>
    if o + 5 < cap then
      if 0xD800 ≤ u ∧ u < 0xDC00 ∧ 0xDC00 ≤ v ∧ v < 0xE000 then
        let out := putUtf8 (0x10000 + (u - 0xD800) * 2 ^ 10 + (v - 0xDC00))
        out ++ utf16ToUtf8 cap us (o + out.length)
      else
        let out := putUtf8 (loneUnit u)
        out ++ utf16ToUtf8 cap (v :: us) (o + out.length)
    else []

def contBytes : Nat → Nat → List UInt8 → Option (Nat × List UInt8)
  | 0, cp, p => some (cp, p)
  | _ + 1, _, [] => none
  | k + 1, cp, b :: p =>
    if b &&& 0xC0 = 0x80 then contBytes k (cp * 2 ^ 6 + (b &&& 0x3F).toNat) p else none

def leadByte (b : UInt8) : Option (Nat × Nat) :=
  if b < 0x80 then some (b.toNat, 0)
  else if b &&& 0xE0 = 0xC0 then some ((b &&& 0x1F).toNat, 1)
  else if b &&& 0xF0 = 0xE0 then some ((b &&& 0x0F).toNat, 2)
  else if b &&& 0xF8 = 0xF0 then some ((b &&& 0x07).toNat, 3)
  else none

def utf8Loop (cap : Nat) : Nat → List UInt8 → List Nat → Except Int (List Nat)
  | _, [], u => .ok u
  | 0, _, u => .ok u
  | k + 1, b :: p, u =>
    match (leadByte b).bind fun r => contBytes r.2 r.1 p with
    | none => .error (- EINVAL)
    | some (cp, p) =>
      if cp ≥ 0x10000 then
        if u.length + 2 > cap then .error (- ENAMETOOLONG)
        else utf8Loop cap k p (u ++ [0xD800 + (cp - 0x10000) / 2 ^ 10, 0xDC00 + (cp - 0x10000) % 2 ^ 10])
      else if u.length + 1 > cap then .error (- ENAMETOOLONG)
      else utf8Loop cap k p (u ++ [cp])

def utf8ToUtf16 (s : List UInt8) (cap : Nat) : Except Int (List Nat) := utf8Loop cap s.length s []

def isUpper (c : UInt8) : Bool := 65 ≤ c && c ≤ 90

def isLower (c : UInt8) : Bool := 97 ≤ c && c ≤ 122

def stripSpaces (l : List UInt8) : List UInt8 := (l.reverse.dropWhile (· = 32)).reverse

def showChar (low : Bool) (c : UInt8) : UInt8 :=
  let c := if low && isUpper c then c + 32 else c
  if c ≥ 0x80 then 95 else c

def unescape : List UInt8 → List UInt8
  | [] => []
  | c :: l => (if c = 0x05 then 0xE5 else c) :: l

def shortDisplay (e : De) : List UInt8 :=
  let base := unescape (stripSpaces (e.name.toList.take 8))
  let ext := stripSpaces (e.name.toList.drop 8)
  base.map (showChar (e.ntres &&& 0x08 ≠ 0)) ++
    if ext = [] then [] else 46 :: ext.map (showChar (e.ntres &&& 0x10 ≠ 0))

def lfnSum (n : Vector UInt8 11) : UInt8 := n.toList.foldl (fun s b => ((s &&& 1) <<< 7) + (s >>> 1) + b) 0

def lfnOff : List Nat := [1, 3, 5, 7, 9, 14, 16, 18, 20, 22, 24, 28, 30]

-- What `dir_next` has of a long name: `expect` is the number of the part that has to come
-- next, -1 when the short entry has to, and 0 when there is no name.
structure Lfn where
  units : Nat → Nat
  n : Nat
  expect : Int
  sum : UInt8
  first : Nat

def Lfn.store (l : Lfn) (e : De) (seq : Nat) : Lfn :=
  { l with
    units := fun k =>
      if seq * 13 ≤ k ∧ k < seq * 13 + 13 then le16 (fun o => e.raw.getD o 0) (lfnOff.getD (k - seq * 13) 0)
      else l.units k
    expect := if seq = 0 then -1 else seq }

def lfnStep (i : Nat) (e : De) (l : Lfn) : Lfn :=
  let ord := lead e.name
  let cnt := (ord &&& 0x1F).toNat
  if ord &&& 0x40 ≠ 0 then
    if cnt < 1 ∨ cnt > 20 then { l with expect := 0 }
    else Lfn.store ⟨fun _ => 0, cnt * 13, cnt, e.ctimeTenth, i⟩ e (cnt - 1)
  else if l.expect = 0 ∨ (cnt : Int) ≠ l.expect ∨ e.ctimeTenth ≠ l.sum then { l with expect := 0 }
  else l.store e (cnt - 1)

def lfnName (l : Lfn) : List UInt8 :=
  utf16ToUtf8 1024 (((List.range l.n).map l.units).takeWhile fun u => u ≠ 0 ∧ u ≠ 0xFFFF) 0

def dirNextFrom : List De → Nat → Lfn → Option Ent
  | [], _, _ => none
  | e :: es, i, l =>
    if lead e.name = 0 then none
    else if lead e.name = 0xE5 then dirNextFrom es (i + 1) { l with expect := 0 }
    else if e.attr = A_LFN then dirNextFrom es (i + 1) (lfnStep i e l)
    else if !live e then dirNextFrom es (i + 1) { l with expect := 0 }
    else if l.expect = -1 ∧ lfnSum e.name = l.sum then some ⟨l.first, i, lfnName l⟩
    else some ⟨i, i, shortDisplay e⟩

def dirNext (d : Dir) (pos : Nat) : Option Ent := dirNextFrom (d.e.drop pos) pos ⟨fun _ => 0, 0, 0, 0, 0⟩

def lower (c : UInt8) : UInt8 := if isUpper c then c + 32 else c

def nameEq (a b : List UInt8) : Bool :=
  (a.takeWhile (· ≠ 0)).map lower = (b.takeWhile (· ≠ 0)).map lower

def dirFindLoop (d : Dir) (name : List UInt8) : Nat → Nat → Option Ent
  | 0, _ => none
  | k + 1, pos =>
    match dirNext d pos with
    | none => none
    | some e =>
      if nameEq e.name name then some e
      else if nameEq (shortDisplay (d.e.getD e.idx De.zero)) name then some e
      else dirFindLoop d name k (e.idx + 1)

def dirFind (d : Dir) (name : List UInt8) : Option Ent := dirFindLoop d name (d.e.length + 1) 0

end Olux.Fat
