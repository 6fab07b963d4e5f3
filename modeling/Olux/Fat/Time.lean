import Olux.Fat.Dir

namespace Olux.Fat

def daysFromCivil (y m d : Nat) : Int :=
  let y := y - if m ≤ 2 then 1 else 0
  let era := y / 400
  let yoe := y - era * 400
  let doy := (153 * (if m > 2 then m - 3 else m + 9) + 2) / 5 + d - 1
  let doe := yoe * 365 + yoe / 4 - yoe / 100 + doy
  era * 146097 + doe - 719468

def fatToUnix (date tm : UInt16) : Int :=
  let date := date.toNat
  let tm := tm.toNat
  let m := date / 2 ^ 5 % 2 ^ 4
  let d := date % 2 ^ 5
  if date = 0 then 0
  else if m < 1 ∨ m > 12 ∨ d < 1 then 0
  else
    daysFromCivil (1980 + date / 2 ^ 9) m d * 86400 + (tm / 2 ^ 11 * 3600 + tm / 2 ^ 5 % 2 ^ 6 * 60 + tm % 2 ^ 5 * 2 : Nat)

-- A FAT date and time; times before 1980 are taken for its first day.
def unixToFat (t : Int) : UInt16 × UInt16 :=
  let t := (if t < 315532800 then 315532800 else t).toNat
  let days := t / 86400
  let secs := t % 86400
  let z := days + 719468
  let era := z / 146097
  let doe := z - era * 146097
  let yoe := (doe - doe / 1460 + doe / 36524 - doe / 146096) / 365
  -- the year is an `int`
  let y : Int := Int.bmod (yoe + era * 400 : Nat) (2 ^ 32)
  let doy := doe - (365 * yoe + yoe / 4 - yoe / 100)
  let mp := (5 * doy + 2) / 153
  let d := doy - (153 * mp + 2) / 5 + 1
  let m := if mp < 10 then mp + 3 else mp - 9
  let y := y + if m ≤ 2 then 1 else 0
  let y := if y > 2107 then 2107 else y
  (UInt16.ofInt ((y - 1980) * 2 ^ 9 + (m * 2 ^ 5 + d : Nat)),
    UInt16.ofNat (secs / 3600 * 2 ^ 11 + secs / 60 % 60 * 2 ^ 5 + secs % 60 / 2))

def time (s : St) : Int × St :=
  match s.times with
  | [] => (0, s)
  | t :: ts => (t, { s with times := ts })

def touch (e : De) (modify : Bool) (s : St) : De × St :=
  let now := unixToFat (time s).1
  (if modify then { e with adate := now.1, mdate := now.1, mtime := now.2, attr := e.attr ||| A_ARCH }
    else { e with adate := now.1 }, (time s).2)

def newEntry (attr : UInt8) (s : St) : De × St :=
  let now := unixToFat (time s).1
  ({ De.zero with attr, cdate := now.1, mdate := now.1, adate := now.1, ctime := now.2, mtime := now.2 }, (time s).2)

end Olux.Fat
