import Olux.Basic

namespace Olux.Vsprintf

open List

-- A C character is the `Char` of its byte; `int` is `Int` (widths, precisions and the output stay
-- below 2 ^ 31), a format or a string is what stands before its NUL.
structure Out where
  buf : Nat → Char
  size : Nat
  pos : Nat

def emit (o : Out) (c : Char) : Out :=
  { o with buf := if o.pos + 1 < o.size then Function.update o.buf o.pos c else o.buf, pos := o.pos + 1 }

def emits (o : Out) (s : List Char) : Out := s.foldl emit o

structure Flags where
  left : Bool := false
  plus : Bool := false
  space : Bool := false
  alt : Bool := false
  zero : Bool := false
  upper : Bool := false

-- The blanks before or after a body: `while (pad-- > 0) emit(o, ' ')`.
def padded (o : Out) (left : Bool) (pad : Int) (body : List Char) : Out :=
  if left then emits (emits o body) (replicate pad.toNat ' ') else emits (emits o (replicate pad.toNat ' ')) body

def emitNum (o : Out) (v : Nat) (neg : Bool) (base : Nat) (flags : Flags) (width prec : Int) : Out :=
  let digits := if flags.upper then "0123456789ABCDEF".toList else "0123456789abcdef".toList
  let tmp := if v = 0 ∧ prec ≠ 0 then ['0'] else (Nat.digits base v).map (digits.getD · '0')
  let n : Int := tmp.length
  let sign := if neg then ['-'] else if flags.plus then ['+'] else if flags.space then [' '] else []
  let pre := if flags.alt ∧ base = 16 ∧ v ≠ 0 then if flags.upper then ['0', 'X'] else ['0', 'x']
    else if flags.alt ∧ base = 8 ∧ tmp.getLast? ≠ some '0' then ['0'] else []
  let plen : Int := pre.length + sign.length
  let zeros := if n < prec then prec - n else 0
  let zeros := if flags.zero ∧ ¬ flags.left ∧ prec < 0 then max zeros (width - plen - n) else zeros
  padded o flags.left (width - plen - zeros - n) (sign ++ pre ++ replicate zeros.toNat '0' ++ tmp.reverse)

-- What stands between `%` and the conversion.
structure Spec where
  flags : Flags
  width : Int
  prec : Int
  len : Int

def setFlag (f : Flags) : Char → Flags
  | '-' => { f with left := true }
  | '+' => { f with plus := true }
  | ' ' => { f with space := true }
  | '#' => { f with alt := true }
  | _ => { f with zero := true }

def setLen (len : Int) : Char → Int
  | 'l' => len + 1
  | 'h' => len - 1
  | _ => 1

def number (fmt : List Char) : Int :=
  (fmt.takeWhile Char.isDigit).foldl (fun n c => n * 10 + (c.toNat - 48)) 0

abbrev Args := List (BitVec 64)

-- Every argument fills a slot of eight bytes, and `va_arg(ap, int)` reads the low half of one.
def vaInt (args : Args) : Int := ((args.headD 0).setWidth 32).toInt

def parseWidth (flags : Flags) (args : Args) : List Char → Flags × Int × List Char × Args
  | '*' :: fmt =>
    if vaInt args < 0 then ({ flags with left := true }, -vaInt args, fmt, args.tail)
    else (flags, vaInt args, fmt, args.tail)
  | fmt => (flags, number fmt, fmt.dropWhile Char.isDigit, args)

def parsePrec (args : Args) : List Char → Int × List Char × Args
  | '.' :: '*' :: fmt => (vaInt args, fmt, args.tail)
  | '.' :: fmt => (number fmt, fmt.dropWhile Char.isDigit, args)
  | fmt => (-1, fmt, args)

def parse (fmt : List Char) (args : Args) : Spec × List Char × Args :=
  let isFlag := fun c => c ∈ ['-', '+', ' ', '#', '0']
  let isLen := fun c => c ∈ ['l', 'h', 'z', 't', 'j']
  let (flags, width, fmt, args) := parseWidth ((fmt.takeWhile isFlag).foldl setFlag {}) args (fmt.dropWhile isFlag)
  let (prec, fmt, args) := parsePrec args fmt
  (⟨flags, width, prec, (fmt.takeWhile isLen).foldl setLen 0⟩, fmt.dropWhile isLen, args)

def bits (len : Int) : Nat := if 1 ≤ len then 64 else if len = 0 then 32 else if len = -1 then 16 else 8

-- The switch on the conversion; `strings` gives what a pointer points to.
def convert (strings : BitVec 64 → List Char) (o : Out) (p : Spec) (args : Args) (c : Char) : Out × Args :=
  let a := args.headD 0
  match c with
  | 'd' | 'i' =>
    let s := (a.setWidth (bits p.len)).toInt
    (emitNum o s.natAbs (s < 0) 10 p.flags p.width p.prec, args.tail)
  | 'u' | 'x' | 'X' | 'o' =>
    let flags := { p.flags with plus := false, space := false, upper := p.flags.upper || c == 'X' }
    let base := if c = 'u' then 10 else if c = 'o' then 8 else 16
    (emitNum o (a.setWidth (bits p.len)).toNat false base flags p.width p.prec, args.tail)
  | 'p' => (emitNum o a.toNat false 16 { alt := true, zero := true } 18 (-1), args.tail)
  | 's' =>
    let str := if a = 0 then "(null)".toList else strings a
    let str := if 0 ≤ p.prec then str.take p.prec.toNat else str
    (padded o p.flags.left (p.width - str.length) str, args.tail)
  | 'c' => (padded o p.flags.left (p.width - 1) [Char.ofNat (a.setWidth 8).toNat], args.tail)
  | '%' => (emit o '%', args)
  | c => (emit (emit o '%') c, args)

theorem parse_length (fmt : List Char) (args : Args) : (parse fmt args).2.1.length ≤ fmt.length := by
  have hdrop := fun p (l : List Char) => (dropWhile_suffix p (l := l)).length_le
  have hwidth : ∀ flags args (l : List Char), (parseWidth flags args l).2.2.1.length ≤ l.length := by
    intro flags args l
    unfold parseWidth
    split
    · split <;> simp
    · exact hdrop _ _
  have hprec : ∀ args (l : List Char), (parsePrec args l).2.1.length ≤ l.length := by
    intro args l
    unfold parsePrec
    split
    · simp only [length_cons]
      omega
    · exact (hdrop _ _).trans (by simp)
    · exact le_rfl
  exact (hdrop _ _).trans ((hprec _ _).trans ((hwidth _ _ _).trans (hdrop _ _)))

def format (strings : BitVec 64 → List Char) (o : Out) (fmt : List Char) (args : Args) : Out :=
  match fmt with
  | [] => o
  | '%' :: fmt =>
    match _h : parse fmt args with
    | (_, [], _) => o
    | (p, c :: rest, ap) => format strings (convert strings o p ap c).1 rest (convert strings o p ap c).2
  | c :: fmt => format strings (emit o c) fmt args
termination_by fmt.length
decreasing_by
  · have := parse_length fmt args
    simp only [_h, length_cons] at this ⊢
    omega
  · simp

def vsnprintf (strings : BitVec 64 → List Char) (buf : Nat → Char) (size : Nat) (fmt : List Char) (args : Args) :
    (Nat → Char) × Int :=
  let o := format strings ⟨buf, size, 0⟩ fmt args
  (if size = 0 then o.buf else Function.update o.buf (if o.pos < size then o.pos else size - 1) '\x00',
    (o.pos : Int).bmod (2 ^ 32))

section Truncation

variable (strings : BitVec 64 → List Char)

theorem emits_append (o : Out) (s t : List Char) : emits (emits o s) t = emits o (s ++ t) := foldl_append.symm

theorem padded_emits (left : Bool) (pad : Int) (body : List Char) : ∃ s, ∀ o, padded o left pad body = emits o s := by
  unfold padded
  simp only [emits_append]
  split
  exacts [⟨_, fun _ => rfl⟩, ⟨_, fun _ => rfl⟩]

-- Every conversion emits characters that do not depend on the buffer, and takes the same arguments.
theorem convert_emits (p : Spec) (args : Args) (c : Char) :
    ∃ s args', ∀ o, convert strings o p args c = (emits o s, args') := by
  have hpad : ∀ left pad body (args' : Args), ∃ s args'', ∀ o, (padded o left pad body, args') = (emits o s, args'') := by
    intro left pad body args'
    obtain ⟨s, hs⟩ := padded_emits left pad body
    exact ⟨s, args', fun o => by rw [hs]⟩
  unfold convert emitNum
  split
  iterate 9 exact hpad _ _ _ _
  · exact ⟨['%'], args, fun _ => rfl⟩
  · exact ⟨['%', _], args, fun _ => rfl⟩

theorem format_emits (fmt : List Char) (args : Args) : ∃ s, ∀ o, format strings o fmt args = emits o s := by
  induction hn : fmt.length using Nat.strong_induction_on generalizing fmt args with
  | _ n ih =>
  subst hn
  cases fmt with
  | nil => exact ⟨[], fun o => by rw [format]; rfl⟩
  | cons c fmt =>
  by_cases hc : c = '%'
  · subst hc
    rcases hp : parse fmt args with ⟨p, _ | ⟨c, rest⟩, ap⟩
    · refine ⟨[], fun o => ?_⟩
      rw [format]
      split <;> simp_all [emits]
    obtain ⟨s, args', hs⟩ := convert_emits strings p ap c
    have hlen := parse_length fmt args
    rw [hp, length_cons] at hlen
    obtain ⟨t, ht⟩ := ih rest.length (by simp only [length_cons]; omega) rest args' rfl
    refine ⟨s ++ t, fun o => ?_⟩
    rw [format]
    split
    · simp_all
    · simp_all [emits_append]
  obtain ⟨t, ht⟩ := ih fmt.length (by simp) fmt args rfl
  refine ⟨c :: t, fun o => ?_⟩
  rw [format]
  · exact ht _
  · simpa using hc

-- A character stored behind those of `t`.
theorem update_stored {buf f : Nat → Char} {t : List Char} (hf : ∀ i, f i = t[i]?.getD (buf i)) (c : Char) (i : Nat) :
    Function.update f t.length c i = (t ++ [c])[i]?.getD (buf i) := by
  rcases lt_trichotomy i t.length with hi | rfl | hi
  · rw [Function.update_of_ne hi.ne, hf, getElem?_append_left hi]
  · simp
  · rw [Function.update_of_ne hi.ne', hf, getElem?_eq_none hi.le, getElem?_eq_none (by simp; omega)]

theorem emits_buf (buf : Nat → Char) (n : Nat) (s : List Char) : (emits ⟨buf, n, 0⟩ s).size = n ∧
    (emits ⟨buf, n, 0⟩ s).pos = s.length ∧ ∀ i, (emits ⟨buf, n, 0⟩ s).buf i = (s.take (n - 1))[i]?.getD (buf i) := by
  induction s using reverseRecOn with
  | nil => simp [emits]
  | append_singleton s c ih =>
  obtain ⟨hsize, hpos, hbuf⟩ := ih
  rw [← emits_append]
  refine ⟨hsize, by rw [length_append, ← hpos]; rfl, fun i => ?_⟩
  change (emit _ c).buf i = _
  simp only [emit, hsize, hpos]
  split
  · rw [take_of_length_le (by simp; omega)]
    rw [take_of_length_le (by omega)] at hbuf
    exact update_stored hbuf c i
  · rw [hbuf, take_append_of_le_length (by omega)]

-- Bounded formatting is truncation.
theorem vsnprintf_truncates (fmt : List Char) (args : Args) : ∃ s : List Char, ∀ buf n,
    (1 ≤ n → ∀ i, (vsnprintf strings buf n fmt args).1 i = (s.take (n - 1) ++ ['\x00'])[i]?.getD (buf i)) ∧
    (s.length < 2 ^ 31 → (vsnprintf strings buf n fmt args).2 = s.length) := by
  obtain ⟨s, hs⟩ := format_emits strings fmt args
  refine ⟨s, fun buf n => ?_⟩
  obtain ⟨-, hpos, hbuf⟩ := emits_buf buf n s
  simp only [vsnprintf, hs, hpos]
  refine ⟨fun hn i => ?_, fun hlen => ?_⟩
  · have hend : (if s.length < n then s.length else n - 1) = (s.take (n - 1)).length := by
      rw [length_take]
      split <;> omega
    rw [if_neg (by omega), hend]
    exact update_stored hbuf _ i
  · rw [Int.bmod_eq_of_le] <;> omega

end Truncation

end Olux.Vsprintf
