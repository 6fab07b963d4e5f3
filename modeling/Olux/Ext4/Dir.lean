import Olux.Ext4

namespace Olux.Ext4

open Olux.Lib

theorem Mount.lt_next (m : Mount) (pos : Nat) : pos < (pos / m.bs + 1) * m.bs := by
  rw [Nat.mul_comm]
  exact Nat.lt_mul_div_succ pos (by have := m.per_pos; omega)

def FL_INLINE : UInt32 := 0x10000000
def FL_ENCRYPT : UInt32 := 0x800

-- A directory inode, with what `bmap` and `read_block` answer for each of its blocks: an error, a hole, or the bytes.
structure Dir where
  isDir : Bool
  flags : UInt32
  size : Nat
  block : Nat → Except Int (Option (List UInt8))

structure Entry where
  ino : Nat
  ft : UInt8
  name : List UInt8
  next : Nat

inductive Outcome where
  | returns (r : Int)
  | refused
  -- only of the loop over a block: its end
  | on (k : Option Nat)

def record (m : Mount) (buf : List UInt8) (bo : Nat) :
    Option ({ len // 8 ≤ len ∧ bo + len ≤ m.bs } × Option (Nat × UInt8 × List UInt8)) :=
  let ino := le32 buf bo
  let len := leField buf (bo + 4) 2
  let nlen := leField buf (bo + 6) 1
  if h : 8 ≤ len ∧ len % 4 = 0 ∧ bo + len ≤ m.bs ∧ nlen + 8 ≤ len then
    some (⟨len, h.1, h.2.2.1⟩, if ino ≠ 0 ∧ nlen ≠ 0 ∧ ino ≤ m.inodesCount then
      some (ino, if m.filetype then buf.getD (bo + 7) 0 else 0, (buf.drop (bo + 8)).take nlen) else none)
  else none

def blockLoop (m : Mount) (lb : Nat) (buf : List UInt8) (bo : Nat) (k : Option Nat) : List Entry × Outcome :=
  if bo + 8 ≤ m.bs then
    match record m buf bo with
    | none => ([], .returns (- EIO))
    | some (len, none) => blockLoop m lb buf (bo + len) k
    | some (len, some (ino, ft, name)) =>
      if k = some 0 then ([], .refused)
      else
        let rest := blockLoop m lb buf (bo + len) (k.map (· - 1))
        (⟨ino, ft, name, lb * m.bs + (bo + len)⟩ :: rest.1, rest.2)
  else ([], .on k)
termination_by m.bs - bo
decreasing_by all_goals have := len.2; omega

-- With a size of whole blocks no sum here wraps around.
def dirLoop (m : Mount) (d : Dir) (pos : Nat) (k : Option Nat) : List Entry × Outcome :=
  if pos < d.size then
    match d.block (pos / m.bs) with
    | .error r => ([], .returns r)
    | .ok none => dirLoop m d ((pos / m.bs + 1) * m.bs) k
    | .ok (some buf) =>
      match blockLoop m (pos / m.bs) buf (pos % m.bs) k with
      | (es, .on k) =>
        (es ++ (dirLoop m d ((pos / m.bs + 1) * m.bs) k).1, (dirLoop m d ((pos / m.bs + 1) * m.bs) k).2)
      | r => r
  else ([], .returns 0)
termination_by d.size - pos
decreasing_by all_goals have := m.lt_next pos; omega

def dirIterate (m : Mount) (d : Dir) (pos : Nat) (k : Option Nat) : List Entry × Outcome :=
  if d.isDir = false then ([], .returns (-ENOTDIR))
  else if d.flags &&& (FL_INLINE ||| FL_ENCRYPT) ≠ 0 then ([], .returns (-EOPNOTSUPP))
  else dirLoop m d pos k

def cookie (pos : Nat) (es : List Entry) : Nat := (es.getLast?.map (·.next)).getD pos

-- Iterations in which the callback refuses after that many entries, each from the cookie on where the one before
-- has stopped, and a last one that is not interrupted.
def readAll (m : Mount) (d : Dir) (pos : Nat) : List Nat → List Entry × Outcome
  | [] => dirIterate m d pos none
  | k :: ks =>
    match dirIterate m d pos (some k) with
    | (es, .refused) => (es ++ (readAll m d (cookie pos es) ks).1, (readAll m d (cookie pos es) ks).2)
    | r => r

variable {m : Mount} {d : Dir} {lb bo pos : Nat} {buf : List UInt8}

-- An iteration ends without an entry, or its first one is followed by an iteration from its cookie on.
def Begins (m : Mount) (d : Dir) (f : Option Nat → List Entry × Outcome) : Prop :=
  (∃ r, ∀ k, f k = ([], .returns r)) ∨ ∃ e, f (some 0) = ([], .refused) ∧ ∀ k, k ≠ some 0 →
    f k = (e :: (dirLoop m d e.next (k.map (· - 1))).1, (dirLoop m d e.next (k.map (· - 1))).2)

def onward (m : Mount) (d : Dir) (lb : Nat) : List Entry × Outcome → List Entry × Outcome
  | (es, .on k) => (es ++ (dirLoop m d ((lb + 1) * m.bs) k).1, (dirLoop m d ((lb + 1) * m.bs) k).2)
  | r => r

theorem onward_cons (e : Entry) (p : List Entry × Outcome) :
    onward m d lb (e :: p.1, p.2) = (e :: (onward m d lb p).1, (onward m d lb p).2) := by
  obtain ⟨es, r⟩ := p
  cases r <;> rfl

section directory

variable (hblock : d.block lb = .ok (some buf)) (hlt : (lb + 1) * m.bs ≤ d.size)
include hblock hlt

theorem dirLoop_eq (hbo : bo ≤ m.bs) (k : Option Nat) :
    dirLoop m d (lb * m.bs + bo) k = onward m d lb (blockLoop m lb buf bo k) := by
  rcases Nat.lt_or_eq_of_le hbo with h | rfl
  · have hdiv : (lb * m.bs + bo) / m.bs = lb := by
      rw [Nat.mul_comm, Nat.mul_add_div (by omega), Nat.div_eq_of_lt h, Nat.add_zero]
    have hmod : (lb * m.bs + bo) % m.bs = bo := by
      rw [Nat.mul_comm, Nat.mul_add_mod, Nat.mod_eq_of_lt h]
    rw [Nat.add_mul, Nat.one_mul] at hlt
    rw [dirLoop, if_pos (by omega), hdiv, hmod, hblock]
    rfl
  · rw [blockLoop, if_neg (by omega), onward, Nat.add_mul, Nat.one_mul, List.nil_append]

theorem blockLoop_begins (hnext : Begins m d (dirLoop m d ((lb + 1) * m.bs))) (hbo : bo ≤ m.bs) :
    Begins m d fun k => onward m d lb (blockLoop m lb buf bo k) := by
  induction hn : m.bs - bo using Nat.strongRecOn generalizing bo with
  | ind n ih =>
  by_cases h8 : bo + 8 ≤ m.bs
  swap
  · have heq (k : Option Nat) : blockLoop m lb buf bo k = ([], .on k) := by rw [blockLoop, if_neg h8]
    simp only [heq]
    exact hnext
  match hr : record m buf bo with
  | none =>
    refine .inl ⟨- EIO, fun k => ?_⟩
    simp only [blockLoop.eq_def m lb buf bo k, if_pos h8, hr, onward]
  | some (len, none) =>
    have heq (k : Option Nat) : blockLoop m lb buf bo k = blockLoop m lb buf (bo + len) k := by
      rw [blockLoop, if_pos h8, hr]
    have hlen := len.2
    simp only [heq]
    exact ih _ (by omega) hlen.2 rfl
  | some (len, some (ino, ft, name)) =>
    refine .inr ⟨⟨ino, ft, name, lb * m.bs + (bo + len)⟩, ?_, fun k hk => ?_⟩
    · simp only [blockLoop.eq_def m lb buf bo (some 0), if_pos h8, hr, if_true, onward]
    · simp only [blockLoop.eq_def m lb buf bo k, if_pos h8, hr, if_neg hk]
      rw [onward_cons, dirLoop_eq hblock hlt len.2.2]

end directory

theorem dirLoop_begins (hd : m.bs ∣ d.size) (pos : Nat) : Begins m d (dirLoop m d pos) := by
  induction hn : d.size - pos using Nat.strongRecOn generalizing pos with
  | ind n ih =>
  by_cases hlt : pos < d.size
  swap
  · exact .inl ⟨0, fun k => by rw [dirLoop, if_neg hlt]⟩
  have hgt := m.lt_next pos
  have hnext := ih _ (by omega) ((pos / m.bs + 1) * m.bs) rfl
  match hblock : d.block (pos / m.bs) with
  | .error r => exact .inl ⟨r, fun k => by rw [dirLoop, if_pos hlt, hblock]⟩
  | .ok none =>
    have heq : dirLoop m d pos = dirLoop m d ((pos / m.bs + 1) * m.bs) := by
      funext k
      rw [dirLoop, if_pos hlt, hblock]
    rw [heq]
    exact hnext
  | .ok (some buf) =>
    have hbs : 0 < m.bs := by have := m.per_pos; omega
    have hbo := Nat.le_of_lt (Nat.mod_lt pos hbs)
    have hle : (pos / m.bs + 1) * m.bs ≤ d.size := by
      obtain ⟨c, hc⟩ := hd
      rw [hc] at hlt ⊢
      rw [Nat.mul_comm]
      exact Nat.mul_le_mul_left _ (Nat.div_lt_of_lt_mul hlt)
    have heq : dirLoop m d pos = fun k => onward m d (pos / m.bs) (blockLoop m (pos / m.bs) buf (pos % m.bs) k) := by
      funext k
      rw [← dirLoop_eq hblock hle hbo, Nat.div_add_mod']
    rw [heq]
    exact blockLoop_begins hblock hle hnext hbo

theorem dirLoop_some (hd : m.bs ∣ d.size) (k pos : Nat) :
    (∃ es r, dirLoop m d pos none = (es, .returns r) ∧ dirLoop m d pos (some k) = (es, .returns r)) ∨
    ∃ es, dirLoop m d pos (some k) = (es, .refused) ∧
      dirLoop m d pos none = (es ++ (dirLoop m d (cookie pos es) none).1, (dirLoop m d (cookie pos es) none).2) := by
  induction k generalizing pos with
  | zero =>
    obtain ⟨r, hr⟩ | ⟨e, h0, _⟩ := dirLoop_begins hd pos
    · exact .inl ⟨[], r, hr _, hr _⟩
    · exact .inr ⟨[], h0, rfl⟩
  | succ k ih =>
  obtain ⟨r, hr⟩ | ⟨e, _, hk⟩ := dirLoop_begins hd pos
  · exact .inl ⟨[], r, hr _, hr _⟩
  rw [hk none (by simp), hk (some (k + 1)) (by simp)]
  simp only [Option.map_some, Option.map_none, Nat.add_sub_cancel]
  obtain ⟨es, r, h1, h2⟩ | ⟨es, hes, hrest⟩ := ih e.next
  · exact .inl ⟨e :: es, r, by rw [h1], by rw [h2]⟩
  refine .inr ⟨e :: es, by rw [hes], ?_⟩
  have hc : cookie pos (e :: es) = cookie e.next es := by
    rw [cookie, cookie, List.getLast?_cons]
    cases es.getLast? <;> rfl
  rw [hrest, hc]
  rfl

theorem readAll_eq (hd : m.bs ∣ d.size) (pos : Nat) (ks : List Nat) : readAll m d pos ks = dirIterate m d pos none := by
  induction ks generalizing pos with
  | nil => rfl
  | cons k ks ih =>
  by_cases h1 : d.isDir = false
  · simp only [readAll, dirIterate, if_pos h1]
  by_cases h2 : d.flags &&& (FL_INLINE ||| FL_ENCRYPT) ≠ 0
  · simp only [readAll, dirIterate, if_neg h1, if_pos h2]
  simp only [readAll, ih, dirIterate, if_neg h1, if_neg h2]
  obtain ⟨es, r, h1, h2⟩ | ⟨es, hes, hrest⟩ := dirLoop_some hd k pos
  · rw [h1, h2]
  · rw [hes, hrest]

def twoEntries : Dir where
  isDir := true
  flags := 0
  size := 1024
  block _ := .ok (some ([12, 0, 0, 0, 12, 0, 1, 1, 97, 0, 0, 0, 13, 0, 0, 0, 244, 3, 1, 1, 98] ++ List.replicate 1003 0))

theorem readAll_eq_twoEntries : small.bs ∣ twoEntries.size ∧
    readAll small twoEntries 0 [1, 0] = dirIterate small twoEntries 0 none :=
  ⟨by decide, readAll_eq (by decide) 0 [1, 0]⟩

end Olux.Ext4
