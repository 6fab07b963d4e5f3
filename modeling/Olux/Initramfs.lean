import Olux.Basic

namespace Olux.Initramfs

open List

structure Entry where
  mode : Nat
  uid : Nat
  gid : Nat
  mtime : Nat
  rdev : Nat × Nat
  name : List UInt8
  body : List UInt8
deriving DecidableEq

inductive Op where
  | mkdir (path : List UInt8) (mode : Nat)
  | file (path : List UInt8) (mode : Nat) (body : List UInt8)
  | symlink (target path : List UInt8)
  | mknod (path : List UInt8) (mode : Nat) (dev : Nat × Nat)
  | setattr (path : List UInt8) (mode uid gid mtime : Nat)
deriving DecidableEq

-- A turn of the loop: a read outside the archive, -EINVAL, a byte of padding, the end mark, or an
-- entry and the distance to the next one.
inductive Turn where
  | fault
  | inval
  | skip
  | trailer
  | entry (e : Entry) (n : Nat)
deriving DecidableEq

-- Reading `n` bytes from the offset `i` on.
def slice (d : List UInt8) (i n : Nat) : Option (List UInt8) :=
  if i + n ≤ d.length then some ((d.drop i).take n) else none

def hexDigit (c : UInt8) : Option Nat :=
  if 48 ≤ c ∧ c ≤ 57 then some (c.toNat - 48)
  else if 97 ≤ c ∧ c ≤ 102 then some (c.toNat - 87)
  else if 65 ≤ c ∧ c ≤ 70 then some (c.toNat - 55)
  else none

def hex8 (s : List UInt8) : Option Nat := s.foldlM (fun v c => (hexDigit c).map (v * 16 + ·)) 0

def fields (header : List UInt8) : Option (List Nat) := (range 13).mapM fun i => hex8 ((header.drop (6 + i * 8)).take 8)

-- The sum is one of 32 bits.
def alignUp4 (x : Nat) : Nat := (x + 3) % 2 ^ 32 / 4 * 4

def TRAILER : List UInt8 := [84, 82, 65, 73, 76, 69, 82, 33, 33, 33]

def turn (d : List UInt8) (p : Nat) : Turn :=
  match slice d p 110 with
  | none => .fault
  | some header =>
    if header.take 6 ≠ [48, 55, 48, 55, 48, 49] ∧ header.take 6 ≠ [48, 55, 48, 55, 48, 50] then
      if header.head? = some 0 then .skip else .inval
    else
      match fields header with
      | none => .inval
      | some f =>
        let filesize := f.getD 6 0
        let namesize := f.getD 11 0
        if d.length < p + (110 + namesize) ∨ namesize = 0 then .inval
        else
          match slice d (p + 110) namesize with
          | none => .fault
          | some name =>
            let body := alignUp4 (110 + namesize)
            if name.getLast? ≠ some 0 ∨ d.length < p + (body + filesize) then .inval
            -- the name ends in its slice
            else if name.takeWhile (· ≠ 0) = TRAILER then .trailer
            else
              match slice d (p + body) filesize with
              | none => .fault
              | some bytes =>
                .entry ⟨f.getD 1 0, f.getD 2 0, f.getD 3 0, f.getD 5 0, (f.getD 9 0, f.getD 10 0),
                  name.takeWhile (· ≠ 0), bytes⟩ (body + alignUp4 filesize)

section Unpack

variable {σ : Type} (fs : Op → σ → Int × σ)

def place (e : Entry) (s : σ) : σ :=
  let path := (47 :: if e.name.take 2 = [46, 47] then e.name.drop 2 else e.name).take 4095
  let fmt := e.mode / 2 ^ 12 % 2 ^ 4
  let perm := e.mode % 2 ^ 12
  let (r, s) :=
    if path = [47, 46] ∨ path = [47] then (0, s)
    else if fmt = 4 then
      let (r, s) := fs (.mkdir path perm) s
      (if r = -EEXIST then 0 else r, s)
    else if fmt = 8 then fs (.file path perm e.body) s
    else if fmt = 10 then fs (.symlink (e.body.take 4095) path) s
    else if fmt = 2 ∨ fmt = 6 ∨ fmt = 1 ∨ fmt = 12 then fs (.mknod path e.mode e.rdev) s
    else (0, s)
  if r = 0 then (fs (.setattr path perm e.uid e.gid e.mtime) s).2 else s

inductive Result (σ : Type) where
  | ret (r : Int) (s : σ)
  | fault
  | hang

-- An entry of no length is unpacked again and again.
def unpack (d : List UInt8) (p : Nat) (s : σ) : Result σ :=
  if d.length < p + 110 then .ret 0 s
  else
    match turn d p with
    | .fault => .fault
    | .inval => .ret (-EINVAL) s
    | .skip => unpack d (p + 1) s
    | .trailer => .ret 0 s
    | .entry e n => if n = 0 then .hang else unpack d (p + n) (place fs e s)
termination_by d.length - p
decreasing_by all_goals omega

def unpackInitramfs (d : List UInt8) (s : σ) : Result σ := unpack fs d 0 s

-- Entries, each as long as the parser takes it to be, and the end mark.
inductive Archive : List UInt8 → Prop
  | trailer (l : List UInt8) : turn l 0 = .trailer → Archive l
  | entry (l rest : List UInt8) (e : Entry) : turn l 0 = .entry e l.length → Archive rest → Archive (l ++ rest)

variable {fs} {d l rest : List UInt8} {p i n : Nat} {s : σ}

theorem slice_shift : slice (l ++ d) (l.length + i) n = slice d i n := by
  simp [slice, Nat.add_assoc, drop_append, drop_eq_nil_of_le]

theorem slice_append {x : List UInt8} (h : slice l i n = some x) : slice (l ++ rest) i n = some x := by
  obtain ⟨hle, hx⟩ := Option.ite_none_right_eq_some.mp h
  rw [slice, if_pos (by simp; omega), drop_append_of_le_length (by omega), take_append_of_le_length (by simp; omega), hx]

theorem turn_shift : turn (l ++ d) (l.length + p) = turn d p := by
  simp only [turn, Nat.add_assoc, slice_shift, length_append, Nat.add_lt_add_iff_left]

theorem turn_append (hf : turn l 0 ≠ .fault) (hi : turn l 0 ≠ .inval) : turn (l ++ rest) 0 = turn l 0 := by
  unfold turn at *
  cases hs : slice l 0 110 with
  | none => exact absurd (by rw [hs]) hf
  | some header =>
    simp only [hs, slice_append hs] at hi ⊢
    split
    · rfl
    rename_i hm
    rw [if_neg hm] at hi
    cases hfields : fields header with
    | none => rfl
    | some f =>
      simp only [hfields] at hi ⊢
      have hname : ¬ (l.length < 0 + (110 + f.getD 11 0) ∨ f.getD 11 0 = 0) := fun h => hi (if_pos h)
      rw [if_neg hname] at hi ⊢
      rw [if_neg (by simp only [length_append]; omega)]
      cases hn : slice l (0 + 110) (f.getD 11 0) with
      | none => exact absurd (by simp only [hs, hfields, hn, if_neg hm, if_neg hname]) hf
      | some name =>
      simp only [hn, slice_append hn] at hi ⊢
      have hbody : ¬ (name.getLast? ≠ some 0 ∨ l.length < 0 + (alignUp4 (110 + f.getD 11 0) + f.getD 6 0)) := fun h =>
        hi (if_pos h)
      rw [if_neg hbody, if_neg (by rw [not_or] at hbody ⊢; simp only [length_append]; exact ⟨hbody.1, by omega⟩)]
      split
      · rfl
      rename_i hmark
      cases hb : slice l (0 + alignUp4 (110 + f.getD 11 0)) (f.getD 6 0) with
      | none => exact absurd (by simp only [hs, hfields, hn, hb, if_neg hm, if_neg hname, if_neg hbody, if_neg hmark]) hf
      | some bytes => rw [slice_append hb]

theorem alignUp4_pos {x : Nat} (hx : 0 < x) (hle : x + 3 < 2 ^ 32) : 0 < alignUp4 x := by
  unfold alignUp4
  omega

theorem turn_spec (d : List UInt8) (p : Nat) (h : p + 110 ≤ d.length) :
    match turn d p with
    | .fault => False
    | .entry _ n => d.length + 3 < 2 ^ 32 → 0 < n
    | _ => True := by
  have hs : ∀ i n, i + n ≤ d.length → slice d i n ≠ none := fun i n h => by simp [slice, h]
  generalize ht : turn d p = t
  unfold turn at ht
  split at ht
  · rename_i hnone
    exact absurd hnone (hs _ _ h)
  split at ht
  · split at ht <;> cases ht <;> trivial
  split at ht
  · cases ht
    trivial
  simp only at ht
  split at ht
  · cases ht
    trivial
  rename_i hname
  split at ht
  · rename_i hnone
    exact absurd hnone (hs _ _ (by omega))
  split at ht
  · cases ht
    trivial
  rename_i hbody
  split at ht
  · cases ht
    trivial
  split at ht
  · rename_i hnone
    exact absurd hnone (hs _ _ (by omega))
  cases ht
  intro hlen
  exact Nat.add_pos_left (alignUp4_pos (by omega) (by omega)) _

theorem unpack_shift (p : Nat) (s : σ) : unpack fs (l ++ d) (l.length + p) s = unpack fs d p s := by
  fun_induction unpack fs d p s with
  | case1 p s h => rw [unpack, if_pos (by simp; omega)]
  | case2 p s h ht => rw [unpack, if_neg (by simp; omega), turn_shift, ht]
  | case3 p s h ht => rw [unpack, if_neg (by simp; omega), turn_shift, ht]
  | case4 p s h ht ih => rw [unpack, if_neg (by simp; omega), turn_shift, ht, Nat.add_assoc, ih]
  | case5 p s h ht => rw [unpack, if_neg (by simp; omega), turn_shift, ht]
  | case6 p s h e ht => rw [unpack, if_neg (by simp; omega), turn_shift, ht]; rfl
  | case7 p s h e n ht hn ih => rw [unpack, if_neg (by simp; omega), turn_shift, ht]; simp only [if_neg hn, Nat.add_assoc, ih]

theorem Archive.unpack_append (h : Archive l) (s : σ) : ∃ s', ∀ rest, unpack fs (l ++ rest) 0 s = .ret 0 s' := by
  induction h generalizing s with
  | trailer l ht =>
    refine ⟨s, fun rest => ?_⟩
    rw [unpack, turn_append (by simp [ht]) (by simp [ht]), ht]
    split <;> rfl
  | entry l tail e ht _ ih =>
    obtain ⟨s', hs'⟩ := ih (place fs e s)
    refine ⟨s', fun rest => ?_⟩
    have hlen : 110 ≤ l.length := Nat.le_of_not_lt fun hlt => by simp [turn, slice, Nat.not_le.mpr hlt] at ht
    rw [unpack, if_neg (by simp; omega), append_assoc, turn_append (by simp [ht]) (by simp [ht]), ht]
    simp only [if_neg (show l.length ≠ 0 by omega), Nat.zero_add]
    exact (unpack_shift 0 _).trans (hs' rest)

-- The position `p` is one the loop comes to.
inductive Reaches (d : List UInt8) : Nat → Nat → Prop
  | refl (p : Nat) : Reaches d p p
  | skip (p q : Nat) : p + 110 ≤ d.length → turn d p = .skip → Reaches d (p + 1) q → Reaches d p q
  | entry (p q n : Nat) (e : Entry) : p + 110 ≤ d.length → turn d p = .entry e n → Reaches d (p + n) q → Reaches d p q

-- The loop comes to an entry whose lengths, as numbers of 32 bits, add up to 0.
def Stuck (d : List UInt8) (p : Nat) : Prop := ∃ q e, Reaches d p q ∧ q + 110 ≤ d.length ∧ turn d q = .entry e 0

theorem unpack_spec (d : List UInt8) (p : Nat) (s : σ) :
    unpack fs d p s ≠ .fault ∧ ((∃ r s', unpack fs d p s = .ret r s') ↔ ¬ Stuck d p) := by
  have here : ∀ {p}, p + 110 ≤ d.length → Stuck d p → (∃ e n, turn d p = .entry e n) ∨ turn d p = .skip := by
    rintro p - ⟨q, e, hreach, -, hturn⟩
    cases hreach with
    | refl => exact .inl ⟨e, 0, hturn⟩
    | skip _ _ _ h => exact .inr h
    | entry _ _ n e' _ h => exact .inl ⟨e', n, h⟩
  fun_induction unpack fs d p s with
  | case1 p s h =>
    refine ⟨nofun, iff_of_true ⟨_, _, rfl⟩ ?_⟩
    rintro ⟨q, e, hreach, hq, -⟩
    cases hreach <;> omega
  | case2 p s h ht =>
    have := turn_spec d p (Nat.le_of_not_lt h)
    rw [ht] at this
    exact this.elim
  | case3 p s h ht =>
    refine ⟨nofun, iff_of_true ⟨_, _, rfl⟩ fun hstuck => ?_⟩
    simpa [ht] using here (Nat.le_of_not_lt h) hstuck
  | case4 p s h ht ih =>
    refine ⟨ih.1, ih.2.trans (not_congr ⟨?_, ?_⟩)⟩
    · rintro ⟨q, e, hreach, hq⟩
      exact ⟨q, e, .skip p q (Nat.le_of_not_lt h) ht hreach, hq⟩
    · rintro ⟨q, e, hreach, hq, hturn⟩
      cases hreach with
      | refl => simp [ht] at hturn
      | skip _ _ _ _ hreach => exact ⟨q, e, hreach, hq, hturn⟩
      | entry _ _ n e' _ h' _ => simp [ht] at h'
  | case5 p s h ht =>
    refine ⟨nofun, iff_of_true ⟨_, _, rfl⟩ fun hstuck => ?_⟩
    simpa [ht] using here (Nat.le_of_not_lt h) hstuck
  | case6 p s h e ht => exact ⟨nofun, iff_of_false nofun fun hstuck => hstuck ⟨p, e, .refl p, Nat.le_of_not_lt h, ht⟩⟩
  | case7 p s h e n ht hn ih =>
    refine ⟨ih.1, ih.2.trans (not_congr ⟨?_, ?_⟩)⟩
    · rintro ⟨q, e', hreach, hq⟩
      exact ⟨q, e', .entry p q n e (Nat.le_of_not_lt h) ht hreach, hq⟩
    · rintro ⟨q, e', hreach, hq, hturn⟩
      cases hreach with
      | refl =>
        cases ht.symm.trans hturn
        exact absurd rfl hn
      | skip _ _ _ h' _ => simp [ht] at h'
      | entry _ _ n' e'' _ h' hreach =>
        cases ht.symm.trans h'
        exact ⟨q, e', hreach, hq, hturn⟩

theorem not_stuck (hlen : d.length + 3 < 2 ^ 32) (p : Nat) : ¬ Stuck d p := by
  rintro ⟨q, e, -, hq, hturn⟩
  have := turn_spec d q hq
  rw [hturn] at this
  exact absurd (this hlen) (Nat.lt_irrefl 0)

-- The filesystem with the sequence of the operations on it.
def logged (fs : Op → σ → Int × σ) : Op → σ × List Op → Int × σ × List Op := fun op s =>
  ((fs op s.1).1, (fs op s.1).2, s.2 ++ [op])

theorem place_logged (e : Entry) (s : σ × List Op) : s.2.length < (place (logged fs) e s).2.length := by
  have hone : ∀ op (s : σ × List Op), (logged fs op s).2.2.length = s.2.length + 1 := fun op s => by simp [logged]
  -- an entry that nothing is done for has its attributes set
  have hset : ∀ (r : Int) (s s₀ : σ × List Op) op, (r ≠ 0 → s₀.2.length < s.2.length) → s₀.2.length ≤ s.2.length →
      s₀.2.length < (if r = 0 then (logged fs op s).2 else s).2.length := by
    intro r s s₀ op hr hle
    split
    · rw [hone]
      omega
    · exact hr ‹_›
  unfold place
  dsimp only
  refine hset _ _ s _ ?_ ?_
  all_goals
    repeat' split
    all_goals simp [hone]

theorem unpack_logged {s s' : σ × List Op} {r : Int} (h : unpack (logged fs) d p s = .ret r s') :
    s.2.length ≤ s'.2.length := by
  fun_induction unpack (logged fs) d p s with
  | case1 | case3 | case5 =>
    cases h
    exact Nat.le_refl _
  | case2 | case6 => cases h
  | case4 p s _ _ ih => exact ih h
  | case7 p s _ e n _ _ ih => exact (place_logged e s).le.trans (ih h)

theorem Archive.unpack_same_iff (h : Archive l) (s : σ × List Op) :
    unpack (logged fs) l 0 s = .ret 0 s ↔ turn l 0 = .trailer := by
  cases h with
  | trailer l ht =>
    refine iff_of_true ?_ ht
    rw [unpack, ht]
    split <;> rfl
  | entry l rest e ht hrest =>
  have hlen : 110 ≤ l.length := Nat.le_of_not_lt fun hlt => by simp [turn, slice, Nat.not_le.mpr hlt] at ht
  rw [unpack, if_neg (by simp; omega), turn_append (by simp [ht]) (by simp [ht]), ht]
  refine iff_of_false (fun hsame => ?_) nofun
  simp only [if_neg (show l.length ≠ 0 by omega)] at hsame
  exact absurd ((place_logged e s).trans_le (unpack_logged hsame)) (Nat.lt_irrefl _)

-- Unpacking two archives that follow each other does what unpacking one and then the other does exactly if the second
-- has no entries: what follows the end mark is never unpacked.
theorem initramfs_composes_iff (fs : Op → σ → Int × σ) (s : σ × List Op) :
    (∀ a b k, Archive a → Archive b → ∃ s', unpackInitramfs (logged fs) a s = .ret 0 s' ∧
      (unpackInitramfs (logged fs) (a ++ replicate (4 * k) 0 ++ b) s = unpackInitramfs (logged fs) b s' ↔
        turn b 0 = .trailer)) ∧
    ∀ d, unpackInitramfs fs d s.1 ≠ .fault ∧ ((∃ r s', unpackInitramfs fs d s.1 = .ret r s') ↔ ¬ Stuck d 0) ∧
      (d.length + 3 < 2 ^ 32 → ¬ Stuck d 0) := by
  refine ⟨fun a b k ha hb => ?_, fun d => ⟨(unpack_spec d 0 s.1).1, (unpack_spec d 0 s.1).2, fun hd => not_stuck hd 0⟩⟩
  obtain ⟨s', hs'⟩ := ha.unpack_append s
  refine ⟨s', (append_nil a ▸ hs' [] :), ?_⟩
  rw [append_assoc, unpackInitramfs, hs', ← hb.unpack_same_iff s']
  exact eq_comm

end Unpack

-- An entry without a body, as `mkinitramfs.py` writes it.
def record (mode : Nat) (name : List UInt8) : List UInt8 :=
  let digit := fun v => UInt8.ofNat (if v < 10 then 48 + v else 87 + v)
  let hex := fun x => (range 8).map fun i => digit (x / 16 ^ (7 - i) % 16)
  [48, 55, 48, 55, 48, 49] ++ [1, mode, 0, 0, 1, 0, 0, 0, 0, 0, 0, name.length + 1, 0].flatMap hex ++ name ++
    replicate (4 - (110 + name.length) % 4) 0

def endRecord : List UInt8 := record 0 TRAILER

def dirRecord : List UInt8 := record 0o40755 [100]

-- An empty archive, and one with the directory "d" behind it.
theorem second_archive_ignored : let log := fun op s => (0, s ++ [op])
    Archive endRecord ∧ Archive (dirRecord ++ endRecord) ∧ unpackInitramfs log endRecord [] = .ret 0 [] ∧
    unpackInitramfs log (endRecord ++ replicate (4 * 1) 0 ++ (dirRecord ++ endRecord)) [] = .ret 0 [] ∧
    unpackInitramfs log (dirRecord ++ endRecord) [] = .ret 0 [.mkdir [47, 100] 0o755, .setattr [47, 100] 0o755 0 0 0] := by
  intro log
  have hend : turn endRecord 0 = .trailer := by decide +kernel
  have hdir : turn dirRecord 0 = .entry ⟨0o40755, 0, 0, 0, (0, 0), [100], []⟩ dirRecord.length := by decide +kernel
  have harchive := Archive.trailer endRecord hend
  refine ⟨harchive, .entry dirRecord endRecord _ hdir harchive, ?_, ?_, ?_⟩
  · rw [unpackInitramfs, unpack, hend]
    split <;> rfl
  · rw [unpackInitramfs, append_assoc, unpack, turn_append (by simp [hend]) (by simp [hend]), hend]
    split <;> rfl
  · rw [unpackInitramfs, unpack, if_neg (by decide +kernel), turn_append (by simp [hdir]) (by simp [hdir]), hdir]
    simp only
    rw [if_neg (by decide +kernel), Nat.zero_add, ← Nat.add_zero dirRecord.length, unpack_shift, unpack, hend]
    split <;> rfl

end Olux.Initramfs
