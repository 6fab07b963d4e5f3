import Olux.Basic

namespace Olux.Sendfile

open List

-- An open file with a position: a read at `pos` of up to `n` bytes returns an
-- error or a number of bytes, and moves the position by that number.
structure Input where
  byte : Nat → UInt8
  read : Nat → Nat → Nat → Int
  bounded : ∀ k pos n, read k pos n ≤ n

-- What the output does with the k-th write at `opos`: the result and the new position.
structure Output where
  write : Nat → Nat → List UInt8 → Int × Nat
  bounded : ∀ k opos b, (write k opos b).1 ≤ b.length

structure Pos where
  inPos : Nat
  outPos : Nat
  offset : Option Nat
deriving DecidableEq

structure Env where
  fds : Bool
  getUser : Bool
  kmalloc : Bool
  putUser : Bool

structure Locals where
  total : Int
  pos : Nat
  got : Int
  put : Int
  outPos : Nat
  taken : List UInt8

def Locals.start (pos outPos : Nat) : Locals := ⟨0, pos, 0, 0, outPos, []⟩

variable (i : Input) (o : Output)

def Input.chunk (pos got : Nat) : List UInt8 := (List.range got).map fun j => i.byte (pos + j)

def sendRound (count k : Nat) (l : Locals) : Bool × Locals :=
  let n := min (count - l.total.toNat) PAGE_SIZE
  let got := i.read k l.pos n
  if got ≤ 0 then (false, { l with got := got, total := if got < 0 ∧ l.total = 0 then got else l.total })
  else
    let buf := i.chunk l.pos got.toNat
    let put := (o.write k l.outPos buf).1
    let l := { l with pos := l.pos + got.toNat, got := got, put := put }
    if put ≤ 0 then (false, { l with total := if l.total = 0 then put else l.total })
    else
      (decide (got ≤ put), { l with
        outPos := (o.write k l.outPos buf).2
        total := l.total + put
        taken := l.taken ++ buf.take put.toNat })

def sendLoop (count : Nat) : Nat → Nat → Locals → Locals
  | 0, _, l => l
  | fuel + 1, k, l =>
    if l.total < count then
      match sendRound i o count k l with
      | (true, l) => sendLoop count fuel (k + 1) l
      | (false, l) => l
    else l

def send (count pos outPos : Nat) : Locals := sendLoop i o count count 0 (Locals.start pos outPos)

def sysSendfile (e : Env) (p : Pos) (count : Nat) : Int × Pos × List UInt8 :=
  if e.fds = false then (- EBADF, p, [])
  else if p.offset.isSome ∧ e.getUser = false then (- EFAULT, p, [])
  else if e.kmalloc = false then (- ENOMEM, p, [])
  else
    let l := send i o count (p.offset.getD p.inPos) p.outPos
    let p := { p with outPos := l.outPos }
    match p.offset with
    | none => (l.total, { p with inPos := l.pos }, l.taken)
    | some _ =>
      if 0 < l.total ∧ e.putUser then (l.total, { p with offset := some l.pos }, l.taken)
      else (l.total, p, l.taken)

def Pos.input (p : Pos) : Nat := p.offset.getD p.inPos

def Locals.Short (l : Locals) : Prop := 0 < l.got ∧ l.put < l.got

def Locals.rest (l : Locals) : Nat := if 0 < l.got then (l.got - max l.put 0).toNat else 0

structure Whole (start : Nat) (l : Locals) : Prop where
  pos : l.pos = start + l.taken.length
  total : l.total = l.taken.length
  last : l.put = l.got

structure Sent (start : Nat) (l : Locals) : Prop where
  pos : l.pos = start + l.taken.length + l.rest
  total : if l.taken = [] then l.total ≤ 0 else l.total = l.taken.length

variable {i o}

theorem Locals.rest_eq_zero_iff {l : Locals} : l.rest = 0 ↔ ¬l.Short := by
  unfold Locals.rest Locals.Short
  split <;> omega

theorem length_chunk (pos got : Nat) : (i.chunk pos got).length = got := by simp [Input.chunk]

theorem Whole.sent {start : Nat} {l : Locals} (h : Whole start l) : Sent start l := by
  have hrest : l.rest = 0 := Locals.rest_eq_zero_iff.mpr fun hs => absurd hs.2 (by rw [h.last]; omega)
  refine ⟨by rw [hrest]; exact h.pos, ?_⟩
  split
  · rename_i hnil
    rw [h.total, hnil, length_nil]
    omega
  · exact h.total

theorem Whole.stop {start : Nat} {l l' : Locals} {r : Int} (h : Whole start l) (htaken : l'.taken = l.taken)
    (hpos : l'.pos = l.pos + l'.rest) (hr : r ≤ 0) (htotal : l'.total = if l.total = 0 then r else l.total) : Sent start l' := by
  refine ⟨by rw [htaken, hpos, h.pos], ?_⟩
  rw [htaken, htotal]
  have ht := h.total
  split
  · rename_i hnil
    rw [hnil, length_nil] at ht
    rw [if_pos (by omega)]
    exact hr
  rename_i hnil
  have hlen := length_pos_iff.mpr hnil
  rw [if_neg (by omega)]
  exact ht

def AfterRound (start : Nat) : Bool × Locals → Prop
  | (true, l) => Whole start l
  | (false, l) => Sent start l

theorem sendRound_spec (count k start : Nat) (l : Locals) (h : Whole start l) :
    AfterRound start (sendRound i o count k l) := by
  unfold sendRound
  dsimp only
  generalize i.read k l.pos (min (count - l.total.toNat) PAGE_SIZE) = got
  split
  · rename_i hend
    refine h.stop rfl ?_ hend ?_
    · show l.pos = l.pos + (if 0 < got then _ else 0)
      rw [if_neg (by omega), Nat.add_zero]
    dsimp only
    have ht := h.total
    split <;> split <;> omega
  rename_i hend
  have hlen := length_chunk (i := i) l.pos got.toNat
  have hput := o.bounded k l.outPos (i.chunk l.pos got.toNat)
  generalize o.write k l.outPos (i.chunk l.pos got.toNat) = w at hput ⊢
  obtain ⟨put, opos⟩ := w
  generalize i.chunk l.pos got.toNat = buf at hlen hput ⊢
  dsimp only at hput ⊢
  split
  · rename_i hnone
    refine h.stop rfl ?_ hnone rfl
    simp only [Locals.rest, if_pos (show 0 < got by omega)]
    omega
  rename_i hsome
  have htake : (buf.take put.toNat).length = put.toNat := by
    rw [length_take]
    omega
  have hpos := h.pos
  have htotal := h.total
  by_cases hall : got ≤ put
  · rw [decide_eq_true hall]
    refine ⟨?_, ?_, ?_⟩ <;> dsimp only <;> try rw [length_append, htake]
    · omega
    · omega
    · omega
  rw [decide_eq_false hall]
  refine ⟨?_, ?_⟩ <;> dsimp only
  · simp only [Locals.rest, if_pos (show 0 < got by omega), length_append, htake]
    omega
  rw [if_neg, length_append, htake]
  · omega
  · intro hnil
    have hz := congrArg List.length hnil
    rw [length_append, htake, length_nil] at hz
    omega

theorem sendLoop_sent (count start fuel k : Nat) (l : Locals) (h : Whole start l) :
    Sent start (sendLoop i o count fuel k l) := by
  induction fuel generalizing k l with
  | zero => exact h.sent
  | succ fuel ih =>
  unfold sendLoop
  split
  · have hround := sendRound_spec (i := i) (o := o) count k start l h
    split
    · rename_i l' heq
      rw [heq] at hround
      exact ih (k + 1) l' hround
    rename_i l' heq
    rw [heq] at hround
    exact hround
  · exact h.sent

def Lossless (p : Pos) : Int × Pos × List UInt8 → Prop
  | (r, p', taken) => p'.input = p.input + taken.length ∧ (0 < r → r = taken.length)

def Starts (e : Env) (p : Pos) : Prop :=
  e.fds = true ∧ (p.offset.isSome = true → e.getUser = true) ∧ e.kmalloc = true

-- The output takes each chunk that the input gives whole, from the k-th round on: `sent` bytes are out.
def AllTaken (i : Input) (o : Output) (count : Nat) : Nat → Nat → Nat → Nat → Nat → Prop
  | 0, _, _, _, _ => True
  | fuel + 1, k, sent, pos, opos =>
    let got := i.read k pos (min (count - sent) PAGE_SIZE)
    let w := o.write k opos (i.chunk pos got.toNat)
    sent < count → 0 < got → got ≤ w.1 ∧ AllTaken i o count fuel (k + 1) (sent + got.toNat) (pos + got.toNat) w.2

-- The input gives something, and the output takes some of it.
def FirstTaken (i : Input) (o : Output) (count pos opos : Nat) : Prop :=
  0 < count ∧ 0 < i.read 0 pos (min count PAGE_SIZE) ∧
    0 < (o.write 0 opos (i.chunk pos (i.read 0 pos (min count PAGE_SIZE)).toNat)).1

def Stored (i : Input) (o : Output) (e : Env) (p : Pos) (count : Nat) : Prop :=
  if p.offset.isSome then
    FirstTaken i o count p.input p.outPos → e.putUser = true ∧ AllTaken i o count count 0 0 p.input p.outPos
  else AllTaken i o count count 0 0 p.input p.outPos

theorem sendLoop_short_iff {count start fuel k : Nat} {l : Locals} (h : Whole start l) :
    (sendLoop i o count fuel k l).Short ↔ ¬ AllTaken i o count fuel k l.total.toNat l.pos l.outPos := by
  have hnot : ¬ l.Short := fun hs => absurd hs.2 (by rw [h.last]; omega)
  induction fuel generalizing k l with
  | zero => exact iff_of_false hnot (not_not.mpr trivial)
  | succ fuel ih =>
  have ht := h.total
  have hround := sendRound_spec (i := i) (o := o) count k start l h
  rw [sendLoop, AllTaken]
  by_cases hmore : l.total < count
  swap
  · rw [if_neg hmore]
    exact iff_of_false hnot (not_not.mpr fun hlt => by omega)
  rw [if_pos hmore]
  revert hround
  unfold sendRound
  dsimp only
  generalize i.read k l.pos (min (count - l.total.toNat) PAGE_SIZE) = got
  by_cases hgot : got ≤ 0
  · rw [if_pos hgot]
    exact fun _ => iff_of_false (fun hs => by have := hs.1; dsimp only at this; omega) (not_not.mpr fun _ hpos => by omega)
  rw [if_neg hgot]
  have hput := o.bounded k l.outPos (i.chunk l.pos got.toNat)
  rw [length_chunk] at hput
  generalize o.write k l.outPos (i.chunk l.pos got.toNat) = w at hput ⊢
  by_cases hnone : w.1 ≤ 0
  · rw [if_pos hnone]
    refine fun _ => iff_of_true ⟨by dsimp only; omega, by dsimp only; omega⟩ fun hall => ?_
    have := (hall (by omega) (by omega)).1
    omega
  rw [if_neg hnone]
  by_cases hall : got ≤ w.1
  · rw [decide_eq_true hall]
    intro hwhole
    have hsum : (l.total + w.1).toNat = l.total.toNat + got.toNat := by omega
    rw [show (sendLoop i o count fuel (k + 1) _).Short ↔ _ from
      ih hwhole fun hs => absurd hs.2 (by rw [hwhole.last]; omega)]
    dsimp only
    rw [hsum, not_iff_not]
    exact ⟨fun hrest _ _ => ⟨hall, hrest⟩, fun hrest => (hrest (by omega) (by omega)).2⟩
  · rw [decide_eq_false hall]
    exact fun _ => iff_of_true ⟨by dsimp only; omega, by dsimp only; omega⟩ fun h => hall (h (by omega) (by omega)).1

theorem sendLoop_total_pos {count fuel k : Nat} {l : Locals} (h : 0 < l.total) :
    0 < (sendLoop i o count fuel k l).total := by
  induction fuel generalizing k l with
  | zero => exact h
  | succ fuel ih =>
  have hround : 0 < (sendRound i o count k l).2.total := by
    unfold sendRound
    dsimp only
    split
    · dsimp only
      split <;> omega
    split
    · dsimp only
      split <;> omega
    · dsimp only
      omega
  rw [sendLoop]
  split
  · split
    · rename_i l' heq
      rw [heq] at hround
      exact ih hround
    · rename_i l' heq
      rwa [heq] at hround
  · exact h

theorem send_total_pos_iff {count pos opos : Nat} :
    0 < (send i o count pos opos).total ↔ FirstTaken i o count pos opos := by
  unfold send FirstTaken
  cases count with
  | zero => exact iff_of_false (Int.lt_irrefl 0) fun h => absurd h.1 (Nat.lt_irrefl 0)
  | succ count =>
  rw [sendLoop, if_pos (by simp only [Locals.start]; omega)]
  unfold sendRound
  dsimp only [Locals.start, Int.toNat_zero, Nat.sub_zero]
  generalize i.read 0 pos (min (count + 1) PAGE_SIZE) = got
  by_cases hgot : got ≤ 0
  · rw [if_pos hgot]
    exact iff_of_false (by simp only [and_true]; split <;> omega) fun h => by omega
  rw [if_neg hgot]
  by_cases hnone : (o.write 0 opos (i.chunk pos got.toNat)).1 ≤ 0
  · rw [if_pos hnone]
    exact iff_of_false (Int.not_lt.mpr hnone) fun h => by omega
  rw [if_neg hnone]
  refine iff_of_true ?_ ⟨Nat.succ_pos _, by omega, by omega⟩
  split
  · rename_i l' heq
    refine sendLoop_total_pos ?_
    rw [← (Prod.mk.inj heq).2]
    dsimp only
    omega
  · rename_i l' heq
    rw [← (Prod.mk.inj heq).2]
    dsimp only
    omega

theorem sysSendfile_fails {e : Env} {p : Pos} (count : Nat) (h : ¬Starts e p) :
    ∃ r, r < 0 ∧ sysSendfile i o e p count = (r, p, []) := by
  unfold sysSendfile
  split
  · exact ⟨_, by decide, rfl⟩
  split
  · exact ⟨_, by decide, rfl⟩
  split
  · exact ⟨_, by decide, rfl⟩
  · rename_i hfds huser hmem
    refine absurd ⟨by simpa using hfds, fun hs => ?_, by simpa using hmem⟩ h
    by_contra hno
    exact huser ⟨hs, by simpa using hno⟩

-- `sys_sendfile` moves the input by what it read. It loses nothing exactly if the output takes each
-- chunk whole and the position can be stored, or if the call has an offset and sends nothing.
theorem sendfile_lossless_iff (e : Env) (p : Pos) (count : Nat) :
    Lossless p (sysSendfile i o e p count) ↔ (Starts e p → Stored i o e p count) := by
  by_cases hstart : Starts e p
  swap
  · obtain ⟨r, hr, hrun⟩ := sysSendfile_fails (i := i) (o := o) count hstart
    rw [hrun]
    exact iff_of_true ⟨rfl, fun hpos => absurd hpos (by omega)⟩ fun hs => absurd hs hstart
  have hsent : Sent p.input (send i o count p.input p.outPos) := sendLoop_sent _ _ _ _ _ ⟨rfl, rfl, rfl⟩
  have hshort : ¬ (send i o count p.input p.outPos).Short ↔ AllTaken i o count count 0 0 p.input p.outPos :=
    not_iff_comm.mp (sendLoop_short_iff (l := Locals.start p.input p.outPos) ⟨rfl, rfl, rfl⟩).symm
  rw [forall_prop_of_true hstart, Stored, ← hshort, ← send_total_pos_iff]
  obtain ⟨hfds, huser, hmem⟩ := hstart
  unfold sysSendfile
  rw [if_neg (by simp [hfds]), if_neg (by simp only [not_and]; intro hs; simp [huser hs]), if_neg (by simp [hmem])]
  dsimp only
  change Sent _ (send i o count (p.offset.getD p.inPos) p.outPos) at hsent
  rw [show p.input = p.offset.getD p.inPos from rfl]
  generalize send i o count (p.offset.getD p.inPos) p.outPos = l at hsent ⊢
  obtain ⟨hpos, htotal⟩ := hsent
  have hresult : 0 < l.total → l.total = l.taken.length := by
    intro hp
    split at htotal
    · omega
    · exact htotal
  have hkeep : l.pos = p.input + l.taken.length ↔ ¬l.Short := by
    rw [← Locals.rest_eq_zero_iff, hpos]
    omega
  obtain ⟨inPos, outPos, offset⟩ := p
  cases offset with
  | none =>
    change l.pos = inPos + l.taken.length ∧ _ ↔ ¬l.Short
    exact ⟨fun h => hkeep.mp h.1, fun h => ⟨hkeep.mpr h, hresult⟩⟩
  | some off =>
  change l.pos = off + l.taken.length ↔ ¬l.Short at hkeep
  change Lossless _ (if 0 < l.total ∧ e.putUser = true then _ else _) ↔ (0 < l.total → e.putUser = true ∧ ¬l.Short)
  split
  · rename_i hput
    change l.pos = off + l.taken.length ∧ _ ↔ _
    exact ⟨fun h _ => ⟨hput.2, hkeep.mp h.1⟩, fun h => ⟨hkeep.mpr (h hput.1).2, hresult⟩⟩
  rename_i hput
  change off = off + l.taken.length ∧ _ ↔ _
  constructor
  · intro h hp
    have := hresult hp
    omega
  intro h
  have hle : ¬0 < l.total := fun hp => hput ⟨hp, (h hp).1⟩
  refine ⟨?_, hresult⟩
  split at htotal
  · rename_i hnil
    rw [hnil, length_nil, Nat.add_zero]
  · omega

def zeros : Input := ⟨fun _ => 0, fun _ _ n => n, fun _ _ _ => Int.le_refl _⟩

def narrow : Output where
  write _ opos b := (min 1 b.length, opos + min 1 b.length)
  bounded _ _ _ := Int.min_le_right _ _

theorem short_write_loses_byte :
    sysSendfile zeros narrow ⟨true, true, true, true⟩ ⟨0, 0, none⟩ 2 = (1, ⟨2, 1, none⟩, [0]) ∧
      ¬Lossless ⟨0, 0, none⟩ (sysSendfile zeros narrow ⟨true, true, true, true⟩ ⟨0, 0, none⟩ 2) := by
  have hrun : sysSendfile zeros narrow ⟨true, true, true, true⟩ ⟨0, 0, none⟩ 2 = (1, ⟨2, 1, none⟩, [0]) := by decide
  refine ⟨hrun, ?_⟩
  rw [hrun]
  rintro ⟨hpos, _⟩
  exact absurd hpos (by decide)

end Olux.Sendfile
