import Olux.Tmpfs
import Olux.Lib.Sparse
import Olux.Lib.Sum

namespace Olux.Tmpfs

open Olux.Lib Function List Option

variable {p n pos d used : Nat} {pages : List (Option Page)} {i₀ i : Inode} {buf : List UInt8}

def Inode.byteAt (i : Inode) (k : Nat) : UInt8 :=
  match i.slot (k / PAGE_SIZE) with
  | some pg => pg (k % PAGE_SIZE)
  | none => 0

def Inode.allocated (i : Inode) : Nat := i.pages.countP Option.isSome

def Inode.Counted (i : Inode) : Prop := i.blocks = i.allocated * (PAGE_SIZE / 512)

def Refines (i : Inode) (a : Sparse) : Prop := i.size = a.size ∧ ∀ k, i.byteAt k = a.byte k

theorem countP_set_slot (hp : p < pages.length) (v : Option Page) :
    (pages.set p v).countP Option.isSome + (pages.getD p none).isSome.toNat =
      pages.countP Option.isSome + v.isSome.toNat := by
  induction pages generalizing p with
  | nil => cases hp
  | cons x pages ih =>
  cases p with
  | zero =>
    simp only [set_cons_zero, countP_cons, getD_cons_zero]
    cases x <;> cases v <;> rfl
  | succ p =>
    have h := ih (Nat.lt_of_succ_lt_succ hp)
    simp only [set_cons_succ, countP_cons, getD_cons_succ]
    omega

theorem getD_set_slot (hp : p < pages.length) (v : Option Page) (q : Nat) :
    (pages.set p v).getD q none = if q = p then v else pages.getD q none := by
  rw [getD_eq_getElem?_getD, getD_eq_getElem?_getD, getElem?_set]
  by_cases h : p = q
  · subst h
    simp [hp]
  · rw [if_neg h, if_neg (Ne.symm h)]

theorem slot_counted {pg : Page} (h : pages.getD p none = some pg) :
    p < pages.length ∧ 0 < pages.countP Option.isSome := by
  have hp : p < pages.length := by
    by_contra hle
    rw [getD_eq_default _ _ (Nat.le_of_not_lt hle)] at h
    cases h
  have hset := countP_set_slot hp none
  rw [h] at hset
  exact ⟨hp, by simp at hset; omega⟩

theorem freeSlots_spec (n p : Nat) (pages : List (Option Page)) (used : Nat) (h : pages.countP Option.isSome ≤ used) :
    (freeSlots n p pages used).1.length = pages.length ∧ (∀ q, (freeSlots n p pages used).1.getD q none =
        if p ≤ q ∧ q < p + n then none else pages.getD q none) ∧
      (freeSlots n p pages used).2 + pages.countP Option.isSome =
        used + (freeSlots n p pages used).1.countP Option.isSome := by
  induction n generalizing p pages used with
  | zero => exact ⟨rfl, fun q => (if_neg (by omega)).symm, rfl⟩
  | succ n ih =>
  unfold freeSlots
  cases hslot : pages.getD p none with
  | none =>
    obtain ⟨hlen, hget, hcount⟩ := ih (p + 1) pages used h
    refine ⟨hlen, fun q => ?_, hcount⟩
    rw [hget]
    by_cases hq : q = p
    · subst hq
      rw [if_neg (by omega), if_pos (by omega), hslot]
    · exact if_congr (by omega) rfl rfl
  | some pg =>
  obtain ⟨hp, hpos⟩ := slot_counted hslot
  have hset := countP_set_slot hp none
  rw [hslot] at hset
  simp only [isSome_some, Bool.toNat_true, isSome_none, Bool.toNat_false] at hset
  obtain ⟨hlen, hget, hcount⟩ := ih (p + 1) (pages.set p none) (used - 1) (by omega)
  refine ⟨hlen.trans (length_set ..), fun q => ?_, by dsimp only; omega⟩
  dsimp only
  rw [hget, getD_set_slot hp]
  by_cases hq : q = p
  · subst hq
    rw [if_neg (by omega), if_pos rfl, if_pos (by omega)]
  · rw [if_neg hq]
    exact if_congr (by omega) rfl rfl

theorem countP_take_of_empty (h : ∀ q, n ≤ q → pages.getD q none = none) :
    (pages.take n).countP Option.isSome = pages.countP Option.isSome := by
  conv_rhs => rw [← take_append_drop n pages, countP_append]
  have hrest : (pages.drop n).countP Option.isSome = 0 := by
    rw [countP_eq_zero]
    intro x hx
    obtain ⟨k, hk, rfl⟩ := mem_iff_getElem.mp hx
    have hnone := h (n + k) (by omega)
    rw [length_drop] at hk
    rw [getD_eq_getElem _ _ (by omega)] at hnone
    rw [getElem_drop, hnone]
    simp
  omega

theorem zeroTail_spec (pages : List (Option Page)) (size keep : Nat) :
    (zeroTail pages size keep).countP Option.isSome = pages.countP Option.isSome ∧
      ∀ q, (zeroTail pages size keep).getD q none =
        if q + 1 = keep ∧ size % PAGE_SIZE ≠ 0 then (pages.getD q none).map (zeroFrom · (size % PAGE_SIZE))
        else pages.getD q none := by
  -- without a page behind the last slot both sides are the slots as they are
  have hsame : (size % PAGE_SIZE ≠ 0 → ∀ q, q + 1 = keep → pages.getD q none = none) → ∀ q,
      pages.getD q none = if q + 1 = keep ∧ size % PAGE_SIZE ≠ 0 then
        (pages.getD q none).map (zeroFrom · (size % PAGE_SIZE)) else pages.getD q none := by
    intro hnone q
    split
    · rename_i hq
      rw [hnone hq.2 q hq.1]
      rfl
    · rfl
  unfold zeroTail
  split
  · rename_i hc
    split
    · rename_i pg hpg
      obtain ⟨hlt, -⟩ := slot_counted hpg
      have hset := countP_set_slot hlt (some (zeroFrom pg (size % PAGE_SIZE)))
      rw [hpg] at hset
      refine ⟨by simpa using hset, fun q => ?_⟩
      rw [getD_set_slot hlt]
      by_cases hq : q = keep - 1
      · rw [if_pos hq, if_pos ⟨by omega, hc.1⟩, hq, hpg]
        rfl
      · rw [if_neg hq, if_neg (by omega)]
    rename_i hpg
    refine ⟨rfl, hsame fun _ q hq => ?_⟩
    rw [show q = keep - 1 by omega, hpg]
  rename_i hc
  refine ⟨rfl, hsame fun hs q hq => ?_⟩
  exact getD_eq_default _ _ (by omega)

theorem truncatePages_spec (i : Inode) (used size : Nat) (h : i.allocated ≤ used) :
    let r := truncatePages i used size
    r.1.size = size ∧ r.1.Counted ∧ r.2 + i.allocated = used + r.1.allocated ∧
      ∀ k, r.1.byteAt k = if k < size then i.byteAt k else 0 := by
  unfold truncatePages
  dsimp only
  generalize hkeep : (size + PAGE_SIZE - 1) / PAGE_SIZE = keep
  have hks : size ≤ keep * 4096 ∧ keep * 4096 < size + 4096 := by
    unfold PAGE_SIZE at hkeep
    omega
  obtain ⟨-, hget, hcount⟩ := freeSlots_spec (i.pages.length - keep) keep i.pages used h
  generalize freeSlots (i.pages.length - keep) keep i.pages used = freed at *
  obtain ⟨pages, used'⟩ := freed
  dsimp only at *
  obtain ⟨htcount, htget⟩ := zeroTail_spec pages size keep
  have hbeyond : ∀ q, keep ≤ q → (zeroTail pages size keep).getD q none = none := by
    intro q hq
    rw [htget, if_neg (by omega), hget]
    by_cases hin : q < i.pages.length
    · rw [if_pos (by omega)]
    · rw [if_neg (by omega), getD_eq_default _ _ (by omega)]
  refine ⟨rfl, ?_, ?_, fun k => ?_⟩
  · unfold Inode.Counted Inode.allocated countBlocks
    dsimp only
    rw [countP_take_of_empty]
    intro q hq
    by_cases hqk : keep ≤ q
    · exact hbeyond q hqk
    · exact getD_eq_default _ _ (by omega)
  · unfold Inode.allocated
    rw [htcount]
    exact hcount
  unfold Inode.byteAt Inode.slot
  by_cases hk : keep ≤ k / PAGE_SIZE
  · rw [hbeyond _ hk, if_neg (by unfold PAGE_SIZE at hk; omega)]
  -- below the cut only the last page has changed, and only behind `size`
  have hold : pages.getD (k / PAGE_SIZE) none = i.pages.getD (k / PAGE_SIZE) none := by
    rw [hget, if_neg (by omega)]
  dsimp only
  rw [htget, hold]
  cases i.pages.getD (k / PAGE_SIZE) none with
  | none => simp
  | some pg =>
  unfold PAGE_SIZE at *
  by_cases hlast : k / 4096 + 1 = keep ∧ size % 4096 ≠ 0
  · rw [if_pos hlast]
    simp only [map_some, zeroFrom]
    by_cases hks' : k < size
    · rw [if_neg (by omega), if_pos hks']
    · rw [if_pos (by omega), if_neg hks']
  · rw [if_neg hlast, if_pos (by omega)]

theorem ensureSlots_spec (i : Inode) (idx : Nat) :
    idx < (ensureSlots i idx).pages.length ∧ (ensureSlots i idx).size = i.size ∧
      (ensureSlots i idx).blocks = i.blocks ∧ (ensureSlots i idx).allocated = i.allocated ∧
      ∀ q, (ensureSlots i idx).slot q = i.slot q := by
  unfold ensureSlots
  split
  · exact ⟨‹_›, rfl, rfl, rfl, fun _ => rfl⟩
  refine ⟨by simp; omega, rfl, rfl, ?_, fun q => ?_⟩
  · simp [Inode.allocated, countP_append, countP_replicate]
  unfold Inode.slot
  dsimp only
  by_cases hq : q < i.pages.length
  · rw [getD_append _ _ _ _ hq]
  rw [getD_append_right _ _ _ _ (by omega), getD_eq_default i.pages _ (by omega)]
  by_cases hr : q - i.pages.length < max (max (idx + 1) (i.pages.length * 2)) 8 - i.pages.length
  · rw [getD_replicate _ hr]
  · rw [getD_eq_default _ _ (by simp; omega)]

theorem byteAt_overlay (i : Inode) {idx : Nat} (po : Nat) (data : List UInt8) (pg : Page)
    (hidx : idx < i.pages.length) (hpo : po + data.length ≤ PAGE_SIZE) (hpg : (i.slot idx).getD (fun _ => 0) = pg)
    (k : Nat) :
    ({ i with pages := i.pages.set idx (some (overlay pg po data)) } : Inode).byteAt k =
      if idx * PAGE_SIZE + po ≤ k ∧ k < idx * PAGE_SIZE + po + data.length then
        data.getD (k - (idx * PAGE_SIZE + po)) 0 else i.byteAt k := by
  unfold Inode.byteAt Inode.slot at *
  dsimp only
  rw [getD_set_slot hidx]
  unfold PAGE_SIZE at *
  by_cases hk : k / 4096 = idx
  · rw [if_pos hk, hk]
    have hold : (match i.pages.getD idx none with | some pg => pg (k % 4096) | none => 0) = pg (k % 4096) := by
      rw [← hpg]
      cases i.pages.getD idx none <;> rfl
    rw [hold]
    unfold overlay
    refine if_congr (by omega) ?_ rfl
    rw [show k % 4096 - po = k - (idx * 4096 + po) by omega]
  · rw [if_neg hk, if_neg (by omega)]

structure Wrote (i₀ : Inode) (buf : List UInt8) (pos d : Nat) (i : Inode) : Prop where
  bytes : ∀ k, i.byteAt k = if pos ≤ k ∧ k < pos + d then buf.getD (k - pos) 0 else i₀.byteAt k
  size : i.size = i₀.size

theorem Wrote.ensureSlots (h : Wrote i₀ buf pos d i) (idx : Nat) : Wrote i₀ buf pos d (Tmpfs.ensureSlots i idx) := by
  obtain ⟨-, hsize, -, -, hslot⟩ := ensureSlots_spec i idx
  refine ⟨fun k => ?_, hsize.trans h.size⟩
  rw [← h.bytes k]
  unfold Inode.byteAt
  rw [hslot]

theorem Wrote.chunk {pg : Page} (h : Wrote i₀ buf pos d i) (blocks : Nat)
    (hidx : (pos + d) / PAGE_SIZE < i.pages.length) (hn : n ≤ buf.length - d)
    (hpage : n ≤ PAGE_SIZE - (pos + d) % PAGE_SIZE) (hpg : (i.slot ((pos + d) / PAGE_SIZE)).getD (fun _ => 0) = pg) :
    Wrote i₀ buf pos (d + n)
      { i with
        blocks := blocks
        pages := i.pages.set ((pos + d) / PAGE_SIZE)
          (some (overlay pg ((pos + d) % PAGE_SIZE) ((buf.drop d).take n))) } := by
  have hlen : ((buf.drop d).take n).length = n := by
    rw [length_take, length_drop]
    omega
  have hpo : (pos + d) % PAGE_SIZE < PAGE_SIZE := Nat.mod_lt _ (by decide)
  have hbyte := byteAt_overlay i ((pos + d) % PAGE_SIZE) ((buf.drop d).take n) pg hidx
    (by rw [hlen]; omega) hpg
  have hsplit : (pos + d) / PAGE_SIZE * PAGE_SIZE + (pos + d) % PAGE_SIZE = pos + d := Nat.div_add_mod' _ _
  refine ⟨fun k => ?_, h.size⟩
  have hk := hbyte k
  rw [hsplit, hlen] at hk
  refine hk.trans ?_
  rw [h.bytes k]
  by_cases hin : pos + d ≤ k ∧ k < pos + d + n
  · rw [if_pos hin, if_pos (by omega), getD_eq_getElem?_getD, getElem?_take,
      if_pos (by omega), getElem?_drop, getD_eq_getElem?_getD, show d + (k - (pos + d)) = k - pos by omega]
  · rw [if_neg hin]
    exact if_congr (by omega) rfl rfl

structure Partly (i₀ : Inode) (used₀ : Nat) (buf : List UInt8) (pos d : Nat) (i : Inode) (used : Nat) : Prop where
  bytes : ∀ k, i.byteAt k = if pos ≤ k ∧ k < pos + d then buf.getD (k - pos) 0 else i₀.byteAt k
  size : i.size = i₀.size
  counted : i.Counted
  used : used + i₀.allocated = used₀ + i.allocated

theorem Partly.ensureSlots {used₀ : Nat} (h : Partly i₀ used₀ buf pos d i used) (idx : Nat) :
    Partly i₀ used₀ buf pos d (Tmpfs.ensureSlots i idx) used := by
  obtain ⟨-, -, hblocks, halloc, -⟩ := ensureSlots_spec i idx
  obtain ⟨hbytes, hsize⟩ := Wrote.ensureSlots ⟨h.bytes, h.size⟩ idx
  refine ⟨hbytes, hsize, ?_, by rw [halloc]; exact h.used⟩
  unfold Inode.Counted
  rw [hblocks, halloc]
  exact h.counted

theorem Partly.chunk {used₀ : Nat} {pg : Page} (h : Partly i₀ used₀ buf pos d i used) (fresh : Nat)
    (hidx : (pos + d) / PAGE_SIZE < i.pages.length) (hn : n ≤ buf.length - d)
    (hpage : n ≤ PAGE_SIZE - (pos + d) % PAGE_SIZE) (hpg : (i.slot ((pos + d) / PAGE_SIZE)).getD (fun _ => 0) = pg)
    (hfresh : fresh + (i.slot ((pos + d) / PAGE_SIZE)).isSome.toNat = 1) :
    Partly i₀ used₀ buf pos (d + n)
      { i with
        blocks := i.blocks + fresh * (PAGE_SIZE / 512)
        pages := i.pages.set ((pos + d) / PAGE_SIZE)
          (some (overlay pg ((pos + d) % PAGE_SIZE) ((buf.drop d).take n))) } (used + fresh) := by
  obtain ⟨hbytes, hsize⟩ := Wrote.chunk ⟨h.bytes, h.size⟩ (i.blocks + fresh * (PAGE_SIZE / 512)) hidx hn hpage hpg
  have hset := countP_set_slot hidx (some (overlay pg ((pos + d) % PAGE_SIZE) ((buf.drop d).take n)))
  have halloc : (i.pages.set ((pos + d) / PAGE_SIZE)
      (some (overlay pg ((pos + d) % PAGE_SIZE) ((buf.drop d).take n)))).countP Option.isSome =
      i.allocated + fresh := by
    have hone : (i.pages.getD ((pos + d) / PAGE_SIZE) none).isSome.toNat + fresh = 1 := by
      rw [Nat.add_comm]
      exact hfresh
    unfold Inode.allocated
    simp only [isSome_some, Bool.toNat_true] at hset
    omega
  refine ⟨hbytes, hsize, ?_, ?_⟩
  · have hc := h.counted
    unfold Inode.Counted at hc ⊢
    unfold Inode.allocated at hc ⊢ halloc
    dsimp only
    rw [halloc, hc, Nat.add_mul]
  have hu := h.used
  unfold Inode.allocated at hu ⊢ halloc
  dsimp only
  omega

def WriteEnd (maxPages : Nat) (buf : List UInt8) (pos d₀ : Nat) (i₀ : Inode) (used₀ : Nat) : Ended × Inode × Nat → Prop
  | (.wrote d, i, used) => d ≤ buf.length ∧ Partly i₀ used₀ buf pos d i used ∧
      (d = buf.length ∨ d ≠ 0 ∧ maxPages ≤ used)
  | (.err r, i, used) => r = - ENOSPC ∧ d₀ = 0 ∧ Partly i₀ used₀ buf pos 0 i used ∧ maxPages ≤ used

theorem writeLoop_spec (maxPages : Nat) (buf : List UInt8) (pos : Nat) (i₀ : Inode) (used₀ : Nat)
    (fuel d : Nat) (i : Inode) (used : Nat) (hd : d ≤ buf.length) (hfuel : buf.length ≤ d + fuel)
    (h : Partly i₀ used₀ buf pos d i used) :
    WriteEnd maxPages buf pos d i₀ used₀ (writeLoop Env.good maxPages buf pos fuel d i used) := by
  induction fuel generalizing d i used with
  | zero => exact ⟨hd, h, .inl (by omega)⟩
  | succ fuel ih =>
  unfold writeLoop
  by_cases hlt : d < buf.length
  · rw [if_pos hlt]
    dsimp only
    rw [if_neg (by simp [Env.good])]
    have h' := h.ensureSlots ((pos + d) / PAGE_SIZE)
    have hidx := (ensureSlots_spec i ((pos + d) / PAGE_SIZE)).1
    generalize ensureSlots i ((pos + d) / PAGE_SIZE) = i' at h' hidx ⊢
    generalize hn : min (buf.length - d) (PAGE_SIZE - (pos + d) % PAGE_SIZE) = n
    have hpo : (pos + d) % PAGE_SIZE < PAGE_SIZE := Nat.mod_lt _ (by decide)
    -- what a longer prefix ends with is what the loop ends with here
    have hfrom : ∀ {i used}, Partly i₀ used₀ buf pos (d + n) i used → WriteEnd maxPages buf pos d i₀ used₀
        (writeLoop Env.good maxPages buf pos fuel (d + n) i used) := by
      intro i used hp
      have hend := ih (d + n) i used (by omega) (by omega) hp
      generalize writeLoop Env.good maxPages buf pos fuel (d + n) i used = r at hend
      obtain ⟨_ | _, _, _⟩ := r
      · exact absurd hend.2.1 (by omega)
      · exact hend
    cases hslot : i'.slot ((pos + d) / PAGE_SIZE) with
    | some pg =>
      dsimp only
      have hnext := h'.chunk (n := n) 0 hidx (by omega) (by omega)
        (congrArg (Option.getD · fun _ => 0) hslot) (by rw [hslot]; rfl)
      simp only [Nat.zero_mul, Nat.add_zero] at hnext
      exact hfrom hnext
    | none =>
    dsimp only
    by_cases hfull : maxPages ≤ used
    · rw [if_pos hfull]
      unfold tooEarly
      split
      · rename_i hzero
        subst hzero
        exact ⟨rfl, rfl, h', hfull⟩
      · exact ⟨hd, h', .inr ⟨‹_›, hfull⟩⟩
    rw [if_neg hfull]
    have hnext := h'.chunk (n := n) 1 hidx (by omega) (by omega)
      (congrArg (Option.getD · fun _ => 0) hslot) (by rw [hslot]; rfl)
    simp only [Nat.one_mul] at hnext
    exact hfrom hnext
  · rw [if_neg hlt]
    exact ⟨hd, h, .inl (by omega)⟩

theorem readChunk_eq (i : Inode) (off chunk : Nat) (h : chunk ≤ PAGE_SIZE - off % PAGE_SIZE) :
    readChunk i off chunk = (List.range chunk).map fun k => i.byteAt (off + k) := by
  unfold readChunk
  refine map_congr_left fun k hk => ?_
  have hk := mem_range.mp hk
  unfold Inode.byteAt PAGE_SIZE at *
  have hpage : (off + k) / 4096 = off / 4096 := by omega
  have hoff : (off + k) % 4096 = off % 4096 + k := by omega
  generalize (off + k) / 4096 = a at *
  generalize (off + k) % 4096 = b at *
  subst hpage hoff
  rfl

theorem readLoop_spec (i : Inode) (pos total fuel d : Nat) (hd : d ≤ total) (hfuel : total ≤ d + fuel) :
    readLoop Env.good i pos total fuel d ((List.range d).map fun k => i.byteAt (pos + k)) =
      (true, (List.range total).map fun k => i.byteAt (pos + k)) := by
  induction fuel generalizing d with
  | zero =>
    have : d = total := by omega
    subst this
    rfl
  | succ fuel ih =>
  unfold readLoop
  by_cases hlt : d < total
  · rw [if_pos hlt]
    dsimp only
    rw [if_neg (by simp [Env.good])]
    generalize hn : min (total - d) (PAGE_SIZE - (pos + d) % PAGE_SIZE) = n
    have hpo : (pos + d) % PAGE_SIZE < PAGE_SIZE := Nat.mod_lt _ (by decide)
    have hout : ((List.range d).map fun k => i.byteAt (pos + k)) ++ readChunk i (pos + d) n =
        (List.range (d + n)).map fun k => i.byteAt (pos + k) := by
      rw [readChunk_eq i _ _ (by omega), List.range_add, List.map_append, List.map_map]
      simp [Function.comp_def, Nat.add_assoc]
    rw [hout]
    exact ih (d + n) (by omega) (by omega)
  have : d = total := by omega
  subst this
  rw [if_neg hlt]

structure Models {n : Nat} (m : Mount n) (a : Fin n → Sparse) : Prop where
  refines : ∀ f, Refines (m.inodes f) (a f)
  counted : ∀ f, (m.inodes f).Counted
  used : m.usedPages = ∑ f, (m.inodes f).allocated

theorem Models.fresh (maxPages n : Nat) : Models (Mount.fresh maxPages n) fun _ => Sparse.empty := by
  refine ⟨fun f => ⟨rfl, fun k => rfl⟩, fun f => rfl, ?_⟩
  simp [Mount.fresh, Inode.fresh, Inode.allocated]

theorem Models.allocated_le {m : Mount n} {a : Fin n → Sparse} (h : Models m a) (f : Fin n) :
    (m.inodes f).allocated ≤ m.usedPages := by
  rw [h.used]
  exact Finset.single_le_sum (f := fun f => (m.inodes f).allocated) (fun _ _ => Nat.zero_le _) (Finset.mem_univ f)

theorem Models.update {m : Mount n} {a : Fin n → Sparse} (h : Models m a) (f : Fin n) {b : Sparse}
    (hi : Refines i b) (hc : i.Counted) (hu : used + (m.inodes f).allocated = m.usedPages + i.allocated) :
    Models { m with usedPages := used, inodes := Function.update m.inodes f i } (Function.update a f b) := by
  refine ⟨fun g => ?_, fun g => ?_, ?_⟩
  · by_cases hg : g = f
    · subst hg; simpa using hi
    · simpa [hg] using h.refines g
  · by_cases hg : g = f
    · subst hg; simpa using hc
    · simpa [hg] using h.counted g
  have hsum := sum_change (Finset.mem_univ f) (fun g => (Function.update m.inodes f i g).allocated)
    (fun g => (m.inodes g).allocated) fun g _ hg => by rw [Function.update_of_ne hg]
  rw [update_self] at hsum
  have hused := h.used
  dsimp only
  omega

inductive Op (n : Nat) where
  | write (f : Fin n) (append : Bool) (buf : List UInt8) (ne : buf ≠ []) (pos : Nat)
  | setSize (f : Fin n) (size : Nat)
  | read (f : Fin n) (len pos : Nat)

inductive Reply where
  | wrote (r : Int) (pos : Nat)
  | resized
  | bytes (r : Int) (pos : Nat) (out : List UInt8)

def exec {n : Nat} (m : Mount n) : Op n → Reply × Mount n
  | .write f append buf _ pos =>
    let ((r, pos), m) := tmpfsWrite Env.good m f append buf pos
    (.wrote r pos, m)
  | .setSize f size => (.resized, tmpfsSetattr m f size)
  | .read f len pos =>
    let (r, pos, out) := tmpfsRead Env.good m f len pos
    (.bytes r pos out, m)

-- What the operations do to abstract files. Only a mount without a page left
-- (`full`) may cut a write short or refuse it.
def SparseStep {n : Nat} (full : Prop) (a : Fin n → Sparse) : Op n → Reply → (Fin n → Sparse) → Prop
  | .write f append buf _ pos, .wrote r p, a' =>
    let start := if append then (a f).size else pos
    (∃ d, 0 < d ∧ d ≤ buf.length ∧ (d = buf.length ∨ full) ∧ r = d ∧ p = start + d ∧
      a' = Function.update a f ((a f).write start (buf.take d))) ∨
    (full ∧ r = - ENOSPC ∧ p = start ∧ a' = a)
  | .setSize f size, .resized, a' => a' = Function.update a f ((a f).resize size)
  | .read f len pos, .bytes r p out, a' =>
    out = (a f).read pos len ∧ r = out.length ∧ p = pos + out.length ∧ a' = a
  | _, _, _ => False

def Mount.Full {n : Nat} (m : Mount n) : Prop := m.maxPages ≤ m.usedPages

theorem tmpfsSetattr_models {m : Mount n} {a : Fin n → Sparse} (h : Models m a) (f : Fin n) (size : Nat) :
    Models (tmpfsSetattr m f size) (Function.update a f ((a f).resize size)) := by
  obtain ⟨hsize, hbytes⟩ := h.refines f
  unfold tmpfsSetattr
  dsimp only
  split
  · obtain ⟨hs, hc, hu, hb⟩ := truncatePages_spec (m.inodes f) m.usedPages size (h.allocated_le f)
    refine h.update f ⟨hs, fun k => ?_⟩ hc hu
    rw [hb, hbytes]
    rfl
  rename_i hle
  refine h.update f ⟨rfl, fun k => ?_⟩ (h.counted f) rfl
  rw [Sparse.resize_of_le (by omega)]
  exact hbytes k

theorem tmpfsRead_spec {m : Mount n} {a : Fin n → Sparse} (h : Models m a) (f : Fin n) (len pos : Nat) :
    tmpfsRead Env.good m f len pos =
      ((((a f).read pos len).length : Int), pos + ((a f).read pos len).length, (a f).read pos len) := by
  obtain ⟨hsize, hbytes⟩ := h.refines f
  unfold tmpfsRead
  dsimp only
  split
  · rename_i hle
    have hnil : (a f).read pos len = [] := by
      unfold Sparse.read
      rw [show (a f).size - pos = 0 by omega, Nat.min_zero]
      rfl
    rw [hnil]
    rfl
  have hloop := readLoop_spec (m.inodes f) pos (min len ((m.inodes f).size - pos))
    (min len ((m.inodes f).size - pos)) 0 (Nat.zero_le _) (by omega)
  rw [range_zero, map_nil] at hloop
  rw [hloop]
  have hread : (List.range (min len ((m.inodes f).size - pos))).map (fun k => (m.inodes f).byteAt (pos + k)) =
      (a f).read pos len := by
    unfold Sparse.read
    rw [hsize]
    exact map_congr_left fun k _ => hbytes _
  rw [hread]
  rfl

theorem tmpfsWrite_models {m : Mount n} {a : Fin n → Sparse} (h : Models m a) (f : Fin n) (append : Bool)
    (ne : buf ≠ []) (pos : Nat) :
    let r := tmpfsWrite Env.good m f append buf pos
    ∃ a', SparseStep r.2.Full a (.write f append buf ne pos) (.wrote r.1.1 r.1.2) a' ∧ Models r.2 a' := by
  obtain ⟨hsize, hbytes⟩ := h.refines f
  unfold tmpfsWrite
  dsimp only
  rw [hsize]
  generalize hstart : (if append then (a f).size else pos) = start
  have hend := writeLoop_spec m.maxPages buf start (m.inodes f) m.usedPages buf.length 0 (m.inodes f) m.usedPages
    (Nat.zero_le _) (by omega) ⟨fun k => (if_neg (by omega)).symm, rfl, h.counted f, rfl⟩
  generalize writeLoop Env.good m.maxPages buf start buf.length 0 (m.inodes f) m.usedPages = r at hend
  obtain ⟨ended, i, used⟩ := r
  cases ended with
  | err r =>
    obtain ⟨hr, -, hp, hfull⟩ := hend
    have hi : Refines i (a f) := by
      refine ⟨hp.size.trans hsize, fun k => ?_⟩
      rw [hp.bytes k, if_neg (by omega)]
      exact hbytes k
    refine ⟨a, .inr ⟨hfull, hr, hstart.symm, rfl⟩, ?_⟩
    have hm := h.update f hi hp.counted hp.used
    rwa [update_eq_self] at hm
  | wrote d =>
  obtain ⟨hd, hp, hstop⟩ := hend
  have hlen : (buf.take d).length = d := length_take_of_le hd
  have hi : Refines { i with size := max i.size (start + d) } ((a f).write start (buf.take d)) := by
    refine ⟨?_, fun k => ?_⟩
    · show max i.size (start + d) = max (a f).size (start + (buf.take d).length)
      rw [hlen, hp.size, hsize]
    show i.byteAt k = if start ≤ k ∧ k < start + (buf.take d).length then (buf.take d).getD (k - start) 0
      else (a f).byte k
    rw [hlen, hp.bytes k, hbytes k]
    refine ite_congr rfl (fun hk => ?_) fun _ => rfl
    rw [getD_eq_getElem?_getD, getD_eq_getElem?_getD, getElem?_take, if_pos (by omega)]
  have hpos : 0 < d := by
    rcases hstop with hstop | ⟨hne, -⟩
    · rw [hstop]
      exact length_pos_iff.mpr ne
    · omega
  refine ⟨update a f ((a f).write start (buf.take d)), .inl ⟨d, hpos, hd, ?_, rfl, ?_, ?_⟩,
    h.update f hi hp.counted hp.used⟩
  · exact hstop.imp_right And.right
  · rw [hstart]
  · rw [hstart]

theorem exec_models {m : Mount n} {a : Fin n → Sparse} (h : Models m a) (op : Op n) :
    ∃ a', SparseStep (exec m op).2.Full a op (exec m op).1 a' ∧ Models (exec m op).2 a' := by
  cases op with
  | write f append buf ne pos => exact tmpfsWrite_models h f append ne pos
  | setSize f size => exact ⟨_, rfl, tmpfsSetattr_models h f size⟩
  | read f len pos =>
  refine ⟨a, ?_, h⟩
  unfold exec
  dsimp only
  rw [tmpfsRead_spec h f len pos]
  exact ⟨rfl, rfl, rfl, rfl⟩

def Simulates {n : Nat} : Mount n → (Fin n → Sparse) → List (Op n) → Prop
  | _, _, [] => True
  | m, a, op :: ops => ∃ a', SparseStep (exec m op).2.Full a op (exec m op).1 a' ∧
      (exec m op).2.usedPages = ∑ f, ((exec m op).2.inodes f).allocated ∧
      (∀ f, ((exec m op).2.inodes f).Counted) ∧ Simulates (exec m op).2 a' ops

theorem Models.simulates (ops : List (Op n)) {m : Mount n} {a : Fin n → Sparse} (h : Models m a) :
    Simulates m a ops := by
  induction ops generalizing m a with
  | nil => trivial
  | cons op ops ih =>
    obtain ⟨a', hstep, hmodels⟩ := exec_models h op
    exact ⟨a', hstep, hmodels.used, hmodels.counted, ih hmodels⟩

-- From an empty mount on, whatever its page limit and its number of files.
theorem tmpfs_refines_sparse (maxPages n : Nat) (ops : List (Op n)) :
    Simulates (Mount.fresh maxPages n) (fun _ => Sparse.empty) ops :=
  (Models.fresh maxPages n).simulates ops

end Olux.Tmpfs
