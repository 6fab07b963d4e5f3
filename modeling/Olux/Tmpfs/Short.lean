import Olux.Tmpfs.Theorems

namespace Olux.Tmpfs

open Olux.Lib Function List

variable {n : Nat} {m : Mount n} {f : Fin n} {i i₀ : Inode} {e : Env} {buf : List UInt8} {pos d used : Nat}

-- What a file shows, and would show behind its end if it were longer.
@[ext] structure View where
  size : Nat
  byte : Nat → UInt8

def Inode.view (i : Inode) : View := ⟨i.size, i.byteAt⟩

def View.write (v : View) (pos : Nat) (data : List UInt8) : View where
  size := if data = [] then v.size else max v.size (pos + data.length)
  byte k := if pos ≤ k ∧ k < pos + data.length then data.getD (k - pos) 0 else v.byte k

def View.extend (v : View) (size : Nat) : View := { v with size := max v.size size }

def View.read (v : View) (pos len : Nat) : List UInt8 :=
  (List.range (min len (v.size - pos))).map fun j => v.byte (pos + j)

def Mount.extend (m : Mount n) (f : Fin n) (size : Nat) : Mount n := tmpfsSetattr m f (max (m.inodes f).size size)

def Shows (m : Mount n) (f : Fin n) (v : View) : Prop :=
  ∀ size len pos, (tmpfsRead Env.good (m.extend f size) f len pos).2.2 = (v.extend size).read pos len

theorem extend_inode (size : Nat) : ((m.extend f size).inodes f).view = (m.inodes f).view.extend size := by
  unfold Mount.extend tmpfsSetattr
  rw [if_neg (by omega)]
  exact congrArg Inode.view (update_self f _ m.inodes)

theorem tmpfsRead_view (len pos : Nat) : (tmpfsRead Env.good m f len pos).2.2 = (m.inodes f).view.read pos len := by
  unfold tmpfsRead
  dsimp only
  split
  · rename_i hle
    show [] = (List.range (min len ((m.inodes f).size - pos))).map _
    rw [show (m.inodes f).size - pos = 0 by omega, Nat.min_zero]
    rfl
  have hloop := readLoop_spec (m.inodes f) pos (min len ((m.inodes f).size - pos))
    (min len ((m.inodes f).size - pos)) 0 (Nat.zero_le _) (by omega)
  rw [range_zero, map_nil] at hloop
  rw [hloop]
  rfl

theorem shows_iff {v : View} : Shows m f v ↔ (m.inodes f).view = v := by
  constructor
  · intro h
    have hread : ∀ size len pos, ((m.inodes f).view.extend size).read pos len = (v.extend size).read pos len := by
      intro size len pos
      rw [← h size len pos, tmpfsRead_view, extend_inode]
    have hlen : ∀ {v : View} {pos len : Nat}, (v.read pos len).length = min len (v.size - pos) := by
      intro v pos len
      simp [View.read]
    refine View.ext ?_ (funext fun k => ?_)
    · have h1 := congrArg List.length (hread 0 (max (m.inodes f).view.size v.size) 0)
      rw [hlen, hlen] at h1
      simp only [View.extend] at h1
      omega
    have h2 := hread (k + 1) 1 k
    unfold View.read View.extend at h2
    dsimp only at h2
    rw [show min 1 (max (m.inodes f).view.size (k + 1) - k) = 1 by omega,
      show min 1 (max v.size (k + 1) - k) = 1 by omega] at h2
    simpa using h2
  · rintro rfl size len pos
    rw [tmpfsRead_view, extend_inode]

def slotsFor (slots idx : Nat) : Nat := if idx < slots then slots else max (max (idx + 1) (slots * 2)) 8

theorem ensureSlots_length (i : Inode) (idx : Nat) : (ensureSlots i idx).pages.length = slotsFor i.pages.length idx := by
  unfold ensureSlots slotsFor
  split
  · rfl
  · simp only [length_append, length_replicate]
    omega

-- The first copy that faults leaves the bytes as they were. The loop comes to the copy of the byte `done` with
-- `slots` slots and `used` pages of the mount, and makes it if it gets a slot and a page.
def CleanFault (e : Env) (maxPages : Nat) (i : Inode) (buf : List UInt8) (pos : Nat) : Nat → Nat → Nat → Nat → Prop
  | 0, _, _, _ => True
  | fuel + 1, done, slots, used =>
    let idx := (pos + done) / PAGE_SIZE
    let chunk := min (buf.length - done) (PAGE_SIZE - (pos + done) % PAGE_SIZE)
    done < buf.length → (idx < slots ∨ e.slots done = true) →
      ((i.slot idx).isNone = true → used < maxPages ∧ e.page done = true) →
        match e.fault done with
        | some stored => ∀ j < min stored chunk, i.byteAt (pos + done + j) = buf.getD (done + j) 0
        | none => CleanFault e maxPages i buf pos fuel (done + chunk) (slotsFor slots idx)
            (if (i.slot idx).isNone then used + 1 else used)

-- The loop at the byte `d`: the slots it has not come to are as they were.
structure Reached (i₀ : Inode) (buf : List UInt8) (pos d : Nat) (i : Inode) : Prop extends Wrote i₀ buf pos d i where
  ahead : d < buf.length → ∀ q, (pos + d) / PAGE_SIZE ≤ q → i.slot q = i₀.slot q

-- The loop from `d₀` ended at `d`, and a copy that faulted has stored `t` bytes behind it.
structure Stopped (i₀ : Inode) (buf : List UInt8) (pos d₀ d t : Nat) (clean : Prop) (r : Ended) (i : Inode) : Prop where
  result : r = .wrote d ∨ d = 0 ∧ ∃ err, err < 0 ∧ r = .err err
  le : d ≤ buf.length
  wrote : Wrote i₀ buf pos (d + t) i
  clean : clean ↔ ∀ j < t, i₀.byteAt (pos + d + j) = buf.getD (d + j) 0
  start : d₀ ≤ d

theorem tooEarly_result {err : Int} (h : err < 0) :
    tooEarly d err = .wrote d ∨ d = 0 ∧ ∃ r, r < 0 ∧ tooEarly d err = .err r := by
  unfold tooEarly
  split
  · exact .inr ⟨‹_›, err, h, rfl⟩
  · exact .inl rfl

-- The loop ends without a fault.
theorem Wrote.stop {clean : Prop} {r : Ended} (h : Wrote i₀ buf pos d i) (hd : d ≤ buf.length) (hclean : clean)
    (hr : r = .wrote d ∨ d = 0 ∧ ∃ err, err < 0 ∧ r = .err err) : ∃ d' t, Stopped i₀ buf pos d d' t clean r i :=
  ⟨d, 0, hr, hd, h, iff_of_true hclean nofun, Nat.le_refl d⟩

theorem Stopped.later {d₀ d₁ : Nat} {clean : Prop} {r : Ended} (hle : d₀ ≤ d₁)
    (h : ∃ d' t, Stopped i₀ buf pos d₁ d' t clean r i) : ∃ d' t, Stopped i₀ buf pos d₀ d' t clean r i := by
  obtain ⟨d', t, h⟩ := h
  exact ⟨d', t, { h with start := hle.trans h.start }⟩

section Chunk

variable {pg : Page} (blocks : Nat) (hlt : d < buf.length) (hidx : (pos + d) / PAGE_SIZE < i.pages.length)
  (hpg : (i.slot ((pos + d) / PAGE_SIZE)).getD (fun _ => 0) = pg)

include hlt hidx hpg

theorem Wrote.fault {stored : Nat} (h : Wrote i₀ buf pos d i) :
    ∃ d' t, Stopped i₀ buf pos d d' t
      (∀ j < min stored (min (buf.length - d) (PAGE_SIZE - (pos + d) % PAGE_SIZE)),
        i₀.byteAt (pos + d + j) = buf.getD (d + j) 0) (tooEarly d (- EFAULT)) { i with
      blocks := blocks
      pages := i.pages.set ((pos + d) / PAGE_SIZE) (some (overlay pg ((pos + d) % PAGE_SIZE)
        (((buf.drop d).take (min (buf.length - d) (PAGE_SIZE - (pos + d) % PAGE_SIZE))).take stored))) } := by
  rw [take_take]
  exact ⟨d, _, tooEarly_result (show - EFAULT < 0 by decide), Nat.le_of_lt hlt,
    h.chunk blocks hidx (by omega) (by omega) hpg, .rfl, Nat.le_refl d⟩

theorem Reached.next (h : Reached i₀ buf pos d i) :
    Reached i₀ buf pos (d + min (buf.length - d) (PAGE_SIZE - (pos + d) % PAGE_SIZE)) { i with
      blocks := blocks
      pages := i.pages.set ((pos + d) / PAGE_SIZE) (some (overlay pg ((pos + d) % PAGE_SIZE)
        ((buf.drop d).take (min (buf.length - d) (PAGE_SIZE - (pos + d) % PAGE_SIZE))))) } := by
  refine ⟨h.toWrote.chunk blocks hidx (by omega) (by omega) hpg, fun hmore q hq => ?_⟩
  have hpast : (pos + d) / PAGE_SIZE < q := by
    unfold PAGE_SIZE at *
    omega
  rw [← h.ahead hlt q (Nat.le_of_lt hpast)]
  unfold Inode.slot
  rw [getD_set_slot hidx, if_neg (by omega)]

end Chunk

theorem writeLoop_stopped (maxPages fuel : Nat) (hd : d ≤ buf.length) (hfuel : buf.length ≤ d + fuel)
    (h : Reached i₀ buf pos d i) :
    ∃ d' t, Stopped i₀ buf pos d d' t (CleanFault e maxPages i₀ buf pos fuel d i.pages.length used)
      (writeLoop e maxPages buf pos fuel d i used).1 (writeLoop e maxPages buf pos fuel d i used).2.1 := by
  induction fuel generalizing d i used with
  | zero => exact h.toWrote.stop hd trivial (.inl rfl)
  | succ fuel ih =>
  unfold writeLoop CleanFault
  by_cases hlt : d < buf.length
  swap
  · rw [if_neg hlt]
    exact h.toWrote.stop hd (fun hlt' => absurd hlt' hlt) (.inl rfl)
  rw [if_pos hlt]
  dsimp only
  by_cases hslots : (pos + d) / PAGE_SIZE ≥ i.pages.length ∧ e.slots d = false
  · rw [if_pos hslots]
    refine h.toWrote.stop hd (fun _ hgot => ?_) (.inl rfl)
    simp only [hslots.2, Bool.false_eq_true, or_false] at hgot
    omega
  rw [if_neg hslots]
  have hgot : (pos + d) / PAGE_SIZE < i.pages.length ∨ e.slots d = true := by
    cases he : e.slots d with
    | true => exact .inr rfl
    | false => exact .inl (by simp only [he, and_true] at hslots; omega)
  simp only [hlt, hgot, forall_const]
  obtain ⟨hidx, -, -, -, hsame⟩ := ensureSlots_spec i ((pos + d) / PAGE_SIZE)
  rw [← ensureSlots_length, ← h.ahead hlt _ (Nat.le_refl _), ← hsame]
  have h' : Reached i₀ buf pos d (ensureSlots i ((pos + d) / PAGE_SIZE)) :=
    ⟨h.toWrote.ensureSlots _, fun hlt q hq => (hsame q).trans (h.ahead hlt q hq)⟩
  clear hsame
  generalize ensureSlots i ((pos + d) / PAGE_SIZE) = i' at h' hidx ⊢
  have hgrown : ∀ pg, (i'.pages.set ((pos + d) / PAGE_SIZE) pg).length = i'.pages.length := fun _ => length_set
  have hpo : (pos + d) % PAGE_SIZE < PAGE_SIZE := Nat.mod_lt _ (by decide)
  cases hslot : i'.slot ((pos + d) / PAGE_SIZE) with
  | some pg =>
    have hpg : (i'.slot ((pos + d) / PAGE_SIZE)).getD (fun _ => 0) = pg := by rw [hslot]; rfl
    simp only [Option.isNone_some, Bool.false_eq_true, false_implies, true_implies, if_false]
    cases hfault : e.fault d with
    | some stored => exact h'.toWrote.fault i'.blocks hlt hidx hpg
    | none =>
      have hrec := @ih _ _ used (by omega) (by omega) (h'.next i'.blocks hlt hidx hpg)
      rw [hgrown] at hrec
      exact Stopped.later (Nat.le_add_right _ _) hrec
  | none =>
  have hpg : (i'.slot ((pos + d) / PAGE_SIZE)).getD (fun _ => 0) = fun _ => 0 := by rw [hslot]; rfl
  simp only [Option.isNone_none, true_implies, if_true]
  by_cases hquota : maxPages ≤ used
  · rw [if_pos hquota]
    exact h'.toWrote.stop hd (fun hpage => absurd hpage.1 (by omega)) (tooEarly_result (show - ENOSPC < 0 by decide))
  rw [if_neg hquota]
  by_cases hpage : e.page d = false
  · rw [if_pos hpage]
    refine h'.toWrote.stop hd (fun hpage' => ?_) (tooEarly_result (show - ENOSPC < 0 by decide))
    exact absurd (hpage'.2.symm.trans hpage) (by decide)
  rw [if_neg hpage]
  simp only [Nat.lt_of_not_le hquota, eq_true_of_ne_false hpage, and_self, true_implies]
  cases hfault : e.fault d with
  | some stored => exact h'.toWrote.fault (i'.blocks + PAGE_SIZE / 512) hlt hidx hpg
  | none =>
    have hrec := @ih _ _ (used + 1) (by omega) (by omega) (h'.next (i'.blocks + PAGE_SIZE / 512) hlt hidx hpg)
    rw [hgrown] at hrec
    exact Stopped.later (Nat.le_add_right _ _) hrec

theorem Wrote.bytes_eq_iff {t : Nat} (h : Wrote i₀ buf pos (d + t) i) (hd : d ≤ buf.length) :
    i.byteAt = (i₀.view.write pos (buf.take d)).byte ↔ ∀ j < t, i₀.byteAt (pos + d + j) = buf.getD (d + j) 0 := by
  have hwritten : ∀ k, (i₀.view.write pos (buf.take d)).byte k =
      if pos ≤ k ∧ k < pos + d then buf.getD (k - pos) 0 else i₀.byteAt k := by
    intro k
    show (if pos ≤ k ∧ k < pos + (buf.take d).length then (buf.take d).getD (k - pos) 0 else i₀.byteAt k) = _
    rw [length_take_of_le hd]
    refine ite_congr rfl (fun hk => ?_) fun _ => rfl
    rw [getD_eq_getElem?_getD, getD_eq_getElem?_getD, getElem?_take, if_pos (by omega)]
  constructor
  · intro heq j hj
    have hbyte := h.bytes (pos + d + j)
    rw [if_pos (by omega), heq, hwritten, if_neg (by omega), show pos + d + j - pos = d + j by omega] at hbyte
    exact hbyte
  intro heq
  funext k
  rw [h.bytes k, hwritten]
  by_cases hin : pos ≤ k ∧ k < pos + d
  · rw [if_pos hin, if_pos (by omega)]
  rw [if_neg hin]
  split
  · have hk := heq (k - (pos + d)) (by omega)
    rw [show pos + d + (k - (pos + d)) = k by omega, show d + (k - (pos + d)) = k - pos by omega] at hk
    exact hk.symm
  · rfl

-- The write ends before its first copy, without an error.
def NoSlot (e : Env) (i : Inode) (buf : List UInt8) (pos : Nat) : Prop :=
  buf = [] ∨ i.pages.length ≤ pos / PAGE_SIZE ∧ e.slots 0 = false

theorem Reached.refl (i : Inode) (buf : List UInt8) (pos : Nat) : Reached i buf pos 0 i :=
  ⟨⟨fun _ => (if_neg (by omega)).symm, rfl⟩, fun _ _ _ => rfl⟩

theorem writeLoop_le (maxPages fuel : Nat) {d' : Nat} (h : (writeLoop e maxPages buf pos fuel d i used).1 = .wrote d') :
    d ≤ d' := by
  have hearly : ∀ {d : Nat} {err : Int}, tooEarly d err = .wrote d' → d ≤ d' := by
    intro d err h
    unfold tooEarly at h
    split at h
    · cases h
    · cases h
      exact Nat.le_refl _
  induction fuel generalizing d i used with
  | zero =>
    cases h
    exact Nat.le_refl _
  | succ fuel ih =>
  unfold writeLoop at h
  dsimp only at h
  repeat' split at h
  case isTrue.isTrue | isFalse =>
    cases h
    exact Nat.le_refl _
  all_goals first | exact hearly h | exact (Nat.le_add_right _ _).trans (ih h)

theorem writeLoop_noSlot_iff (maxPages : Nat) :
    (writeLoop e maxPages buf pos buf.length 0 i used).1 = .wrote 0 ↔ NoSlot e i buf pos := by
  unfold NoSlot
  cases buf with
  | nil => exact iff_of_true rfl (.inl rfl)
  | cons b bs =>
  rw [or_iff_right (cons_ne_nil b bs), length_cons, writeLoop, if_pos (show 0 < (b :: bs).length from Nat.succ_pos _)]
  dsimp only
  by_cases hslots : (pos + 0) / PAGE_SIZE ≥ i.pages.length ∧ e.slots 0 = false
  · rw [if_pos hslots]
    exact iff_of_true rfl hslots
  rw [if_neg hslots]
  refine iff_of_false (fun h => ?_) hslots
  have hchunk : 0 < min ((b :: bs).length - 0) (PAGE_SIZE - (pos + 0) % PAGE_SIZE) := by
    have : (pos + 0) % PAGE_SIZE < PAGE_SIZE := Nat.mod_lt _ (by decide)
    simp only [length_cons]
    omega
  repeat' split at h
  all_goals first | cases h | exact absurd (writeLoop_le _ _ h) (by omega)

-- A write has the effect that it reports exactly if it does not stop at once behind the end
-- of the file without an error, and if a copy that faulted left nothing new behind.
theorem write_exact_iff (e : Env) (m : Mount n) (f : Fin n) (append : Bool) (buf : List UInt8) (pos : Nat) :
    let start := if append then (m.inodes f).size else pos
    let r := (tmpfsWrite e m f append buf pos).1.1
    Shows (tmpfsWrite e m f append buf pos).2 f ((m.inodes f).view.write start (buf.take r.toNat)) ↔
      (NoSlot e (m.inodes f) buf start → start ≤ (m.inodes f).size) ∧
        CleanFault e m.maxPages (m.inodes f) buf start buf.length 0 (m.inodes f).pages.length m.usedPages := by
  unfold tmpfsWrite
  dsimp only
  generalize (if append then (m.inodes f).size else pos) = start
  rw [← writeLoop_noSlot_iff m.maxPages]
  obtain ⟨d, t, hstop⟩ := writeLoop_stopped m.maxPages buf.length (Nat.zero_le _) (by omega)
    (Reached.refl (m.inodes f) buf start)
  generalize writeLoop e m.maxPages buf start buf.length 0 (m.inodes f) m.usedPages = w at hstop ⊢
  obtain ⟨ended, i, used⟩ := w
  obtain ⟨hresult, hle, hwrote, hclean, -⟩ := hstop
  dsimp only at hresult hwrote
  rw [shows_iff, View.ext_iff, hclean]
  have hsize := hwrote.size
  rcases hresult with rfl | ⟨rfl, err, herr, rfl⟩
  · dsimp only
    rw [update_self, Int.toNat_natCast]
    show max i.size (start + d) = _ ∧ i.byteAt = _ ↔ _
    rw [hwrote.bytes_eq_iff hle]
    refine and_congr_left fun _ => ?_
    show max i.size (start + d) = (if buf.take d = [] then (m.inodes f).size else _) ↔ _
    have hnil : buf.take d = [] ↔ d = 0 := by
      rw [← length_eq_zero_iff, length_take_of_le hle]
    rw [if_congr hnil rfl rfl, length_take_of_le hle, Ended.wrote.injEq]
    split
    · omega
    · exact iff_of_true (by rw [hsize]; rfl) fun hz => absurd hz ‹_›
  dsimp only
  rw [update_self, Int.toNat_of_nonpos (by omega)]
  show i.size = _ ∧ i.byteAt = _ ↔ _
  rw [hwrote.bytes_eq_iff hle]
  exact and_congr_left fun _ => iff_of_true hsize nofun

def Env.noSlots : Env := ⟨fun _ => false, fun _ => true, fun _ => none⟩

def Env.faulty : Env := ⟨fun _ => true, fun _ => true, fun _ => some 1⟩

theorem failed_write_changes_file :
    let m := Mount.fresh 1 1
    ((tmpfsWrite Env.noSlots m 0 false [7] 5).1.1 = 0 ∧ ((tmpfsWrite Env.noSlots m 0 false [7] 5).2.inodes 0).size = 5) ∧
      (tmpfsWrite Env.faulty m 0 false [7, 8] 0).1.1 = - EFAULT ∧
      ¬Shows (tmpfsWrite Env.faulty m 0 false [7, 8] 0).2 0 (m.inodes 0).view := by
  dsimp only
  refine ⟨⟨by decide, by decide⟩, by decide, fun hshows => ?_⟩
  have hread := hshows 1 1 0
  rw [show (tmpfsRead Env.good ((tmpfsWrite Env.faulty (Mount.fresh 1 1) 0 false [7, 8] 0).2.extend 0 1) 0 1 0).2.2 = [7] by
    decide] at hread
  exact absurd hread (by decide)

end Olux.Tmpfs
