import Olux.Fat.Disk

namespace Olux.Fat

open Olux.Lib Function List

theorem cons_eq_drop {l es : List De} {e : De} {i : Nat} (h : e :: es = l.drop i) : l[i]? = some e ∧ es = l.drop (i + 1) := by
  constructor
  · rw [← head?_drop, ← h, head?_cons]
  · rw [← tail_drop, ← h, tail_cons]

namespace De

@[simp] theorem length_raw (e : De) : e.raw.length = 32 := by simp [raw, bytes2, bytes4]

theorem ofBytes_congr {p q : Nat → UInt8} {o o' : Nat} (h : ∀ k < 32, p (o + k) = q (o' + k)) :
    ofBytes p o = ofBytes q o' := by
  have hname : (Vector.ofFn fun i : Fin 11 => p (o + i.val)) = Vector.ofFn fun i : Fin 11 => q (o' + i.val) := by
    congr 1
    funext i
    exact h i.val (by omega)
  simp only [ofBytes, le16, le32, Nat.add_assoc, Nat.reduceAdd, hname, h 11 (by omega), h 12 (by omega),
    h 13 (by omega), h 14 (by omega), h 15 (by omega), h 16 (by omega), h 17 (by omega), h 18 (by omega),
    h 19 (by omega), h 20 (by omega), h 21 (by omega), h 22 (by omega), h 23 (by omega), h 24 (by omega),
    h 25 (by omega), h 26 (by omega), h 27 (by omega), h 28 (by omega), h 29 (by omega), h 30 (by omega),
    h 31 (by omega)]

theorem ofBytes_raw (e : De) : ofBytes (fun k => e.raw.getD k 0) 0 = e := by
  have hname : (Vector.ofFn fun i : Fin 11 => e.raw.getD i.val 0) = e.name := by
    ext i hi
    simp only [Vector.getElem_ofFn, raw, append_assoc]
    rw [getD_append _ _ _ _ (by simpa using hi), getD_eq_getElem _ _ (by simpa using hi)]
    simp
  have hget : ∀ k, e.raw.getD (11 + k) 0 = ([e.attr, e.ntres, e.ctimeTenth] ++ bytes2 e.ctime.toNat ++
      bytes2 e.cdate.toNat ++ bytes2 e.adate.toNat ++ bytes2 e.clusHi.toNat ++ bytes2 e.mtime.toNat ++
      bytes2 e.mdate.toNat ++ bytes2 e.clusLo.toNat ++ bytes4 e.size.toNat).getD k 0 := by
    intro k
    simp only [raw, append_assoc]
    rw [getD_append_right _ _ _ _ (by simp)]
    simp
  have hu16 : ∀ o (x : UInt16), e.raw.getD o 0 = UInt8.ofNat x.toNat →
      e.raw.getD (o + 1) 0 = UInt8.ofNat (x.toNat / 2 ^ 8) → UInt16.ofNat (le16 (fun k => e.raw.getD k 0) o) = x := by
    intro o x h0 h1
    have hx := x.toNat_lt
    simp only [le16, h0, h1]
    apply UInt16.toNat_inj.mp
    simp
    omega
  have hsize : UInt32.ofNat (le32 (fun k => e.raw.getD k 0) 28) = e.size := by
    have hx := e.size.toNat_lt
    simp only [le32, show e.raw.getD 28 0 = UInt8.ofNat e.size.toNat from hget 17,
      show e.raw.getD 29 0 = UInt8.ofNat (e.size.toNat / 2 ^ 8) from hget 18,
      show e.raw.getD 30 0 = UInt8.ofNat (e.size.toNat / 2 ^ 16) from hget 19,
      show e.raw.getD 31 0 = UInt8.ofNat (e.size.toNat / 2 ^ 24) from hget 20, Nat.reduceAdd]
    apply UInt32.toNat_inj.mp
    simp
    omega
  simp only [ofBytes, hname, Nat.zero_add, hsize, show e.raw.getD 11 0 = e.attr from hget 0,
    show e.raw.getD 12 0 = e.ntres from hget 1, show e.raw.getD 13 0 = e.ctimeTenth from hget 2,
    hu16 14 e.ctime (hget 3) (hget 4), hu16 16 e.cdate (hget 5) (hget 6), hu16 18 e.adate (hget 7) (hget 8),
    hu16 20 e.clusHi (hget 9) (hget 10), hu16 22 e.mtime (hget 11) (hget 12), hu16 24 e.mdate (hget 13) (hget 14),
    hu16 26 e.clusLo (hget 15) (hget 16)]

theorem ofBytes_putBytes (p : Nat → UInt8) (o : Nat) (e : De) : ofBytes (putBytes p o e.raw) o = e := by
  have hbytes : ofBytes (putBytes p o e.raw) o = ofBytes (fun k => e.raw.getD k 0) 0 := by
    refine ofBytes_congr fun k hk => ?_
    rw [putBytes_inside (by simpa using hk), Nat.zero_add, getD_eq_getElem]
  rw [hbytes, ofBytes_raw]

theorem raw_zero : zero.raw = List.replicate 32 0 := by decide

theorem ofBytes_zero {p : Nat → UInt8} {o : Nat} (h : ∀ k < 32, p (o + k) = 0) : ofBytes p o = zero := by
  rw [← ofBytes_raw zero]
  refine ofBytes_congr fun k hk => ?_
  rw [h k hk, raw_zero, Nat.zero_add, getD_replicate _ hk]

end De

variable {g : Geom} {s t : St} {D : Dir}

theorem cs_eq : g.cs = per g * 32 := by
  obtain ⟨k, hk, _, hcs⟩ := g.cs_pow
  obtain ⟨j, rfl⟩ := Nat.exists_eq_add_of_le hk
  simp only [per, hcs, Nat.pow_add]
  omega

theorem per_pos : 0 < per g := by
  obtain ⟨k, hk, _, hcs⟩ := g.cs_pow
  have hpos : 0 < g.cs := by rw [hcs]; exact Nat.two_pow_pos k
  rw [cs_eq] at hpos
  omega

-- A directory lies in the clusters of a chain, or in the fixed root, for which the chain is
-- empty: the parts of the device it has, how many slots it has, and where each of them is.
def dirBlocks (l : List Nat) : List Nat := if l = [] then [0] else l

def dirSlots (g : Geom) (l : List Nat) : Nat := if l = [] then g.rootEnts else l.length * per g

def slotBlk (g : Geom) (l : List Nat) (i : Nat) : Nat := if l = [] then 0 else l.getD (i / per g) 0

def slotOff (g : Geom) (l : List Nat) (i : Nat) : Nat := if l = [] then i * 32 else i % per g * 32

def entOff (g : Geom) (l : List Nat) (i : Nat) : Nat := blkOff g (slotBlk g l i) + slotOff g l i

structure Proper (g : Geom) (l : List Nat) : Prop where
  valid : ∀ c ∈ l, valid g c
  nodup : l.Nodup

theorem Proper.of_chain {l : List Nat} (hl : (rows g).Chain (fatGet g s) l) : Proper g l :=
  ⟨fun _ hc => hl.valid hc, hl.nodup⟩

section Slots

variable {l : List Nat} {i j : Nat}

theorem Proper.isBlk (h : Proper g l) {b : Nat} (hb : b ∈ dirBlocks l) : IsBlk b := by
  unfold dirBlocks at hb
  split at hb
  · exact .inl (mem_singleton.mp hb)
  · exact .of_valid (h.valid b hb)

theorem Proper.headD_eq_zero (h : Proper g l) : l.headD 0 = 0 ↔ l = [] := by
  cases l with
  | nil => simp
  | cons a l =>
    have h2 := (valid_iff.mp (h.valid a mem_cons_self)).1
    simp
    omega

theorem div_per_lt (hne : l ≠ []) (hi : i < dirSlots g l) : i / per g < l.length := by
  rw [dirSlots, if_neg hne] at hi
  exact (Nat.div_lt_iff_lt_mul per_pos).mpr hi

theorem slotBlk_mem (hi : i < dirSlots g l) : slotBlk g l i ∈ dirBlocks l := by
  unfold slotBlk dirBlocks
  by_cases hne : l = []
  · simp [hne]
  · rw [if_neg hne, if_neg hne, getD_eq_getElem _ _ (div_per_lt hne hi)]
    exact getElem_mem _

theorem Proper.slotOff_fits (h : Proper g l) (hi : i < dirSlots g l) : slotOff g l i + 32 ≤ blkLen g (slotBlk g l i) := by
  unfold slotBlk slotOff
  by_cases hne : l = []
  · have hfit := g.root_fits
    rw [dirSlots, if_pos hne] at hi
    rw [if_pos hne, if_pos hne, blkLen, if_pos rfl]
    omega
  have hlt := div_per_lt hne hi
  have h2 := (valid_iff.mp (h.valid _ (getElem_mem hlt))).1
  have hmod := Nat.mod_lt i (per_pos (g := g))
  rw [if_neg hne, if_neg hne, getD_eq_getElem _ _ hlt, blkLen, if_neg (by omega), cs_eq]
  omega

theorem Proper.slots_apart (h : Proper g l) (hi : i < dirSlots g l) (hj : j < dirSlots g l) (hne : i ≠ j) :
    entOff g l i + 32 ≤ entOff g l j ∨ entOff g l j + 32 ≤ entOff g l i := by
  have hfi := h.slotOff_fits hi
  have hfj := h.slotOff_fits hj
  unfold entOff
  by_cases hb : slotBlk g l i = slotBlk g l j
  · have hoff : slotOff g l i + 32 ≤ slotOff g l j ∨ slotOff g l j + 32 ≤ slotOff g l i := by
      unfold slotOff
      unfold slotBlk at hb
      by_cases h0 : l = []
      · rw [if_pos h0, if_pos h0]
        omega
      rw [if_neg h0, if_neg h0]
      rw [if_neg h0, if_neg h0, getD_eq_getElem _ _ (div_per_lt h0 hi), getD_eq_getElem _ _ (div_per_lt h0 hj)] at hb
      have hdiv := (h.nodup.getElem_inj_iff).mp hb
      have hi' := Nat.div_add_mod i (per g)
      have hj' := Nat.div_add_mod j (per g)
      rw [hdiv] at hi'
      omega
    rw [hb]
    omega
  rcases blk_apart (g := g) (h.isBlk (slotBlk_mem hi)) (h.isBlk (slotBlk_mem hj)) hb with hap | hap
  · exact .inl (by omega)
  · exact .inr (by omega)

theorem Proper.dirEntOff_eq (h : Proper g D.cl) (hclus : D.clus = D.cl.headD 0) (hi : i < dirSlots g D.cl) :
    dirEntOff g D i = entOff g D.cl i := by
  unfold dirEntOff entOff slotBlk slotOff
  by_cases h0 : D.cl = []
  · rw [if_pos (by rw [hclus, h0]; rfl), if_pos h0, if_pos h0, blkOff, if_pos rfl]
  have hlt := div_per_lt h0 hi
  have h2 := (valid_iff.mp (h.valid _ (getElem_mem hlt))).1
  rw [if_neg (by rw [hclus, h.headD_eq_zero]; exact h0), if_neg h0, if_neg h0, getD_eq_getElem _ _ hlt, blkOff,
    if_neg (by omega)]

end Slots

theorem flatMap_slotsAt (p : Nat → UInt8) (l : List Nat) : (l.flatMap fun c => slotsAt p (clusOff g c) (per g)) =
      (List.range (l.length * per g)).map fun i =>
        De.ofBytes p (clusOff g (l.getD (i / per g) 0) + i % per g * 32) := by
  induction l with
  | nil => simp
  | cons a l ih =>
  have hpos := per_pos (g := g)
  rw [flatMap_cons, ih, length_cons, Nat.succ_mul, Nat.add_comm, range_add, map_append, map_map]
  congr 1
  · refine map_congr_left fun i hi => ?_
    have hi := mem_range.mp hi
    rw [Nat.div_eq_of_lt hi, Nat.mod_eq_of_lt hi, getD_cons_zero]
  refine map_congr_left fun i _ => ?_
  simp only [comp_apply]
  rw [Nat.add_div_left _ hpos, Nat.add_mod_left, getD_cons_succ]

def dirAt (g : Geom) (s : St) (l : List Nat) : Dir where
  clus := l.headD 0
  cl := l
  e := (List.range (dirSlots g l)).map fun i => De.ofBytes s.dev (entOff g l i)

@[simp] theorem dirAt_length (l : List Nat) : (dirAt g s l).e.length = dirSlots g l := by simp [dirAt]

theorem dirAt_getElem? {l : List Nat} {i : Nat} (hi : i < dirSlots g l) :
    (dirAt g s l).e[i]? = some (De.ofBytes s.dev (entOff g l i)) := by
  rw [dirAt, getElem?_map, getElem?_range hi]
  rfl

theorem dirLoad_zero (hroot : g.type ≠ .fat32) : dirLoad g 0 s = .ok (dirAt g s []) := by
  simp only [dirLoad, headD_nil, if_true, if_neg hroot, dirAt, dirSlots, entOff, slotBlk, slotOff, blkOff, slotsAt]

theorem dirLoad_cons {a : Nat} {l : List Nat} (hp : Proper g (a :: l))
    (hcl : clustersFrom g s (maxClus g) a = a :: l) : dirLoad g a s = .ok (dirAt g s (a :: l)) := by
  have hv : valid g a = true := hp.valid a mem_cons_self
  have h0 : a ≠ 0 := by
    have h2 := (valid_iff.mp hv).1
    omega
  rw [dirLoad, if_neg h0, hv, Bool.not_true, if_neg (by simp)]
  have hslots : dirSlots g (a :: l) = (a :: l).length * per g := if_neg (by simp)
  simp only [hcl, flatMap_slotsAt, dirAt, headD_cons]
  congr 2
  rw [hslots]
  refine map_congr_left fun i hi => ?_
  have hi : i < dirSlots g (a :: l) := by
    rw [hslots]
    exact mem_range.mp hi
  have hoff := hp.dirEntOff_eq (D := ⟨a, [], a :: l⟩) rfl hi
  rw [dirEntOff, if_neg h0] at hoff
  rw [hoff]

theorem dirLoad_eq {l : List Nat} (hl : (rows g).Chain (fatGet g s) l) (hlen : l.length ≤ maxClus g)
    (hroot : l = [] → g.type ≠ .fat32) : dirLoad g (l.headD 0) s = .ok (dirAt g s l) := by
  cases l with
  | nil => exact dirLoad_zero (hroot rfl)
  | cons a l => exact dirLoad_cons (Proper.of_chain hl) (clustersFrom_eq hl hlen)

theorem dirAt_congr {l : List Nat} (hl : Proper g l) (hsame : ∀ b ∈ dirBlocks l, SameBlk g s t b) :
    dirAt g t l = dirAt g s l := by
  simp only [dirAt]
  congr 1
  refine map_congr_left fun i hi => De.ofBytes_congr fun k hk => ?_
  have hi : i < dirSlots g l := mem_range.mp hi
  have hfit := hl.slotOff_fits hi
  rw [entOff, Nat.add_assoc]
  exact hsame _ (slotBlk_mem hi) _ (by omega)

def writeSlots (g : Geom) (D : Dir) : Nat → Nat → (Nat → UInt8) → Nat → UInt8
  | 0, _, p => p
  | n + 1, a, p => writeSlots g D n (a + 1) (putBytes p (dirEntOff g D a) (D.e.getD a De.zero).raw)

theorem writeSlots_add (m n a : Nat) (p : Nat → UInt8) :
    writeSlots g D (m + n) a p = writeSlots g D n (a + m) (writeSlots g D m a p) := by
  induction m generalizing a p with
  | zero => simp [writeSlots]
  | succ m ih => rw [Nat.succ_add, writeSlots, ih, writeSlots, show a + 1 + m = a + (m + 1) by omega]

theorem writeSlots_run {n a : Nat} {p : Nat → UInt8} (hn : a + n ≤ D.e.length)
    (hrun : ∀ j < n, dirEntOff g D (a + j) = dirEntOff g D a + j * 32) :
    writeSlots g D n a p = putBytes p (dirEntOff g D a) (((D.e.drop a).take n).flatMap De.raw) := by
  induction n generalizing a p with
  | zero => simp [writeSlots]
  | succ n ih =>
  have ha : a < D.e.length := by omega
  rw [drop_eq_getElem_cons ha, take_succ_cons, flatMap_cons, putBytes_append, writeSlots,
    getD_eq_getElem _ _ ha, De.length_raw]
  cases n with
  | zero => simp [writeSlots]
  | succ n =>
  have h1 := hrun 1 (by omega)
  rw [Nat.one_mul] at h1
  rw [← h1]
  refine ih (by omega) fun j hj => ?_
  rw [h1, show a + 1 + j = a + (j + 1) by omega, hrun (j + 1) (by omega)]
  omega

theorem dirEntOff_run {a j n : Nat} (hn : n = if D.clus = 0 then D.e.length else per g) (hj : a + j < (a / n + 1) * n) :
    dirEntOff g D (a + j) = dirEntOff g D a + j * 32 := by
  unfold dirEntOff
  by_cases h0 : D.clus = 0
  · rw [if_pos h0, if_pos h0]
    omega
  rw [if_neg h0] at hn
  subst hn
  have hle : a / per g * per g ≤ a + j := Nat.le_trans (Nat.div_mul_le_self _ _) (Nat.le_add_right _ _)
  have hdiv : (a + j) / per g = a / per g := Nat.div_eq_of_lt_le hle hj
  have hmod := Nat.div_add_mod (a + j) (per g)
  have hmod' := Nat.div_add_mod a (per g)
  rw [hdiv] at hmod
  rw [if_neg h0, if_neg h0, hdiv, show (a + j) % per g = a % per g + j by omega]
  omega

structure Wrote (s t : St) (dev : Nat → UInt8) : Prop where
  eq : t = { s with dev }

theorem Wrote.refl : Wrote s s s.dev := ⟨rfl⟩

variable {dev : Nat → UInt8}

theorem Wrote.commit : Wrote s (commit dev s) dev := ⟨rfl⟩

theorem Wrote.trans {u : St} {dev dev' : Nat → UInt8} (h : Wrote s t dev) (h' : Wrote t u dev') : Wrote s u dev' := by
  refine ⟨?_⟩
  rw [h'.eq, h.eq]

theorem Wrote.dev_eq (h : Wrote s t dev) : t.dev = dev := by rw [h.eq]

theorem Wrote.fat_eq (h : Wrote s t dev) : t.fat = s.fat := by rw [h.eq]

theorem Wrote.fatGet_eq (h : Wrote s t dev) : fatGet g t = fatGet g s := fatGet_of_fat h.fat_eq

theorem Wrote.server (h : Wrote s t dev) (hs : Server g s) : Server g t := by
  refine ⟨?_, ?_⟩
  · rw [h.eq]
    exact hs.nextFree
  · rw [h.fatGet_eq, h.eq]
    exact hs.cache

theorem dirWriteLoop_eq (hro : g.ro = false) {k a b : Nat} (hk : b - a ≤ k) (hb : b ≤ D.e.length) :
    ∃ t, dirWriteLoop g D k a b s = (.ok (), t) ∧ Wrote s t (writeSlots g D (b - a) a s.dev) := by
  induction k generalizing a s with
  | zero =>
    rw [show b - a = 0 by omega]
    exact ⟨s, rfl, .refl⟩
  | succ k ih =>
  rw [dirWriteLoop]
  split
  · rename_i hab
    generalize hn : (if D.clus = 0 then D.e.length else per g) = n
    have hpos : 0 < n := by
      have hper := per_pos (g := g)
      split at hn <;> omega
    have hstop : a < (a / n + 1) * n := by
      rw [Nat.add_mul, Nat.one_mul]
      exact Nat.lt_div_mul_add hpos
    dsimp only
    generalize hm : min ((a / n + 1) * n) b = stop
    have hrun : writeSlots g D (stop - a) a s.dev =
        putBytes s.dev (dirEntOff g D a) (((D.e.drop a).take (stop - a)).flatMap De.raw) :=
      writeSlots_run (by omega) fun j hj => dirEntOff_run hn.symm (by omega)
    rw [show b - a = (stop - a) + (b - stop) by omega, writeSlots_add, hrun, show a + (stop - a) = stop by omega,
      Prog.bind_ok (devWrite_eq hro _ _)]
    generalize putBytes s.dev (dirEntOff g D a) (((D.e.drop a).take (stop - a)).flatMap De.raw) = dev
    have hstep : Wrote s (commit dev s) dev := .commit
    by_cases hend : stop < b
    · obtain ⟨t, ht, hwrote⟩ := ih (a := stop) (by omega)
      exact ⟨t, ht, hstep.trans hwrote⟩
    -- the last part: no slots are left for the rest of the loop
    have hnone : dirWriteLoop g D k stop b = pure () := by
      cases k with
      | zero => rfl
      | succ k => rw [dirWriteLoop, if_neg hend]
    rw [hnone, show b - stop = 0 by omega]
    exact ⟨_, rfl, hstep⟩
  · rw [show b - a = 0 by omega]
    exact ⟨s, rfl, .refl⟩

variable {l : List Nat}

theorem Proper.putBytes_slot (h : Proper g l) {i j : Nat} (hi : i < dirSlots g l) (hj : j < dirSlots g l) (e : De)
    (p : Nat → UInt8) : De.ofBytes (putBytes p (entOff g l i) e.raw) (entOff g l j) =
      if j = i then e else De.ofBytes p (entOff g l j) := by
  by_cases hne : j = i
  · rw [if_pos hne, hne]
    exact De.ofBytes_putBytes _ _ _
  rw [if_neg hne]
  refine De.ofBytes_congr fun k hk => putBytes_outside ?_
  rw [De.length_raw]
  rcases h.slots_apart hi hj (Ne.symm hne) with hap | hap
  · exact .inr (by omega)
  · exact .inl (by omega)

section Written

variable (h : Proper g D.cl) (hclus : D.clus = D.cl.headD 0)
include h hclus

theorem writeSlots_slot {n a i : Nat} {p : Nat → UInt8} (hn : a + n ≤ dirSlots g D.cl) (hi : i < dirSlots g D.cl) :
    De.ofBytes (writeSlots g D n a p) (entOff g D.cl i) =
      if a ≤ i ∧ i < a + n then D.e.getD i De.zero else De.ofBytes p (entOff g D.cl i) := by
  induction n generalizing a p with
  | zero => rw [if_neg (by omega), writeSlots]
  | succ n ih =>
  rw [writeSlots, ih (by omega), h.dirEntOff_eq hclus (by omega), h.putBytes_slot (by omega) hi]
  by_cases hia : i = a
  · rw [if_neg (by omega), if_pos hia, if_pos (by omega), hia]
  rw [if_neg hia]
  by_cases hin : a + 1 ≤ i ∧ i < a + 1 + n
  · rw [if_pos hin, if_pos (by omega)]
  · rw [if_neg hin, if_neg (by omega)]

theorem writeSlots_blk {n a b : Nat} {p : Nat → UInt8} (hn : a + n ≤ dirSlots g D.cl)
    (hb : IsBlk b) (hnot : b ∉ dirBlocks D.cl) {k : Nat} (hk : k < blkLen g b) :
    writeSlots g D n a p (blkOff g b + k) = p (blkOff g b + k) := by
  induction n generalizing a p with
  | zero => rfl
  | succ n ih =>
  have ha : a < dirSlots g D.cl := by omega
  have hfit := h.slotOff_fits ha
  have hmem := slotBlk_mem (g := g) ha
  rw [writeSlots, ih (by omega), h.dirEntOff_eq hclus ha, entOff]
  refine putBytes_outside ?_
  rw [De.length_raw]
  rcases blk_apart (g := g) (h.isBlk hmem) hb (fun heq => hnot (heq ▸ hmem)) with hap | hap
  · exact .inr (by omega)
  · exact .inl (by omega)

end Written

theorem dirWrite_spec (hro : g.ro = false) (h : Proper g D.cl) (hclus : D.clus = D.cl.headD 0) {a b : Nat}
    (hlen : D.e.length = dirSlots g D.cl) (hab : a ≤ b) (hb : b ≤ D.e.length)
    (hout : ∀ i, i < a ∨ b ≤ i → D.e[i]? = (dirAt g s D.cl).e[i]?) :
    ∃ t dev, dirWrite g D a b s = (.ok (), t) ∧ Wrote s t dev ∧
      dirAt g t D.cl = D ∧ ∀ b, IsBlk b → b ∉ dirBlocks D.cl → SameBlk g s t b := by
  obtain ⟨t, ht, hwrote⟩ := dirWriteLoop_eq (s := s) hro (Nat.le_refl (b - a)) hb
  refine ⟨t, _, ht, hwrote, ?_, ?_⟩
  · have he : (dirAt g t D.cl).e = D.e := by
      refine ext_getElem? fun i => ?_
      by_cases hi : i < dirSlots g D.cl
      · have hold : (dirAt g s D.cl).e[i]? = some (De.ofBytes s.dev (entOff g D.cl i)) := dirAt_getElem? hi
        rw [dirAt_getElem? hi, hwrote.dev_eq, writeSlots_slot h hclus (by omega) hi]
        split
        · rw [getD_eq_getElem _ _ (by omega), getElem?_eq_getElem]
        · rw [hout i (by omega), hold]
      · rw [getElem?_eq_none (by rw [dirAt_length]; omega), getElem?_eq_none (by omega)]
    obtain ⟨clus, e, cl⟩ := D
    simp only [dirAt, Dir.mk.injEq] at he hclus ⊢
    exact ⟨hclus.symm, he, trivial⟩
  · intro b' hb' hnot k hk
    rw [hwrote.dev_eq]
    exact writeSlots_blk h hclus (by omega) hb' hnot hk

end Olux.Fat
