import Olux.Bcache.Theorems

namespace Olux.Bcache

variable {S : Sys} {s s' : St} {b d block : Nat} {want : Nat → Nat → UInt8}

structure Reliable (S : Sys) (d : Nat) : Prop where
  io : ∀ tick, S.io tick d = 0
  alloc : ∀ tick, S.alloc tick = true

def Blocked (S : Sys) (d block : Nat) (s : St) : Prop :=
  lookup S d block s = none ∧ s.nbufs ≥ S.maxBufs ∧
    ∃ v, victim s = some v ∧ (s.bufs v).dirty = true ∧ S.io s.tick (s.bufs v).disk ≠ 0

theorem writeback_fails_iff (h : Lists S s) (hb : b ∈ s.lru) :
    (writeback S b s).1 ≠ 0 ↔ (s.bufs b).dirty = true ∧ S.io s.tick (s.bufs b).disk ≠ 0 := by
  have hin := h.inside b hb
  have hr : (diskWrite S (s.bufs b).disk (s.bufs b).block (s.bufs b).data s).1 = S.io s.tick (s.bufs b).disk := by
    unfold diskWrite
    rw [hin]
    rfl
  unfold writeback
  dsimp only
  cases hd : (s.bufs b).dirty with
  | false => simp
  | true =>
  rw [if_neg (by simp), ← hr]
  generalize diskWrite S (s.bufs b).disk (s.bufs b).block (s.bufs b).data s = r
  obtain ⟨e, s1⟩ := r
  dsimp only
  split
  · rename_i he
    simp [he]
  · rename_i he
    simp [he]

theorem allocBuf_isSome (hS : Reliable S d) : (allocBuf S s).1.isSome := by
  unfold allocBuf
  rw [hS.alloc, if_pos rfl]
  rfl

theorem fill_isSome (hS : Reliable S d) (hin : hasBlock S d block = true) (read : Bool) :
    (fill S d block read b s).1.isSome := by
  have hr : ∀ data, (diskRead S d block data s).1 = 0 := by
    intro data
    unfold diskRead
    rw [hin]
    exact hS.io _
  unfold fill
  dsimp only
  split
  · have hdata := hr (s.bufs b).data
    generalize diskRead S d block (s.bufs b).data s = r at hdata
    obtain ⟨e, data, s1⟩ := r
    dsimp only at hdata ⊢
    rw [hdata, if_neg (not_not_intro rfl)]
    rfl
  · rfl

theorem getblk_isSome_iff (hS : Reliable S d) (h : Lists S s) (hin : hasBlock S d block = true) (read : Bool) :
    (getblk S d block read s).1.isSome ↔ ¬ Blocked S d block s := by
  unfold getblk
  split
  · rename_i b hb
    refine iff_of_true (fill_isSome hS hin read) fun hblocked => ?_
    rw [hblocked.1] at hb
    cases hb
  rename_i hnone
  have hclaim : (claimBuf S s).1.isSome ↔ ¬ Blocked S d block s := by
    unfold claimBuf
    split
    · rename_i hfull
      split
      · rename_i v hv
        have hmem : v ∈ s.lru := List.mem_reverse.mp (List.mem_of_find?_eq_some hv)
        have hfails := writeback_fails_iff h hmem
        have hblocked : Blocked S d block s ↔ (writeback S v s).1 ≠ 0 := by
          refine ⟨fun hb => ?_, fun hr => ⟨hnone, hfull, v, hv, hfails.mp hr⟩⟩
          obtain ⟨_, _, v', hv', hd⟩ := hb
          rw [hv] at hv'
          cases hv'
          exact hfails.mpr hd
        rw [hblocked]
        dsimp only
        split
        · rename_i hr
          simp [hr]
        · rename_i hr
          simp [not_not.mp hr]
      rename_i hv
      refine iff_of_true (allocBuf_isSome hS) fun hb => ?_
      obtain ⟨_, _, v', hv', _⟩ := hb
      rw [hv] at hv'
      cases hv'
    · rename_i hfull
      exact iff_of_true (allocBuf_isSome hS) fun hb => hfull hb.2.1
  rw [← hclaim]
  split
  · rename_i heq
    rw [heq]
  rename_i heq
  rw [heq]
  exact iff_of_true (fill_isSome hS hin read) rfl

def Unblocked (S : Sys) (d base n : Nat) (src : Option (Nat → UInt8)) : Nat → Nat → St → Prop
  | 0, _, _ => True
  | k + 1, done, s => done < n → ¬ Blocked S d ((base + done) / BCACHE_BLOCK) s ∧
        Unblocked S d base n src k (done + chunkAt base n done) (rwTurn S d base n src done s).2

theorem rwTurn_good {base n done : Nat} (src : Option (Nat → UInt8)) (h : Good S want s) (hfit : base + n ≤ S.size d)
    (hlt : done < n) : ∃ want', Good S want' (rwTurn S d base n src done s).2 := by
  have hg := getblk_spec h (hasBlock_at hfit hlt) (!(src.isSome && chunkAt base n done = BCACHE_BLOCK))
  unfold rwTurn blockFor
  dsimp only
  split
  · rename_i heq
    rw [heq] at hg
    exact ⟨want, hg.good⟩
  rename_i b s1 heq
  rw [heq] at hg
  obtain ⟨hmem, hkey, hvalid⟩ := hg.buf b rfl
  split
  · rename_i buf
    have hold : (s1.bufs b).valid = true ∨ chunkAt base n done = BCACHE_BLOCK := by
      by_cases hc : chunkAt base n done = BCACHE_BLOCK
      · exact .inr hc
      · exact .inl (hvalid (by simp [hc]))
    have hs : Good S (accept d _ _ (fun i => buf (done + i)) want) _ :=
      store_good hg.good hmem hkey (chunkAt_fits base n done) hold
    exact ⟨_, hs⟩
  · exact ⟨want, release_good hg.good hmem⟩

theorem rwTurn_isSome_iff (hS : Reliable S d) {base n done : Nat} (src : Option (Nat → UInt8)) (h : Good S want s)
    (hfit : base + n ≤ S.size d) (hlt : done < n) : (rwTurn S d base n src done s).1.isSome = true ↔
      ¬ Blocked S d ((base + done) / BCACHE_BLOCK) s := by
  rw [← getblk_isSome_iff hS h.lists (hasBlock_at hfit hlt) (!(src.isSome && chunkAt base n done = BCACHE_BLOCK))]
  unfold rwTurn blockFor
  dsimp only
  split
  · rename_i heq
    rw [heq]
    exact Iff.rfl
  rename_i heq
  rw [heq]
  cases src with
  | none => exact Iff.rfl
  | some buf => exact Iff.rfl

theorem rwLoop_all_iff (hS : Reliable S d) {base n : Nat} {src : Option (Nat → UInt8)} (hfit : base + n ≤ S.size d)
    (k done : Nat) (out : List UInt8) (h : Good S want s) (hn : done ≤ n) (hk : n - done ≤ k) :
    ((rwLoop S d base n src k done out s).1 = true ↔ Unblocked S d base n src k done s) ∧
      ((rwLoop S d base n src k done out s).1 = false → (rwLoop S d base n src k done out s).2.1 < n) := by
  induction k generalizing done out s want with
  | zero => exact ⟨iff_of_true rfl trivial, fun h => absurd h.symm Bool.false_ne_true⟩
  | succ k ih =>
  unfold rwLoop Unblocked
  split
  · rename_i hlt
    have hchunk := chunkAt_pos base hlt
    obtain ⟨want', hturn⟩ := rwTurn_good src h hfit hlt
    have hnext := fun out => ih (done + chunkAt base n done) out hturn (by omega) (by omega)
    have hsome := rwTurn_isSome_iff hS src h hfit hlt
    generalize rwTurn S d base n src done s = r at hsome hnext
    obtain ⟨bytes, s1⟩ := r
    cases bytes with
    | none =>
      refine ⟨iff_of_false Bool.false_ne_true fun hu => ?_, fun _ => hlt⟩
      exact absurd (hsome.mpr (hu hlt).1) Bool.false_ne_true
    | some bytes =>
    obtain ⟨hiff, hshort⟩ := hnext (out ++ bytes)
    exact ⟨hiff.trans ⟨fun hu _ => ⟨hsome.mp rfl, hu⟩, fun hu => (hu hlt).2⟩, hshort⟩
  · rename_i hlt
    exact ⟨iff_of_true rfl fun h' => absurd h' hlt, fun h => absurd h.symm Bool.false_ne_true⟩

-- After any sequence of operations: a request that lies inside a reliable disk is done in full
-- exactly if it never needs the place of a dirty buffer that cannot be written back.
theorem transfer_iff_unblocked (S : Sys) (dev : Nat → Nat → UInt8) (ops : List (Op S)) (bd : Blkdev S) (n off : Nat)
    (src : Option (Nat → UInt8)) (hS : Reliable S bd.whole) (hrange : off + n ≤ bd.nrSectors * SECTOR_SIZE)
    (hro : src.isSome = true → (S.disk bd.whole).readonly = false) :
    (cachedRw bd n off src (run S dev ops).1).1 = n ↔
      Unblocked S bd.whole (bd.start * SECTOR_SIZE + off) n src n 0 (run S dev ops).1 := by
  have h := run_good dev ops
  generalize (run S dev ops).1 = s at h
  unfold cachedRw
  dsimp only
  split
  · rename_i hoff
    obtain rfl : n = 0 := by omega
    exact iff_of_true rfl trivial
  rename_i hoff
  have hwritable : ¬ (src.isSome && (S.disk bd.whole).readonly) = true := by
    cases hsrc : src.isSome with
    | false => simp
    | true => simp [hro hsrc]
  have hn : min n (bd.nrSectors * SECTOR_SIZE - off) = n := by omega
  have hfit := bd.fits hoff n
  rw [if_neg hwritable, hn]
  rw [hn] at hfit
  obtain ⟨hall, hshort⟩ : (_ ↔ Unblocked S _ _ n src n 0 s) ∧ _ := rwLoop_all_iff hS hfit n 0 [] h (Nat.zero_le _) (Nat.le_refl _)
  have hdone : (rwLoop S bd.whole (bd.start * SECTOR_SIZE + off) n src n 0 [] s).1 = true →
      (rwLoop S bd.whole (bd.start * SECTOR_SIZE + off) n src n 0 [] s).2.1 = n := by
    intro htrue
    cases src with
    | none => exact (rwLoop_read h hfit rfl).2.2 htrue
    | some buf => exact (rwLoop_write h hfit rfl).2.2 htrue
  generalize rwLoop S bd.whole (bd.start * SECTOR_SIZE + off) n src n 0 [] s = r at hall hshort hdone
  obtain ⟨all, done, out, s1⟩ := r
  rw [← hall]
  cases all with
  | true =>
    refine iff_of_true ?_ rfl
    rw [if_neg (by simp)]
    exact congrArg Int.ofNat (hdone rfl)
  | false =>
  refine iff_of_false (fun heq => ?_) Bool.false_ne_true
  have hlt : done < n := hshort rfl
  dsimp only at heq
  split at heq
  · unfold EIO at heq
    omega
  · omega

def twoDisks : Sys where
  disk d := if d = 0 then ⟨2048, false, 0, by decide⟩ else ⟨8, false, 64, by decide⟩
  maxBufs := 256
  io tick d := if d = 0 ∧ 768 ≤ tick then - EIO else 0
  flush _ _ := 0
  junk _ _ := 0
  alloc _ := true
  ktime _ := 0
  maxBufs_ge := Nat.le_refl _

def diskA : Blkdev twoDisks := ⟨0, 0, 2048, by decide⟩
def diskB : Blkdev twoDisks := ⟨1, 0, 8, by decide⟩

theorem diskB_reliable : Reliable twoDisks diskB.whole := ⟨fun _ => rfl, fun _ => rfl⟩

-- The cache is full: 200 dirty buffers and, used after them, 56 clean ones.
def fillA : List (Op twoDisks) := (List.range 256).map fun i =>
  if i < 200 then .write diskA [7] (i * BCACHE_BLOCK) else .read diskA 1 (i * BCACHE_BLOCK)

theorem transfer_iff_unblocked_full : Reliable twoDisks diskB.whole ∧ (run twoDisks (fun _ _ => 0) fillA).1.nbufs = 256 ∧
    Unblocked twoDisks diskB.whole (diskB.start * SECTOR_SIZE + 0) 1 none 1 0 (run twoDisks (fun _ _ => 0) fillA).1 :=
  ⟨diskB_reliable, by decide +kernel, (transfer_iff_unblocked twoDisks (fun _ _ => 0) fillA diskB 1 0 none diskB_reliable
    (by decide) nofun).mp (by decide +kernel)⟩

def touchA (n : Nat) : List (Op twoDisks) := (List.range n).map fun i => .write diskA [7] (i * BCACHE_BLOCK)

theorem full_cache_blocks_other_disk : Reliable twoDisks diskB.whole ∧ 0 + 1 ≤ diskB.nrSectors * SECTOR_SIZE ∧
      (cachedRw diskB 1 0 none (run twoDisks (fun _ _ => 0) (touchA 256)).1).1 = - EIO :=
  ⟨diskB_reliable, by decide, by decide +kernel⟩

end Olux.Bcache
