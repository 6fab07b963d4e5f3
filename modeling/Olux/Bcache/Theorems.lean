import Olux.Bcache.Lemmas

namespace Olux.Bcache

open Function List

variable {S : Sys} {s s' : St} {b d block : Nat} {want : Nat → Nat → UInt8}

-- The abstract disks: a byte is what was last accepted for its place.

variable {base n : Nat}

def accept (d base n : Nat) (buf : Nat → UInt8) (want : Nat → Nat → UInt8) : Nat → Nat → UInt8 :=
  fun e p => if e = d ∧ base ≤ p ∧ p < base + n then buf (p - base) else want e p

theorem accept_zero (base : Nat) (buf : Nat → UInt8) : accept d base 0 buf want = want := by
  funext e p
  exact if_neg fun h => by omega

theorem accept_append (base n m : Nat) (buf : Nat → UInt8) :
    accept d (base + n) m (fun i => buf (n + i)) (accept d base n buf want) = accept d base (n + m) buf want := by
  funext e p
  unfold accept
  dsimp only
  by_cases he : e = d
  · by_cases h1 : base + n ≤ p ∧ p < base + n + m
    · rw [if_pos ⟨he, h1⟩, if_pos ⟨he, by omega, by omega⟩]
      congr 1
      omega
    · rw [if_neg fun h => h1 h.2]
      by_cases h2 : base ≤ p ∧ p < base + n
      · rw [if_pos ⟨he, h2⟩, if_pos ⟨he, by omega, by omega⟩]
      · rw [if_neg fun h => h2 h.2, if_neg fun h => by omega]
  · rw [if_neg fun h => he h.1, if_neg fun h => he h.1, if_neg fun h => he h.1]

def Op.accepted (want : Nat → Nat → UInt8) (a : Answer) : Op S → Nat → Nat → UInt8
  | .write bd buf off =>
    accept bd.whole (bd.start * SECTOR_SIZE + off) a.ret.toNat (fun i => buf.getD i 0) want
  | _ => want

-- What an answer says about them. After a sync that succeeds the disk itself is as it should be.
def Op.Right (want : Nat → Nat → UInt8) (s' : St) (a : Answer) : Op S → Prop
  | .read bd _ off => a.bytes = (List.range a.ret.toNat).map fun i => want bd.whole (bd.start * SECTOR_SIZE + off + i)
  | .sync bd => a.ret = 0 → ∀ p < S.size bd.whole, s'.dev bd.whole p = want bd.whole p
  | _ => True

theorem Good.written (h : Good S want s) {x : Buf} {bo chunk : Nat} {buf : Nat → UInt8} (hb : b ∈ s.lru)
    (hkey : Keyed s d block b) (hfit : bo + chunk ≤ BCACHE_BLOCK)
    (hold : (s.bufs b).valid = true ∨ chunk = BCACHE_BLOCK) (hkeys : SameKeys s s') (hlru : s'.lru = s.lru)
    (hself : s'.bufs b = x) (hvalid : x.valid = true) (hdirty : x.dirty = true)
    (hdata : ∀ o, x.data o = if bo ≤ o ∧ o < bo + chunk then buf (o - bo) else (s.bufs b).data o)
    (hother : ∀ c, c ≠ b → s'.bufs c = s.bufs c) (hdev : s'.dev = s.dev)
    (hnd : s'.ndirty + (s.bufs b).dirty.toNat = s.ndirty + 1) :
    Good S (accept d (block * BCACHE_BLOCK + bo) chunk buf want) s' := by
  obtain ⟨rfl, rfl⟩ := hkey
  -- the bytes that change are all of this block
  have hrange : ∀ p, (s.bufs b).block * BCACHE_BLOCK + bo ≤ p ∧ p < (s.bufs b).block * BCACHE_BLOCK + bo + chunk →
      p / BCACHE_BLOCK = (s.bufs b).block := by
    intro p hp
    simp only [BCACHE_BLOCK] at hfit hp ⊢
    omega
  refine ⟨h.lists.same hkeys, ?_, ?_, ?_, ?_⟩
  · have hcount := Bcache.countP_dirty h.lists.nodup hb hlru hother
    rw [hself, hdirty, Bool.toNat_true, ← h.data.ndirty] at hcount
    omega
  · intro c hc
    by_cases hcb : c = b
    · rw [hcb, hself]
      exact fun _ => hvalid
    · rw [hother c hcb]
      exact h.data.dirty_valid c (hlru ▸ hc)
  · intro c hc
    rw [hkeys.disk, hkeys.block]
    by_cases hcb : c = b
    · intro _ p hp hblk
      rw [hcb] at hp hblk ⊢
      rw [hself, hdata]
      have hp' : p = (s.bufs b).block * BCACHE_BLOCK + p % BCACHE_BLOCK := by
        rw [← hblk]
        simp only [BCACHE_BLOCK]
        omega
      unfold accept
      split
      · rename_i hin
        rw [if_pos ⟨rfl, by omega, by omega⟩]
        congr 1
        omega
      rename_i hout
      rw [if_neg fun hin => hout (by omega)]
      rcases hold with hold | hold
      · exact h.data.held b hb hold p hp hblk
      refine absurd ⟨?_, ?_⟩ hout
      · omega
      · have := Nat.mod_lt p (show 0 < BCACHE_BLOCK by decide)
        omega
    rw [hother c hcb]
    intro hv p hp hblk
    have hne : ¬ ((s.bufs c).disk = (s.bufs b).disk ∧ _ ≤ p ∧ p < _ + chunk) := fun hin =>
      hcb (h.lists.unique c (hlru ▸ hc) b hb hin.1 (hblk.symm.trans (hrange p hin.2)))
    unfold accept
    rw [if_neg hne]
    exact h.data.held c (hlru ▸ hc) hv p hp hblk
  intro e p hp hno
  rw [hdev]
  unfold accept
  rw [if_neg]
  · refine h.data.stored e p hp fun c hc hce hcp => ?_
    have hclean := hno c (hlru ▸ hc) ((hkeys.disk c).trans hce) ((hkeys.block c).trans hcp)
    by_cases hcb : c = b
    · rw [hcb, hself, hdirty] at hclean
      cases hclean
    · rwa [hother c hcb] at hclean
  rintro ⟨rfl, hin⟩
  have hclean := hno b (hlru ▸ hb) (hkeys.disk b) ((hkeys.block b).trans (hrange p hin).symm)
  rw [hself, hdirty] at hclean
  cases hclean

theorem store_good (h : Good S want s) {bo chunk : Nat} {buf : Nat → UInt8} (hb : b ∈ s.lru)
    (hkey : Keyed s d block b) (hfit : bo + chunk ≤ BCACHE_BLOCK)
    (hold : (s.bufs b).valid = true ∨ chunk = BCACHE_BLOCK) :
    Good S (accept d (block * BCACHE_BLOCK + bo) chunk buf want) (store S b bo chunk buf s) := by
  unfold store
  dsimp only
  split
  · rename_i hdirty
    refine h.written hb hkey hfit hold (setBuf_sameKeys rfl rfl) rfl (setBuf_self _) rfl hdirty (fun _ => rfl)
      (fun c hc => setBuf_other _ hc) rfl ?_
    rw [hdirty]
    rfl
  rename_i hclean
  refine h.written hb hkey hfit hold ?_ rfl (setBuf_self _) rfl rfl (fun _ => rfl) (fun c hc => setBuf_other _ hc) rfl ?_
  · have hset := setBuf_sameKeys (s := s) (b := b) (x := { s.bufs b with
      data := fun o => if bo ≤ o ∧ o < bo + chunk then buf (o - bo) else (s.bufs b).data o, valid := true,
      dirty := true, dirtiedAt := S.ktime s.tick, users := (s.bufs b).users - 1 }) rfl rfl
    exact ⟨hset.lru, hset.hash, hset.nbufs, hset.fresh, hset.disk, hset.block⟩
  · rw [Bool.eq_false_iff.mpr hclean]
    rfl

theorem release_good (h : Good S want s) (hb : b ∈ s.lru) : Good S want (release b s) :=
  h.setBuf rfl rfl rfl (h.data.dirty_valid b hb) (h.data.held b hb)

theorem chunkAt_pos (base : Nat) {n done : Nat} (hlt : done < n) :
    0 < chunkAt base n done ∧ chunkAt base n done ≤ n - done := by
  have := Nat.mod_lt (base + done) (show 0 < BCACHE_BLOCK by decide)
  unfold chunkAt
  omega

-- The rule for the loop: what a turn keeps holds at the end, and all is done unless it says no.
theorem rwLoop_rule {d : Nat} {src : Option (Nat → UInt8)} {P : Nat → List UInt8 → St → Prop}
    (hmiss : ∀ {done out s s'}, done < n → P done out s → blockFor S d base n src done s = (none, s') → P done out s')
    (hwrite : ∀ {buf done out s b s'}, src = some buf → done < n → P done out s →
      blockFor S d base n src done s = (some b, s') → P (done + chunkAt base n done) out
        (store S b ((base + done) % BCACHE_BLOCK) (chunkAt base n done) (fun i => buf (done + i)) s'))
    (hread : ∀ {done out s b s'}, src = none → done < n → P done out s →
      blockFor S d base n src done s = (some b, s') → P (done + chunkAt base n done)
        (out ++ (List.range (chunkAt base n done)).map fun i => (s'.bufs b).data ((base + done) % BCACHE_BLOCK + i))
        (release b s'))
    (k done : Nat) (out : List UInt8) (s : St) (hP : P done out s) (hn : done ≤ n) (hk : n - done ≤ k)
    {r : Bool × Nat × List UInt8 × St} (hr : rwLoop S d base n src k done out s = r) :
    P r.2.1 r.2.2.1 r.2.2.2 ∧ r.2.1 ≤ n ∧ (r.1 = true → r.2.1 = n) := by
  induction k generalizing done out s with
  | zero =>
    subst hr
    exact ⟨hP, hn, fun _ => show done = n by omega⟩
  | succ k ih =>
  unfold rwLoop rwTurn at hr
  split at hr
  · rename_i hlt
    have hchunk := chunkAt_pos base hlt
    cases hblk : blockFor S d base n src done s with
    | mk found s1 =>
    rw [hblk] at hr
    cases found with
    | none =>
      subst hr
      exact ⟨hmiss hlt hP hblk, hn, nofun⟩
    | some b =>
    cases src with
    | some buf =>
      dsimp only at hr
      rw [List.append_nil] at hr
      exact ih _ _ _ (hwrite rfl hlt hP hblk) (by omega) (by omega) hr
    | none => exact ih _ _ _ (hread rfl hlt hP hblk) (by omega) (by omega) hr
  · subst hr
    exact ⟨hP, hn, fun _ => show done = n by omega⟩

theorem hasBlock_at {done : Nat} (hfit : base + n ≤ S.size d) (hlt : done < n) :
    hasBlock S d ((base + done) / BCACHE_BLOCK) = true := by
  unfold hasBlock
  refine decide_eq_true ?_
  unfold Sys.size at hfit
  simp only [BCACHE_BLOCK, SECTOR_SIZE] at hfit ⊢
  omega

theorem chunkAt_fits (base n done : Nat) : (base + done) % BCACHE_BLOCK + chunkAt base n done ≤ BCACHE_BLOCK := by
  have := Nat.mod_lt (base + done) (show 0 < BCACHE_BLOCK by decide)
  unfold chunkAt
  omega

theorem block_pos (base done : Nat) :
    (base + done) / BCACHE_BLOCK * BCACHE_BLOCK + (base + done) % BCACHE_BLOCK = base + done := by
  rw [Nat.mul_comm]
  exact Nat.div_add_mod _ _

theorem rwLoop_write {buf : Nat → UInt8} (h : Good S want s) (hfit : base + n ≤ S.size d)
    {r : Bool × Nat × List UInt8 × St} (hr : rwLoop S d base n (some buf) n 0 [] s = r) :
    Good S (accept d base r.2.1 buf want) r.2.2.2 ∧ r.2.1 ≤ n ∧ (r.1 = true → r.2.1 = n) := by
  refine rwLoop_rule (P := fun done _ s => Good S (accept d base done buf want) s) ?_ ?_ ?_ n 0 [] s ?_
    (Nat.zero_le _) (Nat.le_refl _) hr
  · intro done out s0 s1 hlt hP heq
    have hg := getblk_spec hP (hasBlock_at hfit hlt) (!((some buf).isSome && chunkAt base n done = BCACHE_BLOCK))
    exact (congrArg (fun x => Good S _ x.2) heq).mp hg.good
  · intro buf' done out s0 b s1 hsrc hlt hP heq
    cases hsrc
    have hg := getblk_spec hP (hasBlock_at hfit hlt) (!((some buf).isSome && chunkAt base n done = BCACHE_BLOCK))
    unfold blockFor at heq
    rw [heq] at hg
    obtain ⟨hmem, hkey, hvalid⟩ := hg.buf b rfl
    have hold : (s1.bufs b).valid = true ∨ chunkAt base n done = BCACHE_BLOCK := by
      by_cases hc : chunkAt base n done = BCACHE_BLOCK
      · exact .inr hc
      · exact .inl (hvalid (by simp [hc]))
    have hs : Good S (accept d _ _ (fun i => buf (done + i)) _) _ :=
      store_good hg.good hmem hkey (chunkAt_fits base n done) hold
    rw [block_pos, accept_append] at hs
    exact hs
  · intro _ _ _ _ _ hsrc
    cases hsrc
  · rw [accept_zero]
    exact h

theorem rwLoop_read (h : Good S want s) (hfit : base + n ≤ S.size d) {r : Bool × Nat × List UInt8 × St}
    (hr : rwLoop S d base n none n 0 [] s = r) :
    (r.2.2.1 = (List.range r.2.1).map (fun i => want d (base + i)) ∧ Good S want r.2.2.2) ∧ r.2.1 ≤ n ∧
      (r.1 = true → r.2.1 = n) := by
  refine rwLoop_rule (P := fun done out s => out = (List.range done).map (fun i => want d (base + i)) ∧ Good S want s)
    ?_ ?_ ?_ n 0 [] s ⟨rfl, h⟩ (Nat.zero_le _) (Nat.le_refl _) hr
  · intro done out s0 s1 hlt hP heq
    have hg := getblk_spec hP.2 (hasBlock_at hfit hlt) true
    exact ⟨hP.1, (congrArg (fun x => Good S want x.2) heq).mp hg.good⟩
  · intro _ _ _ _ _ _ hsrc
    cases hsrc
  intro done out s0 b s1 _ hlt hP heq
  have hg := getblk_spec hP.2 (hasBlock_at hfit hlt) true
  have heq' : getblk S d ((base + done) / BCACHE_BLOCK) true s0 = (some b, s1) := heq
  rw [heq'] at hg
  obtain ⟨hmem, hkey, hvalid⟩ := hg.buf b rfl
  refine ⟨?_, release_good hg.good hmem⟩
  rw [hP.1, range_add, map_append, map_map]
  congr 1
  refine map_congr_left fun i hi => ?_
  have hi' : i < chunkAt base n done := mem_range.mp hi
  have hin := chunkAt_fits base n done
  have hle : chunkAt base n done ≤ n - done := Nat.min_le_left _ _
  -- the byte lies in this block, at its offset
  have hmod : (base + done + i) % BCACHE_BLOCK = (base + done) % BCACHE_BLOCK + i := by
    simp only [BCACHE_BLOCK] at hin ⊢
    omega
  have hdiv : (base + done + i) / BCACHE_BLOCK = (base + done) / BCACHE_BLOCK := by
    simp only [BCACHE_BLOCK] at hin ⊢
    omega
  have hheld := hg.good.data.held b hmem (hvalid rfl) (base + done + i) (by rw [hkey.1]; omega)
    (by rw [hkey.2, hdiv])
  rw [hmod, hkey.1] at hheld
  rw [hheld, comp_apply, Nat.add_assoc]

theorem Blkdev.fits (bd : Blkdev S) {off : Nat} (hoff : ¬ off ≥ bd.nrSectors * SECTOR_SIZE) (n : Nat) :
    bd.start * SECTOR_SIZE + off + min n (bd.nrSectors * SECTOR_SIZE - off) ≤ S.size bd.whole := by
  have hin := bd.inside
  unfold Sys.size
  simp only [SECTOR_SIZE] at hoff ⊢
  omega

theorem toNat_answer (all : Bool) (done : Nat) : (if !all && done = 0 then - EIO else (done : Int)).toNat = done := by
  split
  · rename_i h
    rw [Bool.and_eq_true, decide_eq_true_eq] at h
    rw [h.2]
    rfl
  · rfl

theorem read_spec (h : Good S want s) (bd : Blkdev S) (n off : Nat) : Good S want (cachedRw bd n off none s).2.2 ∧
      (cachedRw bd n off none s).2.1 = (List.range (cachedRw bd n off none s).1.toNat).map fun i =>
        want bd.whole (bd.start * SECTOR_SIZE + off + i) := by
  unfold cachedRw
  dsimp only
  split
  · exact ⟨h, rfl⟩
  rename_i hoff
  rw [if_neg (by simp)]
  have hr := rwLoop_read h (bd.fits hoff n) rfl
  generalize rwLoop S bd.whole _ _ none _ 0 [] s = r at hr
  obtain ⟨all, done, out, s1⟩ := r
  dsimp only
  rw [toNat_answer]
  exact ⟨hr.1.2, hr.1.1⟩

theorem write_spec (h : Good S want s) (bd : Blkdev S) (n off : Nat) (buf : Nat → UInt8) :
    Good S (accept bd.whole (bd.start * SECTOR_SIZE + off) (cachedRw bd n off (some buf) s).1.toNat buf want)
      (cachedRw bd n off (some buf) s).2.2 := by
  have hnone : ∀ e : Int, e.toNat = 0 → Good S (accept bd.whole (bd.start * SECTOR_SIZE + off) e.toNat buf want) s := by
    intro e he
    rw [he, accept_zero]
    exact h
  unfold cachedRw
  dsimp only
  split
  · exact hnone 0 rfl
  rename_i hoff
  split
  · exact hnone (- EROFS) rfl
  have hr := rwLoop_write h (bd.fits hoff n) (rfl : rwLoop S _ _ _ (some buf) _ 0 [] s = _)
  generalize rwLoop S bd.whole _ _ (some buf) _ 0 [] s = r at hr
  obtain ⟨all, done, out, s1⟩ := r
  dsimp only
  rw [toNat_answer]
  exact hr.1

structure Synced (S : Sys) (want : Nat → Nat → UInt8) (l : List Nat) (only : Option Nat) (olderThan : Nat)
    (acc r : Int × St) : Prop where
  good : Good S want r.2
  lru : r.2.lru = acc.2.lru
  keys : SameKeys acc.2 r.2
  clean : ∀ c, (acc.2.bufs c).dirty = false → (r.2.bufs c).dirty = false
  done : r.1 = 0 → acc.1 = 0 ∧ (olderThan = 0 → ∀ b ∈ l, only = some (acc.2.bufs b).disk → (r.2.bufs b).dirty = false)

theorem syncTurn_spec (acc : Int × St) (h : Good S want acc.2) (hb : b ∈ acc.2.lru) (only : Option Nat)
    (olderThan : Nat) : Synced S want [b] only olderThan acc (syncTurn S only olderThan acc b) := by
  obtain ⟨err, s⟩ := acc
  unfold syncTurn
  dsimp only at h hb ⊢
  split
  · rename_i hsel
    have hw := writeback_spec h hb
    refine ⟨hw.good, hw.lru, hw.keys, fun c hc => ?_, fun h0 => ?_⟩
    · by_cases hcb : c = b
      · subst hcb
        dsimp only at hc
        rw [hc] at hsel
        cases hsel
      · show ((writeback S b s).2.bufs c).dirty = false
        rw [hw.other c hcb]
        exact hc
    dsimp only at h0
    split at h0
    · rename_i hr
      exact absurd h0 hr
    rename_i hr
    refine ⟨h0, fun _ => forall_mem_singleton.mpr fun _ => ?_⟩
    exact hw.clean (not_not.mp hr)
  rename_i hno
  refine ⟨h, rfl, .refl s, fun _ hc => hc, fun h0 => ⟨h0, fun hold => forall_mem_singleton.mpr fun honly => ?_⟩⟩
  dsimp only at honly ⊢
  subst hold
  cases hd : (s.bufs b).dirty with
  | false => rfl
  | true =>
    rw [hd, honly] at hno
    simp at hno

theorem foldl_syncTurn (l : List Nat) (acc : Int × St) (h : Good S want acc.2) (hl : ∀ b ∈ l, b ∈ acc.2.lru)
    (only : Option Nat) (olderThan : Nat) :
    Synced S want l only olderThan acc (l.foldl (syncTurn S only olderThan) acc) := by
  induction l generalizing acc with
  | nil => exact ⟨h, rfl, .refl _, fun _ hc => hc, fun h0 => ⟨h0, fun _ => forall_mem_nil _⟩⟩
  | cons b l ih =>
  have h1 := syncTurn_spec acc h (hl b mem_cons_self) only olderThan
  have h2 := ih (syncTurn S only olderThan acc b) h1.good fun c hc => h1.lru ▸ hl c (mem_cons_of_mem _ hc)
  refine ⟨h2.good, h2.lru.trans h1.lru, h1.keys.trans h2.keys, fun c hc => h2.clean c (h1.clean c hc), fun h0 => ?_⟩
  obtain ⟨hacc, hrest⟩ := h2.done h0
  obtain ⟨hzero, hfirst⟩ := h1.done hacc
  refine ⟨hzero, fun hold => forall_mem_cons.mpr ⟨fun honly => ?_, fun c hc honly => ?_⟩⟩
  · exact h2.clean b (hfirst hold b mem_cons_self honly)
  · exact hrest hold c hc (honly.trans (congrArg some (h1.keys.disk c).symm))

theorem syncDisk_spec (h : Good S want s) (only : Option Nat) (olderThan : Nat) :
    Synced S want s.lru only olderThan (0, s) (syncDisk S only olderThan s) :=
  foldl_syncTurn s.lru (0, s) h (fun _ hb => hb) only olderThan

theorem bdevSync_spec (h : Good S want s) (bd : Blkdev S) : Good S want (bdevSync bd s).2 ∧
      ((bdevSync bd s).1 = 0 → ∀ p < S.size bd.whole, (bdevSync bd s).2.dev bd.whole p = want bd.whole p) := by
  have hs := syncDisk_spec h (some bd.whole) 0
  unfold bdevSync
  generalize syncDisk S (some bd.whole) 0 s = r at hs
  obtain ⟨e, s1⟩ := r
  refine ⟨hs.good.tick _, fun h0 p hp => hs.good.data.stored _ p hp fun b hb hd _ => ?_⟩
  have he : e = 0 := by
    dsimp only at h0
    split at h0
    · assumption
    · exact h0
  refine (hs.done he).2 rfl b (hs.lru ▸ hb) ?_
  rw [← hs.keys.disk b, hd]

theorem flusher_good (h : Good S want s) : Good S want (flusher S s) := by
  unfold flusher
  dsimp only
  split
  · exact (syncDisk_spec (h.tick _) none _).good
  · exact h.tick _

theorem step_spec (h : Good S want s) (op : Op S) :
    Good S (op.accepted want (step S s op).1) (step S s op).2 ∧ op.Right want (step S s op).2 (step S s op).1 := by
  cases op with
  | read bd n off => exact read_spec h bd n off
  | write bd buf off => exact ⟨write_spec h bd buf.length off _, trivial⟩
  | sync bd => exact bdevSync_spec h bd
  | flush => exact ⟨flusher_good h, trivial⟩

def run (S : Sys) (dev : Nat → Nat → UInt8) (ops : List (Op S)) : St × (Nat → Nat → UInt8) :=
  ops.foldl (fun r op => ((step S r.1 op).2, op.accepted r.2 (step S r.1 op).1)) (boot dev, dev)

theorem boot_good (dev : Nat → Nat → UInt8) : Good S dev (boot dev) := by
  refine ⟨⟨nodup_nil, rfl, nofun, fun b k => ?_, fun _ => nodup_nil, nofun, nofun⟩,
    ⟨rfl, nofun, nofun, fun _ _ _ _ => rfl⟩⟩
  exact iff_of_false not_mem_nil fun h => not_mem_nil h.1

theorem run_good (dev : Nat → Nat → UInt8) (ops : List (Op S)) : Good S (run S dev ops).2 (run S dev ops).1 := by
  unfold run
  induction ops using List.reverseRecOn with
  | nil => exact boot_good dev
  | append_singleton ops op ih =>
    rw [foldl_append]
    exact (step_spec ih op).1

-- After any sequence of operations, the answer to the next one is right for the abstract disks:
-- a read returns the bytes that were accepted last, and a sync that succeeds leaves them on the
-- disk. There is one buffer for a block, and the counters count.
theorem cache_coherent (S : Sys) (dev : Nat → Nat → UInt8) (ops : List (Op S)) (op : Op S) :
    op.Right (run S dev ops).2 (step S (run S dev ops).1 op).2 (step S (run S dev ops).1 op).1 ∧
      (∀ b ∈ (run S dev ops).1.lru, ∀ c ∈ (run S dev ops).1.lru,
        ((run S dev ops).1.bufs b).disk = ((run S dev ops).1.bufs c).disk →
        ((run S dev ops).1.bufs b).block = ((run S dev ops).1.bufs c).block → b = c) ∧
      (run S dev ops).1.nbufs = (run S dev ops).1.lru.length ∧
      (run S dev ops).1.ndirty = (run S dev ops).1.lru.countP fun b => ((run S dev ops).1.bufs b).dirty := by
  have h := run_good dev ops
  exact ⟨(step_spec h op).2, h.lists.unique, h.lists.nbufs, h.data.ndirty⟩

end Olux.Bcache
