import Olux.Bcache
import Olux.Lib.Sum

namespace Olux.Bcache

open Lib List

variable {S : Sys} {s s' : St} {b c d block : Nat} {want : Nat → Nat → UInt8}

def Sys.size (S : Sys) (d : Nat) : Nat := (S.disk d).nrSectors * SECTOR_SIZE

structure Lists (S : Sys) (s : St) : Prop where
  nodup : s.lru.Nodup
  nbufs : s.nbufs = s.lru.length
  fresh : ∀ b ∈ s.lru, b < s.fresh
  bucket : ∀ b k, b ∈ s.hash k ↔ b ∈ s.lru ∧ hkey S (s.bufs b).disk (s.bufs b).block = k
  hnodup : ∀ k, (s.hash k).Nodup
  unique : ∀ b ∈ s.lru, ∀ c ∈ s.lru, (s.bufs b).disk = (s.bufs c).disk → (s.bufs b).block = (s.bufs c).block → b = c
  inside : ∀ b ∈ s.lru, hasBlock S (s.bufs b).disk (s.bufs b).block = true

-- What the buffers and the disks hold, against what they should: `want` is the last byte that
-- was accepted for each place.
structure Data (S : Sys) (want : Nat → Nat → UInt8) (s : St) : Prop where
  ndirty : s.ndirty = s.lru.countP fun b => (s.bufs b).dirty
  dirty_valid : ∀ b ∈ s.lru, (s.bufs b).dirty = true → (s.bufs b).valid = true
  held : ∀ b ∈ s.lru, (s.bufs b).valid = true → ∀ p < S.size (s.bufs b).disk, p / BCACHE_BLOCK = (s.bufs b).block →
    (s.bufs b).data (p % BCACHE_BLOCK) = want (s.bufs b).disk p
  stored : ∀ d, ∀ p < S.size d, (∀ b ∈ s.lru, (s.bufs b).disk = d → (s.bufs b).block = p / BCACHE_BLOCK →
    (s.bufs b).dirty = false) → s.dev d p = want d p

structure Good (S : Sys) (want : Nat → Nat → UInt8) (s : St) : Prop where
  lists : Lists S s
  data : Data S want s

-- The same buffers under the same keys, in the same lists up to the order of use.
structure SameKeys (s s' : St) : Prop where
  lru : s'.lru.Perm s.lru
  hash : s'.hash = s.hash
  nbufs : s'.nbufs = s.nbufs
  fresh : s'.fresh = s.fresh
  disk : ∀ c, (s'.bufs c).disk = (s.bufs c).disk
  block : ∀ c, (s'.bufs c).block = (s.bufs c).block

theorem SameKeys.refl (s : St) : SameKeys s s := ⟨.refl _, rfl, rfl, rfl, fun _ => rfl, fun _ => rfl⟩

theorem SameKeys.trans {s'' : St} (h : SameKeys s s') (h' : SameKeys s' s'') : SameKeys s s'' :=
  ⟨h'.lru.trans h.lru, h'.hash.trans h.hash, h'.nbufs.trans h.nbufs, h'.fresh.trans h.fresh,
    fun c => (h'.disk c).trans (h.disk c), fun c => (h'.block c).trans (h.block c)⟩

theorem Lists.same (h : Lists S s) (hs : SameKeys s s') : Lists S s' where
  nodup := hs.lru.nodup_iff.mpr h.nodup
  nbufs := by rw [hs.nbufs, h.nbufs, hs.lru.length_eq]
  fresh b hb := by
    rw [hs.fresh]
    exact h.fresh b (hs.lru.mem_iff.mp hb)
  bucket b k := by
    rw [hs.hash, hs.disk, hs.block, hs.lru.mem_iff]
    exact h.bucket b k
  hnodup k := by
    rw [hs.hash]
    exact h.hnodup k
  unique b hb c hc hd hbl := by
    rw [hs.disk, hs.disk] at hd
    rw [hs.block, hs.block] at hbl
    exact h.unique b (hs.lru.mem_iff.mp hb) c (hs.lru.mem_iff.mp hc) hd hbl
  inside b hb := by
    rw [hs.disk, hs.block]
    exact h.inside b (hs.lru.mem_iff.mp hb)

theorem setBuf_self (x : Buf) : (setBuf b x s).bufs b = x := if_pos rfl

theorem setBuf_other (x : Buf) (h : c ≠ b) : (setBuf b x s).bufs c = s.bufs c := if_neg h

theorem setBuf_sameKeys {x : Buf} (hd : x.disk = (s.bufs b).disk) (hb : x.block = (s.bufs b).block) :
    SameKeys s (setBuf b x s) := by
  refine ⟨.refl _, rfl, rfl, rfl, fun c => ?_, fun c => ?_⟩
  · by_cases hc : c = b
    · rw [hc, setBuf_self, hd]
    · rw [setBuf_other x hc]
  by_cases hc : c = b
  · rw [hc, setBuf_self, hb]
  · rw [setBuf_other x hc]

theorem countP_dirty (hn : s.lru.Nodup) (hb : b ∈ s.lru) (hlru : s'.lru = s.lru)
    (hother : ∀ c, c ≠ b → s'.bufs c = s.bufs c) :
    (s.lru.countP fun c => (s.bufs c).dirty) + (s'.bufs b).dirty.toNat =
      (s'.lru.countP fun c => (s'.bufs c).dirty) + (s.bufs b).dirty.toNat := by
  rw [hlru]
  exact countP_change hn hb (fun c => (s.bufs c).dirty) (fun c => (s'.bufs c).dirty) fun c _ hc => by rw [hother c hc]

theorem Good.setBuf (h : Good S want s) {x : Buf} (hdisk : x.disk = (s.bufs b).disk)
    (hblock : x.block = (s.bufs b).block) (hdirty : x.dirty = (s.bufs b).dirty) (hdv : x.dirty = true → x.valid = true)
    (hheld : x.valid = true → ∀ p < S.size x.disk, p / BCACHE_BLOCK = x.block →
      x.data (p % BCACHE_BLOCK) = want x.disk p) : Good S want (setBuf b x s) := by
  have hkeys := setBuf_sameKeys hdisk hblock
  have hd : ∀ c, ((Bcache.setBuf b x s).bufs c).dirty = (s.bufs c).dirty := by
    intro c
    by_cases hc : c = b
    · rw [hc, setBuf_self, hdirty]
    · rw [setBuf_other x hc]
  refine ⟨h.lists.same hkeys, ?_, ?_, ?_, ?_⟩
  · show s.ndirty = s.lru.countP _
    rw [h.data.ndirty]
    exact countP_congr fun c _ => by rw [hd]
  · intro c hc
    by_cases hcb : c = b
    · rw [hcb, setBuf_self]
      exact hdv
    · rw [setBuf_other x hcb]
      exact h.data.dirty_valid c hc
  · intro c hc
    by_cases hcb : c = b
    · rw [hcb, setBuf_self]
      exact hheld
    · rw [setBuf_other x hcb]
      exact h.data.held c hc
  intro e p hp hno
  refine h.data.stored e p hp fun c hc hce hcp => ?_
  rw [← hd c]
  exact hno c hc ((hkeys.disk c).trans hce) ((hkeys.block c).trans hcp)

theorem Good.agree (h : Good S want s) (hlru : s'.lru = s.lru) (hhash : s'.hash = s.hash) (hnb : s'.nbufs = s.nbufs)
    (hnd : s'.ndirty = s.ndirty) (hfresh : s.fresh ≤ s'.fresh) (hdev : s'.dev = s.dev)
    (hbufs : ∀ c ∈ s.lru, s'.bufs c = s.bufs c) : Good S want s' := by
  refine ⟨⟨?_, ?_, ?_, ?_, ?_, ?_, ?_⟩, ⟨?_, ?_, ?_, ?_⟩⟩
  · exact hlru ▸ h.lists.nodup
  · rw [hnb, hlru, h.lists.nbufs]
  · intro c hc
    exact Nat.lt_of_lt_of_le (h.lists.fresh c (hlru ▸ hc)) hfresh
  · intro c k
    rw [hhash, h.lists.bucket, hlru]
    exact and_congr_right fun hc => by rw [hbufs c hc]
  · exact hhash ▸ h.lists.hnodup
  · intro c hc e he
    rw [hlru] at hc he
    rw [hbufs c hc, hbufs e he]
    exact h.lists.unique c hc e he
  · intro c hc
    rw [hlru] at hc
    rw [hbufs c hc]
    exact h.lists.inside c hc
  · rw [hnd, hlru, h.data.ndirty]
    exact countP_congr fun c hc => by rw [hbufs c hc]
  · intro c hc
    rw [hlru] at hc
    rw [hbufs c hc]
    exact h.data.dirty_valid c hc
  · intro c hc
    rw [hlru] at hc
    rw [hbufs c hc]
    exact h.data.held c hc
  intro e p hp hno
  rw [hdev]
  refine h.data.stored e p hp fun c hc => ?_
  have hclean := hno c (hlru ▸ hc)
  rw [hbufs c hc] at hclean
  exact hclean

theorem Good.tick (h : Good S want s) (n : Nat) : Good S want { s with tick := n } :=
  h.agree rfl rfl rfl rfl (Nat.le_refl _) rfl fun _ _ => rfl

theorem Good.touch (h : Good S want s) (hb : b ∈ s.lru) : Good S want { s with lru := b :: s.lru.erase b } := by
  have hperm : (b :: s.lru.erase b).Perm s.lru := (perm_cons_erase hb).symm
  refine ⟨h.lists.same ⟨hperm, rfl, rfl, rfl, fun _ => rfl, fun _ => rfl⟩, ?_, ?_, ?_, ?_⟩
  · exact h.data.ndirty.trans (hperm.countP_eq _).symm
  · exact fun c hc => h.data.dirty_valid c (hperm.mem_iff.mp hc)
  · exact fun c hc => h.data.held c (hperm.mem_iff.mp hc)
  · exact fun e p hp hno => h.data.stored e p hp fun c hc => hno c (hperm.mem_iff.mpr hc)

theorem block_range (hb : hasBlock S d block = true) (p : Nat) :
    (block * BCACHE_BLOCK ≤ p ∧ p < block * BCACHE_BLOCK + sectorsOf S d block * SECTOR_SIZE) ↔
      p / BCACHE_BLOCK = block ∧ p < S.size d := by
  have hlt : block * (BCACHE_BLOCK / SECTOR_SIZE) < (S.disk d).nrSectors := of_decide_eq_true hb
  unfold sectorsOf Sys.size
  simp only [BCACHE_BLOCK, SECTOR_SIZE] at hlt ⊢
  omega

theorem diskWrite_dev (hb : hasBlock S d block = true) (data : Nat → UInt8) (e p : Nat) (hp : p < S.size e) :
    (diskWrite S d block data s).2.dev e p =
      if e = d ∧ p / BCACHE_BLOCK = block then
        (if (diskWrite S d block data s).1 = 0 then data else S.junk s.tick) (p - block * BCACHE_BLOCK)
      else s.dev e p := by
  unfold diskWrite
  rw [hb]
  show (if e = d ∧ block * BCACHE_BLOCK ≤ p ∧ p < block * BCACHE_BLOCK + sectorsOf S d block * SECTOR_SIZE then _ else _) = _
  by_cases he : e = d
  · subst he
    simp only [block_range hb, hp, and_true, true_and]
    rfl
  · simp only [he, false_and, if_false]

theorem Good.cleaned (h : Good S want s) (hb : b ∈ s.lru) (hdirty : (s.bufs b).dirty = true) (hkeys : SameKeys s s')
    (hlru : s'.lru = s.lru) (hself : s'.bufs b = { s.bufs b with dirty := false })
    (hother : ∀ c, c ≠ b → s'.bufs c = s.bufs c) (hnd : s'.ndirty = s.ndirty - 1)
    (hdev : ∀ e, ∀ p < S.size e, s'.dev e p =
      if e = (s.bufs b).disk ∧ p / BCACHE_BLOCK = (s.bufs b).block then
        (s.bufs b).data (p - (s.bufs b).block * BCACHE_BLOCK)
      else s.dev e p) : Good S want s' := by
  refine ⟨h.lists.same hkeys, ?_, ?_, ?_, ?_⟩
  · have hcount := countP_dirty h.lists.nodup hb hlru hother
    rw [hself, hdirty, Bool.toNat_false, Bool.toNat_true] at hcount
    rw [hnd, h.data.ndirty]
    exact Nat.sub_eq_of_eq_add hcount
  · intro c hc hcd
    rw [hlru] at hc
    by_cases hcb : c = b
    · subst hcb
      rw [hself] at hcd
      cases hcd
    · rw [hother c hcb] at hcd ⊢
      exact h.data.dirty_valid c hc hcd
  · intro c hc
    rw [hlru] at hc
    by_cases hcb : c = b
    · subst hcb
      rw [hself]
      exact h.data.held c hc
    · rw [hother c hcb]
      exact h.data.held c hc
  intro e p hp hno
  rw [hdev e p hp]
  split
  · rename_i hep
    obtain ⟨rfl, hblk⟩ := hep
    rw [← h.data.held b hb (h.data.dirty_valid b hb hdirty) p hp hblk, ← hblk]
    congr 1
    simp only [BCACHE_BLOCK]
    omega
  rename_i hep
  refine h.data.stored e p hp fun c hc hce hcp => ?_
  have hcb : c ≠ b := by
    rintro rfl
    exact hep ⟨hce.symm, hcp.symm⟩
  have hclean := hno c (hlru ▸ hc)
  rw [hother c hcb] at hclean
  exact hclean hce hcp

theorem Good.spoiled (h : Good S want s) (hb : b ∈ s.lru) (hdirty : (s.bufs b).dirty = true) (hkeys : SameKeys s s')
    (hlru : s'.lru = s.lru) (hbufs : s'.bufs = s.bufs) (hnd : s'.ndirty = s.ndirty)
    (hdev : ∀ e, ∀ p < S.size e, ¬ (e = (s.bufs b).disk ∧ p / BCACHE_BLOCK = (s.bufs b).block) →
      s'.dev e p = s.dev e p) : Good S want s' := by
  refine ⟨h.lists.same hkeys, ?_, ?_, ?_, ?_⟩
  · rw [hnd, hlru, hbufs]
    exact h.data.ndirty
  · rw [hlru, hbufs]
    exact h.data.dirty_valid
  · rw [hlru, hbufs]
    exact h.data.held
  intro e p hp hno
  rw [hlru, hbufs] at hno
  rw [hdev e p hp]
  · exact h.data.stored e p hp hno
  rintro ⟨rfl, hblk⟩
  rw [hno b hb rfl hblk.symm] at hdirty
  cases hdirty

structure WroteBack (S : Sys) (want : Nat → Nat → UInt8) (b : Nat) (s : St) (r : Int × St) : Prop where
  good : Good S want r.2
  keys : SameKeys s r.2
  lru : r.2.lru = s.lru
  clean : r.1 = 0 → (r.2.bufs b).dirty = false
  other : ∀ c, c ≠ b → r.2.bufs c = s.bufs c

theorem writeback_spec (h : Good S want s) (hb : b ∈ s.lru) : WroteBack S want b s (writeback S b s) := by
  have hin := h.lists.inside b hb
  unfold writeback
  dsimp only
  split
  · rename_i hclean
    exact ⟨h, .refl s, rfl, fun _ => by simpa using hclean, fun _ _ => rfl⟩
  rename_i hclean
  have hdirty : (s.bufs b).dirty = true := by simpa using hclean
  have hdev := fun e p hp => diskWrite_dev (s := s) hin (s.bufs b).data e p hp
  have hrest : (diskWrite S (s.bufs b).disk (s.bufs b).block (s.bufs b).data s).2 =
      { s with tick := s.tick + 1, dev := (diskWrite S (s.bufs b).disk (s.bufs b).block (s.bufs b).data s).2.dev } := by
    unfold diskWrite
    rw [hin]
    rfl
  generalize diskWrite S (s.bufs b).disk (s.bufs b).block (s.bufs b).data s = w at hdev hrest
  obtain ⟨r, s1⟩ := w
  dsimp only at hdev hrest ⊢
  have hkeys : SameKeys s s1 := by
    rw [hrest]
    exact ⟨.refl _, rfl, rfl, rfl, fun _ => rfl, fun _ => rfl⟩
  have hbufs : s1.bufs = s.bufs := by rw [hrest]
  have hlru : s1.lru = s.lru := by rw [hrest]
  have hnd : s1.ndirty = s.ndirty := by rw [hrest]
  split
  · rename_i hr
    have hset : SameKeys s1 (setBuf b { s.bufs b with dirty := false } s1) :=
      setBuf_sameKeys (by rw [hbufs]) (by rw [hbufs])
    have hother : ∀ c, c ≠ b → (setBuf b { s.bufs b with dirty := false } s1).bufs c = s.bufs c := by
      intro c hc
      rw [setBuf_other _ hc, hbufs]
    have hboth := hkeys.trans hset
    have hkeys' : SameKeys s { setBuf b { s.bufs b with dirty := false } s1 with ndirty := s1.ndirty - 1 } :=
      ⟨hboth.lru, hboth.hash, hboth.nbufs, hboth.fresh, hboth.disk, hboth.block⟩
    refine ⟨h.cleaned hb hdirty hkeys' hlru (setBuf_self _) hother (by rw [← hnd]) fun e p hp => ?_, hkeys', hlru,
      fun _ => congrArg Buf.dirty (setBuf_self _), hother⟩
    rw [if_pos hr] at hdev
    exact hdev e p hp
  rename_i hr
  refine ⟨h.spoiled hb hdirty hkeys hlru hbufs hnd fun e p hp hno => ?_, hkeys, hlru, fun h0 => absurd h0 hr,
    fun c _ => by rw [hbufs]⟩
  rw [hdev e p hp, if_neg hno]

def Keyed (s : St) (d block b : Nat) : Prop := (s.bufs b).disk = d ∧ (s.bufs b).block = block

theorem lookup_some (h : Lists S s) (hb : lookup S d block s = some b) : b ∈ s.lru ∧ Keyed s d block b := by
  have hkey := find?_some hb
  have hmem := (h.bucket _ _).mp (mem_of_find?_eq_some hb)
  exact ⟨hmem.1, by simpa [Keyed] using hkey⟩

theorem lookup_none (h : Lists S s) (hb : lookup S d block s = none) : ∀ c ∈ s.lru, ¬ Keyed s d block c := by
  intro c hc hck
  have hin : c ∈ s.hash (hkey S d block) := (h.bucket _ _).mpr ⟨hc, by rw [hck.1, hck.2]⟩
  exact find?_eq_none.mp hb c hin (by simpa [Keyed] using hck)

theorem remove_good (h : Good S want s) (hb : b ∈ s.lru) (hclean : (s.bufs b).dirty = false) :
    Good S want (remove S b s) := by
  have hmem : ∀ c, c ∈ s.lru.erase b ↔ c ≠ b ∧ c ∈ s.lru := fun c => h.lists.nodup.mem_erase_iff
  refine ⟨⟨?_, ?_, ?_, ?_, ?_, ?_, ?_⟩, ⟨?_, ?_, ?_, ?_⟩⟩
  · exact h.lists.nodup.erase b
  · show s.nbufs - 1 = (s.lru.erase b).length
    rw [length_erase_of_mem hb, h.lists.nbufs]
  · exact fun c hc => h.lists.fresh c (mem_of_mem_erase hc)
  · intro c k
    show c ∈ (if k = hkey S (s.bufs b).disk (s.bufs b).block then (s.hash k).erase b else s.hash k) ↔
      c ∈ s.lru.erase b ∧ hkey S (s.bufs c).disk (s.bufs c).block = k
    rw [hmem]
    split
    · rw [(h.lists.hnodup k).mem_erase_iff, h.lists.bucket, and_assoc]
    rename_i hk
    rw [h.lists.bucket, and_assoc]
    refine ⟨fun hc => ⟨?_, hc⟩, fun hc => hc.2⟩
    rintro rfl
    exact hk hc.2.symm
  · intro k
    show (if k = hkey S (s.bufs b).disk (s.bufs b).block then (s.hash k).erase b else s.hash k).Nodup
    split
    · exact (h.lists.hnodup k).erase b
    · exact h.lists.hnodup k
  · exact fun c hc e he => h.lists.unique c (mem_of_mem_erase hc) e (mem_of_mem_erase he)
  · exact fun c hc => h.lists.inside c (mem_of_mem_erase hc)
  · show s.ndirty = (s.lru.erase b).countP fun c => (s.bufs c).dirty
    have hcount := (perm_cons_erase hb).countP_eq fun c => (s.bufs c).dirty
    rw [countP_cons, hclean] at hcount
    rw [h.data.ndirty]
    exact hcount
  · exact fun c hc => h.data.dirty_valid c (mem_of_mem_erase hc)
  · exact fun c hc => h.data.held c (mem_of_mem_erase hc)
  intro e p hp hno
  refine h.data.stored e p hp fun c hc hce hcp => ?_
  by_cases hcb : c = b
  · rw [hcb]
    exact hclean
  · exact hno c ((hmem c).mpr ⟨hcb, hc⟩) hce hcp

theorem install_good (h : Good S want s) (hb : b ∉ s.lru) (hfresh : b < s.fresh) (hin : hasBlock S d block = true)
    (hnew : ∀ c ∈ s.lru, ¬ Keyed s d block c) : Good S want (install S d block b s) := by
  have hself : (install S d block b s).bufs b =
      { s.bufs b with disk := d, block, valid := false, dirty := false, users := 0 } := if_pos rfl
  have hother : ∀ c ∈ s.lru, (install S d block b s).bufs c = s.bufs c :=
    fun c hc => if_neg (ne_of_mem_of_not_mem hc hb)
  have hnot : ∀ k, b ∉ s.hash k := fun k hk => hb ((h.lists.bucket _ _).mp hk).1
  refine ⟨⟨?_, ?_, ?_, ?_, ?_, ?_, ?_⟩, ⟨?_, ?_, ?_, ?_⟩⟩
  · exact nodup_cons.mpr ⟨hb, h.lists.nodup⟩
  · exact congrArg (· + 1) h.lists.nbufs
  · exact forall_mem_cons.mpr ⟨hfresh, h.lists.fresh⟩
  · intro c k
    show c ∈ (if k = hkey S d block then b :: s.hash k else s.hash k) ↔ c ∈ b :: s.lru ∧ _
    by_cases hcb : c = b
    · subst hcb
      rw [hself]
      split
      · rename_i hk
        simp [hk]
      rename_i hk
      simp only [hnot k, mem_cons, true_or, true_and, false_iff]
      exact fun h' => hk h'.symm
    have hc : c ∈ (if k = hkey S d block then b :: s.hash k else s.hash k) ↔ c ∈ s.hash k := by
      split
      · rw [mem_cons, or_iff_right hcb]
      · rfl
    rw [hc, mem_cons, or_iff_right hcb, h.lists.bucket]
    exact and_congr_right fun hc => by rw [hother c hc]
  · intro k
    show (if k = hkey S d block then b :: s.hash k else s.hash k).Nodup
    split
    · exact nodup_cons.mpr ⟨hnot k, h.lists.hnodup k⟩
    · exact h.lists.hnodup k
  · intro c hc e he hd hbl
    rcases mem_cons.mp hc with hcb | hc' <;> rcases mem_cons.mp he with heb | he'
    · rw [hcb, heb]
    · rw [hcb, hself, hother e he'] at hd hbl
      exact absurd ⟨hd.symm, hbl.symm⟩ (hnew e he')
    · rw [heb, hself, hother c hc'] at hd hbl
      exact absurd ⟨hd, hbl⟩ (hnew c hc')
    · rw [hother c hc', hother e he'] at hd hbl
      exact h.lists.unique c hc' e he' hd hbl
  · refine forall_mem_cons.mpr ⟨?_, fun c hc => ?_⟩
    · rw [hself]
      exact hin
    · rw [hother c hc]
      exact h.lists.inside c hc
  · show s.ndirty = (b :: s.lru).countP _
    rw [countP_cons, hself, h.data.ndirty]
    exact countP_congr fun c hc => by rw [hother c hc]
  · refine forall_mem_cons.mpr ⟨?_, fun c hc => ?_⟩
    · rw [hself]
      exact nofun
    · rw [hother c hc]
      exact h.data.dirty_valid c hc
  · refine forall_mem_cons.mpr ⟨?_, fun c hc => ?_⟩
    · rw [hself]
      exact nofun
    · rw [hother c hc]
      exact h.data.held c hc
  intro e p hp hno
  refine h.data.stored e p hp fun c hc => ?_
  have hclean := hno c (mem_cons_of_mem _ hc)
  rw [hother c hc] at hclean
  exact hclean

structure Claimed (S : Sys) (want : Nat → Nat → UInt8) (s : St) (r : Option Nat × St) : Prop where
  good : Good S want r.2
  free : ∀ b, r.1 = some b → b ∉ r.2.lru ∧ b < r.2.fresh
  keys : ∀ d block, (∀ c ∈ s.lru, ¬ Keyed s d block c) → ∀ c ∈ r.2.lru, ¬ Keyed r.2 d block c

theorem allocBuf_spec (h : Good S want s) : Claimed S want s (allocBuf S s) := by
  have hnot : s.fresh ∉ s.lru := fun hmem => Nat.lt_irrefl _ (h.lists.fresh _ hmem)
  unfold allocBuf
  split
  · have hother : ∀ c ∈ s.lru, (setBuf s.fresh { s.bufs s.fresh with data := S.junk s.tick } s).bufs c = s.bufs c :=
      fun c hc => setBuf_other _ (ne_of_mem_of_not_mem hc hnot)
    refine ⟨h.agree rfl rfl rfl rfl (Nat.le_succ _) rfl hother, ?_, ?_⟩
    · rintro b ⟨⟩
      exact ⟨hnot, Nat.lt_succ_self _⟩
    intro d block hno c hc hkey
    unfold Keyed at hkey
    dsimp only at hkey
    rw [hother c hc] at hkey
    exact hno c hc hkey
  · exact ⟨h.tick _, nofun, fun _ _ hno => hno⟩

theorem claimBuf_spec (h : Good S want s) : Claimed S want s (claimBuf S s) := by
  unfold claimBuf
  split
  · split
    · rename_i v hv
      have hmem : v ∈ s.lru := mem_reverse.mp (mem_of_find?_eq_some hv)
      have hw := writeback_spec h hmem
      have hkeep : ∀ d block, (∀ c ∈ s.lru, ¬ Keyed s d block c) →
          ∀ c ∈ (writeback S v s).2.lru, ¬ Keyed (writeback S v s).2 d block c := by
        intro d block hno c hc hkey
        refine hno c (hw.keys.lru.mem_iff.mp hc) ?_
        unfold Keyed at hkey ⊢
        rw [← hw.keys.disk c, ← hw.keys.block c]
        exact hkey
      dsimp only
      split
      · exact ⟨hw.good, nofun, hkeep⟩
      rename_i hr
      have hv' : v ∈ (writeback S v s).2.lru := hw.keys.lru.mem_iff.mpr hmem
      refine ⟨remove_good hw.good hv' (hw.clean (not_not.mp hr)), ?_, ?_⟩
      · rintro b ⟨⟩
        exact ⟨hw.good.lists.nodup.not_mem_erase, hw.good.lists.fresh v hv'⟩
      · exact fun d block hno c hc => hkeep d block hno c (mem_of_mem_erase hc)
    · exact allocBuf_spec h
  · exact allocBuf_spec h

structure Got (S : Sys) (want : Nat → Nat → UInt8) (d block : Nat) (read : Bool) (r : Option Nat × St) : Prop where
  good : Good S want r.2
  buf : ∀ b, r.1 = some b → b ∈ r.2.lru ∧ Keyed r.2 d block b ∧ (read = true → (r.2.bufs b).valid = true)

theorem diskRead_data (hin : hasBlock S d block = true) (data : Nat → UInt8)
    (hr : (diskRead S d block data s).1 = 0) {p : Nat} (hp : p < S.size d) (hblk : p / BCACHE_BLOCK = block) :
    (diskRead S d block data s).2.1 (p % BCACHE_BLOCK) = s.dev d p := by
  have hrange := (block_range hin p).mpr ⟨hblk, hp⟩
  have hno : ¬ (!hasBlock S d block) = true := by simp [hin]
  unfold diskRead at hr ⊢
  rw [if_neg hno] at hr ⊢
  dsimp only at hr ⊢
  have hpos : block * BCACHE_BLOCK + p % BCACHE_BLOCK = p := by
    rw [← hblk]
    simp only [BCACHE_BLOCK]
    omega
  rw [if_pos hr, if_pos (by omega), hpos]

theorem diskRead_st (data : Nat → UInt8) : ∃ n, (diskRead S d block data s).2.2 = { s with tick := n } := by
  unfold diskRead
  split
  · exact ⟨s.tick, rfl⟩
  · exact ⟨s.tick + 1, rfl⟩

theorem fill_spec (h : Good S want s) (hb : b ∈ s.lru) (hkey : Keyed s d block b) (read : Bool) :
    Got S want d block read (fill S d block read b s) := by
  have hin : hasBlock S d block = true := by
    have := h.lists.inside b hb
    rwa [hkey.1, hkey.2] at this
  unfold fill
  dsimp only
  split
  · rename_i hread
    obtain ⟨hread, hvalid⟩ : read = true ∧ (s.bufs b).valid = false := by simpa using hread
    have hdirty : (s.bufs b).dirty = false := by
      cases hd : (s.bufs b).dirty with
      | false => rfl
      | true =>
        have hv := h.data.dirty_valid b hb hd
        rw [hvalid] at hv
        cases hv
    have hdata := fun hr p hp hblk => diskRead_data (s := s) hin (s.bufs b).data hr (p := p) hp hblk
    obtain ⟨n, hn⟩ : ∃ n, (diskRead S d block (s.bufs b).data s).2.2 = { s with tick := n } := diskRead_st _
    generalize diskRead S d block (s.bufs b).data s = r at hdata hn
    obtain ⟨e, data, s1⟩ := r
    dsimp only at hdata hn ⊢
    subst hn
    split
    · refine ⟨(h.tick n).setBuf rfl rfl rfl (fun hd => ?_) fun hv => ?_, nofun⟩
      · exact h.data.dirty_valid b hb hd
      · rw [hvalid] at hv
        cases hv
    rename_i he
    -- the buffer was invalid, so it was clean: the disk has what should be in it
    refine ⟨(h.tick n).setBuf rfl rfl rfl (fun _ => rfl) fun _ p hp hblk => ?_, ?_⟩
    · dsimp only at hp hblk ⊢
      rw [hkey.1] at hp ⊢
      rw [hkey.2] at hblk
      rw [hdata (not_not.mp he) p hp hblk]
      refine h.data.stored d p hp fun c hc hcd hcb => ?_
      have hcb' : c = b := h.lists.unique c hc b hb (hcd.trans hkey.1.symm) (hcb.trans (hblk.trans hkey.2.symm))
      rw [hcb']
      exact hdirty
    rintro c ⟨⟩
    refine ⟨hb, ?_, fun _ => ?_⟩
    · unfold Keyed
      rw [setBuf_self]
      exact hkey
    · exact congrArg Buf.valid (setBuf_self _)
  rename_i hread
  refine ⟨h.setBuf rfl rfl rfl (h.data.dirty_valid b hb) (h.data.held b hb), ?_⟩
  rintro c ⟨⟩
  refine ⟨hb, ?_, fun hr => ?_⟩
  · unfold Keyed
    rw [setBuf_self]
    exact hkey
  rw [setBuf_self]
  rw [hr] at hread
  simpa using hread

theorem getblk_spec (h : Good S want s) (hin : hasBlock S d block = true) (read : Bool) :
    Got S want d block read (getblk S d block read s) := by
  unfold getblk
  split
  · rename_i b hb
    obtain ⟨hmem, hkey⟩ := lookup_some h.lists hb
    exact fill_spec (h.touch hmem) mem_cons_self hkey read
  rename_i hnone
  have hc := claimBuf_spec h
  split
  · rename_i heq
    rw [heq] at hc
    exact ⟨hc.good, nofun⟩
  rename_i b s1 heq
  rw [heq] at hc
  obtain ⟨hfree, hfresh⟩ := hc.free b rfl
  have hi := install_good hc.good hfree hfresh hin (hc.keys d block (lookup_none h.lists hnone))
  refine fill_spec hi mem_cons_self ?_ read
  have hself : (install S d block b s1).bufs b =
      { s1.bufs b with disk := d, block, valid := false, dirty := false, users := 0 } := if_pos rfl
  unfold Keyed
  rw [hself]
  exact ⟨rfl, rfl⟩

end Olux.Bcache
