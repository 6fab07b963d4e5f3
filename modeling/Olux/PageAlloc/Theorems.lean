import Olux.Lib.Sum
import Olux.Memblock.Theorems
import Olux.PageAlloc.Invariant

namespace Olux.PageAlloc

open Olux.Lib Olux.Memblock Function List

variable {pfn : Nat} {s : Pages} {managed : Set Nat} {live : List Block} {m : MemMap} {sys : System}

def Zone.total (z : Zone) : Nat := ∑ o ∈ Finset.range MAX_ORDER, (z.free o).length * 2 ^ o

def Counted (s : Pages) : Prop := ∀ z, (s.zone z).freePages = (s.zone z).total

theorem SameFree.total {s' : Pages} (h : SameFree s s') (w : ZoneId) : (s'.zone w).total = (s.zone w).total := by
  simp only [Zone.total, h.free]

theorem total_update (f g : Nat → List Nat) (order : Nat) (ho : order < MAX_ORDER)
    (hother : ∀ o, o ≠ order → g o = f o) (hone : (g order).length = (f order).length + 1) :
    ∑ o ∈ Finset.range MAX_ORDER, (g o).length * 2 ^ o =
      (∑ o ∈ Finset.range MAX_ORDER, (f o).length * 2 ^ o) + 2 ^ order := by
  have h := sum_change (Finset.mem_range.mpr ho) (fun o => (g o).length * 2 ^ o) (fun o => (f o).length * 2 ^ o)
    fun o _ hne => by rw [hother o hne]
  rw [hone, Nat.succ_mul] at h
  omega

theorem addFree_total (s : Pages) (z w : ZoneId) (pfn order : Nat) (ho : order < MAX_ORDER) :
    ((addFree s z pfn order).zone w).total = (s.zone w).total + if w = z then 2 ^ order else 0 := by
  simp only [Zone.total, addFree_free]
  split
  · rename_i h
    subst h
    refine total_update _ _ order ho ?_ ?_
    · intro o hne
      simp [hne]
    · simp
  · rename_i h
    simp [h]

theorem delFree_total (s : Pages) (z w : ZoneId) (pfn order : Nat) (ho : order < MAX_ORDER)
    (hin : pfn ∈ (s.zone z).free order) :
    (s.zone w).total = ((delFree s z pfn order).zone w).total + if w = z then 2 ^ order else 0 := by
  simp only [Zone.total, delFree_free]
  split
  · rename_i h
    subst h
    refine total_update _ _ order ho ?_ ?_
    · intro o hne
      simp [hne]
    have hpos := length_pos_of_mem hin
    simp only [true_and, if_true, length_erase_of_mem hin]
    omega
  · rename_i h
    simp [h]

theorem addFree_freePages (s : Pages) (z w : ZoneId) (pfn order : Nat) :
    ((addFree s z pfn order).zone w).freePages = (s.zone w).freePages := by
  by_cases h : w = z <;> simp [addFree, Pages.setZone, Pages.setPage, h]

theorem delFree_freePages (s : Pages) (z w : ZoneId) (pfn order : Nat) :
    ((delFree s z pfn order).zone w).freePages = (s.zone w).freePages := by
  by_cases h : w = z <;> simp [delFree, Pages.setZone, Pages.setPage, h]

theorem coalesce_freePages (z w : ZoneId) (n : Nat) (s : Pages) (pfn order : Nat) :
    ((coalesce z n s pfn order).zone w).freePages = (s.zone w).freePages := by
  induction n generalizing s pfn order with
  | zero => exact addFree_freePages s z w pfn order
  | succ n ih =>
  simp only [coalesce]
  split
  · exact addFree_freePages s z w pfn order
  split
  · exact addFree_freePages s z w pfn order
  · rw [ih, delFree_freePages]

theorem split_freePages (z w : ZoneId) (pfn order n : Nat) (s : Pages) :
    ((split z pfn order n s).zone w).freePages = (s.zone w).freePages := by
  induction n generalizing s with
  | zero => rfl
  | succ n ih => rw [split, ih, addFree_freePages]

-- The loop of `__free` stops only where the buddy is not free: a frame outside the
-- frame table or the zone is not managed, and an unmarked one heads no free block.
theorem Inv.buddy_not_free {b : Block} (hi : Inv managed (b :: live) s) (ho : b.order < MAX_ORDER - 1)
    (hstop : (¬s.pfnValid b.buddy.base ∨ b.buddy.base < startPfn (pfnZone b.base) ∨
        endPfn (pfnZone b.base) ≤ b.buddy.base) ∨
      ((s.page b.buddy.base).buddy = false ∨ (s.page b.buddy.base).order ≠ b.order)) :
    b.buddy ∉ s.freeBlocks := by
  intro hfree
  have hvalid := hi.valid _ (hi.free_mem_managed hfree (Block.base_mem _))
  have hhead := hi.head _ hfree
  have hrange := pfnZone_range hvalid.2
  rw [pfnZone_buddy (hi.live_aligned b mem_cons_self) ho] at hrange
  rcases hstop with (h | h | h) | h | h
  · exact h hvalid.1
  · omega
  · omega
  · rw [hhead.1] at h
    cases h
  · exact h hhead.2

theorem coalesce_spec (n : Nat) (s : Pages) (b : Block) (hn : b.order + n = MAX_ORDER - 1)
    (hi : Inv managed (b :: live) s) :
    Inv managed live (coalesce (pfnZone b.base) n s b.base b.order) ∧
      ∀ w, ((coalesce (pfnZone b.base) n s b.base b.order).zone w).total =
        (s.zone w).total + if w = pfnZone b.base then 2 ^ b.order else 0 := by
  have hle : b.order < MAX_ORDER := by
    have : MAX_ORDER = 11 := rfl
    omega
  have hdone (h : b.order < MAX_ORDER - 1 → b.buddy ∉ s.freeBlocks) := And.intro (hi.addFree h)
    fun w => addFree_total s (pfnZone b.base) w b.base b.order hle
  induction n generalizing s b with
  | zero => exact hdone fun h => absurd h (by omega)
  | succ n ih =>
  have ho : b.order < MAX_ORDER - 1 := by omega
  have ha : b.Aligned := hi.live_aligned b mem_cons_self
  rw [coalesce]
  split
  · exact hdone fun _ => hi.buddy_not_free ho (.inl ‹_›)
  split
  · exact hdone fun _ => hi.buddy_not_free ho (.inr ‹_›)
  rename_i hmark
  simp only [not_or, Bool.not_eq_false, ne_eq, Decidable.not_not] at hmark
  have hfree : b.buddy ∈ s.freeBlocks := by
    have := hi.marked _ hmark.1
    rw [hmark.2] at this
    exact this
  have hdel := hi.delFree hfree
  have hzone := pfnZone_buddy ha ho
  have hzone' := pfnZone_parent ha ho
  rw [hzone] at hdel
  have hle' : b.parent.order < MAX_ORDER := by simp only [Block.parent]; omega
  have hrec := ih _ b.parent (by simp only [Block.parent]; omega) (hdel.merge ho) hle'
    fun h => ⟨(hdel.merge ho).addFree h, fun w => addFree_total _ _ w _ _ hle'⟩
  rw [hzone'] at hrec
  refine ⟨hrec.1, fun w => (hrec.2 w).trans ?_⟩
  have hin : b.buddy.base ∈ (s.zone (pfnZone b.base)).free b.order := by
    have := mem_freeBlocks.mp hfree
    rwa [hzone] at this
  rw [delFree_total s _ w _ _ hle hin]
  simp only [Block.parent, Block.buddy, Nat.pow_succ]
  split <;> omega

theorem split_spec (n : Nat) (s : Pages) (pfn order : Nat) (hi : Inv managed (⟨pfn, order + n⟩ :: live) s) :
    Inv managed (⟨pfn, order⟩ :: live) (split (pfnZone pfn) pfn order n s) ∧
      ∀ w, ((split (pfnZone pfn) pfn order n s).zone w).total + (if w = pfnZone pfn then 2 ^ order else 0) =
        (s.zone w).total + if w = pfnZone pfn then 2 ^ (order + n) else 0 := by
  induction n generalizing s with
  | zero => exact ⟨hi, fun _ => rfl⟩
  | succ n ih =>
  replace hi : Inv managed (⟨pfn, order + n + 1⟩ :: live) s := hi
  have ha := hi.live_aligned _ mem_cons_self
  have ho := hi.live_order _ mem_cons_self
  have hhalf := hi.halve
  -- the lower half is in use, so the upper one has no free buddy
  have hbuddy : (⟨pfn + 2 ^ (order + n), order + n⟩ : Block).buddy ∉ s.freeBlocks := by
    rw [Block.buddy_upper ha]
    intro hfree
    exact hhalf.free_apart ⟨pfn, order + n⟩ (by simp) _ hfree pfn (Block.base_mem _) (Block.base_mem _)
  have hzone : pfnZone (pfn + 2 ^ (order + n)) = pfnZone pfn :=
    pfnZone_eq_of_mem ha ho ((Block.mem_halves pfn (order + n)).mpr (.inr (Block.base_mem _)))
  have hadd := hhalf.addFree fun _ => hbuddy
  simp only [hzone] at hadd
  have hrec := ih _ hadd
  have hlt : order + n < MAX_ORDER := by
    simp only at ho
    omega
  rw [split]
  refine ⟨hrec.1, fun w => (hrec.2 w).trans ?_⟩
  rw [addFree_total _ _ _ _ _ hlt, show order + (n + 1) = order + n + 1 by omega, Nat.pow_succ]
  split <;> omega

theorem addFreePages_sameFree (s : Pages) (z : ZoneId) (n : Nat) : SameFree s (s.addFreePages z n) :=
  setZone_sameFree s z _ rfl rfl

theorem subFreePages_sameFree (s : Pages) (z : ZoneId) (n : Nat) : SameFree s (s.subFreePages z n) :=
  setZone_sameFree s z _ rfl rfl

theorem freeBlock_spec {b : Block} (hi : Inv managed (b :: live) s) (hc : Counted s) :
    Inv managed live (freeBlock s b.base b.order) ∧ Counted (freeBlock s b.base b.order) := by
  have hsame := addFreePages_sameFree s (pfnZone b.base) (2 ^ b.order)
  have ho := hi.live_order b mem_cons_self
  have h := coalesce_spec (MAX_ORDER - 1 - b.order) _ b (by omega) (hsame.inv hi)
  refine ⟨h.1, fun w => ?_⟩
  rw [freeBlock, coalesce_freePages, h.2, hsame.total, ← hc w]
  by_cases hw : w = pfnZone b.base <;> simp [Pages.addFreePages, Pages.setZone, hw]

structure Allocated (managed : Set Nat) (live : List Block) (order : Nat) (z : ZoneId) (pfn : Nat) (s : Pages) :
    Prop where
  inv : Inv managed (⟨pfn, order⟩ :: live) s
  counted : Counted s
  zone : pfnZone pfn = z

theorem allocFrom_spec (hi : Inv managed live s) (hc : Counted s) (z : ZoneId) (order k n : Nat) :
    (∃ pfn s', allocFrom s z order k n = (some pfn, s') ∧ Allocated managed live order z pfn s') ∨
      allocFrom s z order k n = (none, s) := by
  induction n generalizing k with
  | zero => exact .inr rfl
  | succ n ih =>
  rw [allocFrom]
  split
  · exact ih (k + 1)
  rename_i pfn rest hlist
  have hin : pfn ∈ (s.zone z).free (order + k) := by rw [hlist]; exact mem_cons_self
  have hz := hi.in_zone z _ pfn hin
  subst hz
  have hfree : (⟨pfn, order + k⟩ : Block) ∈ s.freeBlocks := hin
  have hle := hi.canonical.order_le _ hfree
  have hlt : order + k < MAX_ORDER := by
    have : MAX_ORDER = 11 := rfl
    simp only at hle
    omega
  have hsplit := split_spec k _ pfn order (hi.delFree hfree)
  have hsame := subFreePages_sameFree
    (split (pfnZone pfn) pfn order k (delFree s (pfnZone pfn) pfn (order + k))) (pfnZone pfn) (2 ^ order)
  refine .inl ⟨pfn, _, rfl, hsame.inv hsplit.1, fun w => ?_, rfl⟩
  rw [hsame.total]
  have htotal := hsplit.2 w
  have hdel := delFree_total s (pfnZone pfn) w pfn (order + k) hlt hin
  have hpages := hc w
  by_cases hw : w = pfnZone pfn
  · subst hw
    simp only [Pages.subFreePages, Pages.setZone, update_self, split_freePages,
      delFree_freePages, if_true] at htotal hdel ⊢
    omega
  simp only [Pages.subFreePages, Pages.setZone, update_of_ne hw, split_freePages,
    delFree_freePages, hw, if_false] at htotal hdel ⊢
  omega

theorem allocZones_spec (hi : Inv managed live s) (hc : Counted s) (order : Nat) (zs : List ZoneId) :
    (∃ pfn s', ∃ z ∈ zs, allocZones s order zs = (some pfn, s') ∧ Allocated managed live order z pfn s') ∨
      allocZones s order zs = (none, s) := by
  induction zs with
  | nil => exact .inr rfl
  | cons z rest ih =>
  simp only [allocZones, allocBlock]
  rcases allocFrom_spec hi hc z order 0 (MAX_ORDER - order) with ⟨pfn, s', heq, hal⟩ | heq
  · rw [heq]
    exact .inl ⟨pfn, s', z, mem_cons_self, rfl, hal⟩
  rw [heq]
  rcases ih with ⟨pfn, s', z', hz', heq', hal⟩ | heq'
  · exact .inl ⟨pfn, s', z', mem_cons_of_mem z hz', heq', hal⟩
  · exact .inr heq'

theorem endPfn_le_of_mem_zonesFrom {top z : ZoneId} (h : z ∈ zonesFrom top) : endPfn z ≤ endPfn top := by
  revert top z
  decide

theorem Inv.no_panic {order : Nat} (hi : Inv managed (⟨pfn, order⟩ :: live) s) :
    ((List.range (2 ^ order)).any fun i => (s.page (pfn + i)).reserved || (s.page (pfn + i)).slab) = false := by
  rw [any_eq_false]
  intro i hi'
  have hin : pfn + i ∈ (⟨pfn, order⟩ : Block) := ⟨by simp, by simpa using hi'⟩
  have h := hi.unmarked _ (hi.live_mem_managed mem_cons_self hin)
  simp [h.1, h.2]

theorem allocPages_spec (hi : Inv managed live s) (hc : Counted s) (gfp : UInt32) (order : Nat) :
    (∃ pfn s', ∃ z ∈ zonesFrom (topZone gfp), allocPages s gfp order = some (some pfn, s') ∧
      Allocated managed live order z pfn s') ∨ allocPages s gfp order = some (none, s) := by
  rw [allocPages]
  split
  · exact .inr rfl
  rcases allocZones_spec hi hc order (zonesFrom (topZone gfp)) with ⟨pfn, t, z, hz, heq, hal⟩ | heq
  · rw [heq]
    have hnot : ((t.setRefcount pfn order 1).page pfn).buddy = false := by
      rw [(setRefcount_sameFree t pfn order 1).buddy]
      exact hal.inv.live_not_buddy mem_cons_self (Block.base_mem _)
    have hr := setRefcount_sameFree t pfn order 1
    have ho := setOrder_sameFree (t.setRefcount pfn order 1) pfn order hnot
    refine .inl ⟨pfn, _, z, hz, ?_, ho.inv (hr.inv hal.inv), ?_, hal.zone⟩
    · simp only [hal.inv.no_panic, Bool.false_eq_true, if_false]
    intro w
    rw [ho.total, hr.total]
    exact hal.counted w
  · rw [heq]
    exact .inr rfl

theorem freePages_spec {b : Block} (hi : Inv managed (b :: live) s) (hc : Counted s) :
    ∃ s', freePages s b.base b.order = some s' ∧ Inv managed live s' ∧ Counted s' := by
  have hr := setRefcount_sameFree s b.base b.order 0
  have hbuddy := hi.live_not_buddy mem_cons_self (Block.base_mem b)
  have hmark := hi.unmarked _ (hi.live_mem_managed mem_cons_self (Block.base_mem b))
  refine ⟨freeBlock (s.setRefcount b.base b.order 0) b.base b.order, ?_, ?_⟩
  · simp [freePages, hbuddy, hmark.1]
  refine freeBlock_spec (hr.inv hi) fun w => ?_
  rw [hr.total]
  exact hc w

theorem handOver_spec (hi : Inv managed [] s) (hc : Counted s) (hnew : pfn ∉ managed)
    (hvalid : s.pfnValid pfn ∧ pfn < 2 ^ 52) :
    Inv (insert pfn managed) [] (handOver s pfn) ∧ Counted (handOver s pfn) := by
  let t := s.setPage pfn { s.page pfn with reserved := false, buddy := false, slab := false, compound := false }
  let u := t.setZone (pfnZone pfn) { t.zone (pfnZone pfn) with managedPages := (t.zone (pfnZone pfn)).managedPages + 1 }
  have hpage : ∀ p, p ≠ pfn → t.page p = s.page p := fun p hp => by simp [t, Pages.setPage, hp]
  have hself : (t.page pfn).reserved = false ∧ (t.page pfn).buddy = false ∧ (t.page pfn).slab = false := by
    simp [t, Pages.setPage]
  have hfree : ∀ b ∈ s.freeBlocks, pfn ∉ b := fun b hb hx => hnew (hi.free_mem_managed hb hx)
  have hmem : ∀ x, x ∈ (⟨pfn, 0⟩ : Block) ↔ x = pfn := by
    intro x
    simp only [Block.mem_def, Nat.pow_zero]
    omega
  have ht : Inv (insert pfn managed) [⟨pfn, 0⟩] t := by
    refine
      { in_zone := hi.in_zone, nodup := hi.nodup, nrFree := hi.nrFree, head := ?_, marked := ?_,
        canonical := hi.canonical, live_aligned := ?_, live_order := ?_, live_apart := by simp,
        free_apart := ?_, cover := ?_, valid := ?_, unmarked := ?_ }
    · intro b hb
      rw [hpage b.base fun he => hfree b hb (he ▸ Block.base_mem b)]
      exact hi.head b hb
    · intro p hp
      by_cases he : p = pfn
      · rw [he, hself.2.1] at hp
        cases hp
      · rw [hpage p he] at hp ⊢
        exact hi.marked p hp
    · simp [Block.Aligned]
    · simp
    · intro a ha b hb x hxa hxb
      rw [mem_singleton.mp ha, hmem] at hxa
      exact hfree b hb (hxa ▸ hxb)
    · intro x
      rw [Set.mem_insert_iff, hi.cover]
      simp only [mem_singleton, exists_eq_left, hmem, not_mem_nil, false_and, exists_false, or_false]
      exact or_comm
    · intro x hx
      rcases Set.mem_insert_iff.mp hx with rfl | hx
      · exact hvalid
      · exact hi.valid x hx
    intro x hx
    by_cases he : x = pfn
    · rw [he]
      exact ⟨hself.1, hself.2.2⟩
    · rw [hpage x he]
      exact hi.unmarked x ((Set.mem_insert_iff.mp hx).resolve_left he)
  have hu : SameFree t u := setZone_sameFree t _ _ rfl rfl
  refine freeBlock_spec (b := ⟨pfn, 0⟩) (hu.inv ht) fun w => ?_
  have hpages : (u.zone w).freePages = (t.zone w).freePages := by
    by_cases hw : w = pfnZone pfn <;> simp [u, Pages.setZone, hw]
  rw [hu.total, hpages]
  exact hc w

theorem coalesce_pfnValid (z : ZoneId) (n : Nat) (s : Pages) (pfn order p : Nat) :
    (coalesce z n s pfn order).pfnValid p ↔ s.pfnValid p := by
  induction n generalizing s pfn order with
  | zero => exact Iff.rfl
  | succ n ih =>
  simp only [coalesce]
  split
  · exact Iff.rfl
  split
  · exact Iff.rfl
  · exact ih _ _ _

theorem handOver_pfnValid (s : Pages) (pfn p : Nat) : (handOver s pfn).pfnValid p ↔ s.pfnValid p :=
  coalesce_pfnValid _ _ _ _ _ p

theorem handOver_all_spec (frames : List Nat) (hi : Inv managed [] s) (hc : Counted s) (hnodup : frames.Nodup)
    (hnew : ∀ p ∈ frames, p ∉ managed) (hvalid : ∀ p ∈ frames, s.pfnValid p ∧ p < 2 ^ 52) :
    Inv (managed ∪ {p | p ∈ frames}) [] (frames.foldl handOver s) ∧ Counted (frames.foldl handOver s) := by
  induction frames generalizing managed s with
  | nil => simpa using ⟨hi, hc⟩
  | cons p rest ih =>
  obtain ⟨hp, hrest⟩ := nodup_cons.mp hnodup
  obtain ⟨hi', hc'⟩ := handOver_spec hi hc (hnew p mem_cons_self) (hvalid p mem_cons_self)
  have h := ih hi' hc' hrest ?_ ?_
  · have hset : insert p managed ∪ {q | q ∈ rest} = managed ∪ {q | q ∈ p :: rest} := by
      ext q
      simp only [Set.mem_union, Set.mem_insert_iff, Set.mem_ofPred_eq, mem_cons]
      tauto
    rwa [hset] at h
  · intro q hq hin
    rcases Set.mem_insert_iff.mp hin with rfl | hin
    · exact hp hq
    · exact hnew q (mem_cons_of_mem p hq) hin
  intro q hq
  rw [handOver_pfnValid]
  exact hvalid q (mem_cons_of_mem p hq)

theorem mem_ramFrames (hm : RegionsOk m.memory) (h : pfn ∈ ramFrames m) :
    ∃ r ∈ m.memory, r.base ≤ pfn * PAGE_SIZE ∧ pfn * PAGE_SIZE + PAGE_SIZE ≤ r.base + r.size := by
  simp only [ramFrames, mem_filter, mem_flatMap, mem_map, mem_range] at h
  obtain ⟨⟨r, hr, i, hlt, rfl⟩, _⟩ := h
  obtain ⟨⟨a, ha⟩, ⟨c, hsize⟩⟩ := And.intro (hm.each r hr).base_dvd (hm.each r hr).size_dvd
  refine ⟨r, hr, ?_⟩
  simp only [PAGE_SIZE] at *
  omega

theorem ramFrames_nodup (hm : RegionsOk m.memory) : (ramFrames m).Nodup := by
  refine .filter _ (nodup_flatMap.mpr ⟨?_, ?_⟩)
  · intro r hr
    refine .map ?_ nodup_range
    intro i j hij
    simp only [PAGE_SIZE] at hij
    omega
  refine hm.sorted.imp_of_mem ?_
  intro r r' hr hr' hlt p hp hp'
  simp only [mem_map, mem_range] at hp hp'
  obtain ⟨i, hi, rfl⟩ := hp
  obtain ⟨j, hj, he⟩ := hp'
  have := (hm.each r hr).base_dvd
  have := (hm.each r hr).size_dvd
  have := (hm.each r' hr').base_dvd
  simp only [PAGE_SIZE] at *
  omega

theorem ramFrames_valid (hm : RegionsOk m.memory) (h : pfn ∈ ramFrames m) :
    memblockStart m / PAGE_SIZE ≤ pfn ∧ pfn < memblockEnd m / PAGE_SIZE ∧ pfn < 2 ^ 52 := by
  obtain ⟨r, hr, hlo, hhi⟩ := mem_ramFrames hm h
  have hstart := memblockStart_le hm hr
  have hend := le_memblockEnd hm hr
  have hwrap := (hm.each r hr).no_wrap
  simp only [PAGE_SIZE] at *
  omega

theorem emptyPages_inv (base n : Nat) :
    Inv ∅ [] { basePfn := base, pfns := n, page := fun _ => reservedPage, zone := fun _ => emptyZone } := by
  refine
    { in_zone := ?_, nodup := ?_, nrFree := ?_, head := ?_, marked := ?_, canonical := ⟨?_, ?_, ?_, ?_⟩,
      live_aligned := ?_, live_order := ?_, live_apart := ?_, free_apart := ?_, cover := ?_, valid := ?_,
      unmarked := ?_ } <;> simp [emptyZone, reservedPage, mem_freeBlocks, covered]

theorem pageAllocInit_spec {m' : MemMap} (hm : RegionsOk m.memory)
    (h : pageAllocInit m = some (s, m')) : Inv {p | p ∈ ramFrames m'} [] s ∧ Counted s := by
  simp only [pageAllocInit] at h
  split at h
  · cases h
  rename_i pa m1 halloc
  split at h
  · cases h
  simp only [Option.some.injEq, Prod.mk.injEq] at h
  obtain ⟨rfl, rfl⟩ := h
  have hmem := memblockAlloc_memory _ _ _ _ _ _ halloc
  have hm1 : RegionsOk m1.memory := hmem ▸ hm
  have h := handOver_all_spec (ramFrames m1) (emptyPages_inv (memblockStart m / PAGE_SIZE)
    (memblockEnd m / PAGE_SIZE - memblockStart m / PAGE_SIZE)) ?_ (ramFrames_nodup hm1) (by simp) ?_
  · simpa using h
  · intro w
    simp [emptyZone, Zone.total]
  intro p hp
  have hv := ramFrames_valid hm1 hp
  simp only [memblockStart, memblockEnd, hmem] at hv
  simp only [Pages.pfnValid, memblockStart, memblockEnd]
  omega

def Pages.freeFrames (s : Pages) (z : ZoneId) : Set Nat :=
  {x | x ∈ covered s.freeBlocks ∧ pfnZone x = z}

theorem Inv.mem_freeFrames (hi : Inv managed live s) (z : ZoneId) (x : Nat) :
    x ∈ s.freeFrames z ↔ ∃ o < MAX_ORDER, ∃ p ∈ (s.zone z).free o, p ≤ x ∧ x < p + 2 ^ o := by
  constructor
  · rintro ⟨⟨b, hb, hx⟩, rfl⟩
    have hle := hi.canonical.order_le b hb
    have hz := pfnZone_eq_of_mem (hi.canonical.aligned b hb) hle hx
    exact ⟨b.order, Nat.lt_of_le_of_lt hle (by decide), b.base, hz ▸ hb, hx⟩
  rintro ⟨o, _, p, hp, hx⟩
  have hz := hi.in_zone z o p hp
  subst hz
  have hfree : (⟨p, o⟩ : Block) ∈ s.freeBlocks := hp
  exact ⟨⟨⟨p, o⟩, hfree, hx⟩, pfnZone_eq_of_mem (hi.canonical.aligned _ hfree) (hi.canonical.order_le _ hfree) hx⟩

-- The blocks of a zone are disjoint, so their sizes add up to the number of free frames.
theorem Inv.ncard_freeFrames (hi : Inv managed live s) (z : ZoneId) : (s.freeFrames z).ncard = (s.zone z).total := by
  have hfree : ∀ o, ∀ p ∈ ((s.zone z).free o).toFinset, (⟨p, o⟩ : Block) ∈ s.freeBlocks := by
    intro o p hp
    have hp := mem_toFinset.mp hp
    rw [mem_freeBlocks, hi.in_zone z o p hp]
    exact hp
  have hdisjoint : ∀ o o' p p', p ∈ ((s.zone z).free o).toFinset → p' ∈ ((s.zone z).free o').toFinset →
      (p, o) ≠ (p', o') → Disjoint (Finset.Ico p (p + 2 ^ o)) (Finset.Ico p' (p' + 2 ^ o')) := by
    intro o o' p p' hp hp' hne
    refine Finset.disjoint_left.mpr fun x hx hx' => hne ?_
    have heq := hi.free_eq (hfree o p hp) (hfree o' p' hp') (Finset.mem_Ico.mp hx) (Finset.mem_Ico.mp hx')
    simpa using heq
  let frames := (Finset.range MAX_ORDER).biUnion fun o =>
    ((s.zone z).free o).toFinset.biUnion fun p => Finset.Ico p (p + 2 ^ o)
  have hset : s.freeFrames z = frames := by
    ext x
    simp only [hi.mem_freeFrames, frames, Finset.mem_coe, Finset.mem_biUnion, Finset.mem_range,
      mem_toFinset, Finset.mem_Ico]
  rw [hset, Set.ncard_coe_finset, Finset.card_biUnion ?_, Zone.total]
  · refine Finset.sum_congr rfl fun o _ => ?_
    rw [Finset.card_biUnion fun p hp p' hp' hne => hdisjoint o o p p' hp hp' (by simpa using hne)]
    simp [toFinset_card_of_nodup (hi.nodup z o)]
  intro o _ o' _ hne
  simp only [Function.onFun, Finset.disjoint_biUnion_left, Finset.disjoint_biUnion_right]
  intro p hp p' hp'
  exact hdisjoint o o' p' p hp' hp (by simp [hne])

structure Correct (managed : Set Nat) (sys : System) : Prop extends Inv managed sys.live sys.pages where
  block_in_zone : ∀ z o p, p ∈ (sys.pages.zone z).free o → ∀ x ∈ (⟨p, o⟩ : Block), pfnZone x = z
  freePages : ∀ z, (sys.pages.zone z).freePages = (sys.pages.freeFrames z).ncard

theorem Correct.of_counted (hi : Inv managed sys.live sys.pages) (hc : Counted sys.pages) : Correct managed sys where
  toInv := hi
  block_in_zone z o p hp x hx := by
    have hz := hi.in_zone z o p hp
    subst hz
    have hfree : (⟨p, o⟩ : Block) ∈ sys.pages.freeBlocks := hp
    exact pfnZone_eq_of_mem (hi.canonical.aligned _ hfree) (hi.canonical.order_le _ hfree) hx
  freePages z := (hc z).trans (hi.ncard_freeFrames z).symm

theorem Correct.counted (h : Correct managed sys) : Counted sys.pages :=
  fun z => (h.freePages z).trans (h.toInv.ncard_freeFrames z)

theorem step_correct (h : Correct managed sys) (op : Op) :
    ∃ sys', step sys op = some sys' ∧ Correct managed sys' := by
  cases op with
  | alloc gfp order =>
    rcases allocPages_spec h.toInv h.counted gfp order with ⟨pfn, p, z, _, heq, hal⟩ | heq
    · exact ⟨⟨p, ⟨pfn, order⟩ :: sys.live⟩, by simp [step, heq], .of_counted hal.inv hal.counted⟩
    · exact ⟨sys, by simp [step, heq], h⟩
  | free b =>
    by_cases hb : b ∈ sys.live
    · obtain ⟨p, heq, hi, hc⟩ := freePages_spec (h.toInv.perm (perm_cons_erase hb)) h.counted
      exact ⟨⟨p, sys.live.erase b⟩, by simp [step, hb, heq], .of_counted hi hc⟩
    · exact ⟨sys, by simp [step, hb], h⟩

theorem run_correct (h : Correct managed sys) (ops : List Op) :
    ∃ sys', run sys ops = some sys' ∧ Correct managed sys' := by
  induction ops generalizing sys with
  | nil => exact ⟨sys, rfl, h⟩
  | cons op rest ih =>
    obtain ⟨t, hstep, ht⟩ := step_correct h op
    obtain ⟨u, hrun, hu⟩ := ih ht
    exact ⟨u, by simp [run, hstep, hrun], hu⟩

def Granted (sys : System) (gfp : UInt32) (order pfn : Nat) : Prop :=
  (∀ x ∈ (⟨pfn, order⟩ : Block), x < endPfn (topZone gfp)) ∧ ∀ b ∈ sys.live, (⟨pfn, order⟩ : Block).Disjoint b

theorem Correct.granted (h : Correct managed sys) {gfp : UInt32} {order : Nat} {p : Pages}
    (ha : allocPages sys.pages gfp order = some (some pfn, p)) :
    Granted sys gfp order pfn := by
  rcases allocPages_spec h.toInv h.counted gfp order with ⟨pfn', p', z, hz, heq, hal⟩ | heq
  · rw [heq] at ha
    cases ha
    have hlive := mem_cons_self (a := (⟨pfn, order⟩ : Block)) (l := sys.live)
    refine ⟨fun x hx => ?_, (pairwise_cons.mp hal.inv.live_apart).1⟩
    have hlt := (hal.inv.valid x (hal.inv.live_mem_managed hlive hx)).2
    have hzone := pfnZone_eq_of_mem (hal.inv.live_aligned _ hlive) (hal.inv.live_order _ hlive) hx
    have hrange := (pfnZone_range hlt).2
    rw [hzone, hal.zone] at hrange
    exact Nat.lt_of_lt_of_le hrange (endPfn_le_of_mem_zonesFrom hz)
  · rw [heq] at ha
    cases ha

-- From whatever memory map the boot code reports, after every sequence of calls.
theorem allocator_correct (calls : List BootCall) (m m' : MemMap) (s : Pages)
    (hboot : boot {} calls = some m) (hinit : pageAllocInit m = some (s, m')) (ops : List Op) :
    ∃ sys, run ⟨s, []⟩ ops = some sys ∧ Correct {p | p ∈ ramFrames m'} sys ∧
      (∀ gfp order, ∃ r p, allocPages sys.pages gfp order = some (r, p) ∧
        ∀ pfn, r = some pfn → Granted sys gfp order pfn) ∧
      ∀ ops' sys', run ⟨s, []⟩ ops' = some sys' → covered sys'.pages.freeBlocks = covered sys.pages.freeBlocks →
        sys'.pages.freeBlocks = sys.pages.freeBlocks := by
  have hm := boot_ok calls {} m .nil hboot
  obtain ⟨hi, hc⟩ := pageAllocInit_spec hm hinit
  have hstart : Correct {p | p ∈ ramFrames m'} ⟨s, []⟩ := .of_counted hi hc
  obtain ⟨sys, hrun, hsys⟩ := run_correct hstart ops
  refine ⟨sys, hrun, hsys, ?_, ?_⟩
  · intro gfp order
    rcases allocPages_spec hsys.toInv hsys.counted gfp order with ⟨pfn, p, z, _, heq, _⟩ | heq
    · refine ⟨some pfn, p, heq, fun q hq => ?_⟩
      cases hq
      exact hsys.granted heq
    · exact ⟨none, _, heq, by simp⟩
  intro ops' sys' hrun' hcov
  obtain ⟨t, ht, hcorrect⟩ := run_correct hstart ops'
  rw [hrun'] at ht
  cases ht
  exact hcorrect.canonical.eq_of_covered_eq hsys.canonical hcov

def smallMap : MemMap := ⟨[⟨0, 0x10000⟩], []⟩

def smallPages : Pages :=
  (ramFrames ⟨[⟨0, 0x10000⟩], [⟨0xf000, 0x1000⟩]⟩).foldl handOver
    { basePfn := 0, pfns := 16, page := fun _ => reservedPage, zone := fun _ => emptyZone }

theorem pageAllocInit_smallMap :
    pageAllocInit smallMap = some (smallPages, ⟨[⟨0, 0x10000⟩], [⟨0xf000, 0x1000⟩]⟩) := by
  have halloc : memblockAlloc smallMap (alignUp (16 * PAGE_STRUCT) PAGE_SIZE) PAGE_SIZE (2 ^ 64 - 1) =
      some (0xf000, ⟨[⟨0, 0x10000⟩], [⟨0xf000, 0x1000⟩]⟩) := by
    have hsearch : searchDown [] 0 0x1000 PAGE_SIZE 0xf000 = some 0xf000 := by
      rw [searchDown]
      simp [conflict]
    simp [memblockAlloc, searchRegions, smallMap, alignUp, alignDown, PAGE_STRUCT, PAGE_SIZE] at hsearch ⊢
    rw [hsearch]
    decide
  simp only [pageAllocInit,
    show memblockEnd smallMap / PAGE_SIZE - memblockStart smallMap / PAGE_SIZE = 16 from by decide, halloc]
  rfl

theorem allocator_correct_smallMap :
    ∃ s, pageAllocInit smallMap = some (s, ⟨[⟨0, 0x10000⟩], [⟨0xf000, 0x1000⟩]⟩) ∧
      ∃ sys, run ⟨s, []⟩ [.alloc 0 2, .alloc GFP_DMA 0] = some sys ∧
        Correct {p | p ∈ ramFrames ⟨[⟨0, 0x10000⟩], [⟨0xf000, 0x1000⟩]⟩} sys := by
  obtain ⟨sys, hrun, hsys, _⟩ := allocator_correct [.add 0 0x10000] smallMap _ _ (by decide) pageAllocInit_smallMap
    [.alloc 0 2, .alloc GFP_DMA 0]
  exact ⟨_, pageAllocInit_smallMap, sys, hrun, hsys⟩

-- Once every block has been given back, in whatever order, the zones are as they were at boot.
theorem all_freed_restores (calls : List BootCall) (m m' : MemMap) (s : Pages) (hboot : boot {} calls = some m)
    (hinit : pageAllocInit m = some (s, m')) (ops : List Op) (sys : System) (hrun : run ⟨s, []⟩ ops = some sys)
    (hlive : sys.live = []) : sys.pages.freeBlocks = s.freeBlocks ∧
      ∀ z, (sys.pages.zone z).freePages = (s.zone z).freePages := by
  obtain ⟨hi, hc⟩ := pageAllocInit_spec (boot_ok calls {} m .nil hboot) hinit
  have hstart : Correct {p | p ∈ ramFrames m'} ⟨s, []⟩ := .of_counted hi hc
  obtain ⟨sys', hrun', hsys⟩ := run_correct hstart ops
  obtain rfl : sys' = sys := Option.some.inj (hrun'.symm.trans hrun)
  have hblocks := hsys.canonical.eq_of_covered_eq hi.canonical <| Set.ext fun x => by
    simpa [hlive] using (hsys.cover x).symm.trans (hi.cover x)
  exact ⟨hblocks, fun z => by rw [hsys.freePages, hstart.freePages, Pages.freeFrames, Pages.freeFrames, hblocks]⟩

theorem all_freed_restores_smallMap :
    (run ⟨smallPages, []⟩ [.alloc 0 2, .alloc 0 0]).map System.live = some [⟨14, 0⟩, ⟨8, 2⟩] ∧
    ∃ sys, run ⟨smallPages, []⟩ [.alloc 0 2, .alloc 0 0, .free ⟨8, 2⟩, .free ⟨14, 0⟩] = some sys ∧
      sys.pages.freeBlocks = smallPages.freeBlocks := by
  refine ⟨by decide +kernel, ?_⟩
  have hlive : (run ⟨smallPages, []⟩ [.alloc 0 2, .alloc 0 0, .free ⟨8, 2⟩, .free ⟨14, 0⟩]).map System.live = some [] := by
    decide +kernel
  obtain ⟨sys, hrun, hnone⟩ := Option.map_eq_some_iff.mp hlive
  exact ⟨sys, hrun, (all_freed_restores [.add 0 0x10000] smallMap _ _ (by decide) pageAllocInit_smallMap _ _ hrun hnone).1⟩

end Olux.PageAlloc
