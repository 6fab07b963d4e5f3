import Olux.PageAlloc

namespace Olux.PageAlloc

open Olux.Lib List

variable {x : Nat} {s : Pages} {b : Block} {managed : Set Nat} {live rest : List Block}

def Pages.freeBlocks (s : Pages) : Set Block :=
  {b | b.base ∈ (s.zone (pfnZone b.base)).free b.order}

theorem mem_freeBlocks : b ∈ s.freeBlocks ↔ b.base ∈ (s.zone (pfnZone b.base)).free b.order := Iff.rfl

-- The free lists and the blocks in use split the managed frames between them. A block
-- that is being freed or split counts as one in use.
structure Inv (managed : Set Nat) (live : List Block) (s : Pages) : Prop where
  in_zone : ∀ z o p, p ∈ (s.zone z).free o → pfnZone p = z
  nodup : ∀ z o, ((s.zone z).free o).Nodup
  nrFree : ∀ z o, (s.zone z).nrFree o = ((s.zone z).free o).length
  head : ∀ b ∈ s.freeBlocks, (s.page b.base).buddy = true ∧ (s.page b.base).order = b.order
  marked : ∀ p, (s.page p).buddy = true → ⟨p, (s.page p).order⟩ ∈ s.freeBlocks
  canonical : Canonical (MAX_ORDER - 1) s.freeBlocks
  live_aligned : ∀ b ∈ live, b.Aligned
  live_order : ∀ b ∈ live, b.order ≤ MAX_ORDER - 1
  live_apart : live.Pairwise Block.Disjoint
  free_apart : ∀ a ∈ live, ∀ b ∈ s.freeBlocks, a.Disjoint b
  cover : ∀ x, x ∈ managed ↔ x ∈ covered s.freeBlocks ∨ ∃ b ∈ live, x ∈ b
  valid : ∀ x ∈ managed, s.pfnValid x ∧ x < 2 ^ 52
  unmarked : ∀ x ∈ managed, (s.page x).reserved = false ∧ (s.page x).slab = false

-- The zone limits are multiples of the largest block, so a block lies in one zone.
theorem pfnZone_eq_of_mem (ha : b.Aligned) (ho : b.order ≤ MAX_ORDER - 1)
    (hx : x ∈ b) : pfnZone x = pfnZone b.base := by
  have hq : x / 2 ^ 10 = b.base / 2 ^ 10 := by
    rw [Block.div_two_pow_of_le x (p := 10) ho, Block.div_two_pow_of_le b.base (p := 10) ho, ha.mem_iff.mp hx]
  have h1 : startPfn 2 ≤ x ↔ startPfn 2 ≤ b.base := by simp only [startPfn]; omega
  have h2 : startPfn 1 ≤ x ↔ startPfn 1 ≤ b.base := by simp only [startPfn]; omega
  simp only [pfnZone, h1, h2]

theorem pfnZone_parent (ha : b.Aligned) (ho : b.order < MAX_ORDER - 1) : pfnZone b.parent.base = pfnZone b.base :=
  (pfnZone_eq_of_mem (Block.parent_aligned ha) ho ((Block.parent_mem_iff ha).mpr (.inl (Block.base_mem b)))).symm

theorem pfnZone_buddy (ha : b.Aligned) (ho : b.order < MAX_ORDER - 1) : pfnZone b.buddy.base = pfnZone b.base := by
  rw [← pfnZone_parent ha ho]
  exact pfnZone_eq_of_mem (Block.parent_aligned ha) ho
    ((Block.parent_mem_iff ha).mpr (.inr (Block.base_mem b.buddy)))

theorem pfnZone_range (hx : x < 2 ^ 52) : startPfn (pfnZone x) ≤ x ∧ x < endPfn (pfnZone x) := by
  unfold pfnZone
  split
  · exact ⟨‹_›, by simp only [endPfn]; omega⟩
  split
  · exact ⟨‹_›, by simp only [startPfn, endPfn] at *; omega⟩
  · exact ⟨by simp [startPfn], by simp only [startPfn, endPfn] at *; omega⟩

structure SameFree (s s' : Pages) : Prop where
  basePfn : s'.basePfn = s.basePfn
  pfns : s'.pfns = s.pfns
  free : ∀ z, (s'.zone z).free = (s.zone z).free
  nrFree : ∀ z, (s'.zone z).nrFree = (s.zone z).nrFree
  buddy : ∀ p, (s'.page p).buddy = (s.page p).buddy
  order : ∀ p, (s.page p).buddy = true → (s'.page p).order = (s.page p).order
  reserved : ∀ p, (s'.page p).reserved = (s.page p).reserved
  slab : ∀ p, (s'.page p).slab = (s.page p).slab

theorem SameFree.freeBlocks {s' : Pages} (h : SameFree s s') : s'.freeBlocks = s.freeBlocks := by
  ext b
  simp only [mem_freeBlocks, h.free]

theorem SameFree.inv {s' : Pages} (h : SameFree s s') (hi : Inv managed live s) : Inv managed live s' where
  in_zone := by simpa only [h.free] using hi.in_zone
  nodup := by simpa only [h.free] using hi.nodup
  nrFree := by simpa only [h.free, h.nrFree] using hi.nrFree
  head b hb := by
    rw [h.freeBlocks] at hb
    have hhead := hi.head b hb
    exact ⟨(h.buddy _).trans hhead.1, (h.order _ hhead.1).trans hhead.2⟩
  marked p hp := by
    rw [h.buddy] at hp
    rw [h.freeBlocks, h.order p hp]
    exact hi.marked p hp
  canonical := h.freeBlocks ▸ hi.canonical
  live_aligned := hi.live_aligned
  live_order := hi.live_order
  live_apart := hi.live_apart
  free_apart := h.freeBlocks ▸ hi.free_apart
  cover := h.freeBlocks ▸ hi.cover
  valid := by simpa only [Pages.pfnValid, h.basePfn, h.pfns] using hi.valid
  unmarked := by simpa only [h.reserved, h.slab] using hi.unmarked

theorem setZone_free (s : Pages) (z w : ZoneId) (v : Zone) (hf : v.free = (s.zone z).free) :
    ((s.setZone z v).zone w).free = (s.zone w).free := by
  by_cases h : w = z
  · subst h
    simpa [Pages.setZone] using hf
  · simp [Pages.setZone, h]

theorem setZone_nrFree (s : Pages) (z w : ZoneId) (v : Zone) (hf : v.nrFree = (s.zone z).nrFree) :
    ((s.setZone z v).zone w).nrFree = (s.zone w).nrFree := by
  by_cases h : w = z
  · subst h
    simpa [Pages.setZone] using hf
  · simp [Pages.setZone, h]

theorem setZone_sameFree (s : Pages) (z : ZoneId) (v : Zone) (hf : v.free = (s.zone z).free)
    (hn : v.nrFree = (s.zone z).nrFree) : SameFree s (s.setZone z v) :=
  ⟨rfl, rfl, fun w => setZone_free s z w v hf, fun w => setZone_nrFree s z w v hn,
    fun _ => rfl, fun _ _ => rfl, fun _ => rfl, fun _ => rfl⟩

theorem setRefcount_sameFree (s : Pages) (pfn order : Nat) (n : Int) : SameFree s (s.setRefcount pfn order n) := by
  refine ⟨rfl, rfl, fun _ => rfl, fun _ => rfl, ?_, ?_, ?_, ?_⟩ <;> intro p <;>
    simp only [Pages.setRefcount] <;> split <;> simp

theorem setOrder_sameFree (s : Pages) (pfn order : Nat) (h : (s.page pfn).buddy = false) :
    SameFree s (s.setPage pfn { s.page pfn with order := order }) := by
  refine ⟨rfl, rfl, fun _ => rfl, fun _ => rfl, ?_, ?_, ?_, ?_⟩ <;> intro p <;>
    by_cases hp : p = pfn <;> simp_all [Pages.setPage]

theorem Inv.perm {live' : List Block} (hi : Inv managed live s) (hp : live.Perm live') : Inv managed live' s where
  in_zone := hi.in_zone
  nodup := hi.nodup
  nrFree := hi.nrFree
  head := hi.head
  marked := hi.marked
  canonical := hi.canonical
  live_aligned b hb := hi.live_aligned b (hp.mem_iff.mpr hb)
  live_order b hb := hi.live_order b (hp.mem_iff.mpr hb)
  live_apart := hi.live_apart.perm hp Block.Disjoint.symm
  free_apart b hb := hi.free_apart b (hp.mem_iff.mpr hb)
  cover x := by
    rw [hi.cover]
    simp only [hp.mem_iff]
  valid := hi.valid
  unmarked := hi.unmarked

theorem Inv.recut (old new : List Block) (hi : Inv managed (old ++ rest) s) (haligned : ∀ b ∈ new, b.Aligned)
    (horder : ∀ b ∈ new, b.order ≤ MAX_ORDER - 1) (hapart : new.Pairwise Block.Disjoint)
    (hsame : ∀ x, (∃ b ∈ new, x ∈ b) ↔ ∃ b ∈ old, x ∈ b) : Inv managed (new ++ rest) s := by
  have happ := pairwise_append.mp hi.live_apart
  refine { hi with
    live_aligned := ?_, live_order := ?_, live_apart := ?_, free_apart := ?_, cover := ?_ }
  · intro b hb
    rcases mem_append.mp hb with hb | hb
    · exact haligned b hb
    · exact hi.live_aligned b (mem_append_right old hb)
  · intro b hb
    rcases mem_append.mp hb with hb | hb
    · exact horder b hb
    · exact hi.live_order b (mem_append_right old hb)
  · refine pairwise_append.mpr ⟨hapart, happ.2.1, ?_⟩
    intro a ha b hb x hxa hxb
    obtain ⟨c, hc, hxc⟩ := (hsame x).mp ⟨a, ha, hxa⟩
    exact happ.2.2 c hc b hb x hxc hxb
  · intro a ha b hb x hxa hxb
    rcases mem_append.mp ha with ha | ha
    · obtain ⟨c, hc, hxc⟩ := (hsame x).mp ⟨a, ha, hxa⟩
      exact hi.free_apart c (mem_append_left rest hc) b hb x hxc hxb
    · exact hi.free_apart a (mem_append_right old ha) b hb x hxa hxb
  intro x
  rw [hi.cover]
  simp only [mem_append, or_and_right, exists_or, hsame]

theorem Inv.merge (hi : Inv managed (b.buddy :: b :: rest) s) (ho : b.order < MAX_ORDER - 1) :
    Inv managed (b.parent :: rest) s := by
  have ha : b.Aligned := hi.live_aligned b (by simp)
  refine Inv.recut [b.buddy, b] [b.parent] hi ?_ ?_ (by simp) ?_
  · simpa using Block.parent_aligned ha
  · simpa [Block.parent] using Nat.succ_le_of_lt ho
  · intro x
    simp [Block.parent_mem_iff ha, or_comm]

theorem Inv.halve {base o : Nat} (hi : Inv managed (⟨base, o + 1⟩ :: rest) s) :
    Inv managed (⟨base + 2 ^ o, o⟩ :: ⟨base, o⟩ :: rest) s := by
  have hhalf := (hi.live_aligned _ mem_cons_self).halves
  have ho := hi.live_order _ mem_cons_self
  refine Inv.recut [⟨base, o + 1⟩] [⟨base + 2 ^ o, o⟩, ⟨base, o⟩] hi ?_ ?_ ?_ ?_
  · simpa using ⟨hhalf.2, hhalf.1⟩
  · intro b hb
    simp only at ho
    simp only [mem_cons, not_mem_nil, or_false] at hb
    rcases hb with rfl | rfl <;> simp only <;> omega
  · simpa using (Block.halves_disjoint base o).symm
  · intro x
    simp [Block.mem_halves, or_comm]

theorem addFree_free (s : Pages) (z w : ZoneId) (pfn order o : Nat) : ((addFree s z pfn order).zone w).free o =
      if w = z ∧ o = order then pfn :: (s.zone z).free order else (s.zone w).free o := by
  by_cases hw : w = z
  · by_cases ho : o = order <;> simp [addFree, Pages.setZone, Pages.setPage, hw, ho]
  · simp [addFree, Pages.setZone, Pages.setPage, hw]

theorem delFree_free (s : Pages) (z w : ZoneId) (pfn order o : Nat) : ((delFree s z pfn order).zone w).free o =
      if w = z ∧ o = order then ((s.zone z).free order).erase pfn else (s.zone w).free o := by
  by_cases hw : w = z
  · by_cases ho : o = order <;> simp [delFree, Pages.setZone, Pages.setPage, hw, ho]
  · simp [delFree, Pages.setZone, Pages.setPage, hw]

theorem addFree_nrFree (s : Pages) (z w : ZoneId) (pfn order o : Nat) : ((addFree s z pfn order).zone w).nrFree o =
      if w = z ∧ o = order then (s.zone z).nrFree order + 1 else (s.zone w).nrFree o := by
  by_cases hw : w = z
  · by_cases ho : o = order <;> simp [addFree, Pages.setZone, Pages.setPage, hw, ho]
  · simp [addFree, Pages.setZone, Pages.setPage, hw]

theorem delFree_nrFree (s : Pages) (z w : ZoneId) (pfn order o : Nat) : ((delFree s z pfn order).zone w).nrFree o =
      if w = z ∧ o = order then (s.zone z).nrFree order - 1 else (s.zone w).nrFree o := by
  by_cases hw : w = z
  · by_cases ho : o = order <;> simp [delFree, Pages.setZone, Pages.setPage, hw, ho]
  · simp [delFree, Pages.setZone, Pages.setPage, hw]

theorem addFree_page (s : Pages) (z : ZoneId) (pfn order p : Nat) : (addFree s z pfn order).page p =
      if p = pfn then { s.page pfn with buddy := true, order := order } else s.page p := by
  by_cases hp : p = pfn <;> simp [addFree, Pages.setZone, Pages.setPage, hp]

theorem delFree_page (s : Pages) (z : ZoneId) (pfn order p : Nat) : (delFree s z pfn order).page p =
      if p = pfn then { s.page pfn with buddy := false } else s.page p := by
  by_cases hp : p = pfn <;> simp [delFree, Pages.setZone, Pages.setPage, hp]

theorem mem_freeBlocks_addFree (s : Pages) (b a : Block) :
    a ∈ (addFree s (pfnZone b.base) b.base b.order).freeBlocks ↔ a = b ∨ a ∈ s.freeBlocks := by
  obtain ⟨base, order⟩ := a
  obtain ⟨base', order'⟩ := b
  simp only [mem_freeBlocks, addFree_free, Block.mk.injEq]
  split
  · rename_i h
    obtain ⟨hz, rfl⟩ := h
    simp [hz]
  rename_i h
  have hne : ¬(base = base' ∧ order = order') := by
    rintro ⟨rfl, rfl⟩
    exact h ⟨rfl, rfl⟩
  simp [hne]

theorem mem_freeBlocks_delFree (s : Pages) (b a : Block) (hn : ((s.zone (pfnZone b.base)).free b.order).Nodup) :
    a ∈ (delFree s (pfnZone b.base) b.base b.order).freeBlocks ↔ a ≠ b ∧ a ∈ s.freeBlocks := by
  obtain ⟨base, order⟩ := a
  obtain ⟨base', order'⟩ := b
  simp only [mem_freeBlocks, delFree_free, ne_eq, Block.mk.injEq] at hn ⊢
  split
  · rename_i h
    obtain ⟨hz, rfl⟩ := h
    simp [hz, hn.mem_erase_iff]
  rename_i h
  have hne : ¬(base = base' ∧ order = order') := by
    rintro ⟨rfl, rfl⟩
    exact h ⟨rfl, rfl⟩
  simp [hne]

theorem covered_addFree (s : Pages) (b : Block) (x : Nat) :
    x ∈ covered (addFree s (pfnZone b.base) b.base b.order).freeBlocks ↔ x ∈ covered s.freeBlocks ∨ x ∈ b := by
  simp only [covered, Set.mem_ofPred_eq, mem_freeBlocks_addFree, exists_eq_or_imp]
  exact or_comm

theorem Inv.free_eq (hi : Inv managed live s) {a : Block} (ha : a ∈ s.freeBlocks) (hb : b ∈ s.freeBlocks)
    (hxa : x ∈ a) (hxb : x ∈ b) :
    a = b := by
  by_contra hne
  exact hi.canonical.disjoint a ha b hb hne x hxa hxb

theorem Inv.live_not_buddy (hi : Inv managed live s) (hb : b ∈ live) (hx : x ∈ b) : (s.page x).buddy = false := by
  by_contra hc
  exact hi.free_apart b hb _ (hi.marked x (by simpa using hc)) x hx (Block.base_mem _)

theorem Inv.live_mem_managed (hi : Inv managed live s) (hb : b ∈ live) (hx : x ∈ b) : x ∈ managed :=
  (hi.cover x).mpr (.inr ⟨b, hb, hx⟩)

theorem Inv.free_mem_managed (hi : Inv managed live s) (hb : b ∈ s.freeBlocks) (hx : x ∈ b) : x ∈ managed :=
  (hi.cover x).mpr (.inl ⟨b, hb, hx⟩)

theorem covered_delFree (hi : Inv managed live s) (hb : b ∈ s.freeBlocks) (x : Nat) : x ∈ covered s.freeBlocks ↔
      x ∈ covered (delFree s (pfnZone b.base) b.base b.order).freeBlocks ∨ x ∈ b := by
  simp only [covered, Set.mem_ofPred_eq, mem_freeBlocks_delFree s b _ (hi.nodup _ _)]
  constructor
  · rintro ⟨a, ha, hx⟩
    by_cases h : a = b
    · exact .inr (h ▸ hx)
    · exact .inl ⟨a, ⟨h, ha⟩, hx⟩
  rintro (⟨a, ha, hx⟩ | hx)
  · exact ⟨a, ha.2, hx⟩
  · exact ⟨b, hb, hx⟩

theorem Inv.delFree (hi : Inv managed live s) (hb : b ∈ s.freeBlocks) :
    Inv managed (b :: live) (delFree s (pfnZone b.base) b.base b.order) := by
  have hmem := fun a => mem_freeBlocks_delFree s b a (hi.nodup _ _)
  have hbase : ∀ a ∈ s.freeBlocks, a ≠ b → a.base ≠ b.base := by
    intro a ha hne he
    exact hne (hi.free_eq ha hb (he ▸ Block.base_mem a) (Block.base_mem b))
  refine
    { in_zone := ?_, nodup := ?_, nrFree := ?_, head := ?_, marked := ?_, canonical := ?_, live_aligned := ?_,
      live_order := ?_, live_apart := ?_, free_apart := ?_, cover := ?_, valid := ?_, unmarked := ?_ }
  · intro z o p hp
    rw [delFree_free] at hp
    split at hp
    · rename_i h
      exact (hi.in_zone _ _ p (mem_of_mem_erase hp)).trans h.1.symm
    · exact hi.in_zone z o p hp
  · intro z o
    rw [delFree_free]
    split
    · exact (hi.nodup _ _).erase _
    · exact hi.nodup z o
  · intro z o
    rw [delFree_free, delFree_nrFree]
    split
    · rw [hi.nrFree, length_erase_of_mem hb]
    · exact hi.nrFree z o
  · intro a ha
    obtain ⟨hne, ha⟩ := (hmem a).mp ha
    rw [delFree_page, if_neg (hbase a ha hne)]
    exact hi.head a ha
  · intro p hp
    rw [delFree_page] at hp ⊢
    split at hp
    · simp at hp
    rename_i h
    rw [if_neg h, hmem]
    exact ⟨fun he => h (congrArg Block.base he), hi.marked p hp⟩
  · exact
      { aligned := fun a ha => hi.canonical.aligned a ((hmem a).mp ha).2
        order_le := fun a ha => hi.canonical.order_le a ((hmem a).mp ha).2
        disjoint := fun a ha c hc => hi.canonical.disjoint a ((hmem a).mp ha).2 c ((hmem c).mp hc).2
        merged := fun a ha ho hbud => hi.canonical.merged a ((hmem a).mp ha).2 ho ((hmem _).mp hbud).2 }
  · exact forall_mem_cons.mpr ⟨hi.canonical.aligned b hb, hi.live_aligned⟩
  · exact forall_mem_cons.mpr ⟨hi.canonical.order_le b hb, hi.live_order⟩
  · exact pairwise_cons.mpr ⟨fun a ha => (hi.free_apart a ha b hb).symm, hi.live_apart⟩
  · refine forall_mem_cons.mpr ⟨?_, ?_⟩
    · intro a ha
      obtain ⟨hne, ha⟩ := (hmem a).mp ha
      exact hi.canonical.disjoint b hb a ha hne.symm
    · intro c hc a ha
      exact hi.free_apart c hc a ((hmem a).mp ha).2
  · intro x
    rw [hi.cover, covered_delFree hi hb]
    simp only [mem_cons, exists_eq_or_imp]
    tauto
  · exact hi.valid
  intro x hx
  rw [delFree_page]
  split
  · rename_i h
    exact hi.unmarked _ (h ▸ hx)
  · exact hi.unmarked x hx

theorem Inv.addFree (hi : Inv managed (b :: live) s) (hbuddy : b.order < MAX_ORDER - 1 → b.buddy ∉ s.freeBlocks) :
    Inv managed live (addFree s (pfnZone b.base) b.base b.order) := by
  have hmem := fun a => mem_freeBlocks_addFree s b a
  have hapart := hi.free_apart b mem_cons_self
  have hlive := pairwise_cons.mp hi.live_apart
  have hbase : ∀ a ∈ s.freeBlocks, a.base ≠ b.base := by
    intro a ha he
    exact hapart a ha b.base (Block.base_mem b) (he ▸ Block.base_mem a)
  refine
    { in_zone := ?_, nodup := ?_, nrFree := ?_, head := ?_, marked := ?_, canonical := ?_, live_aligned := ?_,
      live_order := ?_, live_apart := hlive.2, free_apart := ?_, cover := ?_, valid := ?_, unmarked := ?_ }
  · intro z o p hp
    rw [addFree_free] at hp
    split at hp
    · rename_i h
      rcases mem_cons.mp hp with rfl | hp
      · exact h.1.symm
      · exact (hi.in_zone _ _ p hp).trans h.1.symm
    · exact hi.in_zone z o p hp
  · intro z o
    rw [addFree_free]
    split
    · refine nodup_cons.mpr ⟨?_, hi.nodup _ _⟩
      intro hin
      exact hbase b hin rfl
    · exact hi.nodup z o
  · intro z o
    rw [addFree_free, addFree_nrFree]
    split
    · rw [hi.nrFree, length_cons]
    · exact hi.nrFree z o
  · intro a ha
    rw [addFree_page]
    rcases (hmem a).mp ha with rfl | ha
    · simp
    · rw [if_neg (hbase a ha)]
      exact hi.head a ha
  · intro p hp
    rw [addFree_page] at hp ⊢
    split at hp
    · rename_i h
      rw [if_pos h, hmem]
      exact .inl (by simp [h])
    rename_i h
    rw [if_neg h, hmem]
    exact .inr (hi.marked p hp)
  · refine { aligned := ?_, order_le := ?_, disjoint := ?_, merged := ?_ }
    · intro a ha
      rcases (hmem a).mp ha with rfl | ha
      · exact hi.live_aligned a mem_cons_self
      · exact hi.canonical.aligned a ha
    · intro a ha
      rcases (hmem a).mp ha with rfl | ha
      · exact hi.live_order a mem_cons_self
      · exact hi.canonical.order_le a ha
    · intro a ha c hc hne
      rcases (hmem a).mp ha with hab | ha' <;> rcases (hmem c).mp hc with hcb | hc'
      · exact absurd (hab.trans hcb.symm) hne
      · exact hab ▸ hapart c hc'
      · exact hcb ▸ (hapart a ha').symm
      · exact hi.canonical.disjoint a ha' c hc' hne
    · intro a ha ho hbud
      rcases (hmem a).mp ha with rfl | ha <;> rcases (hmem _).mp hbud with hb | hb
      · exact Block.buddy_disjoint (hi.live_aligned a mem_cons_self) a.base
          (by rw [hb]; exact Block.base_mem a) (Block.base_mem a)
      · exact hbuddy ho hb
      · refine hbuddy (by rw [← hb]; exact ho) ?_
        rw [← hb, Block.buddy_buddy]
        exact ha
      · exact hi.canonical.merged a ha ho hb
  · exact (forall_mem_cons.mp hi.live_aligned).2
  · exact (forall_mem_cons.mp hi.live_order).2
  · intro c hc a ha
    rcases (hmem a).mp ha with rfl | ha
    · exact (hlive.1 c hc).symm
    · exact hi.free_apart c (mem_cons_of_mem b hc) a ha
  · intro x
    rw [hi.cover, covered_addFree]
    simp only [mem_cons, exists_eq_or_imp]
    tauto
  · exact hi.valid
  intro x hx
  rw [addFree_page]
  split
  · rename_i h
    exact hi.unmarked _ (h ▸ hx)
  · exact hi.unmarked x hx

end Olux.PageAlloc
