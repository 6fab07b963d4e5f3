import Olux.Kmalloc.Lemmas

namespace Olux.Kmalloc

open Lib List

variable {G : Pager} {s s' : St G} {ci pfn i : Nat} {live : List Obj}

theorem slabbed_inv (h : Inv s live) (hci : ci < NR_CLASSES) {gfp : UInt32} {g : G.State}
    (ha : G.alloc s.pager gfp 0 = (some pfn, g)) :
    Inv (slabbed ci pfn (granted pfn 0 g s)) live ∧
      pfn ∈ ((slabbed ci pfn (granted pfn 0 g s)).classes ci).partialPages := by
  have hun := h.pages.unmarked ha (Block.base_mem ⟨pfn, 0⟩)
  have hsize := classSize_mul_perPage hci
  have hper : 0 < perPage ci := Nat.pos_of_ne_zero fun h0 => by
    rw [h0, Nat.zero_mul] at hsize
    cases hsize
  obtain ⟨hth, hmagic, hout⟩ := carve_spec ci pfn (perPage ci) 0 s.mem [] rfl nofun nofun
  rw [append_nil] at hth hmagic
  have hself : (slabbed ci pfn (granted pfn 0 g s)).page pfn = { s.page pfn with
        order := 0, slab := true, slabClass := ci, slabInuse := 0
        freelist := (carve (classSize ci) (pageAddress pfn) (perPage ci) 0 s.mem).1 } := by
    show (if pfn = pfn then _ else _) = _
    rw [if_pos rfl, show (granted pfn 0 g s).page pfn = { s.page pfn with order := 0 } from if_pos rfl]
    rfl
  have hother : ∀ q, q ≠ pfn → (slabbed ci pfn (granted pfn 0 g s)).page q = s.page q := by
    intro q hq
    show (if q = pfn then _ else if q = pfn then _ else _) = _
    rw [if_neg hq, if_neg hq]
  have hclasses : ∀ k, (slabbed ci pfn (granted pfn 0 g s)).classes k =
      if k = ci then ⟨pfn :: (s.classes ci).partialPages, (s.classes ci).pages + 1⟩ else s.classes k := fun _ => rfl
  -- the page was on no list
  have hnot : ∀ k, pfn ∉ (s.classes k).partialPages := by
    intro k hk
    have hs := ((h.avail k pfn).mp hk).1
    rw [hun.1] at hs
    cases hs
  have hnone : ∀ k j, Obj.slab pfn k j ∉ live := fun k j hl =>
    Obj.base_ne h.pages ha (h.live_valid _ hl) rfl
  have hhead : (carve (classSize ci) (pageAddress pfn) (perPage ci) 0 s.mem).1 ≠ 0 := by
    refine fun h0 => Nat.ne_of_gt hper ?_
    have := hth.head_eq_zero.mp h0
    simpa using this
  refine ⟨h.adopt ha hother ?_ (fun _ => ⟨rfl, ?_, List.range (perPage ci), ?_⟩) ?_ ?_ ?_ (fun _ _ => Iff.rfl)
    h.live_nodup ?_, ?_⟩
  · intro a hpa
    refine hout a ?_
    rw [hsize]
    simpa using hpa
  · rw [hself]
    exact hun.2
  · rw [hself]
    refine ⟨hci, nodup_range, fun i hi => mem_range.mp hi, hth, hmagic, ?_, fun i hi => ?_⟩
    · exact length_range
    · exact iff_of_false (hnone ci i) fun hx => hx (mem_range.mpr hi)
  · intro hc
    rw [hself] at hc
    exact absurd (hc.symm.trans hun.2) Bool.true_eq_false.mp
  · intro k q
    rw [hclasses, hself]
    split
    · rename_i hk
      rw [mem_cons, hk]
      split
      · rename_i hq
        exact iff_of_true (.inl hq) ⟨rfl, rfl, hhead⟩
      · rename_i hq
        exact or_iff_right hq
    rename_i hk
    split
    · rename_i hq
      rw [hq]
      exact iff_of_false (hnot k) fun hx => hk hx.2.1.symm
    · rfl
  · intro k
    rw [hclasses]
    split
    · exact nodup_cons.mpr ⟨hnot ci, h.avail_nodup ci⟩
    · exact h.avail_nodup k
  · exact fun ob hob hbase => absurd hbase (Obj.base_ne h.pages ha (h.live_valid ob hob))
  · rw [hclasses, if_pos rfl]
    exact mem_cons_self

inductive Allocated (live : List Obj) (size : Nat) (s : St G) : Except Fault (Nat × St G) → Prop
  | none {s' : St G} : Inv s' live → Allocated live size s (.ok (0, s'))
  | some {o : Obj} {s' : St G} : size ≤ o.size → o ∉ live → (∀ o' ∈ live, o.Apart o') → Inv s' (o :: live) →
      Allocated live size s (.ok (o.addr, s'))
  | hang : 2 ^ 63 < size → Allocated live size s (.error .hang)

theorem takeObj_allocated (h : Inv s live) (hp : pfn ∈ (s.classes ci).partialPages) (clear : Bool) {size : Nat}
    (hsize : size ≤ classSize ci) {s0 : St G} : Allocated live size s0 (takeObj ci pfn clear s) := by
  obtain ⟨i, heq, hnot, hv, hinv⟩ := takeObj_spec h hp clear
  rw [heq]
  refine .some (o := .slab pfn ci i) hsize hnot (fun o' ho' => ?_) hinv
  refine hv.apart h.pages (h.live_valid o' ho') ?_
  rintro rfl
  exact hnot ho'

theorem sizeClass_some {size : Nat} (h : sizeClass size = some ci) : ci < NR_CLASSES ∧ size ≤ classSize ci :=
  ⟨mem_range.mp (mem_of_find?_eq_some h), by simpa using find?_some h⟩

theorem orderFor_none {size : Nat} (h : orderFor size = none) : 2 ^ 63 < size := by
  have htop : (PAGE_SIZE * 2 ^ 51) % 2 ^ 64 = 2 ^ 63 := rfl
  have hno := find?_eq_none.mp h 51 (mem_range.mpr (by decide))
  rw [htop, decide_eq_true_eq] at hno
  exact Nat.lt_of_not_le hno

theorem orderFor_some {size order : Nat} (h : orderFor size = some order) : size ≤ PAGE_SIZE * 2 ^ order := by
  unfold orderFor at h
  have hle := find?_some h
  rw [decide_eq_true_eq] at hle
  exact Nat.le_trans hle (Nat.mod_le _ _)

theorem kmallocLarge_allocated (h : Inv s live) (size : Nat) (gfp : UInt32) (clear : Bool) :
    Allocated live size s (kmallocLarge size gfp clear s) := by
  unfold kmallocLarge
  split
  · rename_i ho
    exact .hang (orderFor_none ho)
  rename_i order ho
  rcases allocPages_eq h.pages gfp order with ⟨g, ha, heq⟩ | ⟨pfn, g, ha, heq⟩
  · rw [heq]
    exact .none (h.pager fun b hb => (G.alloc_none ha b).mpr hb)
  rw [heq]
  have hun := h.pages.unmarked ha (Block.base_mem ⟨pfn, order⟩)
  have hsize := orderFor_some ho
  have hnot : Obj.large pfn order ∉ live := fun hl => Obj.base_ne h.pages ha (h.live_valid _ hl) rfl
  have hself : (setPage pfn { (granted pfn order g s).page pfn with compound := true, order } (granted pfn order g s)).page pfn =
      { s.page pfn with compound := true, order } := by
    rw [setPage_self, show (granted pfn order g s).page pfn = { s.page pfn with order } from if_pos rfl]
  refine .some (o := .large pfn order) hsize hnot (fun o' ho' => ?_) (h.adopt ha ?_ ?_ ?_ ?_ ?_ h.avail_nodup ?_ ?_ ?_)
  · have hv := h.live_valid o' ho'
    have hd := apart_of_disjoint (not_mem_of_alloc ha (hv.used h.pages))
    have hin := hv.inside
    show pageAddress pfn + PAGE_SIZE * 2 ^ order ≤ o'.addr ∨ o'.addr + o'.size ≤ pageAddress pfn
    dsimp only at hd
    omega
  · intro q hq
    show (if q = pfn then _ else if q = pfn then _ else _) = _
    rw [if_neg hq, if_neg hq]
  · intro a hpa
    show (if clear then zero (pageAddress pfn) size s.mem else s.mem) a = s.mem a
    split
    · exact if_neg fun hx => by omega
    · rfl
  · intro hs
    refine absurd ?_ Bool.true_eq_false.mp
    rw [← hs]
    exact (congrArg Page.slab hself).trans hun.1
  · exact fun _ => congrArg Page.order hself
  · intro k q
    by_cases hq : q = pfn
    · rw [if_pos hq, hq]
      refine iff_of_false (fun hk => ?_) fun hx => ?_
      · have hs := ((h.avail k pfn).mp hk).1
        rw [hun.1] at hs
        cases hs
      have hs := (congrArg Page.slab hself).symm.trans hx.1
      rw [hun.1] at hs
      cases hs
    · rw [if_neg hq]
      rfl
  · intro ob hob
    refine mem_cons.trans (or_iff_right ?_)
    rintro rfl
    exact hob rfl
  · exact nodup_cons.mpr ⟨hnot, h.live_nodup⟩
  refine forall_mem_cons.mpr ⟨fun _ => ?_, fun ob hob hbase => ?_⟩
  · exact ⟨congrArg Page.compound hself, congrArg Page.order hself⟩
  · exact absurd hbase (Obj.base_ne h.pages ha (h.live_valid ob hob))

theorem kmalloc_allocated (h : Inv s live) (size : Nat) (gfp : UInt32) (clear : Bool) :
    Allocated live size s (kmalloc size gfp clear s) := by
  unfold kmalloc
  split
  · exact .none h
  split
  · exact kmallocLarge_allocated h size gfp clear
  rename_i ci hci
  obtain ⟨hlt, hsize⟩ := sizeClass_some hci
  split
  · rename_i pfn rest heq
    exact takeObj_allocated h (heq ▸ mem_cons_self) clear hsize
  unfold newSlab
  rcases allocPages_eq h.pages 0 0 with ⟨g, ha, heq⟩ | ⟨pfn, g, ha, heq⟩
  · rw [heq]
    exact .none (h.pager fun b hb => (G.alloc_none ha b).mpr hb)
  rw [heq]
  obtain ⟨hinv, hmem⟩ := slabbed_inv h hlt ha
  exact takeObj_allocated hinv hmem clear hsize

theorem virtToPage_add {off : Nat} (h : off < PAGE_SIZE) : virtToPage (pageAddress pfn + off) = pfn := by
  unfold virtToPage pageAddress
  unfold PAGE_SIZE at h ⊢
  omega

theorem objAddr_off (hci : ci < NR_CLASSES) (hi : i < perPage ci) : i * classSize ci < PAGE_SIZE := by
  have hsz := sixteen_le_classSize ci
  rw [← classSize_mul_perPage hci]
  exact Nat.mul_lt_mul_of_pos_right hi (by omega)

theorem objAddr_aligned (hci : ci < NR_CLASSES) (pfn i : Nat) : objAddr pfn ci i % classSize ci = 0 := by
  have hoff : ∀ ci < NR_CLASSES, classSize ci ∣ PAGE_OFFSET := by decide
  have hpage : classSize ci ∣ PAGE_SIZE := ⟨perPage ci, by rw [Nat.mul_comm, classSize_mul_perPage hci]⟩
  refine Nat.mod_eq_zero_of_dvd ?_
  unfold objAddr pageAddress
  exact Nat.dvd_add (Nat.dvd_add (hoff ci hci) (Nat.dvd_trans hpage (Nat.dvd_mul_left _ _))) (Nat.dvd_mul_left _ _)

theorem FreeList.length_le {mem : Nat → Nat} {p : Page} {free : List Nat} (h : FreeList mem p pfn live free) :
    free.length ≤ perPage p.slabClass := by
  have := h.count
  omega

theorem FreeList.length_lt {mem : Nat → Nat} {p : Page} {free : List Nat} (h : FreeList mem p pfn live free)
    (hi : i < perPage p.slabClass) (hnot : i ∉ free) : free.length < perPage p.slabClass := by
  have hsub : (i :: free) ⊆ List.range (perPage p.slabClass) :=
    cons_subset.mpr ⟨mem_range.mpr hi, fun j hj => mem_range.mpr (h.inside j hj)⟩
  have hle := (subperm_of_subset (nodup_cons.mpr ⟨hnot, h.nodup⟩) hsub).length_le
  rw [length_range, length_cons] at hle
  exact hle

theorem put_inv (h : Inv s live) (ho : Obj.slab pfn ci i ∈ live) :
    Inv (put (objAddr pfn ci i) pfn s) (live.erase (.slab pfn ci i)) := by
  obtain ⟨hslab, rfl, hci, hi⟩ := h.live_valid _ ho
  obtain ⟨free, hf⟩ := h.free pfn hslab
  have hnot : i ∉ free := (hf.live i hi).mp ho
  have hlt := hf.length_lt hi hnot
  have hsz := sixteen_le_classSize (s.page pfn).slabClass
  have hmem : SameOutside (.slab pfn (s.page pfn).slabClass i) s.mem
      (store (objAddr pfn (s.page pfn).slabClass i + 8) FREE_MAGIC
        (store (objAddr pfn (s.page pfn).slabClass i) (s.page pfn).freelist s.mem)) := by
    intro a ha
    dsimp only [Obj.addr, Obj.size] at ha
    rw [store_other (by omega), store_other (by omega)]
  have hwords := fun k (hk : k ∈ free) =>
    hmem.words ((h.live_valid _ ho).apart h.pages (hf.valid hslab (hf.inside k hk))
      fun he => hnot ((Obj.slab.inj he).2.2 ▸ hk)) (sixteen_le_classSize _)
  have hclasses : ∀ k, (put (objAddr pfn (s.page pfn).slabClass i) pfn s).classes k =
      if k = (s.page pfn).slabClass then
        { s.classes (s.page pfn).slabClass with partialPages :=
            if (s.page pfn).freelist = 0 then pfn :: (s.classes (s.page pfn).slabClass).partialPages
            else (s.classes (s.page pfn).slabClass).partialPages }
      else s.classes k := fun _ => rfl
  have hlisted : pfn ∈ (s.classes (s.page pfn).slabClass).partialPages ↔ (s.page pfn).freelist ≠ 0 :=
    (h.avail _ pfn).trans ⟨fun hx => hx.2.2, fun hx => ⟨hslab, rfl, hx⟩⟩
  have hlists : FreeList (store (objAddr pfn (s.page pfn).slabClass i + 8) FREE_MAGIC
      (store (objAddr pfn (s.page pfn).slabClass i) (s.page pfn).freelist s.mem))
      { s.page pfn with
        freelist := objAddr pfn (s.page pfn).slabClass i, slabInuse := (s.page pfn).slabInuse - 1 }
      pfn (live.erase (.slab pfn (s.page pfn).slabClass i)) (i :: free) := by
    refine ⟨hci, nodup_cons.mpr ⟨hnot, hf.nodup⟩, forall_mem_cons.mpr ⟨hi, hf.inside⟩,
      ⟨rfl, objAddr_ne_zero _ _ _, ?_⟩, ?_, ?_, fun k hk => ?_⟩
    · have hhead : store (objAddr pfn (s.page pfn).slabClass i + 8) FREE_MAGIC
          (store (objAddr pfn (s.page pfn).slabClass i) (s.page pfn).freelist s.mem)
          (objAddr pfn (s.page pfn).slabClass i) = (s.page pfn).freelist := by
        rw [store_other (Nat.ne_of_lt (by omega)), store_self]
      refine (congrArg (fun a => Threaded _ a _) hhead).mpr ?_
      refine hf.threaded.congr fun b hb => ?_
      obtain ⟨k, hk, rfl⟩ := mem_map.mp hb
      exact (hwords k hk).1
    · refine forall_mem_cons.mpr ⟨store_self, fun k hk => ?_⟩
      exact (hwords k hk).2.trans (hf.magic k hk)
    · have hcount := hf.count
      rw [length_cons]
      dsimp only
      omega
    · rw [h.live_nodup.mem_erase_iff, mem_cons, not_or, ← hf.live k hk]
      refine and_congr_left fun _ => not_congr ⟨fun he => (Obj.slab.inj he).2.2, fun he => by rw [he]⟩
  refine h.relist hslab rfl (setPage_self _) (fun q hq => setPage_other _ hq) hslab rfl rfl rfl (fun k hk => ?_)
    (fun q => ?_) ?_ hi hmem hlists (fun o hne => ?_) (h.live_nodup.erase _)
  · rw [hclasses]
    exact if_neg hk
  · rw [hclasses, if_pos rfl]
    dsimp only
    by_cases hq : q = pfn
    · rw [if_pos hq, hq]
      refine iff_of_true ?_ (objAddr_ne_zero _ _ _)
      split
      · exact mem_cons_self
      · rename_i hfl
        exact hlisted.mpr hfl
    rw [if_neg hq]
    split
    · rw [mem_cons, or_iff_right hq]
    · rfl
  · rw [hclasses, if_pos rfl]
    dsimp only
    split
    · rename_i hfl
      exact nodup_cons.mpr ⟨fun hx => hlisted.mp hx hfl, h.avail_nodup _⟩
    · exact h.avail_nodup _
  · rw [h.live_nodup.mem_erase_iff]
    exact and_iff_right hne

theorem dropPage_inv (h : Inv s live) (hslab : (s.page pfn).slab = true) (hempty : (s.page pfn).slabInuse = 0) :
    Inv (dropPage pfn s) live := by
  obtain ⟨free, hf⟩ := h.free pfn hslab
  -- every object of the page is on its list, so none is live
  have hall : ∀ j < perPage (s.page pfn).slabClass, j ∈ free := by
    intro j hj
    by_contra hnot
    have hlt := hf.length_lt hj hnot
    have hcount := hf.count
    omega
  have hbase : ∀ ob ∈ live, ob.block.base ≠ pfn := by
    intro ob hob hb
    have hv := h.live_valid ob hob
    cases ob with
    | slab q ci j =>
      obtain rfl : q = pfn := hb
      obtain ⟨_, rfl, _, hj⟩ := hv
      exact (hf.live j hj).mp hob (hall j hj)
    | large q order =>
      obtain rfl : q = pfn := hb
      exact absurd (hv.1.symm.trans (h.pages.single q hslab)) Bool.true_eq_false.mp
  have hself : (dropPage pfn s).page pfn = { s.page pfn with slab := false } := setPage_self _
  have hother : ∀ q, q ≠ pfn → (dropPage pfn s).page q = s.page q := fun q hq => setPage_other _ hq
  have hused := G.free_used (h.pages.slab pfn hslab)
  have hnot : ∀ q, ((dropPage pfn s).page q).slab = true → q ≠ pfn := by
    rintro q hq rfl
    rw [hself] at hq
    cases hq
  have hclasses : ∀ k, (dropPage pfn s).classes k =
      if k = (s.page pfn).slabClass then
        ⟨(s.classes (s.page pfn).slabClass).partialPages.erase pfn, (s.classes (s.page pfn).slabClass).pages - 1⟩
      else s.classes k := fun _ => rfl
  refine ⟨⟨fun q hq => ?_, fun q hq => ?_, fun q hq => ?_⟩, fun q hq => ?_, fun k q => ?_, fun k => ?_, h.live_nodup,
    fun ob hob => (h.live_valid ob hob).of_page (hother _ (hbase ob hob))⟩
  · have hqp := hnot q hq
    rw [hother q hqp] at hq
    exact (hused _).mpr ⟨h.pages.slab q hq, fun he => hqp (congrArg Block.base he)⟩
  · by_cases hqp : q = pfn
    · rw [hqp, hself] at hq
      exact absurd (hq.symm.trans (h.pages.single pfn hslab)) Bool.true_eq_false.mp
    · rw [hother q hqp] at hq ⊢
      exact (hused _).mpr ⟨h.pages.compound q hq, fun he => hqp (congrArg Block.base he)⟩
  · have hqp := hnot q hq
    rw [hother q hqp] at hq ⊢
    exact h.pages.single q hq
  · have hqp := hnot q hq
    rw [hother q hqp] at hq ⊢
    exact h.free q hq
  · rw [hclasses]
    by_cases hqp : q = pfn
    · rw [hqp, hself]
      refine iff_of_false (fun hx => ?_) fun hx => by cases hx.1
      split at hx
      · exact (h.avail_nodup _).not_mem_erase hx
      · rename_i hk
        exact hk ((h.avail k pfn).mp hx).2.1.symm
    rw [hother q hqp, ← h.avail]
    split
    · rename_i hk
      rw [hk]
      exact (h.avail_nodup _).mem_erase_iff.trans (and_iff_right hqp)
    · rfl
  rw [hclasses]
  split
  · exact (h.avail_nodup _).erase _
  · exact h.avail_nodup k

theorem dropLarge_inv (h : Inv s live) {order : Nat} (ho : Obj.large pfn order ∈ live) :
    Inv { setPage pfn { s.page pfn with compound := false } s with pager := G.free s.pager ⟨pfn, order⟩ }
      (live.erase (.large pfn order)) := by
  obtain ⟨hcomp, horder⟩ := h.live_valid _ ho
  have hslab : (s.page pfn).slab = false := by
    cases hs : (s.page pfn).slab with
    | false => rfl
    | true => exact absurd (hcomp.symm.trans (h.pages.single pfn hs)) Bool.true_eq_false.mp
  have hself : (setPage pfn { s.page pfn with compound := false } s).page pfn = { s.page pfn with compound := false } :=
    setPage_self _
  have hother : ∀ q, q ≠ pfn → (setPage pfn { s.page pfn with compound := false } s).page q = s.page q :=
    fun q hq => setPage_other _ hq
  have hsame : ∀ q, ((setPage pfn { s.page pfn with compound := false } s).page q).slab = (s.page q).slab := by
    intro q
    by_cases hq : q = pfn
    · rw [hq, hself]
    · rw [hother q hq]
  have hused := G.free_used (horder ▸ h.pages.compound pfn hcomp)
  have hne : ∀ q, (s.page q).slab = true → q ≠ pfn := by
    rintro q hq rfl
    rw [hslab] at hq
    cases hq
  refine ⟨⟨fun q hq => ?_, fun q hq => ?_, fun q hq => ?_⟩, fun q hq => ?_, fun k q => ?_, h.avail_nodup,
    h.live_nodup.erase _, fun ob hob => ?_⟩
  · rw [hsame] at hq
    exact (hused _).mpr ⟨h.pages.slab q hq, fun he => hne q hq (congrArg Block.base he)⟩
  · by_cases hqp : q = pfn
    · dsimp only at hq
      rw [hqp, hself] at hq
      cases hq
    · dsimp only at hq ⊢
      rw [hother q hqp] at hq ⊢
      exact (hused _).mpr ⟨h.pages.compound q hq, fun he => hqp (congrArg Block.base he)⟩
  · rw [hsame] at hq
    dsimp only
    rw [hother q (hne q hq)]
    exact h.pages.single q hq
  · rw [hsame] at hq
    dsimp only
    rw [hother q (hne q hq)]
    obtain ⟨free, hf⟩ := h.free q hq
    refine ⟨free, hf.frame (fun _ _ => ⟨rfl, rfl⟩) fun i _ => ?_⟩
    exact (mem_erase_of_ne nofun)
  · refine (h.avail k q).trans ?_
    dsimp only
    by_cases hqp : q = pfn
    · rw [hqp, hself]
    · rw [hother q hqp]
  obtain ⟨hne', hmem⟩ := h.live_nodup.mem_erase_iff.mp hob
  have hv := h.live_valid ob hmem
  refine hv.of_page (hother _ fun hb => ?_)
  cases ob with
  | slab q ci i => exact hne q hv.1 hb
  | large q order' =>
    obtain rfl : q = pfn := hb
    exact hne' (by rw [← horder, ← hv.2])

theorem kfree_spec (h : Inv s live) {o : Obj} (ho : o ∈ live) :
    ∃ s', kfree o.addr s = .ok s' ∧ Inv s' (live.erase o) := by
  cases o with
  | slab pfn ci i =>
    obtain ⟨hslab, rfl, hci, hi⟩ := h.live_valid _ ho
    obtain ⟨free, hf⟩ := h.free pfn hslab
    have hnot : i ∉ free := (hf.live i hi).mp ho
    have hpage : virtToPage (objAddr pfn (s.page pfn).slabClass i) = pfn := virtToPage_add (objAddr_off hci hi)
    have hscan : scan s.mem (objAddr pfn (s.page pfn).slabClass i) (PAGE_SIZE / classSize (s.page pfn).slabClass + 1)
        (s.page pfn).freelist = some false := by
      have hlen := hf.length_le
      rw [hf.threaded.scan_eq (by rw [length_map]; exact Nat.lt_succ_of_le hlen)]
      refine congrArg some (decide_eq_false fun hmem => ?_)
      obtain ⟨j, hj, heq⟩ := mem_map.mp hmem
      have hsz := sixteen_le_classSize (s.page pfn).slabClass
      have hji : j = i := Nat.eq_of_mul_eq_mul_right (by omega) (Nat.add_left_cancel heq)
      exact hnot (hji ▸ hj)
    have hput : ∃ s', Except.ok (putObj (objAddr pfn (s.page pfn).slabClass i) pfn s) =
        (Except.ok s' : Except Fault (St G)) ∧ Inv s' (live.erase (.slab pfn (s.page pfn).slabClass i)) := by
      have hinv := put_inv h ho
      have hslab' : ((put (objAddr pfn (s.page pfn).slabClass i) pfn s).page pfn).slab = true :=
        (congrArg Page.slab (setPage_self _)).trans hslab
      refine ⟨_, rfl, ?_⟩
      unfold putObj
      dsimp only
      split
      · rename_i hempty
        exact dropPage_inv hinv hslab' hempty.1
      · exact hinv
    show ∃ s', kfree (objAddr pfn (s.page pfn).slabClass i) s = .ok s' ∧ _
    unfold kfree
    rw [if_neg (objAddr_ne_zero _ _ _), hpage]
    dsimp only
    rw [h.pages.single pfn hslab, if_neg Bool.false_ne_true, hslab, if_neg (by decide), objAddr_aligned hci,
      if_neg (not_not_intro rfl), hscan]
    split
    · exact hput
    · exact hput
  | large pfn order =>
  obtain ⟨hcomp, horder⟩ := h.live_valid _ ho
  have hne : pageAddress pfn ≠ 0 := objAddr_ne_zero pfn 0 0
  have hpage : virtToPage (pageAddress pfn + 0) = pfn := virtToPage_add (by decide)
  refine ⟨_, ?_, dropLarge_inv h ho⟩
  show kfree (pageAddress pfn) s = _
  unfold kfree
  rw [Nat.add_zero] at hpage
  rw [if_neg hne, hpage]
  dsimp only
  rw [hcomp, if_pos rfl, horder]

theorem kfree_free (h : Inv s live) (hslab : (s.page pfn).slab = true) {free : List Nat}
    (hf : FreeList s.mem (s.page pfn) pfn live free) (hi : i ∈ free) :
    kfree (objAddr pfn (s.page pfn).slabClass i) s = .error (.crash "kfree: double free") := by
  have hlt := hf.inside i hi
  have hpage : virtToPage (objAddr pfn (s.page pfn).slabClass i) = pfn := virtToPage_add (objAddr_off hf.class_lt hlt)
  have hscan : scan s.mem (objAddr pfn (s.page pfn).slabClass i) (PAGE_SIZE / classSize (s.page pfn).slabClass + 1)
      (s.page pfn).freelist = some true := by
    have hlen := hf.length_le
    rw [hf.threaded.scan_eq (by rw [length_map]; exact Nat.lt_succ_of_le hlen)]
    exact congrArg some (decide_eq_true (mem_map_of_mem hi))
  unfold kfree
  rw [if_neg (objAddr_ne_zero _ _ _), hpage]
  dsimp only
  rw [h.pages.single pfn hslab, if_neg Bool.false_ne_true, hslab, if_neg (by decide), objAddr_aligned hf.class_lt,
    if_neg (not_not_intro rfl), hf.magic i hi, if_pos rfl, hscan]

inductive Op
  | kmalloc (size : Nat) (gfp : UInt32) (clear : Bool)
  | kfree (o : Obj)
  | write (o : Obj) (a v : Nat)

structure System (G : Pager) where
  st : St G
  live : List Obj

def objAt (s : St G) (a : Nat) : Obj :=
  let pfn := virtToPage a
  if (s.page pfn).slab then
    .slab pfn (s.page pfn).slabClass ((a - pageAddress pfn) / classSize (s.page pfn).slabClass)
  else .large pfn (s.page pfn).order

def step (y : System G) : Op → Except Fault (System G)
  | .kmalloc size gfp clear =>
    (kmalloc size gfp clear y.st).map fun r => if r.1 = 0 then ⟨r.2, y.live⟩ else ⟨r.2, objAt r.2 r.1 :: y.live⟩
  | .kfree o => if o ∈ y.live then (kfree o.addr y.st).map fun s => ⟨s, y.live.erase o⟩ else .ok y
  | .write o a v =>
    if o ∈ y.live ∧ o.addr ≤ a ∧ a < o.addr + o.size then .ok { y with st := { y.st with mem := store a v y.st.mem } }
    else .ok y

def run (y : System G) : List Op → Except Fault (System G)
  | [] => .ok y
  | op :: ops => (step y op).bind fun y => run y ops

def boot (pager : G.State) (mem : Nat → Nat) : System G where
  st := { pager, page := fun _ => ⟨false, false, 0, 0, 0, 0⟩, classes := fun _ => ⟨[], 0⟩, mem }
  live := []

theorem boot_inv (pager : G.State) (mem : Nat → Nat) : Inv (boot pager mem : System G).st (boot pager mem : System G).live := by
  refine ⟨⟨nofun, nofun, nofun⟩, nofun, fun _ _ => ?_, fun _ => nodup_nil, nodup_nil, nofun⟩
  exact iff_of_false not_mem_nil fun h => by cases h.1

theorem objAt_addr (h : Pages s) {o : Obj} (hv : o.Valid s) : objAt s o.addr = o := by
  cases o with
  | slab pfn ci i =>
    obtain ⟨hslab, rfl, hci, hi⟩ := hv
    have hsz := sixteen_le_classSize (s.page pfn).slabClass
    have hpage : virtToPage (objAddr pfn (s.page pfn).slabClass i) = pfn := virtToPage_add (objAddr_off hci hi)
    have hoff : objAddr pfn (s.page pfn).slabClass i - pageAddress pfn = i * classSize (s.page pfn).slabClass :=
      Nat.add_sub_cancel_left _ _
    show objAt s (objAddr pfn (s.page pfn).slabClass i) = _
    unfold objAt
    rw [hpage]
    dsimp only
    rw [hslab, if_pos rfl, hoff, Nat.mul_div_cancel _ (by omega)]
  | large pfn order =>
  obtain ⟨hcomp, horder⟩ := hv
  have hpage : virtToPage (pageAddress pfn + 0) = pfn := virtToPage_add (by decide)
  rw [Nat.add_zero] at hpage
  have hslab : ¬ (s.page pfn).slab = true := fun hs =>
    absurd (hcomp.symm.trans (h.single pfn hs)) Bool.true_eq_false.mp
  show objAt s (pageAddress pfn) = _
  unfold objAt
  rw [hpage]
  dsimp only
  rw [if_neg hslab, horder]

theorem addr_ne_zero (o : Obj) : o.addr ≠ 0 := by
  cases o with
  | slab pfn ci i => exact objAddr_ne_zero pfn ci i
  | large pfn order => exact objAddr_ne_zero pfn 0 0

theorem step_inv {y : System G} (h : Inv y.st y.live) (op : Op) :
    (∃ y', step y op = .ok y' ∧ Inv y'.st y'.live) ∨ step y op = .error .hang := by
  cases op with
  | kmalloc size gfp clear =>
    have ha := kmalloc_allocated h size gfp clear
    simp only [step]
    generalize kmalloc size gfp clear y.st = r at ha
    cases ha with
    | none hinv => exact .inl ⟨_, rfl, hinv⟩
    | @some o s' hsize hnot hapart hinv =>
      refine .inl ⟨⟨s', o :: y.live⟩, ?_, hinv⟩
      show Except.ok _ = _
      dsimp only
      rw [if_neg (addr_ne_zero o), objAt_addr hinv.pages (hinv.live_valid o mem_cons_self)]
    | hang _ => exact .inr rfl
  | kfree o =>
    refine .inl ?_
    simp only [step]
    split
    · rename_i ho
      obtain ⟨s', heq, hinv⟩ := kfree_spec h ho
      exact ⟨⟨s', y.live.erase o⟩, by rw [heq]; rfl, hinv⟩
    · exact ⟨y, rfl, h⟩
  | write o a v =>
  refine .inl ?_
  simp only [step]
  split
  · rename_i ho
    exact ⟨_, rfl, h.write ho.1 (store_sameOutside _ ho.2)⟩
  · exact ⟨y, rfl, h⟩

theorem run_inv (ops : List Op) {y : System G} (h : Inv y.st y.live) :
    (∃ y', run y ops = .ok y' ∧ Inv y'.st y'.live) ∨ run y ops = .error .hang := by
  induction ops generalizing y with
  | nil => exact .inl ⟨y, rfl, h⟩
  | cons op ops ih =>
  unfold run
  rcases step_inv h op with ⟨y1, heq, h1⟩ | heq
  · rw [heq]
    exact ih h1
  · rw [heq]
    exact .inr rfl

-- After any sequence of calls and of clients' writes: nothing has panicked; the free list of
-- every slab page is a list of distinct objects of that page, which with the objects in use
-- makes up the page, and the page is on the list of its class if it has one; an object that is
-- on such a list cannot be freed again; and what `kmalloc` returns next is apart from every
-- live object.
theorem kmalloc_correct (G : Pager) (pager : G.State) (mem : Nat → Nat) (ops : List Op) :
    (∀ msg, run (boot pager mem) ops ≠ .error (.crash msg)) ∧ ∀ y, run (boot pager mem) ops = .ok y →
        (∀ pfn, (y.st.page pfn).slab = true → ∃ l : List Nat, Threaded y.st.mem (y.st.page pfn).freelist l ∧ l.Nodup ∧
          (∀ a ∈ l, ∃ i < PAGE_SIZE / classSize (y.st.page pfn).slabClass,
            a = pageAddress pfn + i * classSize (y.st.page pfn).slabClass) ∧
          l.length + (y.st.page pfn).slabInuse = PAGE_SIZE / classSize (y.st.page pfn).slabClass ∧
          (∀ ci, pfn ∈ (y.st.classes ci).partialPages ↔ (y.st.page pfn).slabClass = ci ∧ l ≠ []) ∧
          ∀ a ∈ l, ∃ msg, kfree a y.st = .error (.crash msg)) ∧
        ∀ size gfp clear, (∀ msg, kmalloc size gfp clear y.st ≠ .error (.crash msg)) ∧
          ∀ a s', kmalloc size gfp clear y.st = .ok (a, s') → a ≠ 0 →
            ∀ o ∈ y.live, a + size ≤ o.addr ∨ o.addr + o.size ≤ a := by
  rcases run_inv ops (boot_inv pager mem) with ⟨y, heq, h⟩ | heq
  · rw [heq]
    refine ⟨nofun, fun y' hy => ?_⟩
    cases hy
    refine ⟨fun pfn hslab => ?_, fun size gfp clear => ?_⟩
    · obtain ⟨free, hf⟩ := h.free pfn hslab
      have hinj : Function.Injective (objAddr pfn (y.st.page pfn).slabClass) := fun i j hij => by
        have hsz := sixteen_le_classSize (y.st.page pfn).slabClass
        exact Nat.eq_of_mul_eq_mul_right (by omega) (Nat.add_left_cancel hij)
      have hzero := hf.threaded.head_eq_zero
      refine ⟨free.map (objAddr pfn (y.st.page pfn).slabClass), hf.threaded, hf.nodup.map hinj, fun a ha => ?_, ?_,
        fun ci => ?_, fun a ha => ?_⟩
      · obtain ⟨i, hi, rfl⟩ := mem_map.mp ha
        exact ⟨i, hf.inside i hi, rfl⟩
      · rw [length_map]
        exact hf.count
      · rw [h.avail, and_iff_right hslab]
        exact and_congr_right fun _ => not_congr hzero
      · obtain ⟨i, hi, rfl⟩ := mem_map.mp ha
        exact ⟨_, kfree_free h hslab hf hi⟩
    have ha := kmalloc_allocated h size gfp clear
    generalize kmalloc size gfp clear y.st = r at ha
    cases ha with
    | none _ =>
      refine ⟨nofun, fun a s' hr hne => ?_⟩
      cases hr
      exact absurd rfl hne
    | @some o s1 hsize _ hapart _ =>
      refine ⟨nofun, fun a s' hr _ o' ho' => ?_⟩
      cases hr
      have := hapart o' ho'
      unfold Obj.Apart at this
      omega
    | hang _ => exact ⟨nofun, nofun⟩
  · rw [heq]
    exact ⟨nofun, nofun⟩

end Olux.Kmalloc
