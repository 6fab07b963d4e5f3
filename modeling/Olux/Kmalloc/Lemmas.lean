import Olux.Kmalloc

namespace Olux.Kmalloc

open Lib List

variable {G : Pager} {s s' : St G} {ci pfn i a v : Nat} {mem mem' : Nat → Nat} {gfp : UInt32}

def perPage (ci : Nat) : Nat := PAGE_SIZE / classSize ci

def objAddr (pfn ci i : Nat) : Nat := pageAddress pfn + i * classSize ci

theorem classSize_mul_perPage (h : ci < NR_CLASSES) : perPage ci * classSize ci = PAGE_SIZE := by
  have hall : ∀ ci < NR_CLASSES, perPage ci * classSize ci = PAGE_SIZE := by decide
  exact hall ci h

theorem sixteen_le_classSize (ci : Nat) : 16 ≤ classSize ci := by
  unfold classSize MIN_SHIFT
  rw [Nat.pow_add]
  have := Nat.two_pow_pos ci
  omega

inductive Obj
  | slab (pfn ci i : Nat)
  | large (pfn order : Nat)
deriving DecidableEq

namespace Obj

def addr : Obj → Nat
  | slab pfn ci i => objAddr pfn ci i
  | large pfn _ => pageAddress pfn

def size : Obj → Nat
  | slab _ ci _ => classSize ci
  | large _ order => PAGE_SIZE * 2 ^ order

def block : Obj → Block
  | slab pfn _ _ => ⟨pfn, 0⟩
  | large pfn order => ⟨pfn, order⟩

def Valid (s : St G) : Obj → Prop
  | slab pfn ci i => (s.page pfn).slab = true ∧ (s.page pfn).slabClass = ci ∧ ci < NR_CLASSES ∧ i < perPage ci
  | large pfn order => (s.page pfn).compound = true ∧ (s.page pfn).order = order

def Apart (o o' : Obj) : Prop := o.addr + o.size ≤ o'.addr ∨ o'.addr + o'.size ≤ o.addr

end Obj

structure Pages (s : St G) : Prop where
  slab : ∀ pfn, (s.page pfn).slab = true → G.used s.pager ⟨pfn, 0⟩
  compound : ∀ pfn, (s.page pfn).compound = true → G.used s.pager ⟨pfn, (s.page pfn).order⟩
  single : ∀ pfn, (s.page pfn).slab = true → (s.page pfn).compound = false

-- The free list of a slab page, by the numbers of its objects. What is not on it is live.
structure FreeList (mem : Nat → Nat) (p : Page) (pfn : Nat) (live : List Obj) (free : List Nat) : Prop where
  class_lt : p.slabClass < NR_CLASSES
  nodup : free.Nodup
  inside : ∀ i ∈ free, i < perPage p.slabClass
  threaded : Threaded mem p.freelist (free.map (objAddr pfn p.slabClass))
  magic : ∀ i ∈ free, mem (objAddr pfn p.slabClass i + 8) = FREE_MAGIC
  count : free.length + p.slabInuse = perPage p.slabClass
  live : ∀ i < perPage p.slabClass, Obj.slab pfn p.slabClass i ∈ live ↔ i ∉ free

structure Inv (s : St G) (live : List Obj) : Prop where
  pages : Pages s
  free : ∀ pfn, (s.page pfn).slab = true → ∃ free, FreeList s.mem (s.page pfn) pfn live free
  avail : ∀ ci pfn, pfn ∈ (s.classes ci).partialPages ↔
    (s.page pfn).slab = true ∧ (s.page pfn).slabClass = ci ∧ (s.page pfn).freelist ≠ 0
  avail_nodup : ∀ ci, (s.classes ci).partialPages.Nodup
  live_nodup : live.Nodup
  live_valid : ∀ o ∈ live, o.Valid s

theorem objAddr_ne_zero (pfn ci i : Nat) : objAddr pfn ci i ≠ 0 := by
  unfold objAddr pageAddress PAGE_OFFSET
  omega

variable {o : Obj}

theorem Obj.Valid.of_page (hv : o.Valid s) (h : s'.page o.block.base = s.page o.block.base) : o.Valid s' := by
  cases o with
  | slab pfn ci i =>
    simp only [Obj.Valid, Obj.block] at hv h ⊢
    rw [h]
    exact hv
  | large pfn order =>
    simp only [Obj.Valid, Obj.block] at hv h ⊢
    rw [h]
    exact hv

theorem Obj.Valid.used (h : Pages s) (hv : o.Valid s) : G.used s.pager o.block := by
  cases o with
  | slab pfn ci i => exact h.slab pfn hv.1
  | large pfn order =>
    have hu := h.compound pfn hv.1
    rw [hv.2] at hu
    exact hu

theorem Obj.Valid.inside (hv : o.Valid s) :
    pageAddress o.block.base ≤ o.addr ∧ o.addr + o.size ≤ pageAddress o.block.base + PAGE_SIZE * 2 ^ o.block.order := by
  cases o with
  | slab pfn ci i =>
    obtain ⟨_, _, hci, hi⟩ := hv
    have hle : (i + 1) * classSize ci ≤ perPage ci * classSize ci := Nat.mul_le_mul_right _ hi
    rw [classSize_mul_perPage hci, Nat.succ_mul] at hle
    simp only [Obj.addr, Obj.size, Obj.block, objAddr, Nat.pow_zero, Nat.mul_one]
    omega
  | large pfn order => exact ⟨Nat.le_refl _, Nat.le_refl _⟩

theorem apart_of_disjoint {b c : Block} (h : b.Disjoint c) :
    pageAddress b.base + PAGE_SIZE * 2 ^ b.order ≤ pageAddress c.base ∨
      pageAddress c.base + PAGE_SIZE * 2 ^ c.order ≤ pageAddress b.base := by
  have hb := h c.base
  have hc := fun hin => h b.base (Block.base_mem b) hin
  rw [Block.mem_def] at hb hc
  have hcc := Block.base_mem c
  unfold pageAddress PAGE_SIZE
  by_cases hlt : b.base ≤ c.base
  · left
    have : ¬ c.base < b.base + 2 ^ b.order := fun h' => hb ⟨hlt, h'⟩ hcc
    omega
  right
  have : ¬ b.base < c.base + 2 ^ c.order := fun h' => hc ⟨by omega, h'⟩
  omega

theorem Obj.Valid.apart (h : Pages s) {o' : Obj} (hv : o.Valid s) (hv' : o'.Valid s) (hne : o ≠ o') : o.Apart o' := by
  by_cases hb : o.block = o'.block
  · -- in one page: two of its objects, since it is not a slab and a large allocation at once
    cases o with
    | slab pfn ci i =>
      cases o' with
      | slab pfn' ci' i' =>
        obtain rfl : pfn = pfn' := congrArg Block.base hb
        obtain rfl : ci = ci' := hv.2.1.symm.trans hv'.2.1
        have hii : i ≠ i' := fun he => hne (by rw [he])
        simp only [Obj.Apart, Obj.addr, Obj.size, objAddr]
        rcases Nat.lt_or_gt_of_ne hii with hlt | hlt
        · left
          have := Nat.mul_le_mul_right (classSize ci) hlt
          rw [Nat.succ_mul] at this
          omega
        right
        have := Nat.mul_le_mul_right (classSize ci) hlt
        rw [Nat.succ_mul] at this
        omega
      | large pfn' order' =>
        obtain rfl : pfn = pfn' := congrArg Block.base hb
        have hs := h.single pfn hv.1
        rw [hv'.1] at hs
        cases hs
    | large pfn order =>
    cases o' with
    | slab pfn' ci' i' =>
      obtain rfl : pfn = pfn' := congrArg Block.base hb
      have hs := h.single pfn hv'.1
      rw [hv.1] at hs
      cases hs
    | large pfn' order' =>
      cases hb
      exact absurd rfl hne
  have hd := apart_of_disjoint (G.apart (hv.used h) (hv'.used h) hb)
  have hin := hv.inside
  have hin' := hv'.inside
  unfold Obj.Apart
  omega

variable {live live' : List Obj}

theorem FreeList.frame {p : Page} {free : List Nat} (h : FreeList mem p pfn live free)
    (hmem : ∀ i ∈ free, mem' (objAddr pfn p.slabClass i) = mem (objAddr pfn p.slabClass i) ∧
      mem' (objAddr pfn p.slabClass i + 8) = mem (objAddr pfn p.slabClass i + 8))
    (hlive : ∀ i < perPage p.slabClass, Obj.slab pfn p.slabClass i ∈ live' ↔ Obj.slab pfn p.slabClass i ∈ live) :
    FreeList mem' p pfn live' free := by
  refine ⟨h.class_lt, h.nodup, h.inside, h.threaded.congr fun b hb => ?_, fun i hi => ?_, h.count, fun i hi => ?_⟩
  · obtain ⟨i, hi, rfl⟩ := mem_map.mp hb
    exact (hmem i hi).1
  · exact (hmem i hi).2.trans (h.magic i hi)
  · exact (hlive i hi).trans (h.live i hi)

theorem FreeList.valid {free : List Nat} (h : FreeList s.mem (s.page pfn) pfn live free)
    (hslab : (s.page pfn).slab = true) (hi : i < perPage (s.page pfn).slabClass) :
    (Obj.slab pfn (s.page pfn).slabClass i).Valid s := ⟨hslab, rfl, h.class_lt, hi⟩

def SameOutside (o : Obj) (mem mem' : Nat → Nat) : Prop := ∀ a, a < o.addr ∨ o.addr + o.size ≤ a → mem' a = mem a

theorem SameOutside.words {o' : Obj} (h : SameOutside o mem mem') (ha : o.Apart o')
    (hsize : 16 ≤ o'.size) : mem' o'.addr = mem o'.addr ∧ mem' (o'.addr + 8) = mem (o'.addr + 8) := by
  unfold Obj.Apart at ha
  exact ⟨h _ (by omega), h _ (by omega)⟩

theorem Inv.write (h : Inv s live) (ho : o ∈ live)
    (hmem : SameOutside o s.mem mem') : Inv { s with mem := mem' } live := by
  refine ⟨⟨h.pages.slab, h.pages.compound, h.pages.single⟩, fun pfn hslab => ?_, h.avail, h.avail_nodup, h.live_nodup, ?_⟩
  · obtain ⟨free, hf⟩ := h.free pfn hslab
    refine ⟨free, hf.frame (fun i hi => ?_) fun _ _ => Iff.rfl⟩
    have hv := hf.valid hslab (hf.inside i hi)
    have hne : o ≠ Obj.slab pfn (s.page pfn).slabClass i := by
      rintro rfl
      exact (hf.live i (hf.inside i hi)).mp ho hi
    exact hmem.words ((h.live_valid o ho).apart h.pages hv hne) (sixteen_le_classSize _)
  · exact fun o' ho' => (h.live_valid o' ho').of_page rfl

theorem setPage_self (p : Page) : (setPage pfn p s).page pfn = p := if_pos rfl

theorem setPage_other {q : Nat} (p : Page) (h : q ≠ pfn) : (setPage pfn p s).page q = s.page q := if_neg h

theorem store_self : store a v mem a = v := if_pos rfl

theorem store_other {b : Nat} (h : b ≠ a) : store a v mem b = mem b := if_neg h

theorem Pages.same (h : Pages s) (hpager : s'.pager = s.pager) (hslab : ∀ q, (s'.page q).slab = (s.page q).slab)
    (hcomp : ∀ q, (s'.page q).compound = (s.page q).compound) (horder : ∀ q, (s'.page q).order = (s.page q).order) :
    Pages s' := by
  refine ⟨fun q hq => ?_, fun q hq => ?_, fun q hq => ?_⟩
  · rw [hslab] at hq
    rw [hpager]
    exact h.slab q hq
  · rw [hcomp] at hq
    rw [hpager, horder]
    exact h.compound q hq
  rw [hslab] at hq
  rw [hcomp]
  exact h.single q hq

theorem Obj.Valid.same (hv : o.Valid s) (hslab : ∀ q, (s'.page q).slab = (s.page q).slab)
    (hcls : ∀ q, (s'.page q).slabClass = (s.page q).slabClass)
    (hcomp : ∀ q, (s'.page q).compound = (s.page q).compound) (horder : ∀ q, (s'.page q).order = (s.page q).order) :
    o.Valid s' := by
  cases o with
  | slab pfn ci i => exact ⟨(hslab pfn).trans hv.1, (hcls pfn).trans hv.2.1, hv.2.2⟩
  | large pfn order => exact ⟨(hcomp pfn).trans hv.1, (horder pfn).trans hv.2⟩

theorem Inv.relist (h : Inv s live) {p : Page} {free : List Nat} {j : Nat}
    (hslab : (s.page pfn).slab = true) (hpager : s'.pager = s.pager) (hself : s'.page pfn = p)
    (hother : ∀ q, q ≠ pfn → s'.page q = s.page q) (hmark : p.slab = true) (hcls : p.slabClass = (s.page pfn).slabClass)
    (hcomp : p.compound = (s.page pfn).compound) (horder : p.order = (s.page pfn).order)
    (hclasses : ∀ k, k ≠ p.slabClass → s'.classes k = s.classes k)
    (havail : ∀ q, q ∈ (s'.classes p.slabClass).partialPages ↔
      if q = pfn then p.freelist ≠ 0 else q ∈ (s.classes p.slabClass).partialPages)
    (hnodup : (s'.classes p.slabClass).partialPages.Nodup) (hj : j < perPage p.slabClass)
    (hmem : SameOutside (.slab pfn p.slabClass j) s.mem s'.mem) (hfree : FreeList s'.mem p pfn live' free)
    (hlive : ∀ o, o ≠ .slab pfn p.slabClass j → (o ∈ live' ↔ o ∈ live)) (hln : live'.Nodup) : Inv s' live' := by
  have heq : ∀ {α : Type} (f : Page → α), f p = f (s.page pfn) → ∀ q, f (s'.page q) = f (s.page q) := by
    intro α f hf q
    by_cases hq : q = pfn
    · rw [hq, hself, hf]
    · rw [hother q hq]
  have hslab' := heq Page.slab (hmark.trans hslab.symm)
  have hcls' := heq Page.slabClass hcls
  have hcomp' := heq Page.compound hcomp
  have horder' := heq Page.order horder
  obtain ⟨free0, hf0⟩ := h.free pfn hslab
  have hjv : (Obj.slab pfn p.slabClass j).Valid s := by
    rw [hcls] at hj ⊢
    exact hf0.valid hslab hj
  refine ⟨h.pages.same hpager hslab' hcomp' horder', fun q hq => ?_, fun k q => ?_, fun k => ?_, hln, fun o ho => ?_⟩
  · by_cases hqp : q = pfn
    · rw [hqp, hself]
      exact ⟨free, hfree⟩
    · rw [hother q hqp] at hq ⊢
      obtain ⟨fq, hfq⟩ := h.free q hq
      have hne : ∀ i, .slab pfn p.slabClass j ≠ Obj.slab q (s.page q).slabClass i := by
        intro i he
        exact hqp (Obj.slab.inj he).1.symm
      refine ⟨fq, hfq.frame (fun i hi => ?_) fun i _ => hlive _ fun he => hne i he.symm⟩
      have hv := hfq.valid hq (hfq.inside i hi)
      exact hmem.words (hjv.apart h.pages hv (hne i)) (sixteen_le_classSize _)
  · by_cases hk : k = p.slabClass
    · rw [hk, havail]
      split
      · rename_i hqp
        rw [hqp, hself]
        exact ⟨fun hf => ⟨hmark, rfl, hf⟩, fun hf => hf.2.2⟩
      rename_i hqp
      rw [hother q hqp]
      exact h.avail _ q
    · rw [hclasses k hk, h.avail]
      by_cases hqp : q = pfn
      · rw [hqp, hself, ← hcls]
        exact iff_of_false (fun hx => hk hx.2.1.symm) fun hx => hk hx.2.1.symm
      · rw [hother q hqp]
  · by_cases hk : k = p.slabClass
    · rw [hk]
      exact hnodup
    · rw [hclasses k hk]
      exact h.avail_nodup k
  have hv : o.Valid s := by
    by_cases hoj : o = .slab pfn p.slabClass j
    · rw [hoj]
      exact hjv
    · exact h.live_valid o ((hlive o hoj).mp ho)
  exact hv.same hslab' hcls' hcomp' horder'

theorem zero_sameOutside (mem : Nat → Nat) : SameOutside o mem (zero o.addr o.size mem) := by
  intro a ha
  exact if_neg fun h => by omega

theorem store_sameOutside (mem : Nat → Nat) (ha : o.addr ≤ a ∧ a < o.addr + o.size) :
    SameOutside o mem (store a v mem) := by
  intro b hb
  exact store_other fun h => by omega

theorem taken_page (s : St G) (ci pfn : Nat) (clear : Bool) : (taken ci pfn clear s).page pfn =
      { s.page pfn with freelist := s.mem (s.page pfn).freelist, slabInuse := (s.page pfn).slabInuse + 1 } ∧
    (∀ q, q ≠ pfn → (taken ci pfn clear s).page q = s.page q) ∧ (taken ci pfn clear s).pager = s.pager := by
  unfold taken
  dsimp only
  split
  · exact ⟨setPage_self _, fun _ hq => setPage_other _ hq, rfl⟩
  · exact ⟨setPage_self _, fun _ hq => setPage_other _ hq, rfl⟩

theorem taken_classes (clear : Bool) (k : Nat) : (taken ci pfn clear s).classes k =
    if k = ci ∧ s.mem (s.page pfn).freelist = 0 then { s.classes k with partialPages := (s.classes k).partialPages.erase pfn }
    else s.classes k := by
  unfold taken
  dsimp only
  by_cases hl : s.mem (s.page pfn).freelist = 0
  · simp only [hl, if_true, and_true, setClass]
    split
    · rename_i hk
      rw [hk]
    · rfl
  · rw [if_neg hl, if_neg fun hx => hl hx.2]
    rfl

theorem FreeList.take {p : Page} {rest : List Nat} (hf : FreeList mem p pfn live (i :: rest))
    (hwords : ∀ k ∈ rest, mem' (objAddr pfn p.slabClass k) = mem (objAddr pfn p.slabClass k) ∧
      mem' (objAddr pfn p.slabClass k + 8) = mem (objAddr pfn p.slabClass k + 8)) :
    FreeList mem' { p with freelist := mem p.freelist, slabInuse := p.slabInuse + 1 } pfn
      (.slab pfn p.slabClass i :: live) rest := by
  obtain ⟨hirest, hrest⟩ := nodup_cons.mp hf.nodup
  have hhead : p.freelist = objAddr pfn p.slabClass i := hf.threaded.1
  refine ⟨hf.class_lt, hrest, fun k hk => hf.inside k (mem_cons_of_mem _ hk), ?_, fun k hk => ?_, ?_, fun k hk => ?_⟩
  · dsimp only
    rw [hhead]
    refine hf.threaded.2.2.congr fun b hb => ?_
    obtain ⟨k, hk, rfl⟩ := mem_map.mp hb
    exact (hwords k hk).1
  · exact (hwords k hk).2.trans (hf.magic k (mem_cons_of_mem _ hk))
  · have hcount := hf.count
    rw [length_cons] at hcount
    dsimp only
    omega
  have hl := hf.live k hk
  rw [mem_cons] at hl ⊢
  by_cases hki : k = i
  · rw [hki]
    exact iff_of_true (.inl rfl) hirest
  · have hne : Obj.slab pfn p.slabClass k ≠ Obj.slab pfn p.slabClass i := fun he => hki (Obj.slab.inj he).2.2
    rw [or_iff_right hne, hl, not_or, and_iff_right hki]

theorem takeObj_spec (h : Inv s live) (hp : pfn ∈ (s.classes ci).partialPages) (clear : Bool) :
    ∃ i, takeObj ci pfn clear s = .ok (objAddr pfn ci i, taken ci pfn clear s) ∧ Obj.slab pfn ci i ∉ live ∧
      (Obj.slab pfn ci i).Valid s ∧ Inv (taken ci pfn clear s) (.slab pfn ci i :: live) := by
  obtain ⟨hslab, rfl, hne⟩ := (h.avail ci pfn).mp hp
  obtain ⟨free, hf⟩ := h.free pfn hslab
  cases free with
  | nil => exact absurd hf.threaded hne
  | cons i rest =>
  have hi : i < perPage (s.page pfn).slabClass := hf.inside i mem_cons_self
  have hirest := (nodup_cons.mp hf.nodup).1
  have hnot : Obj.slab pfn (s.page pfn).slabClass i ∉ live := fun hmem => (hf.live i hi).mp hmem mem_cons_self
  have hhead : (s.page pfn).freelist = objAddr pfn (s.page pfn).slabClass i := hf.threaded.1
  have hv := hf.valid hslab hi
  refine ⟨i, ?_, hnot, hv, ?_⟩
  · unfold takeObj
    dsimp only
    rw [hhead, hf.magic i mem_cons_self, if_neg (not_not_intro rfl)]
  have hout : SameOutside (.slab pfn (s.page pfn).slabClass i) s.mem (taken (s.page pfn).slabClass pfn clear s).mem := by
    unfold taken
    dsimp only
    rw [hhead]
    cases clear with
    | true => exact zero_sameOutside (o := .slab pfn (s.page pfn).slabClass i) s.mem
    | false =>
      have := sixteen_le_classSize (s.page pfn).slabClass
      exact store_sameOutside s.mem ⟨by simp only [Obj.addr]; omega, by simp only [Obj.addr, Obj.size]; omega⟩
  have hlists := hf.take fun k hk =>
    hout.words (hv.apart h.pages (hf.valid hslab (hf.inside k (mem_cons_of_mem _ hk)))
      fun he => hirest ((Obj.slab.inj he).2.2 ▸ hk)) (sixteen_le_classSize _)
  obtain ⟨hpage, hother, hpager⟩ := taken_page s (s.page pfn).slabClass pfn clear
  refine h.relist hslab hpager hpage hother hslab rfl rfl rfl (fun k hk => ?_) (fun q => ?_) ?_ hi hout hlists
    (fun o ho => ?_) (nodup_cons.mpr ⟨hnot, h.live_nodup⟩)
  · rw [taken_classes]
    exact if_neg fun hx => hk hx.1
  · rw [taken_classes]
    dsimp only
    by_cases hl : s.mem (s.page pfn).freelist = 0
    · rw [if_pos ⟨rfl, hl⟩]
      dsimp only
      rw [(h.avail_nodup _).mem_erase_iff]
      split
      · rename_i hq
        exact iff_of_false (fun hx => hx.1 hq) fun hx => hx hl
      · rename_i hq
        exact and_iff_right hq
    rw [if_neg fun hx => hl hx.2]
    split
    · rename_i hq
      rw [hq]
      exact iff_of_true hp hl
    · rfl
  · rw [taken_classes]
    split
    · exact (h.avail_nodup _).erase _
    · exact h.avail_nodup _
  · exact mem_cons.trans (or_iff_right ho)

theorem not_mem_of_alloc {o : Nat} {g g' : G.State} (h : G.alloc g gfp o = (some pfn, g')) {b : Block}
    (hb : G.used g b) : (⟨pfn, o⟩ : Block).Disjoint b := by
  obtain ⟨hnew, hused⟩ := G.alloc_some h
  refine G.apart ((hused _).mpr (.inl rfl)) ((hused _).mpr (.inr hb)) fun he => hnew ?_
  rw [he]
  exact hb

theorem Pages.unmarked (h : Pages s) {o : Nat} {g' : G.State} (ha : G.alloc s.pager gfp o = (some pfn, g'))
    {q : Nat} (hq : q ∈ (⟨pfn, o⟩ : Block)) : (s.page q).slab = false ∧ (s.page q).compound = false := by
  constructor
  · cases hs : (s.page q).slab with
    | false => rfl
    | true => exact absurd (Block.base_mem ⟨q, 0⟩) (not_mem_of_alloc ha (h.slab q hs) q hq)
  cases hc : (s.page q).compound with
  | false => rfl
  | true => exact absurd (Block.base_mem ⟨q, (s.page q).order⟩) (not_mem_of_alloc ha (h.compound q hc) q hq)

def granted (pfn order : Nat) (pager : G.State) (s : St G) : St G :=
  { setPage pfn { s.page pfn with order } s with pager }

theorem allocPages_eq (h : Pages s) (gfp : UInt32) (order : Nat) :
    (∃ pager, G.alloc s.pager gfp order = (none, pager) ∧ allocPages gfp order s = .ok (none, { s with pager })) ∨
      ∃ pfn pager, G.alloc s.pager gfp order = (some pfn, pager) ∧
        allocPages gfp order s = .ok (some pfn, granted pfn order pager s) := by
  unfold allocPages
  cases ha : G.alloc s.pager gfp order with
  | mk r pager =>
  cases r with
  | none => exact .inl ⟨pager, rfl, rfl⟩
  | some pfn =>
  refine .inr ⟨pfn, pager, rfl, ?_⟩
  have hno : ((List.range (2 ^ order)).any fun i => (s.page (pfn + i)).slab) = false := by
    rw [any_eq_false]
    intro i hi
    have hin : pfn + i ∈ (⟨pfn, order⟩ : Block) := ⟨Nat.le_add_right _ _, Nat.add_lt_add_left (mem_range.mp hi) _⟩
    rw [(h.unmarked ha hin).1]
    exact Bool.false_ne_true
  dsimp only
  rw [hno]
  rfl

theorem Inv.pager (h : Inv s live) {g : G.State} (hg : ∀ b, G.used s.pager b → G.used g b) :
    Inv { s with pager := g } live := by
  refine ⟨⟨fun q hq => hg _ (h.pages.slab q hq), fun q hq => hg _ (h.pages.compound q hq), h.pages.single⟩, h.free,
    h.avail, h.avail_nodup, h.live_nodup, fun o ho => (h.live_valid o ho).of_page rfl⟩

theorem Obj.base_ne (h : Pages s) {o : Nat} {g' : G.State} (ha : G.alloc s.pager gfp o = (some pfn, g')) {ob : Obj}
    (hv : ob.Valid s) : ob.block.base ≠ pfn := by
  have hun := h.unmarked ha (Block.base_mem ⟨pfn, o⟩)
  rintro rfl
  cases ob with
  | slab q ci i => exact absurd (hv.1.symm.trans hun.1) Bool.true_eq_false.mp
  | large q order => exact absurd (hv.1.symm.trans hun.2) Bool.true_eq_false.mp

theorem Inv.adopt (h : Inv s live) {o : Nat}
    (ha : G.alloc s.pager gfp o = (some pfn, s'.pager)) (hother : ∀ q, q ≠ pfn → s'.page q = s.page q)
    (hmem : ∀ a, a < pageAddress pfn ∨ pageAddress pfn + PAGE_SIZE * 2 ^ o ≤ a → s'.mem a = s.mem a)
    (hslab : (s'.page pfn).slab = true → o = 0 ∧ (s'.page pfn).compound = false ∧
      ∃ free, FreeList s'.mem (s'.page pfn) pfn live' free)
    (hcomp : (s'.page pfn).compound = true → (s'.page pfn).order = o)
    (havail : ∀ ci q, q ∈ (s'.classes ci).partialPages ↔
      if q = pfn then (s'.page pfn).slab = true ∧ (s'.page pfn).slabClass = ci ∧ (s'.page pfn).freelist ≠ 0
      else q ∈ (s.classes ci).partialPages) (hnodup : ∀ ci, (s'.classes ci).partialPages.Nodup)
    (hlive : ∀ ob : Obj, ob.block.base ≠ pfn → (ob ∈ live' ↔ ob ∈ live)) (hln : live'.Nodup)
    (hval : ∀ ob ∈ live', ob.block.base = pfn → ob.Valid s') : Inv s' live' := by
  obtain ⟨_, hused⟩ := G.alloc_some ha
  refine ⟨⟨fun q hq => ?_, fun q hq => ?_, fun q hq => ?_⟩, fun q hq => ?_, fun ci q => ?_, hnodup, hln, fun ob hob => ?_⟩
  · by_cases hqp : q = pfn
    · subst hqp
      rw [hused, (hslab hq).1]
      exact .inl rfl
    · rw [hother q hqp] at hq
      exact (hused _).mpr (.inr (h.pages.slab q hq))
  · by_cases hqp : q = pfn
    · subst hqp
      rw [hused, hcomp hq]
      exact .inl rfl
    · rw [hother q hqp] at hq ⊢
      exact (hused _).mpr (.inr (h.pages.compound q hq))
  · by_cases hqp : q = pfn
    · subst hqp
      exact (hslab hq).2.1
    · rw [hother q hqp] at hq ⊢
      exact h.pages.single q hq
  · by_cases hqp : q = pfn
    · subst hqp
      exact (hslab hq).2.2
    · rw [hother q hqp] at hq ⊢
      obtain ⟨free, hf⟩ := h.free q hq
      refine ⟨free, hf.frame (fun i hi => ?_) fun i _ => hlive _ hqp⟩
      have hv := hf.valid hq (hf.inside i hi)
      have hin := hv.inside
      have hd := apart_of_disjoint (not_mem_of_alloc ha (hv.used h.pages))
      have hsz := sixteen_le_classSize (s.page q).slabClass
      dsimp only [Obj.addr, Obj.size, Obj.block] at hin hd
      exact ⟨hmem _ (by omega), hmem _ (by omega)⟩
  · rw [havail]
    split
    · rename_i hqp
      rw [hqp]
    rename_i hqp
    rw [hother q hqp]
    exact h.avail ci q
  by_cases hbase : ob.block.base = pfn
  · exact hval ob hob hbase
  · have hv := h.live_valid ob ((hlive ob hbase).mp hob)
    exact hv.of_page (hother _ hbase)

theorem carve_spec (ci pfn k head : Nat) (mem : Nat → Nat) (free : List Nat)
    (hth : Threaded mem head (free.map (objAddr pfn ci))) (hmagic : ∀ i ∈ free, mem (objAddr pfn ci i + 8) = FREE_MAGIC)
    (hge : ∀ i ∈ free, k ≤ i) :
    Threaded (carve (classSize ci) (pageAddress pfn) k head mem).2 (carve (classSize ci) (pageAddress pfn) k head mem).1
        ((List.range k ++ free).map (objAddr pfn ci)) ∧
      (∀ i ∈ List.range k ++ free, (carve (classSize ci) (pageAddress pfn) k head mem).2 (objAddr pfn ci i + 8) = FREE_MAGIC) ∧
      ∀ a, a < pageAddress pfn ∨ pageAddress pfn + k * classSize ci ≤ a →
        (carve (classSize ci) (pageAddress pfn) k head mem).2 a = mem a := by
  induction k generalizing head mem free with
  | zero => exact ⟨hth, hmagic, fun _ _ => rfl⟩
  | succ k ih =>
  have hsz := sixteen_le_classSize ci
  have hpos := objAddr_ne_zero pfn ci k
  -- the two words of object `k` are in no later object
  have hlater : ∀ i ∈ free, objAddr pfn ci k + 16 ≤ objAddr pfn ci i := by
    intro i hi
    have hmul := Nat.mul_le_mul_right (classSize ci) (hge i hi)
    rw [Nat.succ_mul] at hmul
    unfold objAddr
    omega
  have hkeep : ∀ a, a ≠ objAddr pfn ci k → a ≠ objAddr pfn ci k + 8 →
      store (objAddr pfn ci k + 8) FREE_MAGIC (store (objAddr pfn ci k) head mem) a = mem a := by
    intro a h1 h2
    rw [store_other h2, store_other h1]
  have hnext := ih (objAddr pfn ci k) (store (objAddr pfn ci k + 8) FREE_MAGIC (store (objAddr pfn ci k) head mem))
    (k :: free) ⟨rfl, hpos, ?_⟩ (forall_mem_cons.mpr ⟨store_self, fun i hi => ?_⟩)
    (forall_mem_cons.mpr ⟨Nat.le_refl _, fun i hi => Nat.le_of_succ_le (hge i hi)⟩)
  · obtain ⟨h1, h2, h3⟩ := hnext
    have hlist : List.range k ++ k :: free = List.range (k + 1) ++ free := by
      rw [range_succ, append_assoc]
      rfl
    rw [hlist] at h1 h2
    refine ⟨h1, h2, fun a ha => (h3 a ?_).trans (hkeep a ?_ ?_)⟩
    · rw [Nat.succ_mul] at ha
      omega
    · rw [Nat.succ_mul] at ha
      unfold objAddr
      omega
    rw [Nat.succ_mul] at ha
    unfold objAddr
    omega
  · rw [store_other (by omega), store_self]
    refine hth.congr fun b hb => ?_
    obtain ⟨i, hi, rfl⟩ := mem_map.mp hb
    have := hlater i hi
    exact hkeep _ (by omega) (by omega)
  have := hlater i hi
  rw [hkeep _ (by omega) (by omega)]
  exact hmagic i hi

end Olux.Kmalloc
