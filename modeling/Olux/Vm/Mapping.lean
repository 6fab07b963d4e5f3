import Olux.Vm.Accounting.Space
import Olux.Vm.Layout.Theorems

namespace Olux.Vm

open Olux.Lib List

variable {lo start stop addr x va : Nat} {v : Vma} {l l' : List Vma} {s t : Space}

-- What an area maps at an address: the access, the place in a file, whether the byte is
-- one of the file, and the device address.
def Vma.at (v : Vma) (x : Nat) : VmFlags × Option Nat × Nat × Bool × Nat :=
  (v.flags, v.file, add64 v.fileOff (x - v.start), decide (x - v.start < v.fileBytes),
    if v.flags.io then add64 v.ioBase (x - v.start) else v.ioBase)

def mappingAt (l : List Vma) (x : Nat) : Option (VmFlags × Option Nat × Nat × Bool × Nat) :=
  (l.find? fun v => v.start ≤ x ∧ x < v.stop).map (·.at x)

theorem mappingAt_cons (v : Vma) (l : List Vma) (x : Nat) :
    mappingAt (v :: l) x = if v.start ≤ x ∧ x < v.stop then some (v.at x) else mappingAt l x := by
  unfold mappingAt
  split
  · rw [find?_cons_of_pos (by simpa using ‹_›), Option.map_some]
  · rename_i h
    rw [find?_cons_of_neg (by rwa [decide_eq_true_eq])]

theorem mappingAt_append (pre : List Vma) (h : mappingAt l x = mappingAt l' x) :
    mappingAt (pre ++ l) x = mappingAt (pre ++ l') x := by
  induction pre with
  | nil => exact h
  | cons v pre ih => rw [cons_append, cons_append, mappingAt_cons, mappingAt_cons, ih]

theorem mappingAt_split (hlo : v.start < addr) (hhi : addr < v.stop) (hlt : addr < 2 ^ 64) :
    mappingAt (v.lower addr :: v.upper addr :: l) x = mappingAt (v :: l) x := by
  have hsub : sub64 addr v.start = addr - v.start := sub64_of_le (by omega) hlt
  rw [mappingAt_cons, mappingAt_cons, mappingAt_cons]
  by_cases h : x < addr
  · have hat : (v.lower addr).at x = v.at x := by
      simp only [Vma.at, Vma.lower, hsub, Nat.lt_min, (by omega : x - v.start < addr - v.start), and_true]
    have hu : ¬ ((v.upper addr).start ≤ x ∧ x < (v.upper addr).stop) := fun hu => absurd hu.1 (Nat.not_le.mpr h)
    rw [hat, if_neg hu]
    simp only [Vma.lower, h, (by omega : x < v.stop)]
  have hmod (a : Nat) : add64 (add64 a (addr - v.start)) (x - addr) = add64 a (x - v.start) := by
    unfold add64
    omega
  have hat : (v.upper addr).at x = v.at x := by
    simp only [Vma.at, Vma.upper, hsub, hmod]
    congr 4
    · rw [decide_eq_decide]
      split <;> omega
    split
    · exact hmod _
    · rfl
  rw [hat, if_neg (fun hl => h hl.2)]
  simp only [Vma.upper, Nat.not_lt.mp h, (by omega : v.start ≤ x)]

theorem mappingAt_insert {nv : Vma} (hx : x < nv.start ∨ nv.stop ≤ x) :
    mappingAt (vmaInsert nv l) x = mappingAt l x := by
  have hnv (l : List Vma) : mappingAt (nv :: l) x = mappingAt l x := by
    rw [mappingAt_cons, if_neg (by omega)]
  induction l with
  | nil => exact hnv []
  | cons w rest ih =>
    rw [vmaInsert]
    split
    · exact hnv _
    · rw [mappingAt_cons, mappingAt_cons, ih]

structure Untouched (x : Nat) (s t : Space) : Prop where
  mapping : mappingAt t.mm.vmas x = mappingAt s.mm.vmas x
  pte : x < USER_VA_END → t.mm.pte x = s.mm.pte x
  data : ∀ p, (t.frame p).data = (s.frame p).data

theorem Untouched.refl (x : Nat) (s : Space) : Untouched x s s := ⟨rfl, fun _ => rfl, fun _ => rfl⟩

theorem Untouched.trans {u : Space} (h : Untouched x s t) (h' : Untouched x t u) : Untouched x s u :=
  ⟨h'.mapping.trans h.mapping, fun hx => (h'.pte hx).trans (h.pte hx), fun p => (h'.data p).trans (h.data p)⟩

theorem slot_ne (hd : PAGE_SIZE ∣ va) (hva : va < USER_VA_END) (hx : x < USER_VA_END)
    (hne : x < va ∨ va + PAGE_SIZE ≤ x) : slot x ≠ slot va := by
  intro h
  have h1 := congrArg (·.l1.val) h
  have h2 := congrArg (·.l2.val) h
  have h3 := congrArg (·.l3.val) h
  have hend : USER_VA_END = 2 ^ 39 := rfl
  simp only [slot, L1_SIZE, L2_SIZE, PAGE_SIZE, PT_ENTRIES] at *
  omega

theorem releasePte_data (s : Space) (e : Pte) (p : Nat) : ((releasePte s e).frame p).data = (s.frame p).data := by
  have hset (q n : Nat) (b : Bool) :
      (Function.update s.frame q { s.frame q with free := b, refcount := n } p).data = (s.frame p).data := by
    by_cases hp : p = q
    · rw [hp, Function.update_self]
    · rw [Function.update_of_ne hp]
  unfold releasePte
  split
  · simp only [Space.subRss, pagePut]
    split
    · rfl
    · exact hset _ _ _
    · exact hset _ _ _
  · rfl

theorem zapPte_untouched (hd : PAGE_SIZE ∣ va) (hva : va < USER_VA_END) (hx : x < va ∨ va + PAGE_SIZE ≤ x) :
    Untouched x s (zapPte s va) := by
  have hb := congrArg Mm.vmas (zapPte_bare s va)
  refine ⟨congrArg (mappingAt · x) hb, fun hend => ?_, fun p => ?_⟩ <;> simp only [zapPte] <;> split
  · rename_i hv
    rw [Mm.pte, releasePte_mm_pgd]
    exact (entry_store (hasTable_of_valid hv) _ _).trans (if_neg (slot_ne hd hva hend hx))
  · rfl
  · exact releasePte_data _ _ p
  · rfl

theorem zapRange_untouched (hd : PAGE_SIZE ∣ va) (hd' : PAGE_SIZE ∣ stop) (hstop : stop ≤ USER_VA_END)
    (hx : x < va ∨ stop ≤ x) : Untouched x s (zapRange s va stop) := by
  fun_induction zapRange s va stop with
  | case1 s va hlt hnone ih =>
    refine ih ?_ ?_ <;> simp only [PAGE_SIZE, alignDown, L1_SIZE] at * <;> omega
  | case2 s va hlt l2 heq hnone ih =>
    refine ih ?_ ?_ <;> simp only [PAGE_SIZE, alignDown, L2_SIZE] at * <;> omega
  | case3 s va hlt l2 heq l3 hsome ih =>
    have hnext : va + PAGE_SIZE ≤ stop := by simp only [PAGE_SIZE] at *; omega
    exact (zapPte_untouched hd (by omega) (by omega)).trans (ih (Nat.dvd_add hd (Nat.dvd_refl _)) (by omega))
  | case4 s va hge => exact .refl x _

theorem unmapRegion_untouched (hl : VmasOk lo s.mm.vmas) (hd : PAGE_SIZE ∣ start) (hd' : PAGE_SIZE ∣ stop)
    (hstart : start < 2 ^ 64) (hstop : stop < 2 ^ 64) (hx : x < start ∨ stop ≤ x ∨ ∀ v ∈ s.mm.vmas, x < v.start) :
    Untouched x s (unmapRegion s start stop).2 := by
  have h := forRange_rule start stop (fun v s => (none, zapRange s v.start v.stop))
    (fun l t => VmasOk lo l ∧ (x < start ∨ stop ≤ x ∨ ∀ v ∈ l, x < v.start) ∧ Untouched x s (t.setVmas l)) ?_ ?_ ?_ []
    s.mm.vmas s ⟨hl, hx, .refl x s⟩
  · exact h.2.2
  · exact fun l t h => ⟨h.1, h.2.1, h.2.2.mapping, h.2.2.pte, h.2.2.data⟩
  · intro pre v post t addr haddr hlo hhi ⟨ht, hx, hu⟩
    refine ⟨ht.split hlo hhi (by rcases haddr with rfl | rfl <;> assumption), hx.imp_right (Or.imp_right ?_), ?_, hu.pte,
      hu.data⟩
    · intro hx w hw
      simp only [mem_append, mem_cons] at hw hx
      rcases hw with hw | rfl | rfl | hw
      · exact hx w (.inl hw)
      · exact hx v (.inr (.inl rfl))
      · exact Nat.lt_trans (hx v (.inr (.inl rfl))) hlo
      · exact hx w (.inr (.inr hw))
    · exact (mappingAt_append pre (mappingAt_split hlo hhi (by omega))).trans hu.mapping
  intro pre v post t h1 h2 h3 ⟨ht, hx, hu⟩
  have hv := ht.each v (by simp)
  have hout : x < v.start ∨ v.stop ≤ x := by
    rcases hx with hx | hx | hx
    · omega
    · omega
    · exact .inl (hx v (by simp))
  have hz := zapRange_untouched (s := t) hv.start_dvd hv.stop_dvd hv.max hout
  refine ⟨ht.replace [] (.nil lo) (by simp) (by simp), hx.imp_right (Or.imp_right ?_), ?_,
    fun h => (hz.pte h).trans (hu.pte h), fun p => (hz.data p).trans (hu.data p)⟩
  · intro hx w hw
    exact hx w (by
      simp only [Option.toList_none, nil_append, mem_append, mem_cons] at hw ⊢
      tauto)
  refine Eq.trans ?_ hu.mapping
  refine (mappingAt_append pre ?_).symm
  rw [mappingAt_cons, if_neg (by omega)]
  rfl

theorem mappingAt_eq_none (h : ∀ v ∈ l, ¬ (v.start ≤ x ∧ x < v.stop)) : mappingAt l x = none := by
  rw [mappingAt, Option.map_eq_none_iff, find?_eq_none]
  simpa using h

theorem mappingAt_ne_none (hv : v ∈ l) (hx : v.start ≤ x ∧ x < v.stop) : mappingAt l x ≠ none := by
  rw [mappingAt, ne_eq, Option.map_eq_none_iff, find?_eq_none]
  exact fun h => h v hv (decide_eq_true hx)

-- The first area, when the range starts below it: it goes, up to the end of the range.
theorem unmapRegion_first {rest : List Vma} (hl : VmasOk lo s.mm.vmas) (hv : s.mm.vmas = v :: rest) (hlt : v.start < stop)
    (hroom : v.stop ≤ stop ∨ (kmalloc s).1 = true) : mappingAt (unmapRegion s 0 stop).2.mm.vmas v.start = none := by
  rw [hv] at hl
  have hne := (hl.each v (by simp)).lt
  have hrest : ∀ w ∈ rest, v.start < w.start := fun w hw =>
    Nat.lt_of_lt_of_le hne ((pairwise_cons.mp hl.sorted).1 w hw)
  have hstarts : ∀ l t, (∀ w ∈ l, v.start < w.start) →
      ∀ w ∈ (forRange 0 stop (fun v s => (none, zapRange s v.start v.stop)) l t).2.1, v.start < w.start := by
    intro l t hall
    refine forRange_rule 0 stop _ (fun l _ => ∀ w ∈ l, v.start < w.start) (fun _ _ h => h) ?_ ?_ [] l t hall
    · intro pre u post t addr _ hlo _ hall w hw
      simp only [mem_append, mem_cons] at hw hall
      rcases hw with hw | rfl | rfl | hw
      · exact hall w (.inl hw)
      · exact hall u (.inr (.inl rfl))
      · exact Nat.lt_trans (hall u (.inr (.inl rfl))) hlo
      · exact hall w (.inr (.inr hw))
    · intro pre u post t _ _ _ hall w hw
      exact hall w (by
        simp only [Option.toList_none, nil_append, mem_append, mem_cons] at hw ⊢
        tauto)
  refine mappingAt_eq_none fun w hw hin => ?_
  have hgt : v.start < w.start := by
    unfold unmapRegion at hw
    rw [hv, forRange, if_neg (by omega), if_neg (by omega), if_neg (Nat.not_lt_zero _)] at hw
    by_cases hover : stop < v.stop
    · rw [if_pos hover] at hw
      have hk := hroom.resolve_left (by omega)
      generalize hks : kmalloc s = r at hw hk
      obtain ⟨b, t⟩ := r
      obtain rfl : b = true := hk
      refine hstarts (v.upper stop :: rest) _ (fun u hu => ?_) w hw
      rcases mem_cons.mp hu with rfl | hu
      · exact hlt
      · exact hrest u hu
    · rw [if_neg hover] at hw
      exact hstarts rest _ hrest w hw
  omega

theorem mapVma_untouched {flags : VmFlags} {file : Option Nat} {off bytes : Nat} (hx : x < start ∨ stop ≤ x) :
    Untouched x s (mapVma s start stop flags file off bytes).2 := by
  unfold mapVma
  split
  · rename_i hk
    obtain rfl : (kmalloc s).2 = _ := congrArg Prod.snd hk
    exact ⟨rfl, fun _ => rfl, fun _ => rfl⟩
  rename_i hk
  obtain rfl : (kmalloc s).2 = _ := congrArg Prod.snd hk
  exact ⟨mappingAt_insert hx, fun _ => rfl, fun _ => rfl⟩

theorem growBrk_untouched {oldEnd newEnd : Nat} (hlt : oldEnd < newEnd) (hx : x < oldEnd ∨ newEnd ≤ x) :
    Untouched x s (growBrk s oldEnd newEnd).2 := by
  unfold growBrk
  split
  · exact .refl x _
  split
  · rename_i v hfind
    split
    · rename_i hv
      refine ⟨?_, fun _ => rfl, fun _ => rfl⟩
      obtain ⟨_, pre, post, heq, hmod⟩ := vmaFind_eq_some (Option.ite_none_right_eq_some.mp hfind).2
        fun w => { w with stop := newEnd }
      rw [Space.setVmas, hmod, heq]
      refine mappingAt_append pre ?_
      have hiff : v.start ≤ x ∧ x < newEnd ↔ v.start ≤ x ∧ x < v.stop := by omega
      simp only [mappingAt_cons, hiff]
      rfl
    · exact mapVma_untouched hx
  · exact mapVma_untouched hx

-- Rounding up without the wrap-around of ALIGN_UP.
def roundUp (a : Nat) : Nat := (a + (PAGE_SIZE - 1)) / PAGE_SIZE * PAGE_SIZE

def LastPage (a : Nat) : Prop := 2 ^ 64 ≤ a + (PAGE_SIZE - 1)

theorem alignUp_whole {a : Nat} (h : ¬ LastPage a) : alignUp a PAGE_SIZE = roundUp a := by
  rw [alignUp, roundUp, Nat.mod_eq_of_lt (Nat.not_le.mp h)]

theorem roundUp_lt {a : Nat} (h : ¬ LastPage a) : roundUp a < 2 ^ 64 := by
  simp only [roundUp, LastPage, PAGE_SIZE] at *
  omega

theorem roundUp_lastPage {a : Nat} (h : LastPage a) (ha : a < 2 ^ 64) : roundUp a = 2 ^ 64 := by
  simp only [roundUp, LastPage, PAGE_SIZE] at *
  omega

theorem alignUp_lastPage {a : Nat} (h : LastPage a) (ha : a < 2 ^ 64) : alignUp a PAGE_SIZE = 0 := by
  simp only [alignUp, LastPage, PAGE_SIZE] at *
  omega

-- What goes wrong in the last page of the 64-bit space. A new break there has everything below the old
-- one unmapped, and an old break there lets the heap grow from address 0 on.
def BrkWraps (s : Space) (nbrk : Nat) : Prop :=
  s.mm.brkStart ≤ nbrk ∧
    (¬ LastPage s.mm.brk ∧ LastPage nbrk ∧ (∃ v, s.mm.vmas.head? = some v ∧ v.start < roundUp s.mm.brkStart ∧
        (v.stop ≤ roundUp s.mm.brk ∨ (kmalloc s).1 = true)) ∨
      LastPage s.mm.brk ∧ ¬ LastPage nbrk ∧ 0 < s.mm.brkStart ∧
        vmaFindIntersect 0 (add64 (roundUp nbrk) PAGE_SIZE) s.mm.vmas = none ∧ (kmalloc s).1 = true)

def HeapOnly (s : Space) (nbrk : Nat) (t : Space) : Prop :=
  ∀ x, x < roundUp s.mm.brkStart ∨ max (roundUp s.mm.brk) (roundUp nbrk) ≤ x → Untouched x s t

section

variable {nbrk : Nat} (hl : VmasOk lo s.mm.vmas) (hle : s.mm.brkStart ≤ nbrk)

theorem roundUp_mono {a b : Nat} (h : a ≤ b) : roundUp a ≤ roundUp b :=
  Nat.mul_le_mul_right _ (Nat.div_le_div_right (Nat.add_le_add_right h _))

include hl hle

theorem doBrk_whole (hbrk : s.mm.brkStart ≤ s.mm.brk) (hold : ¬ LastPage s.mm.brk) (hnew : ¬ LastPage nbrk) :
    HeapOnly s nbrk (doBrk s nbrk).2 := by
  intro x hx
  have h1 := roundUp_mono hbrk
  have h2 := roundUp_mono hle
  simp only [doBrk, if_neg (Nat.not_lt.mpr hle), alignUp_whole hold, alignUp_whole hnew]
  split
  · have hg := growBrk_untouched (x := x) (s := s) ‹_› (by omega)
    split
    · rename_i heq
      rwa [heq] at hg
    rename_i heq
    rw [heq] at hg
    exact ⟨hg.mapping, hg.pte, hg.data⟩
  split
  · have hd : ∀ a, PAGE_SIZE ∣ roundUp a := fun a => Nat.dvd_mul_left _ _
    have hu := unmapRegion_untouched (x := x) hl (hd nbrk) (hd s.mm.brk) (roundUp_lt hnew) (roundUp_lt hold) (by omega)
    exact ⟨hu.mapping, hu.pte, hu.data⟩
  · exact ⟨rfl, fun _ => rfl, fun _ => rfl⟩

theorem doBrk_new_wraps (hbrk : s.mm.brkStart ≤ s.mm.brk) (hold : ¬ LastPage s.mm.brk) (hn : nbrk < 2 ^ 64)
    (hnew : LastPage nbrk) : HeapOnly s nbrk (doBrk s nbrk).2 ↔
      ¬ ∃ v, s.mm.vmas.head? = some v ∧ v.start < roundUp s.mm.brkStart ∧
        (v.stop ≤ roundUp s.mm.brk ∨ (kmalloc s).1 = true) := by
  have h1 := roundUp_mono hbrk
  have hlt := roundUp_lt hold
  have hend := roundUp_lastPage hnew hn
  simp only [doBrk, if_neg (Nat.not_lt.mpr hle), alignUp_whole hold, alignUp_lastPage hnew hn, Nat.not_lt_zero, if_false]
  split
  swap
  · refine iff_of_true (fun x _ => ⟨rfl, fun _ => rfl, fun _ => rfl⟩) ?_
    rintro ⟨v, -, hv, -⟩
    omega
  constructor
  · rintro h ⟨v, hhead, hstart, hroom⟩
    obtain ⟨rest, hv⟩ := head?_eq_some_iff.mp hhead
    have hmap := (h v.start (.inl hstart)).mapping
    change mappingAt (unmapRegion s 0 (roundUp s.mm.brk)).2.mm.vmas v.start = mappingAt s.mm.vmas v.start at hmap
    rw [unmapRegion_first hl hv (by omega) hroom] at hmap
    have hne := (hl.each v (by simp [hv])).lt
    exact mappingAt_ne_none (by simp [hv]) ⟨Nat.le_refl _, hne⟩ hmap.symm
  intro h x hx
  suffices hu : Untouched x s (unmapRegion s 0 (roundUp s.mm.brk)).2 from ⟨hu.mapping, hu.pte, hu.data⟩
  have hout (hx : x < 0 ∨ roundUp s.mm.brk ≤ x ∨ ∀ v ∈ s.mm.vmas, x < v.start) :=
    unmapRegion_untouched hl (Nat.dvd_zero _) (Nat.dvd_mul_left _ _) (by decide) hlt hx
  rcases hx with hx | hx
  swap
  · exact hout (.inr (.inl (by omega)))
  cases hvmas : s.mm.vmas with
  | nil => exact hout (.inr (.inr (by simp [hvmas])))
  | cons v rest =>
  by_cases hstart : v.start < roundUp s.mm.brkStart
  · -- the area cannot be split, and nothing is done
    have hroom := fun h' => h ⟨v, by rw [hvmas]; rfl, hstart, h'⟩
    obtain ⟨hover, hk⟩ := not_or.mp hroom
    have hsame : (unmapRegion s 0 (roundUp s.mm.brk)).2 = (kmalloc s).2 := by
      have hne := (hl.each v (by simp [hvmas])).lt
      unfold unmapRegion
      rw [hvmas, forRange, if_neg (by omega), if_neg (by omega), if_neg (Nat.not_lt_zero _), if_pos (by omega)]
      generalize hks : kmalloc s = r at hk
      obtain ⟨b, t⟩ := r
      obtain rfl : b = false := by simpa using hk
      have ht : t.mm.vmas = s.mm.vmas := congrArg (fun r : Bool × Space => r.2.mm.vmas) hks.symm
      rw [← hvmas, ← ht]
      rfl
    rw [hsame]
    exact ⟨rfl, fun _ => rfl, fun _ => rfl⟩
  refine hout (.inr (.inr fun w hw => ?_))
  have hle' : v.start ≤ w.start := by
    rw [hvmas] at hl hw
    rcases mem_cons.mp hw with rfl | hw
    · exact Nat.le_refl _
    · exact Nat.le_trans (Nat.le_of_lt (hl.each v (by simp)).lt) ((pairwise_cons.mp hl.sorted).1 w hw)
  omega

theorem doBrk_old_wraps (hlo : 0 < lo) (hold : LastPage s.mm.brk) (ho : s.mm.brk < 2 ^ 64) (hnew : ¬ LastPage nbrk) :
    HeapOnly s nbrk (doBrk s nbrk).2 ↔ ¬ (0 < s.mm.brkStart ∧
      vmaFindIntersect 0 (add64 (roundUp nbrk) PAGE_SIZE) s.mm.vmas = none ∧ (kmalloc s).1 = true) := by
  have hend := roundUp_lastPage hold ho
  have hlt := roundUp_lt hnew
  have hup : roundUp s.mm.brkStart ≤ roundUp nbrk := roundUp_mono hle
  have hpos : 0 < roundUp s.mm.brkStart ↔ 0 < s.mm.brkStart := by
    simp only [roundUp, PAGE_SIZE]
    omega
  simp only [doBrk, if_neg (Nat.not_lt.mpr hle), alignUp_lastPage hold ho, alignUp_whole hnew, Nat.not_lt_zero, if_false]
  by_cases hgrow : 0 < roundUp nbrk
  swap
  · rw [if_neg hgrow]
    exact iff_of_true (fun x _ => ⟨rfl, fun _ => rfl, fun _ => rfl⟩) fun h => by omega
  rw [if_pos hgrow]
  unfold growBrk
  by_cases hfree : (vmaFindIntersect 0 (add64 (roundUp nbrk) PAGE_SIZE) s.mm.vmas).isSome = true
  · rw [if_pos hfree]
    refine iff_of_true (fun x _ => .refl x s) fun h => ?_
    rw [h.2.1] at hfree
    cases hfree
  rw [if_neg hfree, if_neg (Nat.not_lt_zero _)]
  have hnone := Option.not_isSome_iff_eq_none.mp hfree
  dsimp only
  unfold mapVma
  generalize hks : kmalloc s = r
  obtain ⟨b, t⟩ := r
  have ht : t = (kmalloc s).2 := by rw [hks]
  cases b with
  | false =>
    refine iff_of_true (fun x _ => ?_) (by simp)
    rw [ht]
    exact ⟨rfl, fun _ => rfl, fun _ => rfl⟩
  | true =>
  dsimp only
  have hvmas : t.mm.vmas = s.mm.vmas := by
    rw [ht]
    rfl
  by_cases h0 : 0 < s.mm.brkStart
  · -- address 0 becomes a part of the heap
    refine iff_of_false (fun h => ?_) (by simp [h0, hnone])
    have hmap := (h 0 (.inl (hpos.mpr h0))).mapping
    have hbare : mappingAt s.mm.vmas 0 = none := by
      refine mappingAt_eq_none fun v hv hin => ?_
      have hmin := (hl.each v hv).min
      omega
    rw [hbare] at hmap
    refine mappingAt_ne_none (v := ⟨0, roundUp nbrk, heapFlags, none, 0, 0, 0⟩) ?_ ⟨Nat.le_refl 0, hgrow⟩ hmap
    exact mem_vmaInsert.mpr (.inl rfl)
  · refine iff_of_true (fun x hx => ?_) fun h => h0 h.1
    have hx : roundUp nbrk ≤ x := by omega
    refine ⟨?_, ?_, ?_⟩
    · show mappingAt (vmaInsert _ t.mm.vmas) x = _
      rw [hvmas]
      exact mappingAt_insert (.inr hx)
    · rw [ht]
      exact fun _ => rfl
    · rw [ht]
      exact fun _ => rfl

end

-- do_brk changes nothing but the heap iff a break in the last page of the 64-bit space does not make
-- it take the addresses from 0 on for the heap.
theorem doBrk_heapOnly_iff {nbrk : Nat} (hlo : 0 < lo) (hl : VmasOk lo s.mm.vmas) (hbrk : s.mm.brkStart ≤ s.mm.brk)
    (hold : s.mm.brk < 2 ^ 64) (hnew : nbrk < 2 ^ 64) : HeapOnly s nbrk (doBrk s nbrk).2 ↔ ¬ BrkWraps s nbrk := by
  unfold BrkWraps
  by_cases hle : s.mm.brkStart ≤ nbrk
  swap
  · refine iff_of_true (fun x _ => ?_) fun h => hle h.1
    rw [doBrk, if_pos (Nat.not_le.mp hle)]
    exact .refl x s
  by_cases h1 : LastPage s.mm.brk
  · by_cases h2 : LastPage nbrk
    · refine iff_of_true (fun x _ => ?_) (by simp [h1, h2])
      simp only [doBrk, if_neg (Nat.not_lt.mpr hle), alignUp_lastPage h1 hold, alignUp_lastPage h2 hnew, Nat.lt_irrefl, if_false]
      exact ⟨rfl, fun _ => rfl, fun _ => rfl⟩
    · rw [doBrk_old_wraps hl hle hlo h1 hold h2]
      simp [hle, h1, h2]
  by_cases h2 : LastPage nbrk
  · rw [doBrk_new_wraps hl hle hbrk h1 hnew h2]
    simp [hle, h1, h2]
  · exact iff_of_true (doBrk_whole hl hle hbrk h1 h2) (by simp [h1, h2])

theorem doBrk_heapOnly_stackOnly : HeapOnly stackOnly 0x21000 (doBrk stackOnly 0x21000).2 ∧
    mappingAt (doBrk stackOnly 0x21000).2.mm.vmas 0x20000 ≠ none := by
  refine ⟨(doBrk_heapOnly_iff (by decide) stackOnly_exec.vmas (by decide) (by decide) (by decide)).mpr ?_, by decide⟩
  rintro ⟨-, ⟨-, h, -⟩ | ⟨h, -⟩⟩
  · exact absurd h (by unfold LastPage; decide)
  · exact absurd h (by unfold LastPage; decide)

def codeBelow : Space :=
  { stackOnly with mm := { stackOnly.mm with vmas := [⟨0x10000, 0x11000, { read := true, exec := true }, none, 0, 0, 0⟩] } }

theorem doBrk_last_address : VmasOk USER_MIN_ADDR codeBelow.mm.vmas ∧
    ¬ HeapOnly codeBelow (2 ^ 64 - 1) (doBrk codeBelow (2 ^ 64 - 1)).2 := by
  refine ⟨.single ⟨by decide, by decide, by decide, by decide, by decide⟩, fun h => ?_⟩
  have := (h 0x10000 (.inl (by decide))).mapping
  simp [codeBelow, doBrk, unmapRegion, forRange, mappingAt, stackOnly, alignUp, PAGE_SIZE, Space.setBrk, Space.setVmas] at this

end Olux.Vm
