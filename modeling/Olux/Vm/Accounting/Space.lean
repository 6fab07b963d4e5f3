import Olux.Vm.Accounting

namespace Olux.Vm

open Olux.Lib List

variable {ext : Nat → Nat} {l : List Vma} {va p : Nat} {x : Slot} {s t s' : Space}

theorem entry_store {pgd : Pgd} (h : pgd.hasTable x = true) (e : Pte) (y : Slot) :
    (pgd.store x e).entry y = if y = x then e else pgd.entry y := by
  unfold Pgd.hasTable at h
  unfold Pgd.store
  cases hl2 : pgd x.l1 with
  | none => simp [hl2] at h
  | some l2 =>
  simp only [hl2] at h ⊢
  cases hl3 : l2 x.l2 with
  | none => simp [hl3] at h
  | some l3 =>
  unfold Pgd.entry
  by_cases h1 : y.l1 = x.l1
  · by_cases h2 : y.l2 = x.l2
    · by_cases h3 : y.l3 = x.l3
      · simp [Slot.ext h1 h2 h3]
      · have hne : y ≠ x := fun he => h3 (congrArg Slot.l3 he)
        simp [h1, h2, h3, hne, hl2, hl3]
    · have hne : y ≠ x := fun he => h2 (congrArg Slot.l2 he)
      simp [h1, h2, hne, hl2]
  · have hne : y ≠ x := fun he => h1 (congrArg Slot.l1 he)
    simp [h1, hne]

theorem hasTable_of_valid {pgd : Pgd} (h : (pgd.entry x).valid = true) : pgd.hasTable x = true := by
  unfold Pgd.entry at h
  unfold Pgd.hasTable
  split at h
  · cases h
  split at h
  · cases h
  · simp [*]

structure SameMem (s s' : Space) : Prop where
  frame : s'.frame = s.frame
  entry : ∀ x, s'.mm.pgd.entry x = s.mm.pgd.entry x
  rss : s'.mm.rssPages = s.mm.rssPages
  panicked : s'.panicked = s.panicked

theorem SameMem.refl (s : Space) : SameMem s s := ⟨rfl, fun _ => rfl, rfl, rfl⟩

theorem SameMem.trans {u : Space} (h : SameMem s t) (h' : SameMem t u) : SameMem s u :=
  ⟨h'.frame.trans h.frame, fun x => (h'.entry x).trans (h.entry x), h'.rss.trans h.rss, h'.panicked.trans h.panicked⟩

theorem SameMem.inv (h : SameMem s s') (hi : Inv ext l s) : Inv ext l s' :=
  hi.same h.entry (fun _ => by rw [h.frame]) (fun _ => by rw [h.frame]) h.rss h.panicked

theorem SameMem.gentle (h : SameMem s s') : Gentle s s' :=
  .of_refcount_eq fun _ => by rw [h.frame]

theorem kmalloc_sameMem (s : Space) : SameMem s (kmalloc s).2 := ⟨rfl, fun _ => rfl, rfl, rfl⟩

theorem setVmas_sameMem (s : Space) (vmas : List Vma) : SameMem s (s.setVmas vmas) := ⟨rfl, fun _ => rfl, rfl, rfl⟩

theorem tableL2_spec (s : Space) (x : Slot) : SameMem s (tableL2 s x).2 ∧
    ((tableL2 s x).1 = true → ((tableL2 s x).2.mm.pgd x.l1).isSome = true) := by
  unfold tableL2 allocTable
  cases hl2 : s.mm.pgd x.l1 with
  | some l2 => exact ⟨.refl s, fun _ => by simp [hl2]⟩
  | none =>
  cases s.supply.table.1 with
  | false => exact ⟨⟨rfl, fun _ => rfl, rfl, rfl⟩, by simp⟩
  | true =>
  refine ⟨⟨rfl, fun y => ?_, rfl, rfl⟩, by simp⟩
  unfold Pgd.entry
  by_cases hy : y.l1 = x.l1
  · simp [hy, hl2]
  · simp [hy]

theorem tableL3_spec (s : Space) (x : Slot) : SameMem s (tableL3 s x).2 ∧
    ((tableL3 s x).1 = true → (tableL3 s x).2.mm.pgd.hasTable x = true) := by
  unfold tableL3 allocTable Pgd.hasTable
  cases hl2 : s.mm.pgd x.l1 with
  | none => exact ⟨.refl s, by simp⟩
  | some l2 =>
  simp only
  cases hl3 : l2 x.l2 with
  | some l3 => exact ⟨.refl s, fun _ => by simp [hl2, hl3]⟩
  | none =>
  cases s.supply.table.1 with
  | false => exact ⟨⟨rfl, fun _ => rfl, rfl, rfl⟩, by simp⟩
  | true =>
  refine ⟨⟨rfl, fun y => ?_, rfl, rfl⟩, by simp⟩
  unfold Pgd.entry
  by_cases hy : y.l1 = x.l1
  · by_cases hy' : y.l2 = x.l2
    · simp [hy, hy', hl2, hl3]
    · simp [hy, hy', hl2]
  · simp [hy]

theorem userPte_spec {b : Bool} (h : userPte s va = (b, t)) :
    SameMem s t ∧ (b = true → t.mm.pgd.hasTable (slot va) = true) := by
  have h2 := tableL2_spec s (slot va)
  unfold userPte at h
  split at h
  · rename_i heq
    cases h
    rw [heq] at h2
    exact ⟨h2.1, by simp⟩
  rename_i u heq
  rw [heq] at h2
  have h3 := tableL3_spec u (slot va)
  rw [h] at h3
  exact ⟨h2.1.trans h3.1, h3.2⟩

structure Fresh (s t : Space) (p : Nat) : Prop where
  mm : t.mm = s.mm
  panicked : t.panicked = s.panicked
  free : (s.frame p).free = true
  taken : (t.frame p).free = false
  refcount : (t.frame p).refcount = 1
  other : ∀ q, q ≠ p → t.frame q = s.frame q

theorem allocPage_spec {zero : Bool} {r : Option Nat} (h : allocPage s zero = (r, t)) :
    match r with
    | none => SameMem s t
    | some p => Fresh s t p := by
  unfold allocPage at h
  split at h
  · cases h
    exact .refl s
  simp only at h
  split at h
  · cases h
    exact ⟨rfl, fun _ => rfl, rfl, rfl⟩
  split at h
  · rename_i hfree
    cases h
    exact ⟨rfl, rfl, hfree, by simp [Space.setFrame], by simp [Space.setFrame], fun q hq => by simp [Space.setFrame, hq]⟩
  · cases h
    exact ⟨rfl, fun _ => rfl, rfl, rfl⟩

theorem Fresh.count (h : Fresh s t p) (hi : Inv ext l s) (q : Nat) :
    (t.frame q).refcount = (s.frame q).refcount + if q = p then 1 else 0 := by
  by_cases hq : q = p
  · have := (hi.free p).mp h.free
    rw [hq, h.refcount, this, if_pos rfl]
  · rw [h.other q hq, if_neg hq]
    rfl

theorem Fresh.gentle (h : Fresh s t p) : Gentle s t := by
  intro q
  by_cases hq : q = p
  · rw [hq, h.refcount]
    exact Nat.le_max_right _ _
  · rw [h.other q hq]
    exact Nat.le_max_left _ _

theorem Fresh.free_iff (h : Fresh s t p) (hi : Inv ext l s) (q : Nat) :
    (t.frame q).free = true ↔ (t.frame q).refcount = 0 := by
  by_cases hq : q = p
  · rw [hq, h.taken, h.refcount]
    simp
  · rw [h.other q hq]
    exact hi.free q

structure Dropped (s t : Space) (p : Nat) : Prop where
  mm : t.mm = s.mm
  panicked : t.panicked = s.panicked
  count : ∀ q, (t.frame q).refcount + (if q = p then 1 else 0) = (s.frame q).refcount
  free : ∀ q, ((s.frame q).free = true ↔ (s.frame q).refcount = 0) →
    ((t.frame q).free = true ↔ (t.frame q).refcount = 0)

theorem pagePut_spec (h : 0 < (s.frame p).refcount) : Dropped s (pagePut s p) p := by
  unfold pagePut
  split
  · omega
  · rename_i hone
    refine ⟨rfl, rfl, fun q => ?_, fun q hq => ?_⟩
    · by_cases hqp : q = p <;> simp [freePage, Space.setFrame, hqp, hone]
    by_cases hqp : q = p
    · simp [freePage, Space.setFrame, hqp]
    · simpa [freePage, Space.setFrame, hqp] using hq
  rename_i n hn
  refine ⟨rfl, rfl, fun q => ?_, fun q hq => ?_⟩
  · by_cases hqp : q = p <;> simp [Space.setFrame, hqp, hn]
  by_cases hqp : q = p
  · subst hqp
    have hfree : (s.frame q).free = false := by
      by_contra hc
      have := hq.mp (by simpa using hc)
      omega
    simp [Space.setFrame, hfree]
  · simpa [Space.setFrame, hqp] using hq

theorem Dropped.gentle (h : Dropped s t p) : Gentle s t := by
  intro q
  have := h.count q
  omega

theorem bit_owns {e : Pte} (h : e.owned = true) (p : Nat) : bit (e.owns p) = if p = e.frame then 1 else 0 := by
  by_cases hp : p = e.frame
  · simp [Pte.owns, h, bit, hp]
  · simp [Pte.owns, h, bit, hp, Ne.symm hp]

theorem owns_of_not_owned {e : Pte} (h : e.owned = false) (p : Nat) : e.owns p = false := by
  simp [Pte.owns, h]

@[simp] theorem zeroPte_owned : zeroPte.owned = false := rfl

@[simp] theorem zeroPte_valid : zeroPte.valid = false := rfl

theorem Inv.store (h : Inv ext l s) (va : Nat) (e : Pte) (ht : s.mm.pgd.hasTable (slot va) = true)
    (hpgd : s'.mm.pgd = s.mm.pgd.store (slot va) e)
    (hcount : ∀ p, (s'.frame p).refcount + bit ((s.mm.pte va).owns p) = (s.frame p).refcount + bit (e.owns p))
    (hfree : ∀ p, (s'.frame p).free = true ↔ (s'.frame p).refcount = 0)
    (hrss : s'.mm.rssPages + bit (s.mm.pte va).owned = s.mm.rssPages + bit e.owned) (hgentle : Gentle s s')
    (hcalm : s'.panicked = false) (hfine : e.valid = true → ∃ v ∈ l, v.Contains (slot va).addr ∧ Fine s'.frame v e) :
    Inv ext l s' ∧ Gentle s s' := by
  refine ⟨h.change (x := slot va) (e := e) ?_ hcount hfree hrss hgentle hcalm hfine, hgentle⟩
  intro y
  rw [hpgd]
  exact entry_store ht e y

theorem Inv.rss_pos (h : Inv ext l s) (ho : (s.mm.pte va).owned = true) : 0 < s.mm.rssPages := by
  have ho' : (s.mm.pgd.entry (slot va)).owned = true := ho
  rw [h.rss]
  exact Finset.card_pos.mpr ⟨slot va, by simpa using ho'⟩

theorem zapPte_inv (hi : Inv ext l s) (va : Nat) : Inv ext l (zapPte s va) ∧ Gentle s (zapPte s va) := by
  simp only [zapPte]
  split
  swap
  · exact ⟨hi, .refl s⟩
  rename_i hvalid
  have ht := hasTable_of_valid hvalid
  unfold releasePte
  split
  · rename_i hown
    have howned : (s.mm.pte va).owned = true := hown
    have hdrop := pagePut_spec (s := s.setPte va zeroPte) (p := (s.mm.pte va).frame) (hi.refcount_pos howned)
    refine hi.store va zeroPte ht ?_ ?_ ?_ ?_ hdrop.gentle ?_ (by simp)
    · simp only [Space.subRss, hdrop.mm]
      rfl
    · intro p
      rw [bit_owns howned, owns_of_not_owned zeroPte_owned]
      exact hdrop.count p
    · exact fun p => hdrop.free p (hi.free p)
    · have hpos := hi.rss_pos howned
      have hrss : (pagePut (s.setPte va zeroPte) (s.mm.pte va).frame).mm.rssPages = s.mm.rssPages := by
        rw [hdrop.mm]
        rfl
      simp only [Space.subRss, hrss, howned, bit_true, zeroPte_owned, bit_false]
      omega
    · exact hdrop.panicked.trans hi.calm
  rename_i hown
  have howned : (s.mm.pte va).owned = false := by
    rw [Pte.owned]
    exact Bool.eq_false_iff.mpr hown
  refine hi.store va zeroPte ht rfl ?_ hi.free ?_ (.refl s) hi.calm (by simp)
  · intro p
    rw [owns_of_not_owned howned, owns_of_not_owned zeroPte_owned]
    rfl
  · rw [howned, zeroPte_owned]
    rfl

theorem zapRange_inv (hi : Inv ext l s) (va stop : Nat) :
    Inv ext l (zapRange s va stop) ∧ Gentle s (zapRange s va stop) := by
  fun_induction zapRange s va stop with
  | case1 s va _ _ ih => exact ih hi
  | case2 s va _ _ _ _ ih => exact ih hi
  | case3 s va _ _ _ _ _ ih =>
    have hzap := zapPte_inv hi va
    have h := ih hzap.1
    exact ⟨h.1, hzap.2.trans h.2⟩
  | case4 s va _ => exact ⟨hi, .refl s⟩

theorem releasePte_mm_pgd (s : Space) (e : Pte) : (releasePte s e).mm.pgd = s.mm.pgd := by
  unfold releasePte pagePut
  split
  · split <;> rfl
  · rfl

theorem zapPte_entry (s : Space) (va : Nat) (x : Slot) (h : ((zapPte s va).mm.pgd.entry x).valid = true) :
    (s.mm.pgd.entry x).valid = true ∧ x ≠ slot va := by
  simp only [zapPte] at h
  split at h
  · rename_i hvalid
    rw [releasePte_mm_pgd] at h
    have hstore : ((s.setPte va zeroPte).mm.pgd.entry x) = if x = slot va then zeroPte else s.mm.pgd.entry x :=
      entry_store (hasTable_of_valid hvalid) zeroPte x
    rw [hstore] at h
    split at h
    · cases h
    · exact ⟨h, ‹_›⟩
  rename_i hvalid
  refine ⟨h, ?_⟩
  rintro rfl
  exact hvalid h

theorem zapRange_valid (s : Space) (va stop : Nat) (x : Slot)
    (h : ((zapRange s va stop).mm.pgd.entry x).valid = true) : (s.mm.pgd.entry x).valid = true := by
  fun_induction zapRange s va stop with
  | case1 s va _ _ ih => exact ih h
  | case2 s va _ _ _ _ ih => exact ih h
  | case3 s va _ _ _ _ _ ih => exact (zapPte_entry s va x (ih h)).1
  | case4 s va _ => exact h

theorem slot_l1_eq (h : x.addr / L1_SIZE = va / L1_SIZE) : x.l1 = (slot va).l1 := by
  rw [← slot_addr x]
  exact Fin.ext (congrArg (· % PT_ENTRIES) h)

theorem slot_l2_eq (h : x.addr / L2_SIZE = va / L2_SIZE) : x.l2 = (slot va).l2 := by
  rw [← slot_addr x]
  exact Fin.ext (congrArg (· % PT_ENTRIES) h)

theorem zapRange_clear (s : Space) (va stop : Nat) (hd : PAGE_SIZE ∣ va) (x : Slot) (hlo : va ≤ x.addr)
    (hhi : x.addr < stop) : ((zapRange s va stop).mm.pgd.entry x).valid = false := by
  have hxd := x.addr_dvd
  fun_induction zapRange s va stop with
  | case1 s va hlt hnone ih =>
    by_cases hnext : alignDown va L1_SIZE + L1_SIZE ≤ x.addr
    · refine ih ?_ hnext
      simp only [PAGE_SIZE, alignDown, L1_SIZE]
      omega
    by_contra hc
    have hx := zapRange_valid s _ stop x (by simpa using hc)
    have hl1 : x.l1 = (slot va).l1 := slot_l1_eq (by simp only [alignDown, L1_SIZE] at *; omega)
    simp [Pgd.entry, hl1, hnone] at hx
  | case2 s va hlt l2 hsome hnone ih =>
    by_cases hnext : alignDown va L2_SIZE + L2_SIZE ≤ x.addr
    · refine ih ?_ hnext
      simp only [PAGE_SIZE, alignDown, L2_SIZE]
      omega
    by_contra hc
    have hx := zapRange_valid s _ stop x (by simpa using hc)
    have hl1 : x.l1 = (slot va).l1 := slot_l1_eq (by simp only [alignDown, L1_SIZE, L2_SIZE] at *; omega)
    have hl2 : x.l2 = (slot va).l2 := slot_l2_eq (by simp only [alignDown, L2_SIZE] at *; omega)
    simp [Pgd.entry, hl1, hl2, hsome, hnone] at hx
  | case3 s va hlt l2 hsome l3 hsome' ih =>
    by_cases hnext : va + PAGE_SIZE ≤ x.addr
    · exact ih (Nat.dvd_add hd (Nat.dvd_refl _)) hnext
    by_contra hc
    have hx := zapRange_valid (zapPte s va) _ stop x (by simpa using hc)
    refine (zapPte_entry s va x hx).2 ?_
    have : x.addr = va := by simp only [PAGE_SIZE] at *; omega
    rw [← this, slot_addr]
  | case4 s va hge => omega

theorem releasePte_spec {e : Pte} (hpos : e.owned = true → 0 < (s.frame e.frame).refcount) :
    (releasePte s e).panicked = s.panicked ∧
      (∀ p, ((releasePte s e).frame p).refcount + bit (e.owns p) = (s.frame p).refcount) ∧
      ∀ p, ((s.frame p).free = true ↔ (s.frame p).refcount = 0) →
        (((releasePte s e).frame p).free = true ↔ ((releasePte s e).frame p).refcount = 0) := by
  unfold releasePte
  split
  · rename_i hown
    have howned : e.owned = true := hown
    have hdrop := pagePut_spec (hpos howned)
    refine ⟨hdrop.panicked, fun p => ?_, fun p => hdrop.free p⟩
    rw [bit_owns howned]
    exact hdrop.count p
  rename_i hown
  have howned : e.owned = false := Bool.eq_false_iff.mpr hown
  refine ⟨rfl, fun p => ?_, fun p hp => hp⟩
  rw [owns_of_not_owned howned]
  rfl

theorem releaseAll_spec (entries : List Pte) (rest : Nat → Nat)
    (hcount : ∀ p, (s.frame p).refcount = (entries.map fun e => bit (e.owns p)).sum + rest p)
    (hfree : ∀ p, (s.frame p).free = true ↔ (s.frame p).refcount = 0) :
    (entries.foldl releasePte s).panicked = s.panicked ∧
      (∀ p, ((entries.foldl releasePte s).frame p).refcount = rest p) ∧
      ∀ p, ((entries.foldl releasePte s).frame p).free = true ↔ ((entries.foldl releasePte s).frame p).refcount = 0 := by
  induction entries generalizing s with
  | nil => exact ⟨rfl, fun p => by simpa using hcount p, hfree⟩
  | cons e entries ih =>
  have hpos : e.owned = true → 0 < (s.frame e.frame).refcount := by
    intro ho
    have h := hcount e.frame
    simp only [map_cons, sum_cons, bit_owns ho, if_true] at h
    omega
  obtain ⟨hcalm, hdrop, hfree'⟩ := releasePte_spec hpos
  have h := ih (s := releasePte s e) (fun p => ?_) fun p => hfree' p (hfree p)
  · exact ⟨h.1.trans hcalm, h.2⟩
  have h1 := hdrop p
  have h2 := hcount p
  simp only [map_cons, sum_cons] at h2
  omega

def Pgd.all (pgd : Pgd) : List Pte :=
  entries.flatMap fun i => match pgd i with
    | none => []
    | some l2 => entries.flatMap fun j => match l2 j with
      | none => []
      | some l3 => entries.map l3

theorem foldl_releasePte_pgd (es : List Pte) (s : Space) : (es.foldl releasePte s).mm.pgd = s.mm.pgd := by
  induction es generalizing s with
  | nil => rfl
  | cons e es ih => exact (ih _).trans (releasePte_mm_pgd s e)

theorem freeTables_eq (s : Space) : freeTables s = s.mm.pgd.all.foldl releasePte s := by
  unfold freeTables Pgd.all
  generalize entries = is
  suffices h : ∀ (js : List (Fin PT_ENTRIES)) (pgd : Pgd) (t : Space), t.mm.pgd = pgd →
      js.foldl (fun s i => match s.mm.pgd i with
        | none => s
        | some l2 => is.foldl (fun s j => match l2 j with
          | none => s
          | some l3 => is.foldl (fun s k => releasePte s (l3 k)) s) s) t =
      (js.flatMap fun i => match pgd i with
        | none => []
        | some l2 => is.flatMap fun j => match l2 j with
          | none => []
          | some l3 => is.map l3).foldl releasePte t from h is s.mm.pgd s rfl
  intro js pgd
  induction js with
  | nil => exact fun _ _ => rfl
  | cons i js ih =>
  intro t ht
  rw [foldl_cons, flatMap_cons, foldl_append]
  have hstep : (match t.mm.pgd i with
      | none => t
      | some l2 => is.foldl (fun s j => match l2 j with
        | none => s
        | some l3 => is.foldl (fun s k => releasePte s (l3 k)) s) t) =
      (match pgd i with
      | none => []
      | some l2 => is.flatMap fun j => match l2 j with
        | none => []
        | some l3 => is.map l3).foldl releasePte t := by
    rw [ht]
    cases pgd i with
    | none => rfl
    | some l2 =>
    simp only [foldl_flatMap]
    congr 1
    funext s j
    cases l2 j with
    | none => rfl
    | some l3 => simp only [foldl_map]
  rw [hstep]
  exact ih _ ((foldl_releasePte_pgd _ t).trans ht)

theorem sum_map_flatMap {α β : Type} (f : α → List β) (g : β → Nat) (as : List α) :
    ((as.flatMap f).map g).sum = (as.map fun a => ((f a).map g).sum).sum := by
  induction as with
  | nil => rfl
  | cons a as ih => simp [ih]

theorem sum_entries (f : Fin PT_ENTRIES → Nat) : (entries.map f).sum = ∑ i, f i := (Fin.sum_univ_def f).symm

theorem sum_all_entries (mm : Mm) (g : Pte → Nat) (hg : g zeroPte = 0) :
    (mm.pgd.all.map g).sum = ∑ x, g (mm.pgd.entry x) := by
  rw [← Equiv.sum_comp Slot.equiv, Fintype.sum_prod_type, Pgd.all, sum_map_flatMap, sum_entries]
  refine Finset.sum_congr rfl fun i _ => ?_
  rw [Fintype.sum_prod_type]
  cases hl2 : mm.pgd i with
  | none => simp [Slot.equiv, Pgd.entry, hl2, hg]
  | some l2 =>
  simp only
  rw [sum_map_flatMap, sum_entries]
  refine Finset.sum_congr rfl fun j _ => ?_
  cases hl3 : l2 j with
  | none => simp [Slot.equiv, Pgd.entry, hl2, hl3, hg]
  | some l3 =>
    rw [map_map, sum_entries]
    refine Finset.sum_congr rfl fun k _ => ?_
    simp [Slot.equiv, Pgd.entry, hl2, hl3]

theorem freeTables_spec (hi : Inv ext l s) :
    (freeTables s).panicked = false ∧ (∀ p, ((freeTables s).frame p).refcount = ext p) ∧
      ∀ p, ((freeTables s).frame p).free = true ↔ ((freeTables s).frame p).refcount = 0 := by
  rw [freeTables_eq]
  have h := releaseAll_spec s.mm.pgd.all ext (fun p => ?_) hi.free
  · exact ⟨h.1.trans hi.calm, h.2⟩
  · rw [sum_all_entries s.mm (fun e => bit (e.owns p)) rfl, ← refs_eq_sum]
    exact hi.refcount p

end Olux.Vm
