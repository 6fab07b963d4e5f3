import Olux.Vm.Isolation
import Olux.Vm.Mapping

namespace Olux.Vm

open Olux.Lib List

variable {lo start stop x va : Nat} {prot : UInt32} {flags : VmFlags} {v : Vma} {l : List Vma} {s t : Space}
  {f : Vma → Space → Option Vma × Space} {P : Space → Prop}

theorem forRange_reaches (halloc : ∀ t, P t → P (kmalloc t).2) (hkeep : ∀ v t, P t → P (f v t).2)
    (hhit : ∀ v t, v.Ok lo → v.Contains x → P (f v t).2) (hd : PAGE_SIZE ∣ start) (hd' : PAGE_SIZE ∣ stop)
    (hx : start ≤ x) (hx' : x < stop) (hl : VmasOk lo l) (h : P s ∨ ∃ v ∈ l, v.Contains x)
    (hok : (forRange start stop f l s).1 = true) : P (forRange start stop f l s).2.2 := by
  fun_induction forRange start stop f l s with
  | case1 s => simpa using h
  | case2 s v rest hle ok l t heq ih =>
    rw [heq] at ih
    refine ih hl.tail (h.imp_right ?_) hok
    rintro ⟨w, hw, hc⟩
    rcases mem_cons.mp hw with rfl | hw
    · exact absurd hc.2 (by omega)
    · exact ⟨w, hw, hc⟩
  | case3 s v rest _ hle =>
    refine h.resolve_right ?_
    rintro ⟨w, hw, hc⟩
    have hlt := (hl.each v mem_cons_self).lt
    have hc := hc.1
    rcases mem_cons.mp hw with rfl | hw
    · omega
    · have := hl.head_le w hw
      omega
  | case4 => cases hok
  | case5 s v rest hs hs' hlt t hk ok l u heq ih =>
    rw [heq] at ih
    have hsplit := @VmasOk.split lo start v [] rest hl hlt (by omega) hd
    obtain rfl : (kmalloc s).2 = t := congrArg Prod.snd hk
    refine ih hsplit.tail (h.imp (halloc s) ?_) hok
    rintro ⟨w, hw, hc⟩
    rcases mem_cons.mp hw with rfl | hw
    · exact ⟨_, mem_cons_self, hx, hc.2⟩
    · exact ⟨w, mem_cons_of_mem _ hw, hc⟩
  | case6 => cases hok
  | case7 s v rest hs hs' hge hlt t hk kept u hcall ok l w heq ih =>
    rw [heq] at ih
    have hsplit := @VmasOk.split lo stop v [] rest hl (by omega) hlt hd'
    obtain rfl : (kmalloc s).2 = t := congrArg Prod.snd hk
    obtain rfl : (f (v.lower stop) (kmalloc s).2).2 = u := congrArg Prod.snd hcall
    refine ih hsplit.tail ?_ hok
    rcases h with hp | ⟨w, hw, hc⟩
    · exact .inl (hkeep _ _ (halloc s hp))
    rcases mem_cons.mp hw with rfl | hw
    · exact .inl (hhit _ _ (hsplit.each _ mem_cons_self) ⟨hc.1, hx'⟩)
    · exact .inr ⟨w, mem_cons_of_mem _ hw, hc⟩
  | case8 s v rest hs hs' hge hle kept t hcall ok l u heq ih =>
  rw [heq] at ih
  obtain rfl : (f v s).2 = t := congrArg Prod.snd hcall
  refine ih hl.tail ?_ hok
  rcases h with hp | ⟨w, hw, hc⟩
  · exact .inl (hkeep v s hp)
  rcases mem_cons.mp hw with rfl | hw
  · exact .inl (hhit w s (hl.each w mem_cons_self) hc)
  · exact .inr ⟨w, hw, hc⟩

def Enough (start stop : Nat) (l : List Vma) (s : Space) : Prop :=
  (∀ v ∈ l, stop ≤ v.start) ∨ (∃ r, s.supply.objects = true :: r ∧ ∀ v ∈ l, start ≤ v.start) ∨
    ∃ r, s.supply.objects = true :: true :: r

theorem Enough.tail (h : Enough start stop (v :: l) s) (hs : t.supply = s.supply) : Enough start stop l t := by
  rw [Enough, hs]
  refine h.imp (fun h w hw => h w (mem_cons_of_mem v hw)) (.imp_left ?_)
  exact fun ⟨r, hr, h⟩ => ⟨r, hr, fun w hw => h w (mem_cons_of_mem v hw)⟩

theorem kmalloc_of_objects {r : List Bool} (h : s.supply.objects = true :: r) :
    (kmalloc s).1 = true ∧ (kmalloc s).2.supply.objects = r := by
  simp [kmalloc, Supply.object, h]

theorem Enough.kmalloc (h : Enough start stop (v :: l) s) (hv : v.start < stop) :
    (kmalloc s).1 = true ∧ (v.start < start → ∃ r, (kmalloc s).2.supply.objects = true :: r) := by
  rcases h with h | ⟨r, hr, h⟩ | ⟨r, hr⟩
  · exact absurd (h v mem_cons_self) (by omega)
  · exact ⟨(kmalloc_of_objects hr).1, fun hlt => absurd (h v mem_cons_self) (by omega)⟩
  · exact ⟨(kmalloc_of_objects hr).1, fun _ => ⟨r, (kmalloc_of_objects hr).2⟩⟩

theorem forRange_succeeds (hf : ∀ v t, (f v t).2.supply = t.supply) (hd : PAGE_SIZE ∣ start) (hd' : PAGE_SIZE ∣ stop)
    (hl : VmasOk lo l) (h : Enough start stop l s) : (forRange start stop f l s).1 = true := by
  fun_induction forRange start stop f l s with
  | case1 s => rfl
  | case2 s v rest hle ok l t heq ih =>
    rw [heq] at ih
    exact ih hl.tail (h.tail rfl)
  | case3 s v rest _ hle => rfl
  | case4 s v rest hs hs' hlt t hk =>
    have := (h.kmalloc (by omega)).1
    rw [hk] at this
    exact this
  | case5 s v rest hs hs' hlt t hk ok l u heq ih =>
    rw [heq] at ih
    have hsplit := @VmasOk.split lo start v [] rest hl hlt (by omega) hd
    obtain rfl : (kmalloc s).2 = t := congrArg Prod.snd hk
    obtain ⟨r, hr⟩ := (h.kmalloc (by omega)).2 hlt
    refine ih hsplit.tail (.inr (.inl ⟨r, hr, forall_mem_cons.mpr ⟨Nat.le_refl _, fun w hw => ?_⟩⟩))
    have := hl.head_le w hw
    omega
  | case6 s v rest hs hs' hge hlt t hk =>
    have := (h.kmalloc (by omega)).1
    rw [hk] at this
    exact this
  | case7 s v rest hs hs' hge hlt t hk kept u hcall ok l w heq ih =>
    rw [heq] at ih
    have hsplit := @VmasOk.split lo stop v [] rest hl (by omega) hlt hd'
    refine ih hsplit.tail (.inl (forall_mem_cons.mpr ⟨Nat.le_refl _, fun w hw => ?_⟩))
    have := hl.head_le w hw
    omega
  | case8 s v rest hs hs' hge hle kept t hcall ok l u heq ih =>
    rw [heq] at ih
    obtain rfl : (f v s).2 = t := congrArg Prod.snd hcall
    exact ih hl.tail (h.tail (hf v s))

theorem zapRange_supply (s : Space) (va stop : Nat) : (zapRange s va stop).supply = s.supply := by
  have hput (s : Space) (p : Nat) : (pagePut s p).supply = s.supply := by
    unfold pagePut
    split <;> rfl
  have hone (s : Space) (va : Nat) : (zapPte s va).supply = s.supply := by
    simp only [zapPte, releasePte]
    split
    · split
      · exact hput _ _
      · rfl
    · rfl
  fun_induction zapRange s va stop with
  | case1 s va _ _ ih => exact ih
  | case2 s va _ _ _ _ ih => exact ih
  | case3 s va _ _ _ _ _ ih => exact ih.trans (hone s va)
  | case4 s va _ => rfl

theorem page_bounds (hd : PAGE_SIZE ∣ start) (hd' : PAGE_SIZE ∣ stop) (hx : start ≤ x) (hx' : x < stop)
    (hend : stop ≤ USER_VA_END) : start ≤ (slot x).addr ∧ (slot x).addr < stop := by
  have hb := alignDown_bounds x
  rw [slot_alignDown, addr_slot (alignDown_dvd x) (by omega)]
  simp only [PAGE_SIZE, alignDown] at *
  omega

theorem unmapRegion_empties (hl : VmasOk lo s.mm.vmas)
    (hplaced : ∀ y, (s.mm.pgd.entry y).valid = true → ∃ v ∈ s.mm.vmas, v.Contains y.addr)
    (hd : PAGE_SIZE ∣ start) (hd' : PAGE_SIZE ∣ stop) (hend : stop ≤ USER_VA_END) (hx : start ≤ x) (hx' : x < stop)
    (hok : (forRange start stop (fun v s => (none, zapRange s v.start v.stop)) s.mm.vmas s).1 = true) :
    mappingAt (unmapRegion s start stop).2.mm.vmas x = none ∧ ((unmapRegion s start stop).2.mm.pte x).valid = false := by
  refine ⟨mappingAt_eq_none fun v hv hc => ?_, ?_⟩
  · obtain ⟨h1, h2⟩ := hc
    rcases forRange_each (Q := fun _ => False) (by simp) hd hd' _ _ hl hok v hv with h | h | h
    · omega
    · omega
    · exact h
  obtain ⟨hb, hb'⟩ := page_bounds hd hd' hx hx' hend
  refine forRange_reaches (P := fun t => (t.mm.pgd.entry (slot x)).valid = false) (fun t h => h) ?_ ?_ hd hd' hb hb' hl ?_ hok
  · exact fun v t h => Bool.eq_false_iff.mpr fun hv => Bool.eq_false_iff.mp h (zapRange_valid t _ _ _ hv)
  · exact fun v t hv hc => zapRange_clear t v.start v.stop hv.start_dvd _ hc.1 hc.2
  cases hv : (s.mm.pgd.entry (slot x)).valid with
  | false => exact .inl rfl
  | true => exact .inr (hplaced _ hv)

def Pte.Grants (e : Pte) (flags : VmFlags) : Prop :=
  e.valid = true → e.uxn = !flags.exec ∧ e.swWrite = flags.write ∧ e.rdonly = (!flags.write || e.swCow)

theorem protectPte_pte (flags : VmFlags) (s : Space) (va x : Nat) :
    if slot x = slot va then ((protectPte flags s va).mm.pte x).Grants flags
    else (protectPte flags s va).mm.pte x = s.mm.pte x := by
  cases hv : (s.mm.pte va).valid with
  | false =>
    rw [show protectPte flags s va = s by simp [protectPte, hv]]
    split
    · rename_i hslot
      intro h
      rw [Mm.pte, hslot] at h
      cases hv.symm.trans h
    · rfl
  | true =>
  have hset (e : Pte) : (s.setPte va e).mm.pte x = if slot x = slot va then e else s.mm.pte x :=
    entry_store (hasTable_of_valid hv) e (slot x)
  simp only [protectPte, hv, Bool.true_eq_false, if_false]
  split
  · rename_i hslot
    split
    · rw [hset, if_pos hslot]
      exact fun _ => ⟨rfl, rfl, by simp⟩
    rename_i hcow
    simp only [Bool.or_eq_true, not_or] at hcow
    rw [hset, if_pos hslot]
    exact fun _ => ⟨rfl, rfl, by simp [pteProt, hcow.1]⟩
  · split <;> rw [hset, if_neg ‹_›]

theorem foldl_protectPte_grants (flags : VmFlags) (pages : List Nat)
    (h : (s.mm.pte x).Grants flags ∨ ∃ va ∈ pages, slot x = slot va) :
    ((pages.foldl (protectPte flags) s).mm.pte x).Grants flags := by
  induction pages generalizing s with
  | nil => simpa using h
  | cons va pages ih =>
  refine ih ?_
  have hone := protectPte_pte flags s va x
  split at hone
  · exact .inl hone
  rename_i hne
  rw [hone]
  simpa [hne] using h

theorem foldl_protectPte_untouched (pages : List Nat)
    (h : ∀ va ∈ pages, PAGE_SIZE ∣ va ∧ va < USER_VA_END ∧ (x < va ∨ va + PAGE_SIZE ≤ x)) :
    Untouched x s (pages.foldl (protectPte flags) s) := by
  induction pages generalizing s with
  | nil => exact .refl x s
  | cons va pages ih =>
  obtain ⟨⟨hd, hva, hx⟩, h⟩ := forall_mem_cons.mp h
  have hb := congrArg Mm.vmas (protectPte_bare flags s va)
  refine .trans ⟨congrArg (mappingAt · x) hb, fun hend => ?_, fun p => ?_⟩ (ih h)
  · have hone := protectPte_pte flags s va x
    rwa [if_neg (slot_ne hd hva hend hx)] at hone
  simp only [protectPte]
  split
  · rfl
  · split <;> rfl

def VmFlags.withProt (flags : VmFlags) (prot : UInt32) : VmFlags :=
  { flags with read := (protToVm prot).read, write := (protToVm prot).write, exec := (protToVm prot).exec }

def reprotect (prot : UInt32) (m : VmFlags × Option Nat × Nat × Bool × Nat) : VmFlags × Option Nat × Nat × Bool × Nat :=
  (m.1.withProt prot, m.2)

structure Protected (prot : UInt32) (x : Nat) (s t : Space) : Prop where
  mapping : ∃ m, mappingAt s.mm.vmas x = some m ∧ mappingAt t.mm.vmas x = some (reprotect prot m)
  pte : (t.mm.pte x).Grants (protToVm prot)

theorem rangeMapped_contains {a : Nat} (h : rangeMapped l a stop = true) (hx : a ≤ x) (hx' : x < stop) :
    ∃ v ∈ l, v.Contains x := by
  fun_induction rangeMapped l a stop with
  | case1 a hlt hnone => cases h
  | case2 a hlt v hfind ih =>
    by_cases hv : x < v.stop
    · obtain ⟨hmem, hc⟩ := vmaFind_mem hfind
      exact ⟨v, hmem, Nat.le_trans hc.1 hx, hv⟩
    · exact ih h (Nat.not_lt.mp hv)
  | case3 a hge => omega

theorem protectVma_untouched (prot : UInt32) (hv : v.Ok lo) (hx : x < v.start ∨ v.stop ≤ x) :
    Untouched x s (protectVma prot v s).2 := by
  refine foldl_protectPte_untouched _ fun va hva => ?_
  obtain ⟨h1, h2, h3⟩ := mem_pagesFrom hva
  have hd := h3 hv.start_dvd
  have hstop := hv.stop_dvd
  have hmax := hv.max
  refine ⟨hd, by omega, ?_⟩
  simp only [PAGE_SIZE] at *
  omega

theorem protectVma_grants (hv : v.Ok lo) (hc : v.Contains (slot x).addr) :
    ((protectVma prot v s).2.mm.pte x).Grants (protToVm prot) := by
  refine foldl_protectPte_grants (v.flags.withProt prot) _ (.inr ⟨(slot x).addr, ?_, (slot_addr _).symm⟩)
  have hd := (slot x).addr_dvd
  obtain ⟨h1, h2⟩ := hc
  have h3 := hv.start_dvd
  refine mem_map.mpr ⟨((slot x).addr - v.start) / PAGE_SIZE, mem_range.mpr ?_, ?_⟩ <;> simp only [PAGE_SIZE] at * <;> omega

theorem mappingAt_protect (pre post : List Vma) (v : Vma) (x : Nat) :
    (mappingAt (pre ++ { v with flags := v.flags.withProt prot } :: post) x).map (reprotect prot) =
      (mappingAt (pre ++ v :: post) x).map (reprotect prot) := by
  induction pre with
  | nil =>
    rw [nil_append, nil_append, mappingAt_cons, mappingAt_cons]
    split <;> rfl
  | cons w pre ih =>
    rw [cons_append, cons_append, mappingAt_cons, mappingAt_cons]
    split
    · rfl
    · exact ih

theorem mappingAt_eq_some {m : VmFlags × Option Nat × Nat × Bool × Nat} (h : mappingAt l x = some m) :
    ∃ v ∈ l, v.Contains x ∧ m = v.at x := by
  obtain ⟨v, hfind, rfl⟩ := Option.map_eq_some_iff.mp h
  exact ⟨v, mem_of_find?_eq_some hfind, by simpa [Vma.Contains] using find?_some hfind, rfl⟩

theorem forRange_protect (prot : UInt32) (hl : VmasOk lo s.mm.vmas) (hd : PAGE_SIZE ∣ start) (hd' : PAGE_SIZE ∣ stop)
    (hle : start ≤ stop) (hstop : stop < 2 ^ 64) (x : Nat) :
    let r := forRange start stop (protectVma prot) s.mm.vmas s
    VmasOk lo r.2.1 ∧ (x < start ∨ stop ≤ x → Untouched x s (r.2.2.setVmas r.2.1)) ∧
      (mappingAt r.2.1 x).map (reprotect prot) = (mappingAt s.mm.vmas x).map (reprotect prot) := by
  refine forRange_rule start stop (protectVma prot) (fun l t => VmasOk lo l ∧
    (x < start ∨ stop ≤ x → Untouched x s (t.setVmas l)) ∧
      (mappingAt l x).map (reprotect prot) = (mappingAt s.mm.vmas x).map (reprotect prot))
    ?_ ?_ ?_ [] s.mm.vmas s ⟨hl, fun _ => .refl x s, rfl⟩
  · exact fun l t h => ⟨h.1, fun hx => ⟨(h.2.1 hx).mapping, (h.2.1 hx).pte, (h.2.1 hx).data⟩, h.2.2⟩
  · intro pre v post t addr haddr hlo hhi ⟨ht, hu, hm⟩
    have hsame : mappingAt (pre ++ v.lower addr :: v.upper addr :: post) x = mappingAt (pre ++ v :: post) x :=
      mappingAt_append pre (mappingAt_split hlo hhi (by omega))
    refine ⟨ht.split hlo hhi (by rcases haddr with rfl | rfl <;> assumption), fun hx => ?_, by rw [hsame, hm]⟩
    exact ⟨hsame.trans (hu hx).mapping, (hu hx).pte, (hu hx).data⟩
  intro pre v post t h1 h2 h3 ⟨ht, hu, hm⟩
  have hv := ht.each v (by simp)
  refine ⟨ht.change ⟨hv.min, hv.lt, hv.max, hv.start_dvd, hv.stop_dvd⟩ ht.around.1 ht.around.2, fun hx => ?_,
    (mappingAt_protect pre post v x).trans hm⟩
  have hp := protectVma_untouched (s := t) prot hv (by omega : x < v.start ∨ v.stop ≤ x)
  refine ⟨Eq.trans (mappingAt_append pre ?_) (hu hx).mapping, fun h => (hp.pte h).trans ((hu hx).pte h),
    fun p => (hp.data p).trans ((hu hx).data p)⟩
  have hout : ¬ (v.start ≤ x ∧ x < v.stop) := by omega
  exact (mappingAt_cons _ _ x).trans ((if_neg hout).trans ((mappingAt_cons v post x).trans (if_neg hout)).symm)

theorem doMprotect_protected (hl : VmasOk lo s.mm.vmas) (hd : PAGE_SIZE ∣ start) (hd' : PAGE_SIZE ∣ stop)
    (hend : stop ≤ USER_VA_END) (hx : start ≤ x) (hx' : x < stop) (hmapped : rangeMapped s.mm.vmas start stop = true)
    (hok : (forRange start stop (protectVma prot) s.mm.vmas s).1 = true) :
    let r := forRange start stop (protectVma prot) s.mm.vmas s
    Protected prot x s (r.2.2.setVmas r.2.1) := by
  have hva : USER_VA_END = 2 ^ 39 := rfl
  have hm := (forRange_protect prot hl hd hd' (by omega) (by omega) x).2.2
  refine ⟨?_, ?_⟩
  · obtain ⟨v, hv, hc⟩ := rangeMapped_contains hmapped hx hx'
    have hsome : mappingAt s.mm.vmas x ≠ none := by
      rw [mappingAt, Ne, Option.map_eq_none_iff, find?_eq_none]
      exact fun h => h v hv (by simpa [Vma.Contains] using hc)
    obtain ⟨m, hms⟩ := Option.ne_none_iff_exists'.mp hsome
    rw [hms, Option.map_some] at hm
    obtain ⟨m', hmt, hg⟩ := Option.map_eq_some_iff.mp hm
    obtain ⟨w, hw, hcw, rfl⟩ := mappingAt_eq_some hmt
    refine ⟨m, hms, hmt.trans (congrArg some (Eq.trans ?_ hg))⟩
    have hnew (v : Vma) (s : Space) : ∀ w ∈ (protectVma prot v s).1, w.flags.withProt prot = w.flags := by
      rintro w ⟨⟩
      rfl
    rcases forRange_each hnew hd hd' _ _ hl hok w hw with h | h | h
    · exact absurd hcw.2 (by omega)
    · exact absurd hcw.1 (by omega)
    · exact Prod.ext h.symm rfl
  obtain ⟨hb, hb'⟩ := page_bounds hd hd' hx hx' hend
  exact forRange_reaches (P := fun t => (t.mm.pte x).Grants (protToVm prot)) (fun t h => h)
    (fun v t h => foldl_protectPte_grants (v.flags.withProt prot) _ (.inl h)) (fun v t => protectVma_grants)
    hd hd' hb hb' hl (.inr (rangeMapped_contains hmapped hb hb')) hok

theorem doMunmap_doMprotect_exact {rest : List Bool} (hl : VmasOk lo s.mm.vmas)
    (hplaced : ∀ y, (s.mm.pgd.entry y).valid = true → ∃ v ∈ s.mm.vmas, v.Contains y.addr)
    (hobj : s.supply.objects = true :: true :: rest) (hd : PAGE_SIZE ∣ start) (hd' : PAGE_SIZE ∣ stop)
    (hle : start ≤ stop) (hend : stop ≤ USER_VA_END) (prot : UInt32) :
    (∀ x, start ≤ x → x < stop → (doMunmap s start (stop - start)).1 = 0 ∧
      mappingAt (doMunmap s start (stop - start)).2.mm.vmas x = none ∧
      ((doMunmap s start (stop - start)).2.mm.pte x).valid = false) ∧
    ((doMprotect s start (stop - start) prot).1 = 0 →
      ∀ x, start ≤ x → x < stop → Protected prot x s (doMprotect s start (stop - start) prot).2) ∧
    ∀ x, x < start ∨ stop ≤ x → Untouched x s (doMunmap s start (stop - start)).2 ∧
      Untouched x s (doMprotect s start (stop - start) prot).2 := by
  have hva : USER_VA_END = 2 ^ 39 := rfl
  have hlen : add64 start (alignUp (stop - start) PAGE_SIZE) = stop := by
    rw [alignUp_of_dvd (Nat.dvd_sub hd' hd) (by omega), add64_of_lt (by omega), Nat.add_sub_cancel' hle]
  have hmod : ¬ start % PAGE_SIZE ≠ 0 := fun h => h (Nat.mod_eq_zero_of_dvd hd)
  have hun : start < stop → doMunmap s start (stop - start) = unmapRegion s start stop := fun hlt => by
    simp only [doMunmap, hlen]
    rw [if_neg (by omega), if_neg (by omega)]
  refine ⟨fun x hx hx' => ?_, fun hr x hx hx' => ?_, fun x hx => ⟨?_, ?_⟩⟩
  · have hok := forRange_succeeds (f := fun v s => (none, zapRange s v.start v.stop)) (fun v t => zapRange_supply t _ _)
      hd hd' hl (.inr (.inr ⟨rest, hobj⟩))
    rw [hun (by omega)]
    exact ⟨by simp only [unmapRegion, hok, if_true], unmapRegion_empties hl hplaced hd hd' hend hx hx' hok⟩
  · simp only [doMprotect, hlen, if_neg hmod, if_neg (Nat.not_lt.mpr hle)] at hr ⊢
    split at hr
    · cases hr
    rename_i hmapped
    rw [if_neg hmapped]
    refine doMprotect_protected hl hd hd' hend hx hx' (by simpa using hmapped) ?_
    by_contra hok
    simp [hok, ENOMEM] at hr
  · rcases hle.lt_or_eq with hlt | rfl
    · rw [hun hlt]
      exact unmapRegion_untouched hl hd hd' (by omega) (by omega) (hx.imp_right .inl)
    · rw [Nat.sub_self, doMunmap, if_pos (.inr rfl)]
      exact .refl x s
  simp only [doMprotect, hlen, if_neg hmod, if_neg (Nat.not_lt.mpr hle)]
  split
  · exact .refl x s
  · exact (forRange_protect prot hl hd hd' hle (by omega) x).2.1 hx

-- The stack with one of its pages in use.
def topPage : Pgd := fun a =>
  if a = (slot 0x7fefffe000).l1 then
    some fun b => if b = (slot 0x7fefffe000).l2 then
      some fun c => if c = (slot 0x7fefffe000).l3 then pteProt { read := true, write := true } 5 else zeroPte
    else none
  else none

def stackTouched : Space :=
  { stackOnly with
    mm := { stackOnly.mm with pgd := topPage }
    supply := { stackOnly.supply with objects := [true, true] } }

theorem topPage_valid {y : Slot} (h : (topPage.entry y).valid = true) : y = slot 0x7fefffe000 := by
  unfold Pgd.entry topPage at h
  by_cases h1 : y.l1 = (slot 0x7fefffe000).l1
  · by_cases h2 : y.l2 = (slot 0x7fefffe000).l2
    · by_cases h3 : y.l3 = (slot 0x7fefffe000).l3
      · exact Slot.ext h1 h2 h3
      · simp [h1, h2, h3, zeroPte] at h
    · simp [h1, h2, zeroPte] at h
  · simp [h1, zeroPte] at h

theorem doMunmap_doMprotect_exact_stackTouched : (stackTouched.mm.pte 0x7fefffe004).valid = true ∧
    ((doMunmap stackTouched 0x7fefffe000 (0x7feffff000 - 0x7fefffe000)).2.mm.pte 0x7fefffe004).valid = false :=
  ⟨by decide, ((doMunmap_doMprotect_exact (s := stackTouched) stackOnly_exec.vmas
    (fun y h => ⟨_, mem_singleton_self _, by rw [topPage_valid h]; exact ⟨by decide, by decide⟩⟩) rfl (by decide) (by decide)
    (by decide) (by decide) 1).1 0x7fefffe004 (by decide) (by decide)).2.2⟩

end Olux.Vm
