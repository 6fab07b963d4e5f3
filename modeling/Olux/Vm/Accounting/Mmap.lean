import Olux.Vm.Accounting.Fault

namespace Olux.Vm

open Olux.Lib List Option

variable {ext : Nat → Nat} {l pre post : List Vma}
  {start stop va addr off alen bytes len src dst old oldLen newLen : Nat} {v w : Vma} {s t : Space} {b : Bool}
  {prot flags : UInt32}

theorem mem_pagesFrom (h : va ∈ pagesFrom start stop) :
    start ≤ va ∧ va < stop ∧ (PAGE_SIZE ∣ start → PAGE_SIZE ∣ va) := by
  simp only [pagesFrom, List.mem_map, List.mem_range] at h
  obtain ⟨i, hi, rfl⟩ := h
  simp only [PAGE_SIZE] at *
  omega

theorem covers_of_mem_pagesFrom (hl : VmasOk 0 l) (hv : v ∈ l) (h : va ∈ pagesFrom v.start v.stop) : Covers l v va := by
  obtain ⟨hlo, hhi, hd⟩ := mem_pagesFrom h
  have hok := hl.each v hv
  exact ⟨hv, ⟨hlo, hhi⟩, hd hok.start_dvd, hhi.trans_le hok.max⟩

theorem VmasOk.eq_of_contains {lo : Nat} (hl : VmasOk lo l) (hv : v ∈ l) (hw : w ∈ l) (h : v.Contains addr)
    (h' : w.Contains addr) : v = w :=
  some.inj ((vmaFind_of_contains hl hv h).symm.trans (vmaFind_of_contains hl hw h'))

theorem Inv.fine (hi : Inv ext l s) (hcov : Covers l v va)
    (hvalid : (s.mm.pte va).valid = true) : Fine s.frame v (s.mm.pte va) := by
  obtain ⟨w, hw, hc, hf⟩ := hi.placed (slot va) hvalid
  rw [hi.vmas.eq_of_contains hcov.mem hw hcov.addr hc]
  exact hf

theorem Inv.split (hi : Inv ext (pre ++ v :: post) s) (hlo : v.start < addr) (hhi : addr < v.stop)
    (hd : PAGE_SIZE ∣ addr) :
    Inv ext (pre ++ v.lower addr :: v.upper addr :: post) s := by
  refine hi.relist (hi.vmas.split hlo hhi hd) fun x _ u hu hc => ?_
  by_cases huv : u = v
  · subst huv
    by_cases hx : x.addr < addr
    · exact ⟨u.lower addr, by simp, ⟨hc.1, hx⟩, rfl, rfl⟩
    · exact ⟨u.upper addr, by simp, ⟨by simp only [Vma.upper]; omega, hc.2⟩, rfl, rfl⟩
  refine ⟨u, ?_, hc, rfl, rfl⟩
  simp only [mem_append, mem_cons, huv, false_or] at hu
  simp only [mem_append, mem_cons]
  tauto

theorem zapRange_drop (hi : Inv ext (pre ++ v :: post) s) : Inv ext (pre ++ post) (zapRange s v.start v.stop) := by
  have hvmas : VmasOk 0 (pre ++ ([] ++ post)) := hi.vmas.replace [] (.nil 0) (by simp) (by simp)
  refine (zapRange_inv hi v.start v.stop).1.relist hvmas fun x hx u hu hc => ?_
  by_cases huv : u = v
  · subst huv
    have hclear := zapRange_clear s u.start u.stop (hi.vmas.each u hu).start_dvd x hc.1 hc.2
    rw [hclear] at hx
    cases hx
  · refine ⟨u, ?_, hc, rfl, rfl⟩
    simpa [huv] using hu

theorem forRange_inv (hstart : PAGE_SIZE ∣ start) (hstop : PAGE_SIZE ∣ stop) {f : Vma → Space → Option Vma × Space}
    (hf : ∀ pre v post s, Inv ext (pre ++ v :: post) s →
      Inv ext (pre ++ ((f v s).1.toList ++ post)) (f v s).2 ∧ Gentle s (f v s).2) (hi : Inv ext l s) :
    Inv ext (forRange start stop f l s).2.1 (forRange start stop f l s).2.2 ∧
      Gentle s (forRange start stop f l s).2.2 := by
  refine forRange_rule start stop f (fun l t => Inv ext l t ∧ Gentle s t) ?_ ?_ ?_ [] l s ⟨hi, .refl s⟩
  · intro l t ht
    exact ⟨(kmalloc_sameMem t).inv ht.1, ht.2.trans (kmalloc_sameMem t).gentle⟩
  · intro pre v post t addr haddr hlo hhi ht
    refine ⟨ht.1.split hlo hhi ?_, ht.2⟩
    rcases haddr with rfl | rfl
    · exact hstart
    · exact hstop
  intro pre v post t _ _ _ ht
  have h := hf pre v post t ht.1
  exact ⟨h.1, ht.2.trans h.2⟩

theorem forRange_kept (hstart : PAGE_SIZE ∣ start) (hstop : PAGE_SIZE ∣ stop) {f : Vma → Space → Option Vma × Space}
    (hf : ∀ pre v post s, Inv ext (pre ++ v :: post) s →
      Inv ext (pre ++ ((f v s).1.toList ++ post)) (f v s).2 ∧ Gentle s (f v s).2) (hi : Inv ext s.mm.vmas s) :
    Kept ext s ((forRange start stop f s.mm.vmas s).2.2.setVmas (forRange start stop f s.mm.vmas s).2.1) := by
  have h := forRange_inv hstart hstop hf hi
  exact ⟨(setVmas_sameMem _ _).inv h.1, h.2.trans (setVmas_sameMem _ _).gentle⟩

theorem unmapRegion_kept (hi : Inv ext s.mm.vmas s) (hstart : PAGE_SIZE ∣ start)
    (hstop : PAGE_SIZE ∣ stop) : Kept ext s (unmapRegion s start stop).2 := by
  refine forRange_kept hstart hstop ?_ hi
  intro pre v post t ht
  exact ⟨zapRange_drop ht, (zapRange_inv ht v.start v.stop).2⟩

theorem protectPte_inv (hi : Inv ext l s) (hcov : Covers l v va) :
    Inv ext l (protectPte v.flags s va) ∧ Gentle s (protectPte v.flags s va) := by
  simp only [protectPte]
  split
  · exact ⟨hi, .refl s⟩
  rename_i hinvalid
  have hvalid : (s.mm.pte va).valid = true := by simpa using hinvalid
  have ht := hasTable_of_valid hvalid
  have hfine := hi.fine hcov hvalid
  have hstore : ∀ e : Pte, e.valid = true → e.swShared = (s.mm.pte va).swShared → e.frame = (s.mm.pte va).frame →
      Fine s.frame v e → Inv ext l (s.setPte va e) ∧ Gentle s (s.setPte va e) := by
    intro e hv hsh hfr hf
    refine hi.store va e ht rfl ?_ hi.free ?_ (.refl s) hi.calm fun _ => ⟨v, hcov.mem, hcov.addr, hf⟩
    · intro p
      simp only [Pte.owns, Pte.owned, hv, hsh, hfr, hvalid, Space.setPte]
    · simp only [Pte.owned, hv, hsh, hvalid, Space.setPte, Mm.setPte]
  split
  · refine hstore _ ?_ ?_ ?_ ⟨?_, ?_⟩
    · rfl
    · rfl
    · rfl
    · exact hfine.io
    · simp
  rename_i hcow
  refine hstore _ ?_ ?_ ?_ ⟨?_, ?_⟩
  · rfl
  · rfl
  · rfl
  · exact hfine.io
  intro hp _
  have hown := hfine.owned hp hvalid
  have hpos : 0 < (s.frame (s.mm.pte va).frame).refcount := hi.refcount_pos hown
  have hone : ¬1 < (s.frame (s.mm.pte va).frame).refcount := by
    simp only [Pte.owned, Bool.and_eq_true] at hown
    simp only [pageIsShared, hp.1, hown.2, Bool.not_false, Bool.true_and, Bool.or_eq_true, decide_eq_true_eq,
      not_or] at hcow
    exact hcow.2
  simp only [pteProt]
  omega

theorem foldl_protectPte_inv (pages : List Nat) (hpages : ∀ va ∈ pages, Covers l v va)
    (hi : Inv ext l s) : Inv ext l (pages.foldl (protectPte v.flags) s) ∧
      Gentle s (pages.foldl (protectPte v.flags) s) := by
  induction pages generalizing s with
  | nil => exact ⟨hi, .refl s⟩
  | cons va pages ih =>
    have hone := protectPte_inv hi (hpages va mem_cons_self)
    have hrest := ih (fun a ha => hpages a (mem_cons_of_mem va ha)) hone.1
    exact ⟨hrest.1, hone.2.trans hrest.2⟩

theorem protectVma_inv (hi : Inv ext (pre ++ v :: post) s) :
    Inv ext (pre ++ ((protectVma prot v s).1.toList ++ post)) (protectVma prot v s).2 ∧
      Gentle s (protectVma prot v s).2 := by
  have hv := hi.vmas.each v (by simp)
  obtain ⟨hpre, hpost⟩ := hi.vmas.around
  generalize hw : ({ v with flags := { v.flags with
    read := (protToVm prot).read, write := (protToVm prot).write, exec := (protToVm prot).exec } } : Vma) = w
  have hvmas : VmasOk 0 (pre ++ w :: post) := by
    subst hw
    exact hi.vmas.change ⟨hv.min, hv.lt, hv.max, hv.start_dvd, hv.stop_dvd⟩ hpre hpost
  have hwide : Inv ext (pre ++ w :: post) s := by
    subst hw
    exact hi.widen hvmas le_rfl le_rfl rfl rfl
  have h := foldl_protectPte_inv (v := w) (pagesFrom w.start w.stop)
    (fun va hva => covers_of_mem_pagesFrom hvmas (by simp) hva) hwide
  subst hw
  exact h

theorem doMprotect_kept (hi : Inv ext s.mm.vmas s) (addr len : Nat) (prot : UInt32) :
    Kept ext s (doMprotect s addr len prot).2 := by
  simp only [doMprotect]
  split
  · exact .refl hi
  rename_i hmod
  split
  · exact .refl hi
  split
  · exact .refl hi
  · have hd : PAGE_SIZE ∣ addr := Nat.dvd_of_mod_eq_zero (by omega)
    exact forRange_kept hd (add64_dvd hd (alignUp_dvd len)) (fun _ _ _ _ ht => protectVma_inv ht) hi

theorem Inv.remap (hi : Inv ext s.mm.vmas s) (hsame : SameMem s t) (hl : VmasOk 0 t.mm.vmas)
    (hcover : ∀ v ∈ s.mm.vmas, ∃ w ∈ t.mm.vmas, w.start ≤ v.start ∧ v.stop ≤ w.stop ∧
      w.flags.io = v.flags.io ∧ w.flags.shared = v.flags.shared) : Kept ext s t := by
  refine hsame.kept (hi.relist hl fun x _ v hv hc => ?_)
  obtain ⟨w, hw, hstart, hstop, hflags⟩ := hcover v hv
  exact ⟨w, hw, ⟨hstart.trans hc.1, hc.2.trans_le hstop⟩, hflags⟩

theorem mapVma_spec {flags : VmFlags} {file : Option Nat} (h : mapVma s start stop flags file off bytes = (b, t)) :
    SameMem s t ∧ (∀ v ∈ s.mm.vmas, v ∈ t.mm.vmas) ∧
      (b = true → ⟨start, stop, flags, file, off, bytes, 0⟩ ∈ t.mm.vmas) := by
  have hk := kmalloc_sameMem s
  have hb := kmalloc_bare s
  unfold mapVma at h
  split at h
  · rename_i heq
    rw [heq] at hk hb
    cases h
    exact ⟨hk, fun v hv => vmas_of_bare hb ▸ hv, by simp⟩
  rename_i u heq
  rw [heq] at hk hb
  cases h
  refine ⟨hk.trans (setVmas_sameMem u _), fun v hv => ?_, fun _ => ?_⟩
  · exact mem_vmaInsert.mpr (.inr (vmas_of_bare hb ▸ hv))
  · exact mem_vmaInsert.mpr (.inl rfl)

theorem mapVma_kept {flags : VmFlags} {file : Option Nat} (hi : Inv ext s.mm.vmas s) (hok : MmOk 0 t.mm)
    (h : mapVma s start stop flags file off bytes = (b, t)) :
    Kept ext s t := by
  obtain ⟨hsame, hsub, _⟩ := mapVma_spec h
  exact hi.remap hsame hok.vmas fun v hv => ⟨v, hsub v hv, le_rfl, le_rfl, rfl, rfl⟩

theorem mem_vmaModify {vmas : List Vma} (hfind : vmaFind addr vmas = some v) (f : Vma → Vma) :
    ∀ u ∈ vmas, u = v ∧ f v ∈ vmaModify addr f vmas ∨ u ∈ vmaModify addr f vmas := by
  obtain ⟨_, pre, post, heq, hmod⟩ := vmaFind_eq_some hfind f
  intro u hu
  rw [heq] at hu
  rw [hmod]
  simp only [mem_append, mem_cons] at hu ⊢
  tauto

theorem mmapDevice_kept (hok : MmOk 0 s.mm) (hi : Inv ext s.mm.vmas s) (hpos : 0 < alen) (hd : PAGE_SIZE ∣ alen)
    (hole : Hole s.mm.vmas addr alen) (vmf : VmFlags)
    (size phys off : Nat) : Kept ext s (mmapDevice s addr alen vmf size phys off).2 := by
  have hafter := mmapDevice_ok hok (Nat.zero_le _) hpos hd hole vmf size phys off
  unfold mmapDevice at hafter ⊢
  split
  · rename_i heq
    exact mapVma_kept hi (mapVma_hole_ok hok (Nat.zero_le _) hole hpos hd heq) heq
  rename_i t heq
  have ht := mapVma_hole_ok hok (Nat.zero_le _) hole hpos hd heq
  have hkept := mapVma_kept hi ht heq
  obtain ⟨hsame, hsub, hnew⟩ := mapVma_spec heq
  rw [hole.add64] at hnew heq hafter ⊢
  simp only [heq] at hafter
  have hin : Vma.Contains ⟨addr, addr + alen, vmf, none, 0, 0, 0⟩ addr := ⟨le_rfl, by simp only; omega⟩
  have hfind := vmaFind_of_contains ht.vmas (hnew rfl) hin
  simp only [hfind] at hafter ⊢
  split
  · exact hkept.trans (unmapRegion_kept hkept.inv hole.dvd (Nat.dvd_add hole.dvd hd))
  rename_i w hfb
  simp only [hfb] at hafter
  refine hi.remap (hsame.trans (setVmas_sameMem t _)) hafter.vmas fun v hv => ?_
  rcases mem_vmaModify hfind (fun _ => w) v (hsub v hv) with ⟨rfl, _⟩ | hmem
  · have := hole.apart _ hv
    simp only at this
    omega
  · exact ⟨v, hmem, le_rfl, le_rfl, rfl, rfl⟩

theorem Inv.move {s' : Space} (hi : Inv ext l s) {mm : Mm} {x y : Slot} (hxy : x ≠ y)
    (hempty : (s.mm.pgd.entry y).valid = false)
    (hfirst : ∀ z, mm.pgd.entry z = if z = y then s.mm.pgd.entry x else s.mm.pgd.entry z)
    (hlast : ∀ z, s'.mm.pgd.entry z = if z = x then zeroPte else mm.pgd.entry z) (hframe : s'.frame = s.frame)
    (hrss : s'.mm.rssPages = s.mm.rssPages) (hcalm : s'.panicked = s.panicked) (hv : v ∈ l)
    (hvx : v.Contains x.addr) (hw : w ∈ l) (hwy : w.Contains y.addr) (hflags : w.flags = v.flags) : Inv ext l s' := by
  have hnone : (s.mm.pgd.entry y).owned = false := by simp [Pte.owned, hempty]
  have hx : mm.pgd.entry x = s.mm.pgd.entry x := by rw [hfirst, if_neg hxy]
  refine ⟨hi.vmas, fun p => ?_, ?_, ?_, fun z hz => ?_, hcalm.trans hi.calm⟩
  · have h1 := refs_change hfirst p
    have h2 := refs_change hlast p
    have h3 := hi.refcount p
    rw [hx, owns_of_not_owned zeroPte_owned] at h2
    rw [owns_of_not_owned hnone] at h1
    simp only [bit_false] at h1 h2
    rw [hframe]
    omega
  · rw [hframe]
    exact hi.free
  · have h1 := mapped_change hfirst
    have h2 := mapped_change hlast
    have h3 := hi.rss
    rw [hx, zeroPte_owned] at h2
    rw [hnone] at h1
    simp only [bit_false] at h1 h2
    omega
  have hez := hlast z
  rw [hfirst] at hez
  rw [hframe]
  by_cases hzx : z = x
  · rw [if_pos hzx] at hez
    rw [hez] at hz
    cases hz
  by_cases hzy : z = y
  · rw [if_neg hzx, if_pos hzy] at hez
    rw [hez] at hz ⊢
    obtain ⟨u, hu, hc, hf⟩ := hi.placed x hz
    obtain rfl := hi.vmas.eq_of_contains hu hv hc hvx
    refine ⟨w, hw, hzy ▸ hwy, fun hs => hflags ▸ hf.io hs, fun hp hr => hf.sole ?_ hr⟩
    unfold Vma.Private at hp ⊢
    rwa [hflags] at hp
  rw [if_neg hzx, if_neg hzy] at hez
  rw [hez] at hz ⊢
  exact hi.placed z hz

theorem slot_inj {a b : Nat} (ha : PAGE_SIZE ∣ a) (ha' : a < USER_VA_END) (hb : PAGE_SIZE ∣ b) (hb' : b < USER_VA_END)
    (h : slot a = slot b) : a = b := by
  rw [← addr_slot ha ha', ← addr_slot hb hb', h]

theorem movePtes_inv (hvw : v ≠ w) (hflags : w.flags = v.flags) (offs : List Nat)
    (hnodup : (offs.map fun off => slot (add64 dst off)).Nodup) (hi : Inv ext l s)
    (hsrc : ∀ off ∈ offs, Covers l v (add64 src off)) (hdst : ∀ off ∈ offs, Covers l w (add64 dst off))
    (hempty : ∀ off ∈ offs, (s.mm.pte (add64 dst off)).valid = false)
    (heq : movePtes src dst offs s = (b, t)) : Inv ext l t ∧ Gentle s t := by
  induction offs generalizing s with
  | nil =>
    cases heq
    exact ⟨hi, .refl _⟩
  | cons off rest ih =>
  simp only [map_cons, nodup_cons] at hnodup
  simp only [forall_mem_cons] at hsrc hdst hempty
  simp only [movePtes] at heq
  split at heq
  · exact ih hnodup.2 hi hsrc.2 hdst.2 hempty.2 heq
  rename_i hvalid
  split at heq
  · rename_i u hu
    cases heq
    have hsame := (userPte_spec hu).1
    exact ⟨hsame.inv hi, hsame.gentle⟩
  rename_i u hu
  obtain ⟨hsame, htab⟩ := userPte_spec hu
  have hsd : slot (add64 src off) ≠ slot (add64 dst off) := by
    intro hc
    refine hvw (hi.vmas.eq_of_contains hsrc.1.mem hdst.1.mem hsrc.1.addr ?_)
    rw [hc]
    exact hdst.1.addr
  have he : s.mm.pte (add64 src off) = u.mm.pgd.entry (slot (add64 src off)) := (hsame.entry _).symm
  rw [he] at heq hvalid
  generalize he' : u.mm.pgd.entry (slot (add64 src off)) = e at heq hvalid
  have hfirst : ∀ z, (u.setPte (add64 dst off) e).mm.pgd.entry z =
      if z = slot (add64 dst off) then u.mm.pgd.entry (slot (add64 src off)) else u.mm.pgd.entry z := by
    rw [he']
    exact entry_store (htab rfl) e
  have hlast : ∀ z, ((u.setPte (add64 dst off) e).setPte (add64 src off) zeroPte).mm.pgd.entry z =
      if z = slot (add64 src off) then zeroPte else (u.setPte (add64 dst off) e).mm.pgd.entry z := by
    refine entry_store (hasTable_of_valid ?_) zeroPte
    rw [hfirst, if_neg hsd, he']
    simpa using hvalid
  have hempty' : (u.mm.pgd.entry (slot (add64 dst off))).valid = false := by
    rw [hsame.entry]
    exact hempty.1
  have hmoved := (hsame.inv hi).move hsd hempty' hfirst hlast rfl rfl rfl hsrc.1.mem hsrc.1.addr hdst.1.mem
    hdst.1.addr hflags
  have hrest := ih hnodup.2 hmoved hsrc.2 hdst.2 (fun o ho => ?_) heq
  · exact ⟨hrest.1, (hsame.gentle.trans (.of_refcount_eq fun _ => rfl)).trans hrest.2⟩
  rw [Mm.pte, hlast, hfirst]
  split
  · rfl
  split
  · rename_i hc
    exact absurd (List.mem_map.mpr ⟨o, ho, hc⟩) hnodup.1
  · rw [hsame.entry]
    exact hempty.2 o ho

theorem nodup_pagesFrom (start stop : Nat) : (pagesFrom start stop).Nodup := by
  refine .map ?_ nodup_range
  intro i j hij
  simp only [PAGE_SIZE] at hij
  omega

theorem moveRange_inv (hv : v ∈ l) (hw : w ∈ l) (hvw : v ≠ w) (hflags : w.flags = v.flags) (hsrc : v.start ≤ src)
    (hsrc' : src + len ≤ v.stop) (hsd : PAGE_SIZE ∣ src) (hdst : w.start ≤ dst) (hdst' : dst + len ≤ w.stop)
    (hdd : PAGE_SIZE ∣ dst) (hi : Inv ext l s) (hempty : ∀ x, w.Contains x.addr → (s.mm.pgd.entry x).valid = false)
    (heq : movePtes src dst (pagesFrom 0 len) s = (b, t)) : Inv ext l t ∧ Gentle s t := by
  have hva : USER_VA_END = 2 ^ 39 := rfl
  have hvmax := (hi.vmas.each v hv).max
  have hwmax := (hi.vmas.each w hw).max
  have hadd : ∀ off ∈ pagesFrom 0 len, add64 src off = src + off ∧ add64 dst off = dst + off := by
    intro off hoff
    have hlt := (mem_pagesFrom hoff).2.1
    exact ⟨add64_of_lt (by omega), add64_of_lt (by omega)⟩
  have hcov : ∀ off ∈ pagesFrom 0 len, Covers l v (add64 src off) ∧ Covers l w (add64 dst off) := by
    intro off hoff
    obtain ⟨_, hlt, hd⟩ := mem_pagesFrom hoff
    have hd := hd (Nat.dvd_zero _)
    rw [(hadd off hoff).1, (hadd off hoff).2]
    exact ⟨⟨hv, ⟨by omega, by omega⟩, Nat.dvd_add hsd hd, by omega⟩,
      ⟨hw, ⟨by omega, by omega⟩, Nat.dvd_add hdd hd, by omega⟩⟩
  refine movePtes_inv hvw hflags _ ?_ hi (fun o ho => (hcov o ho).1) (fun o ho => (hcov o ho).2)
    (fun o ho => hempty _ (hcov o ho).2.addr) heq
  refine .map_on (fun a ha b hb hab => ?_) (nodup_pagesFrom 0 len)
  have h1 := (hcov a ha).2
  have h2 := (hcov b hb).2
  have h := slot_inj h1.dvd h1.lt h2.dvd h2.lt hab
  rw [(hadd a ha).2, (hadd b hb).2] at h
  omega

theorem mremapMove_kept (hok : MmOk 0 s.mm) (hi : Inv ext s.mm.vmas s) (hfind : vmaFind old s.mm.vmas = some v)
    (hold : PAGE_SIZE ∣ old) (holdLen : PAGE_SIZE ∣ oldLen) (hend : add64 old oldLen ≤ v.stop)
    (hlt : oldLen < newLen) (hd : PAGE_SIZE ∣ newLen)
    (hfit : USER_MIN_ADDR + newLen < 2 ^ 64) : Kept ext s (mremapMove s v old oldLen newLen).2 := by
  simp only [mremapMove]
  split
  · exact .refl hi
  rename_i hne
  have hole := mmGetUnmappedArea_hole hok hd hfit hne
  generalize mmGetUnmappedArea s.mm newLen = dst at hole
  split
  · rename_i heq
    exact mapVma_kept hi (mapVma_hole_ok hok (Nat.zero_le _) hole (by omega) hd heq) heq
  rename_i t heq
  have ht := mapVma_hole_ok hok (Nat.zero_le _) hole (by omega) hd heq
  have hkept := mapVma_kept hi ht heq
  obtain ⟨hsame, hsub, hnew⟩ := mapVma_spec heq
  rw [hole.add64] at hnew
  obtain ⟨w, hw, hstart, hstop, hflags⟩ : ∃ w ∈ t.mm.vmas, w.start = dst ∧ w.stop = dst + newLen ∧ w.flags = v.flags :=
    ⟨_, hnew rfl, rfl, rfl, rfl⟩
  -- the hole keeps the new area off the old ones
  have hapart : ∀ u ∈ s.mm.vmas, u ≠ w := by
    rintro u hu rfl
    have := hole.apart u hu
    omega
  have hempty : ∀ x : Slot, w.Contains x.addr → (t.mm.pgd.entry x).valid = false := by
    intro x hx
    by_contra hc
    rw [hsame.entry] at hc
    obtain ⟨u, hu, huc, _⟩ := hi.placed x (by simpa using hc)
    exact hapart u hu (ht.vmas.eq_of_contains (hsub u hu) hw huc hx)
  obtain ⟨hv, hvc⟩ := vmaFind_mem hfind
  have hend' : old + oldLen ≤ v.stop := by
    have hva : USER_VA_END = 2 ^ 39 := rfl
    have := (hok.vmas.each v hv).max
    have := hole.max
    have := hvc.2
    rwa [add64_of_lt (by omega)] at hend
  have hb := movePtes_bare old dst (pagesFrom 0 oldLen) t
  have hmoved : ∀ {b u}, movePtes old dst (pagesFrom 0 oldLen) t = (b, u) → Kept ext s u := by
    intro b u hmove
    have h := moveRange_inv (hsub v hv) hw (hapart v hv) hflags hvc.1 hend' hold (by omega) (by omega) hole.dvd
      hkept.inv hempty hmove
    rw [hmove] at hb
    exact ⟨vmas_of_bare hb ▸ h.1, hkept.gentle.trans h.2⟩
  split
  · exact hmoved ‹_›
  · have h := hmoved ‹_›
    exact h.trans (unmapRegion_kept h.inv hold (add64_dvd hold holdLen))

theorem extend_kept (hi : Inv ext s.mm.vmas s) (hfind : vmaFind addr s.mm.vmas = some v) (hle : v.stop ≤ stop)
    (hl : VmasOk 0 (vmaModify addr (fun w => { w with stop := stop }) s.mm.vmas)) :
    Kept ext s (s.setVmas (vmaModify addr (fun w => { w with stop := stop }) s.mm.vmas)) := by
  refine hi.remap (setVmas_sameMem s _) hl fun u hu => ?_
  rcases mem_vmaModify hfind (fun w => { w with stop := stop }) u hu with ⟨rfl, hmem⟩ | hmem
  · exact ⟨_, hmem, le_rfl, hle, rfl, rfl⟩
  · exact ⟨u, hmem, le_rfl, le_rfl, rfl, rfl⟩

theorem setBrk_kept (hi : Inv ext s.mm.vmas s) (brk : Nat) : Kept ext s (s.setBrk brk) :=
  SameMem.kept ⟨rfl, fun _ => rfl, rfl, rfl⟩ hi

theorem Kept.stable (s : Space) : Stable 0 fun t => Kept ext s t ∧ MmOk 0 t.mm where
  lo_le := Nat.zero_le _
  ok h := h.2
  unmap h hd hd' := ⟨h.1.trans (unmapRegion_kept h.1.inv hd hd'), unmapRegion_ok h.2 hd hd'⟩
  map h heq hok := ⟨h.1.trans (mapVma_kept h.1.inv hok heq), hok⟩
  extend h hfind hle hl := ⟨h.1.trans (extend_kept h.1.inv hfind hle hl), h.2.setVmas hl (setVmas_bare _ _)⟩
  fault addr write exec h := ⟨h.1.trans (handleMmFault_kept h.2 h.1.inv addr write exec),
    handleMmFault_ok h.2 (Nat.zero_le _) addr write exec⟩
  device vmf size phys off h hpos hd hole := ⟨h.1.trans (mmapDevice_kept h.2 h.1.inv hpos hd hole vmf size phys off),
    mmapDevice_ok h.2 (Nat.zero_le _) hpos hd hole vmf size phys off⟩
  move h hfind hold holdLen hend hlt hd hfit :=
    ⟨h.1.trans (mremapMove_kept h.2 h.1.inv hfind hold holdLen hend hlt hd hfit),
      mremapMove_ok h.2 (Nat.zero_le _) _ hold holdLen (by omega) hd hfit⟩
  protect addr len prot h := ⟨h.1.trans (doMprotect_kept h.1.inv addr len prot), doMprotect_ok h.2 addr len prot⟩
  brk n h hok := ⟨h.1.trans (setBrk_kept h.1.inv n), hok⟩

theorem Call.run_kept (hok : MmOk 0 s.mm) (hi : Inv ext s.mm.vmas s) {c : Call} (hfits : c.Fits s.mm) :
    Kept ext s (c.run s).2 ∧ MmOk 0 (c.run s).2.mm :=
  (Kept.stable s).run ⟨.refl hi, hok⟩ hfits

end Olux.Vm
