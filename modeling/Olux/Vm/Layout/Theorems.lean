import Olux.Vm.Layout

namespace Olux.Vm

open Olux.Lib

variable {lo start stop off addr len alen old oldLen newLen : Nat} {l : List Vma} {s t : Space} {flags : UInt32}

theorem forRange_vmasOk (hstart : PAGE_SIZE ∣ start) (hstop : PAGE_SIZE ∣ stop) {f : Vma → Space → Option Vma × Space}
    (hf : ∀ v s, v.Ok lo → VmasOk lo (f v s).1.toList ∧ (∀ w ∈ (f v s).1, v.start ≤ w.start) ∧
      ∀ w ∈ (f v s).1, w.stop ≤ v.stop) (hl : VmasOk lo l) (s : Space) :
    VmasOk lo (forRange start stop f l s).2.1 := by
  refine forRange_rule start stop f (fun l _ => VmasOk lo l) ?_ ?_ ?_ [] l s hl
  · exact fun _ _ h => h
  · intro pre v post t addr haddr hlo hhi ht
    refine ht.split hlo hhi ?_
    rcases haddr with rfl | rfl
    · exact hstart
    · exact hstop
  intro pre v post t _ _ _ ht
  obtain ⟨hok, hmin, hmax⟩ := hf v t (ht.each v (by simp))
  refine ht.replace _ hok ?_ ?_
  · intro w hw a ha
    exact Nat.le_trans (ht.around.1 a ha) (hmin w (by simpa using hw))
  · intro w hw b hb
    exact Nat.le_trans (hmax w (by simpa using hw)) (ht.around.2 b hb)

theorem unmapRegion_ok (h : MmOk lo s.mm) (hstart : PAGE_SIZE ∣ start)
    (hstop : PAGE_SIZE ∣ stop) : MmOk lo (unmapRegion s start stop).2.mm := by
  refine h.setVmas (forRange_vmasOk hstart hstop ?_ h.vmas s) (unmapRegion_bare s start stop)
  intro v t hv
  exact ⟨.nil lo, by simp, by simp⟩

theorem forRange_each {f : Vma → Space → Option Vma × Space} {Q : Vma → Prop} (hf : ∀ v s, ∀ w ∈ (f v s).1, Q w)
    (hstart : PAGE_SIZE ∣ start) (hstop : PAGE_SIZE ∣ stop) (l : List Vma) (s : Space) (hl : VmasOk lo l)
    (hok : (forRange start stop f l s).1 = true) :
    ∀ v ∈ (forRange start stop f l s).2.1, v.stop ≤ start ∨ stop ≤ v.start ∨ Q v := by
  fun_induction forRange start stop f l s with
  | case1 s => simp
  | case2 s v rest hle ok l t heq ih =>
    rw [heq] at ih
    exact List.forall_mem_cons.mpr ⟨.inl hle, ih hl.tail hok⟩
  | case3 s v rest _ hle =>
    refine List.forall_mem_cons.mpr ⟨.inr (.inl hle), fun w hw => .inr (.inl ?_)⟩
    have := hl.head_le w hw
    have := (hl.each v List.mem_cons_self).lt
    omega
  | case4 => cases hok
  | case5 s v rest hs hs' hlt t hk ok l u heq ih =>
    rw [heq] at ih
    have hsplit := @VmasOk.split lo start v [] rest hl hlt (by omega) hstart
    exact List.forall_mem_cons.mpr ⟨.inl (by simp [Vma.lower]), ih hsplit.tail hok⟩
  | case6 => cases hok
  | case7 s v rest hs hs' hge hlt t hk kept u hcall ok l w heq ih =>
    rw [heq] at ih
    have hkept := hf (v.lower stop) t
    rw [hcall] at hkept
    have hsplit := @VmasOk.split lo stop v [] rest hl (by omega) hlt hstop
    exact List.forall_mem_append.mpr ⟨fun w hw => .inr (.inr (hkept w (by simpa using hw))), ih hsplit.tail hok⟩
  | case8 s v rest hs hs' hge hle kept t hcall ok l u heq ih =>
    rw [heq] at ih
    have hkept := hf v s
    rw [hcall] at hkept
    exact List.forall_mem_append.mpr ⟨fun w hw => .inr (.inr (hkept w (by simpa using hw))), ih hl.tail hok⟩

theorem unmapRegion_clear (h : MmOk lo s.mm) (hstart : PAGE_SIZE ∣ start) (hstop : PAGE_SIZE ∣ stop)
    (hr : (unmapRegion s start stop).1 = 0) :
    ∀ v ∈ (unmapRegion s start stop).2.mm.vmas, v.stop ≤ start ∨ stop ≤ v.start := by
  have hok : (forRange start stop (fun v s => (none, zapRange s v.start v.stop)) s.mm.vmas s).1 = true := by
    by_contra hok
    simp [unmapRegion, hok, ENOMEM] at hr
  intro v hv
  exact (forRange_each (Q := fun _ => False) (by simp) hstart hstop s.mm.vmas s h.vmas hok v hv).imp_right (·.resolve_right id)

theorem mapVma_ok {b : Bool} (h : MmOk lo s.mm) {flags : VmFlags} {file : Option Nat} {bytes : Nat}
    (heq : mapVma s start stop flags file off bytes = (b, t)) (hlo : lo ≤ start) (hlt : start < stop)
    (hmax : stop ≤ USER_VA_END) (hd : PAGE_SIZE ∣ start) (hd' : PAGE_SIZE ∣ stop)
    (hapart : ∀ v ∈ s.mm.vmas, v.stop ≤ start ∨ stop ≤ v.start) : MmOk lo t.mm := by
  unfold mapVma at heq
  split at heq
  · rename_i u hk
    cases heq
    have hb := kmalloc_bare s
    rw [hk] at hb
    exact h.of_bare hb
  rename_i u hk
  cases heq
  have hb := kmalloc_bare s
  rw [hk] at hb
  have hv : u.mm.vmas = s.mm.vmas := by simpa [Mm.bare] using congrArg Mm.vmas hb
  have hins : VmasOk lo (vmaInsert ⟨start, stop, flags, file, off, bytes, 0⟩ s.mm.vmas) :=
    vmaInsert_ok h.vmas ⟨hlo, hlt, hmax, hd, hd'⟩ hapart
  refine h.setVmas hins ?_
  rw [setVmas_bare, hb, hv]

theorem Hole.add64 {vmas : List Vma} (h : Hole vmas addr len) : add64 addr len = addr + len := by
  have hmax := h.max
  have hva : USER_VA_END = 2 ^ 39 := rfl
  exact add64_of_lt (by omega)

theorem mapVma_hole_ok {b : Bool} (h : MmOk lo s.mm) (hlo : lo ≤ USER_MIN_ADDR) (hole : Hole s.mm.vmas addr alen)
    (hpos : 0 < alen) (hd : PAGE_SIZE ∣ alen) {flags : VmFlags} {file : Option Nat} {bytes : Nat}
    (heq : mapVma s addr (add64 addr alen) flags file off bytes = (b, t)) : MmOk lo t.mm := by
  rw [hole.add64] at heq
  have hmin := hole.min
  exact mapVma_ok h heq (by omega) (by omega) hole.max hole.dvd (Nat.dvd_add hole.dvd hd) hole.apart

theorem VmasOk.growDown (hl : VmasOk lo l) {va : Nat} {g : Vma} (hfind : vmaFindIntersect va USER_VA_END l = some g)
    (hlo : lo ≤ va) (hd : PAGE_SIZE ∣ va) :
    VmasOk lo (vmaModifyIntersect va USER_VA_END (fun w => { w with start := va }) l) := by
  obtain ⟨_, hgt, pre, post, heq, hpre, hmod⟩ := vmaFindIntersect_eq_some hfind fun w => { w with start := va }
  rw [hmod]
  rw [heq] at hl
  have hg := hl.each g (by simp)
  exact hl.change ⟨hlo, hgt, hg.max, hd, hg.stop_dvd⟩ hpre hl.around.2

theorem MmOk.le_stack {mm : Mm} (h : MmOk lo mm) (hlo : lo ≤ USER_MIN_ADDR) {va : Nat}
    (hmax : sub64 mm.stackTop va ≤ USER_STACK_MAX) : lo ≤ va := by
  have h1 := h.le_stackTop
  have h2 := h.stackTop_lt
  unfold sub64 at hmax
  omega

theorem handleMmFault_ok (h : MmOk lo s.mm) (hlo : lo ≤ USER_MIN_ADDR) (addr : Nat)
    (write exec : Bool) : MmOk lo (handleMmFault s addr write exec).2.mm := by
  simp only [handleMmFault]
  split
  · exact h
  split
  · exact h.of_bare (by simp)
  split
  · exact h
  split
  · exact h
  rename_i haddr hnone g hfind hgrow
  simp only [not_or, Nat.not_lt] at hgrow
  have hbelow := (alignDown_bounds addr).1
  have hstack := h.le_stack hlo hgrow.2.2
  refine h.setVmas (h.vmas.growDown hfind hstack (alignDown_dvd addr)) ?_
  rw [faultAllowed_bare, setVmas_bare]

theorem fbMmap_bounds {size phys : Nat} {v w : Vma} (h : fbMmap size phys v off = some w) :
    w.start = v.start ∧ w.stop = v.stop := by
  unfold fbMmap at h
  split at h
  · cases h
  · cases h
    exact ⟨rfl, rfl⟩

theorem VmasOk.modify (hl : VmasOk lo l) {v : Vma} (hfind : vmaFind addr l = some v) (f : Vma → Vma)
    (hf : (f v).start = v.start ∧ (f v).stop = v.stop) : VmasOk lo (vmaModify addr f l) := by
  obtain ⟨_, pre, post, heq, hmod⟩ := vmaFind_eq_some hfind f
  rw [hmod]
  rw [heq] at hl
  obtain ⟨hpre, hpost⟩ := hl.around
  have hv := hl.each v (by simp)
  refine hl.change ⟨hf.1 ▸ hv.min, ?_, hf.2 ▸ hv.max, hf.1 ▸ hv.start_dvd, hf.2 ▸ hv.stop_dvd⟩ ?_ ?_
  · rw [hf.1, hf.2]
    exact hv.lt
  · intro a ha
    rw [hf.1]
    exact hpre a ha
  intro b hb
  rw [hf.2]
  exact hpost b hb

theorem mmapDevice_ok (h : MmOk lo s.mm) (hlo : lo ≤ USER_MIN_ADDR) (hpos : 0 < alen) (hd : PAGE_SIZE ∣ alen)
    (hole : Hole s.mm.vmas addr alen) (vmf : VmFlags)
    (size phys off : Nat) : MmOk lo (mmapDevice s addr alen vmf size phys off).2.mm := by
  unfold mmapDevice
  split
  · rename_i heq
    exact mapVma_hole_ok h hlo hole hpos hd heq
  rename_i t heq
  have ht := mapVma_hole_ok h hlo hole hpos hd heq
  split
  · exact ht
  rename_i v hfind
  split
  · exact unmapRegion_ok ht hole.dvd (hole.add64 ▸ Nat.dvd_add hole.dvd hd)
  · rename_i w hfb
    exact ht.setVmas (ht.vmas.modify hfind (fun _ => w) (fbMmap_bounds hfb)) (setVmas_bare _ _)

theorem mmGetUnmappedArea_hole {mm : Mm} (h : MmOk lo mm) (hd : PAGE_SIZE ∣ len)
    (hwrap : USER_MIN_ADDR + len < 2 ^ 64) (hne : mmGetUnmappedArea mm len ≠ 0) :
    Hole mm.vmas (mmGetUnmappedArea mm len) len := by
  have hlen : alignUp len PAGE_SIZE = len := alignUp_of_dvd hd (by omega)
  rw [mmGetUnmappedArea, hlen] at hne ⊢
  exact unmappedBelow_spec h.vmas h.brkStart_le hd hwrap mm.mmapBase h.mmapBase_le h.mmapBase_dvd hne

theorem add64_dvd {a b : Nat} (ha : PAGE_SIZE ∣ a) (hb : PAGE_SIZE ∣ b) : PAGE_SIZE ∣ add64 a b := by
  simp only [add64, PAGE_SIZE] at *
  omega

theorem mmapHint_hole {mm : Mm} (h : MmOk lo mm) (hd : PAGE_SIZE ∣ alen) (hle : alen ≤ USER_VA_END)
    (hfit : alignDown addr PAGE_SIZE + alen < 2 ^ 64) (hne : mmapHint mm addr alen ≠ 0) :
    Hole mm.vmas (mmapHint mm addr alen) alen := by
  have hva : USER_VA_END = 2 ^ 39 := rfl
  have hmin : USER_MIN_ADDR = 0x10000 := rfl
  simp only [mmapHint, add64_of_lt hfit] at hne ⊢
  split at hne
  · rename_i hhint
    rw [if_pos hhint]
    exact mmGetUnmappedArea_hole h hd (by omega) hne
  rename_i hhint
  rw [if_neg hhint]
  simp only [not_or] at hhint
  refine ⟨by omega, by omega, alignDown_dvd addr, vmaFindIntersect_eq_none h.vmas ?_⟩
  simpa using hhint.2.2.2

theorem mmapPlace_spec (h : MmOk lo s.mm) (hd : PAGE_SIZE ∣ alen) (hle : alen ≤ USER_VA_END) {r : Except Int Nat}
    (heq : mmapPlace s addr alen flags = (r, t)) :
    MmOk lo t.mm ∧ (((has flags (MAP_FIXED ||| MAP_FIXED_NOREPLACE) = true → addr % PAGE_SIZE = 0) →
      mmapAddr addr flags + alen < 2 ^ 64) → ∀ a, r = .ok a → Hole t.mm.vmas a alen) := by
  simp only [mmapPlace] at heq
  unfold mmapAddr
  split at heq
  · rename_i hfixed
    simp only [hfixed, if_true, forall_const]
    split at heq
    · cases heq
      exact ⟨h, by simp⟩
    rename_i hmod
    have haddr : PAGE_SIZE ∣ addr := Nat.dvd_of_mod_eq_zero (Decidable.not_not.mp hmod)
    have hfit : addr % PAGE_SIZE = 0 := Decidable.not_not.mp hmod
    split at heq
    · cases heq
      exact ⟨h, by simp⟩
    rename_i hrange
    simp only [not_or, Nat.not_lt] at hrange
    split at heq
    · split at heq
      · cases heq
        exact ⟨h, by simp⟩
      have hun := unmapRegion_ok h haddr (add64_dvd haddr hd)
      split at heq
      · cases heq
        exact ⟨hun, by simp⟩
      rename_i hr
      cases heq
      refine ⟨hun, fun hfit' a ha => ?_⟩
      cases ha
      have hadd : add64 addr alen = addr + alen := add64_of_lt (hfit' hfit)
      have hclear := unmapRegion_clear h haddr (add64_dvd haddr hd) (Decidable.not_not.mp hr)
      rw [hadd] at hclear hrange
      exact ⟨hrange.1, hrange.2, haddr, hadd ▸ hclear⟩
    rename_i hnone
    cases heq
    refine ⟨h, fun hfit' a ha => ?_⟩
    cases ha
    have hadd : add64 addr alen = addr + alen := add64_of_lt (hfit' hfit)
    rw [hadd] at hnone hrange
    exact ⟨hrange.1, hrange.2, haddr, vmaFindIntersect_eq_none h.vmas (by simpa using hnone)⟩
  rename_i hfixed
  simp only [hfixed, Bool.false_eq_true, if_false, false_implies, true_implies]
  split at heq
  · cases heq
    exact ⟨h, by simp⟩
  rename_i hne
  cases heq
  refine ⟨h, fun hfit a ha => ?_⟩
  cases ha
  exact mmapHint_hole h hd hle hfit hne

theorem mmapAt_of_not_accepts {prot : UInt32} {file : Option File} (h : mmapAccepts prot flags file = false)
    (s : Space) (addr alen off : Nat) : (mmapAt s addr alen prot flags file off).2 = s := by
  unfold mmapAccepts at h
  simp only [mmapAt]
  split
  · rename_i hfile
    simp [hfile] at h
  rename_i f hfile
  simp only [hfile] at h
  split
  · rename_i hkind
    simp [hkind] at h
  · rfl
  rename_i size hkind
  simp only [hkind, Bool.not_eq_false', Bool.and_eq_true, decide_eq_true_eq] at h
  rw [if_pos h]

theorem mmapCheck_eq_zero (h : mmapCheck len flags off = 0) :
    0 < alignUp len PAGE_SIZE ∧ alignUp len PAGE_SIZE ≤ USER_VA_END := by
  simp only [mmapCheck] at h
  split at h
  · simp [EINVAL] at h
  split at h
  · simp [EINVAL] at h
  split at h
  · simp [ENOMEM] at h
  · omega

theorem doMprotect_ok (h : MmOk lo s.mm) (addr len : Nat) (prot : UInt32) :
    MmOk lo (doMprotect s addr len prot).2.mm := by
  simp only [doMprotect]
  split
  · exact h
  rename_i hmod
  have haddr : PAGE_SIZE ∣ addr := Nat.dvd_of_mod_eq_zero (Decidable.not_not.mp hmod)
  have hstop := add64_dvd haddr (alignUp_dvd len)
  split
  · exact h
  split
  · exact h
  refine h.setVmas (forRange_vmasOk haddr hstop (f := protectVma prot) ?_ h.vmas s) ?_
  · intro v t hv
    exact ⟨.single ⟨hv.min, hv.lt, hv.max, hv.start_dvd, hv.stop_dvd⟩, by simp [protectVma], by simp [protectVma]⟩
  · rw [setVmas_bare, forRange_bare _ _ _ fun v s => foldl_protectPte_bare _ _ s]

theorem mremapMove_ok (h : MmOk lo s.mm) (hlo : lo ≤ USER_MIN_ADDR) (v : Vma) (hold : PAGE_SIZE ∣ old)
    (holdLen : PAGE_SIZE ∣ oldLen) (hpos : 0 < newLen) (hd : PAGE_SIZE ∣ newLen)
    (hfit : USER_MIN_ADDR + newLen < 2 ^ 64) : MmOk lo (mremapMove s v old oldLen newLen).2.mm := by
  simp only [mremapMove]
  split
  · exact h
  rename_i hne
  have hole := mmGetUnmappedArea_hole h hd hfit hne
  split
  · rename_i heq
    exact mapVma_hole_ok h hlo hole hpos hd heq
  rename_i t heq
  have ht := mapVma_hole_ok h hlo hole hpos hd heq
  have hb := movePtes_bare old (mmGetUnmappedArea s.mm newLen) (pagesFrom 0 oldLen) t
  split
  · rename_i u hmove
    rw [hmove] at hb
    exact ht.of_bare hb
  rename_i u hmove
  rw [hmove] at hb
  exact unmapRegion_ok (ht.of_bare hb) hold (add64_dvd hold holdLen)

theorem VmasOk.extend (hl : VmasOk lo l) {v : Vma} (hfind : vmaFind addr l = some v) (hlt : v.stop < stop)
    (hmax : stop ≤ USER_VA_END) (hd : PAGE_SIZE ∣ stop) (hapart : ∀ w ∈ l, w.stop ≤ v.stop ∨ stop ≤ w.start) :
    VmasOk lo (vmaModify addr (fun w => { w with stop := stop }) l) := by
  obtain ⟨_, pre, post, heq, hmod⟩ := vmaFind_eq_some hfind fun w => { w with stop := stop }
  rw [hmod]
  rw [heq] at hl hapart
  obtain ⟨hpre, hpost⟩ := hl.around
  have hv := hl.each v (by simp)
  have hvlt := hv.lt
  refine hl.change ⟨hv.min, by simp only; omega, hmax, hv.start_dvd, hd⟩ hpre ?_
  intro b hb
  have hblt := (hl.each b (by simp [hb])).lt
  have := hpost b hb
  have := hapart b (by simp [hb])
  simp only
  omega

theorem VmasOk.grow (hl : VmasOk lo l) {v : Vma} (hfind : vmaFind old l = some v) (hold : PAGE_SIZE ∣ old)
    (hd : PAGE_SIZE ∣ newLen) (hlt : oldLen < newLen) (hwrap : old + newLen < 2 ^ 64)
    (hend : add64 old oldLen = v.stop) (hnone : (vmaFindIntersect v.stop (add64 old newLen) l).isNone = true)
    (hmax : add64 old newLen ≤ USER_VA_END) :
    v.stop < add64 old newLen ∧ VmasOk lo (vmaModify old (fun w => { w with stop := add64 old newLen }) l) := by
  have hgrow : v.stop < add64 old newLen := by
    rw [← hend, add64_of_lt hwrap, add64]
    have := Nat.mod_le (old + oldLen) (2 ^ 64)
    omega
  exact ⟨hgrow, hl.extend hfind hgrow hmax (add64_dvd hold hd) (vmaFindIntersect_eq_none hl (by simpa using hnone))⟩

theorem growBrk_apart (hl : VmasOk lo l) {oldEnd newEnd : Nat} (hmax : newEnd ≤ USER_VA_END)
    (hnone : ¬(vmaFindIntersect oldEnd (add64 newEnd PAGE_SIZE) l).isSome = true) :
    ∀ v ∈ l, v.stop ≤ oldEnd ∨ newEnd ≤ v.start := by
  have hva : USER_VA_END = 2 ^ 39 := rfl
  have hpage : PAGE_SIZE = 4096 := rfl
  have hapart := vmaFindIntersect_eq_none hl (by simpa using hnone)
  rw [add64_of_lt (by omega)] at hapart
  intro v hv
  have := hapart v hv
  omega

theorem le_alignUp {x : Nat} (h : x + (PAGE_SIZE - 1) < 2 ^ 64) : x ≤ alignUp x PAGE_SIZE := by
  simp only [alignUp, PAGE_SIZE] at *
  omega

theorem MmOk.setBrk (h : MmOk lo s.mm) {brk : Nat} (hle : s.mm.brkStart ≤ brk)
    (hlt : brk + (PAGE_SIZE - 1) < 2 ^ 64) : MmOk lo (s.setBrk brk).mm :=
  ⟨h.vmas, h.le_brkStart, hle, hlt, h.mmapBase_dvd, h.mmapBase_le, h.le_stackTop, h.stackTop_lt⟩

structure Stable (lo : Nat) (P : Space → Prop) : Prop where
  lo_le : lo ≤ USER_MIN_ADDR
  ok : ∀ {t}, P t → MmOk lo t.mm
  unmap : ∀ {t start stop}, P t → PAGE_SIZE ∣ start → PAGE_SIZE ∣ stop → P (unmapRegion t start stop).2
  map : ∀ {t u start stop flags file off bytes b}, P t → mapVma t start stop flags file off bytes = (b, u) →
    MmOk lo u.mm → P u
  extend : ∀ {t addr stop v}, P t → vmaFind addr t.mm.vmas = some v → v.stop ≤ stop →
    VmasOk lo (vmaModify addr (fun w => { w with stop := stop }) t.mm.vmas) →
    P (t.setVmas (vmaModify addr (fun w => { w with stop := stop }) t.mm.vmas))
  fault : ∀ {t} addr write exec, P t → P (handleMmFault t addr write exec).2
  device : ∀ {t addr alen} vmf size phys off, P t → 0 < alen → PAGE_SIZE ∣ alen → Hole t.mm.vmas addr alen →
    P (mmapDevice t addr alen vmf size phys off).2
  move : ∀ {t v old oldLen newLen}, P t → vmaFind old t.mm.vmas = some v → PAGE_SIZE ∣ old → PAGE_SIZE ∣ oldLen →
    add64 old oldLen ≤ v.stop → oldLen < newLen → PAGE_SIZE ∣ newLen → USER_MIN_ADDR + newLen < 2 ^ 64 →
    P (mremapMove t v old oldLen newLen).2
  protect : ∀ {t} addr len prot, P t → P (doMprotect t addr len prot).2
  brk : ∀ {t} n, P t → MmOk lo (t.setBrk n).mm → P (t.setBrk n)

namespace Stable

variable {P : Space → Prop} (hP : Stable lo P) (h : P s)
include hP h

theorem mapHole {b : Bool} (hole : Hole s.mm.vmas addr alen) (hpos : 0 < alen) (hd : PAGE_SIZE ∣ alen) {flags : VmFlags}
    {file : Option Nat} {bytes : Nat} (heq : mapVma s addr (add64 addr alen) flags file off bytes = (b, t)) : P t :=
  hP.map h heq (mapVma_hole_ok (hP.ok h) hP.lo_le hole hpos hd heq)

theorem populatePages (write : Bool) (l : List Nat) : P (populatePages write l s).2 := by
  induction l generalizing s with
  | nil => exact h
  | cons va rest ih =>
  have hfault := hP.fault va write false h
  simp only [Vm.populatePages]
  split
  · exact hfault
  · exact ih hfault

theorem mmapBacked (hpos : 0 < alen) (hd : PAGE_SIZE ∣ alen) (hole : Hole s.mm.vmas addr alen) (vmf : VmFlags)
    (prot flags : UInt32) (file : Option Nat) (off bytes : Nat) :
    P (mmapBacked s addr alen vmf prot flags file off bytes).2 := by
  unfold Vm.mmapBacked
  split
  · exact hP.mapHole h hole hpos hd ‹_›
  have ht := hP.mapHole h hole hpos hd ‹_›
  simp only
  split
  · exact hP.populatePages ht _ _
  · exact ht

theorem mmapPlace (hd : PAGE_SIZE ∣ alen) {r : Except Int Nat} (heq : mmapPlace s addr alen flags = (r, t)) : P t := by
  simp only [Vm.mmapPlace] at heq
  split at heq
  · split at heq
    · cases heq
      exact h
    rename_i hmod
    have haddr : PAGE_SIZE ∣ addr := Nat.dvd_of_mod_eq_zero (Decidable.not_not.mp hmod)
    split at heq
    · cases heq
      exact h
    split at heq
    · split at heq
      · cases heq
        exact h
      have hun := hP.unmap h haddr (add64_dvd haddr hd)
      split at heq <;> cases heq <;> exact hun
    · cases heq
      exact h
  · split at heq <;> cases heq <;> exact h

theorem mmapAt (hpos : 0 < alen) (hd : PAGE_SIZE ∣ alen) (prot flags : UInt32) (file : Option File) (off : Nat)
    (hole : mmapAccepts prot flags file = true → Hole s.mm.vmas addr alen) :
    P (mmapAt s addr alen prot flags file off).2 := by
  cases hacc : mmapAccepts prot flags file with
  | false =>
    rw [mmapAt_of_not_accepts hacc]
    exact h
  | true =>
  simp only [Vm.mmapAt]
  split
  · exact hP.mmapBacked h hpos hd (hole hacc) _ _ _ _ _ _
  split
  · exact hP.device _ _ _ _ h hpos hd (hole hacc)
  · exact h
  split
  · exact h
  · exact hP.mmapBacked h hpos hd (hole hacc) _ _ _ _ _ _

theorem doMmap {prot : UInt32} {file : Option File} (hfits : MmapFits addr len prot flags file off) :
    P (doMmap s addr len prot flags file off).2 := by
  unfold Vm.doMmap
  split
  · exact h
  rename_i hcheck
  simp only [ne_eq, Decidable.not_not] at hcheck
  have hlen := mmapCheck_eq_zero hcheck
  have hd := alignUp_dvd len
  split
  · exact hP.mmapPlace h hd ‹_›
  rename_i a t heq
  exact hP.mmapAt (hP.mmapPlace h hd heq) hlen.1 hd prot flags file off fun hacc =>
    (mmapPlace_spec (hP.ok h) hd hlen.2 heq).2 (fun hal => hfits hcheck hal hacc) a rfl

theorem doMunmap (addr len : Nat) : P (doMunmap s addr len).2 := by
  simp only [Vm.doMunmap]
  split
  · exact h
  rename_i hmod
  simp only [not_or, ne_eq, Decidable.not_not] at hmod
  have haddr : PAGE_SIZE ∣ addr := Nat.dvd_of_mod_eq_zero hmod.1
  split
  · exact h
  · exact hP.unmap h haddr (add64_dvd haddr (alignUp_dvd len))

theorem doMremap (hfits : MremapFits s.mm old oldLen newLen flags) : P (doMremap s old oldLen newLen flags).2 := by
  simp only [Vm.doMremap]
  split
  · exact h
  rename_i hargs
  simp only [not_or, ne_eq, Decidable.not_not] at hargs
  have hold : PAGE_SIZE ∣ old := Nat.dvd_of_mod_eq_zero hargs.1
  split
  · exact h
  rename_i v hfind
  split
  · exact h
  rename_i hv
  simp only [not_or, Nat.not_lt, Bool.not_eq_true] at hv
  split
  · exact h
  rename_i hfixed
  split
  · split
    · exact hP.doMunmap h _ _
    · exact h
  rename_i hgrow
  obtain ⟨hplace, hmove⟩ := hfits v hfind hargs.1 hv.2 (by simpa using hfixed) hv.1 (by omega)
  split
  · rename_i hin
    obtain ⟨hlt, hl⟩ :=
      (hP.ok h).vmas.grow hfind hold (alignUp_dvd newLen) (by omega) (hplace hin.1) hin.1 hin.2.1 hin.2.2
    exact hP.extend h hfind (Nat.le_of_lt hlt) hl
  split
  · exact h
  · rename_i hmay
    exact hP.move h hfind hold (alignUp_dvd _) hv.1 (by omega) (alignUp_dvd _) (hmove (by simpa using hmay))

theorem growBrk {oldEnd newEnd : Nat} (hlo : lo ≤ oldEnd) (hlt : oldEnd < newEnd) (hd : PAGE_SIZE ∣ oldEnd)
    (hd' : PAGE_SIZE ∣ newEnd)
    (hfits : newEnd ≤ USER_VA_END ∨ (vmaFindIntersect oldEnd (add64 newEnd PAGE_SIZE) s.mm.vmas).isSome = true) :
    P (growBrk s oldEnd newEnd).2 := by
  unfold Vm.growBrk
  split
  · exact h
  rename_i hsome
  have hmax : newEnd ≤ USER_VA_END := hfits.resolve_right hsome
  have hapart := growBrk_apart (hP.ok h).vmas hmax hsome
  have hmap : P (mapVma s oldEnd newEnd heapFlags none 0 0).2 :=
    hP.map h rfl (mapVma_ok (hP.ok h) rfl hlo hlt hmax hd hd' hapart)
  split
  · rename_i v hfind
    split
    · rename_i hv
      have hfind' : vmaFind (sub64 oldEnd PAGE_SIZE) s.mm.vmas = some v := (Option.ite_none_right_eq_some.mp hfind).2
      exact hP.extend h hfind' (by omega) ((hP.ok h).vmas.extend hfind' (by omega) hmax hd' (hv.1 ▸ hapart))
    · exact hmap
  · exact hmap

theorem doBrk {nbrk : Nat} (hfits : BrkFits s.mm nbrk) : P (doBrk s nbrk).2 := by
  simp only [Vm.doBrk]
  split
  · exact h
  rename_i hge
  have hok := hP.ok h
  have hstart : s.mm.brkStart ≤ nbrk := by omega
  obtain ⟨hlt, hroom⟩ := hfits hstart
  have hbrk {t : Space} (ht : P t) (hsame : t.mm.brkStart = s.mm.brkStart) : P (t.setBrk nbrk) :=
    hP.brk _ ht ((hP.ok ht).setBrk (hsame ▸ hstart) hlt)
  split
  · rename_i hgrow
    have hold : lo ≤ alignUp s.mm.brk PAGE_SIZE := by
      have := le_alignUp hok.brk_lt
      have := hok.le_brkStart
      have := hok.brkStart_le
      omega
    have hp := hP.growBrk h hold hgrow (alignUp_dvd _) (alignUp_dvd _) (hroom hgrow)
    have hsame := brkStart_of_fixed (growBrk_fixed s (alignUp s.mm.brk PAGE_SIZE) (alignUp nbrk PAGE_SIZE))
    split
    · rename_i t heq
      rwa [heq] at hp
    rename_i t heq
    rw [heq] at hp hsame
    exact hbrk hp hsame
  split
  · exact hbrk (hP.unmap h (alignUp_dvd nbrk) (alignUp_dvd s.mm.brk)) (brkStart_of_fixed (unmapRegion_fixed s _ _))
  · exact hbrk h rfl

theorem run {c : Call} (hfits : c.Fits s.mm) : P (c.run s).2 := by
  cases c with
  | mmap addr len prot flags file off => exact hP.doMmap h hfits
  | munmap addr len => exact hP.doMunmap h _ _
  | mprotect addr len prot => exact hP.protect _ _ prot h
  | mremap old oldLen newLen flags => exact hP.doMremap h hfits
  | brk nbrk => exact hP.doBrk h hfits
  | fault addr write exec => exact hP.fault _ write exec h

end Stable

theorem MmOk.stable (hlo : lo ≤ USER_MIN_ADDR) : Stable lo fun s => MmOk lo s.mm where
  lo_le := hlo
  ok := id
  unmap := unmapRegion_ok
  map _ _ := id
  extend h _ _ hl := h.setVmas hl (setVmas_bare _ _)
  fault addr write exec h := handleMmFault_ok h hlo addr write exec
  device _ _ _ _ h hpos hd hole := mmapDevice_ok h hlo hpos hd hole _ _ _ _
  move h _ hold holdLen _ hlt hd hfit := mremapMove_ok h hlo _ hold holdLen (by omega) hd hfit
  protect addr len prot h := doMprotect_ok h addr len prot
  brk _ _ := id

structure ExecMm (mm : Mm) : Prop where
  vmas : VmasOk USER_MIN_ADDR mm.vmas
  brk : mm.brk = mm.brkStart
  le_brkStart : USER_MIN_ADDR ≤ mm.brkStart
  brkStart_dvd : PAGE_SIZE ∣ mm.brkStart
  brkStart_lt : mm.brkStart < 2 ^ 64
  mmapBase_dvd : PAGE_SIZE ∣ mm.mmapBase
  mmapBase_le : mm.mmapBase ≤ USER_VA_END
  stackTop : ∃ r < 2 ^ 16, mm.stackTop = USER_STACK_TOP_BASE - r * PAGE_SIZE

theorem ExecMm.ok {mm : Mm} (h : ExecMm mm) : MmOk USER_MIN_ADDR mm := by
  obtain ⟨r, hr, htop⟩ := h.stackTop
  have hbrk := h.brk
  have hd := h.brkStart_dvd
  have hlt := h.brkStart_lt
  simp only [USER_STACK_TOP_BASE, PAGE_SIZE] at htop hd
  refine ⟨h.vmas, h.le_brkStart, by omega, ?_, h.mmapBase_dvd, h.mmapBase_le, ?_, ?_⟩
  · simp only [PAGE_SIZE]
    omega
  · simp only [USER_MIN_ADDR, USER_STACK_MAX]
    omega
  · omega

inductive Reach (s : Space) : Space → Prop where
  | start : Reach s s
  | call {t : Space} (h : Reach s t) (c : Call) (u : Supply) (hfits : c.Fits t.mm) :
      Reach s (c.run { t with supply := u }).2

theorem Reach.ok (h : Reach s t) (hs : MmOk USER_MIN_ADDR s.mm) : MmOk USER_MIN_ADDR t.mm := by
  induction h with
  | start => exact hs
  | @call t _ c u hfits ih =>
    exact (MmOk.stable le_rfl).run (s := { t with supply := u }) ih hfits

theorem reach_vmasOk {s t : Space} (hs : ExecMm s.mm) (h : Reach s t) : VmasOk USER_MIN_ADDR t.mm.vmas :=
  (h.ok hs.ok).vmas

def stackOnly : Space where
  frame := fun _ => { free := true, refcount := 0, data := fun _ => 0 }
  mm :=
    { refcount := 1
      pgd := fun _ => none
      vmas := [⟨0x7feffe0000, 0x7ff0000000, { read := true, write := true, growsdown := true }, none, 0, 0, 0⟩]
      brkStart := 0x20000
      brk := 0x20000
      mmapBase := 0x7fdf800000
      stackTop := 0x7ff0000000
      rssPages := 0 }
  supply := { pages := [], objects := [true], reads := [], asid := true, random := 0 }
  panicked := false

theorem stackOnly_exec : ExecMm stackOnly.mm := by
  refine ⟨.single ⟨?_, ?_, ?_, ?_, ?_⟩, rfl, ?_, ?_, ?_, ?_, ?_, 0, ?_, rfl⟩ <;> decide

-- The heap grows, a page is mapped at a fixed address and made longer in its place.
def grown : Space := (Call.brk 0x21000).run { stackOnly with supply := stackOnly.supply } |>.2

def withPage : Space :=
  (Call.mmap 0x30000000 4096 PROT_READ (MAP_PRIVATE ||| MAP_ANONYMOUS ||| MAP_FIXED) none 0).run
    { grown with supply := stackOnly.supply } |>.2

def longer : Space := (Call.mremap 0x30000000 4096 8192 0).run { withPage with supply := stackOnly.supply } |>.2

theorem reach_vmasOk_longer : (longer.mm.vmas.map fun v => (v.start, v.stop)) =
      [(0x20000, 0x21000), (0x30000000, 0x30002000), (0x7feffe0000, 0x7ff0000000)] ∧
    VmasOk USER_MIN_ADDR longer.mm.vmas := by
  refine ⟨by decide +kernel, reach_vmasOk stackOnly_exec (.call (.call (.call .start _ _ ?_) _ _ ?_) _ _ ?_)⟩
  · exact fun _ => ⟨by decide, fun _ => .inl (by decide)⟩
  · exact fun _ _ _ => by decide
  · exact fun _ _ _ _ _ _ _ => ⟨fun _ => by decide, fun _ => by decide⟩

def wrappingMmap : Call := .mmap 0xfffffffffffff000 0x2000 PROT_READ (MAP_PRIVATE ||| MAP_ANONYMOUS ||| MAP_FIXED) none 0

theorem wrappingMmap_not_vmasOk :
    ExecMm stackOnly.mm ∧ ¬VmasOk USER_MIN_ADDR (wrappingMmap.run stackOnly).2.mm.vmas := by
  refine ⟨stackOnly_exec, fun h => ?_⟩
  have hin : (⟨0xfffffffffffff000, 0x1000, { read := true }, none, 0, 0, 0⟩ : Vma) ∈
      (wrappingMmap.run stackOnly).2.mm.vmas := by decide
  exact absurd (h.each _ hin).lt (by decide)

end Olux.Vm
