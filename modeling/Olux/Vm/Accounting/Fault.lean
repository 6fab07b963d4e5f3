import Olux.Vm.Accounting.Space
import Olux.Vm.Layout.Theorems

namespace Olux.Vm

open Olux.Lib

variable {ext : Nat → Nat} {l : List Vma} {va : Nat} {v : Vma} {s t : Space}

structure Covers (l : List Vma) (v : Vma) (va : Nat) : Prop where
  mem : v ∈ l
  contains : v.Contains va
  dvd : PAGE_SIZE ∣ va
  lt : va < USER_VA_END

theorem Covers.addr (h : Covers l v va) : v.Contains (slot va).addr := by
  rw [addr_slot h.dvd h.lt]
  exact h.contains

@[simp] theorem pteProt_owned (flags : VmFlags) (p : Nat) : (pteProt flags p).owned = true := rfl

theorem fillPage_spec {p : Nat} {r : Int} (h : fillPage s v va p = (r, t)) :
    t.mm = s.mm ∧ t.panicked = s.panicked ∧ ∀ q, (t.frame q).refcount = (s.frame q).refcount ∧
      (t.frame q).free = (s.frame q).free ∧ (q ≠ p → t.frame q = s.frame q) := by
  simp only [fillPage] at h
  split at h
  · cases h
    exact ⟨rfl, rfl, fun _ => ⟨rfl, rfl, fun _ => rfl⟩⟩
  split at h
  · cases h
    exact ⟨rfl, rfl, fun _ => ⟨rfl, rfl, fun _ => rfl⟩⟩
  split at h
  · cases h
    exact ⟨rfl, rfl, fun _ => ⟨rfl, rfl, fun _ => rfl⟩⟩
  cases h
  refine ⟨rfl, rfl, fun q => ?_⟩
  by_cases hq : q = p <;> simp [Space.setFrame, hq]

theorem faultNew_inv (hi : Inv ext l s) (hcov : Covers l v va) (ht : s.mm.pgd.hasTable (slot va) = true)
    (hinvalid : (s.mm.pte va).valid = false) :
    Inv ext l (faultNew s v va).2 ∧ Gentle s (faultNew s v va).2 := by
  have hold : (s.mm.pte va).owned = false := by simp [Pte.owned, hinvalid]
  unfold faultNew
  split
  · rename_i hio
    refine hi.store va _ ht rfl ?_ hi.free ?_ (.refl s) hi.calm fun _ => ⟨v, hcov.mem, hcov.addr, ?_, ?_⟩
    · intro p
      rw [owns_of_not_owned hold]
      simp [Pte.owns, Pte.owned, Space.setPte]
    · rw [hold]
      simp [Pte.owned, Space.setPte, Mm.setPte]
    · exact fun _ => hio
    intro hp
    rw [hp.2] at hio
    cases hio
  rename_i hio
  split
  · rename_i heq
    have hsame : SameMem s _ := allocPage_spec heq
    exact ⟨hsame.inv hi, hsame.gentle⟩
  rename_i p t heq
  have hfresh : Fresh s t p := allocPage_spec heq
  simp only
  generalize hu : fillPage t v va p = res
  obtain ⟨r, u⟩ := res
  obtain ⟨hmm, hcalm, hfill⟩ := fillPage_spec hu
  simp only
  split
  · -- the page goes back before anything maps it
    have hsame : ∀ q, ((freePage u p).frame q).refcount = (s.frame q).refcount ∧
        ((freePage u p).frame q).free = (s.frame q).free := by
      intro q
      by_cases hq : q = p
      · have hzero := (hi.free p).mp hfresh.free
        simp [freePage, Space.setFrame, hq, hzero, hfresh.free]
      simp only [freePage, Space.setFrame, ne_eq, hq, not_false_eq_true, Function.update_of_ne]
      rw [(hfill q).2.2 hq, hfresh.other q hq]
      simp
    have hpgd : (freePage u p).mm = s.mm := hmm.trans hfresh.mm
    refine ⟨hi.same (fun x => by rw [hpgd]) (fun q => (hsame q).1) (fun q => (hsame q).2) (by rw [hpgd]) ?_,
      .of_refcount_eq fun q => (hsame q).1⟩
    exact hcalm.trans hfresh.panicked
  have hframe : ∀ q, (((u.setPte va (pteProt v.flags p)).addRss).frame q).refcount = (t.frame q).refcount :=
    fun q => (hfill q).1
  have hmm' : u.mm = s.mm := hmm.trans hfresh.mm
  refine hi.store va (pteProt v.flags p) ht ?_ ?_ ?_ ?_ ?_ ?_ fun _ => ⟨v, hcov.mem, hcov.addr, ?_, ?_⟩
  · simp only [Space.addRss, Space.setPte, Mm.setPte, hmm']
  · intro q
    rw [hframe, hfresh.count hi, owns_of_not_owned hold, bit_owns (pteProt_owned _ _)]
    rfl
  · intro q
    rw [hframe]
    have hfree : (((u.setPte va (pteProt v.flags p)).addRss).frame q).free = (t.frame q).free := (hfill q).2.1
    rw [hfree]
    exact hfresh.free_iff hi q
  · rw [hold]
    simp only [Space.addRss, Space.setPte, Mm.setPte, hmm', pteProt_owned, bit_true, bit_false]
  · intro q
    rw [hframe]
    exact hfresh.gentle q
  · exact (hcalm.trans hfresh.panicked).trans hi.calm
  · simp [pteProt]
  intro _ _
  rw [hframe]
  exact hfresh.refcount

theorem Fresh.copied {p : Nat} (h : Fresh s t p) (data : Nat → UInt8) :
    Fresh s (t.setFrame p { t.frame p with data := data }) p := by
  refine ⟨h.mm, h.panicked, h.free, by simpa [Space.setFrame] using h.taken,
    by simpa [Space.setFrame] using h.refcount, fun q hq => ?_⟩
  simpa [Space.setFrame, hq] using h.other q hq

theorem faultWrite_inv (hi : Inv ext l s) (hcov : Covers l v va) (hvalid : (s.mm.pte va).valid = true) :
    Inv ext l (faultWrite s v va (s.mm.pte va)).2 ∧ Gentle s (faultWrite s v va (s.mm.pte va)).2 := by
  have ht := hasTable_of_valid hvalid
  unfold faultWrite
  split
  · exact ⟨hi, .refl s⟩
  split
  · -- the only reference: the page is written in place
    rename_i hsole
    exact hi.store va _ ht rfl (fun _ => rfl) hi.free rfl (.refl s) hi.calm fun _ =>
      ⟨v, hcov.mem, hcov.addr, by simp [hsole.1], fun _ _ => hsole.2⟩
  rename_i hshared
  split
  · rename_i heq
    have hsame : SameMem s _ := allocPage_spec heq
    exact ⟨hsame.inv hi, hsame.gentle⟩
  rename_i np t heq
  simp only
  have hfresh : Fresh s _ np := (allocPage_spec heq : Fresh s t np).copied (t.frame (s.mm.pte va).frame).data
  generalize t.setFrame np _ = u at hfresh
  have hcount := hfresh.count hi
  have hpgd : (u.setPte va (pteProt v.flags np)).mm = s.mm.setPte va (pteProt v.flags np) := by
    simp only [Space.setPte, hfresh.mm]
  split
  · rename_i hdev
    have hold : (s.mm.pte va).owned = false := by simp [Pte.owned, hdev]
    refine hi.store va (pteProt v.flags np) ht (congrArg Mm.pgd hpgd) ?_ (hfresh.free_iff hi) ?_ hfresh.gentle
      (hfresh.panicked.trans hi.calm) fun _ => ⟨v, hcov.mem, hcov.addr, by simp [pteProt], fun _ _ => hfresh.refcount⟩
    · intro q
      rw [owns_of_not_owned hold, bit_owns (pteProt_owned _ _)]
      exact hcount q
    · rw [hold]
      simp [Space.addRss, hpgd, Mm.setPte]
  rename_i hdev
  have hold : (s.mm.pte va).owned = true := by simp [Pte.owned, hvalid, hdev]
  have hpos := hi.refcount_pos hold
  have hne : np ≠ (s.mm.pte va).frame := by
    rintro rfl
    have := (hi.free _).mp hfresh.free
    simp only [Mm.pte] at this
    omega
  have hdrop := pagePut_spec (s := u.setPte va (pteProt v.flags np)) (p := (s.mm.pte va).frame) (by
    have := hcount (s.mm.pte va).frame
    simp only [Mm.pte, Space.setPte] at *
    omega)
  refine hi.store va (pteProt v.flags np) ht (congrArg Mm.pgd (hdrop.mm.trans hpgd)) ?_
    (fun q => hdrop.free q (hfresh.free_iff hi q)) ?_ (hfresh.gentle.trans hdrop.gentle)
    (hdrop.panicked.trans (hfresh.panicked.trans hi.calm)) fun _ =>
      ⟨v, hcov.mem, hcov.addr, by simp [pteProt], fun _ _ => ?_⟩
  · intro q
    rw [bit_owns hold, bit_owns (pteProt_owned _ _)]
    exact (hdrop.count q).trans (hcount q)
  · rw [hold, hdrop.mm, hpgd]
    rfl
  have h := hdrop.count np
  rw [if_neg hne] at h
  exact h.trans hfresh.refcount

theorem faultIn_inv (hi : Inv ext l s) (hcov : Covers l v va) (write : Bool) :
    Inv ext l (faultIn s v va write).2 ∧ Gentle s (faultIn s v va write).2 := by
  unfold faultIn
  split
  · rename_i heq
    have hsame := (userPte_spec heq).1
    exact ⟨hsame.inv hi, hsame.gentle⟩
  rename_i t heq
  obtain ⟨hsame, ht⟩ := userPte_spec heq
  have hi' := hsame.inv hi
  simp only
  split
  · have h := faultNew_inv hi' hcov (ht rfl) ‹_›
    exact ⟨h.1, hsame.gentle.trans h.2⟩
  split
  · have h := faultWrite_inv hi' hcov (by simpa using ‹¬(t.mm.pte va).valid = false›)
    exact ⟨h.1, hsame.gentle.trans h.2⟩
  · exact ⟨hi', hsame.gentle⟩

theorem faultAllowed_inv (hi : Inv ext l s) (hcov : Covers l v va) (write exec : Bool) :
    Inv ext l (faultAllowed s v va write exec).2 ∧ Gentle s (faultAllowed s v va write exec).2 := by
  unfold faultAllowed
  split
  · exact ⟨hi, .refl s⟩
  split
  · exact ⟨hi, .refl s⟩
  split
  · exact ⟨hi, .refl s⟩
  · exact faultIn_inv hi hcov write

theorem Inv.widen {pre post : List Vma} {w : Vma} (h : Inv ext (pre ++ v :: post) s)
    (hl : VmasOk 0 (pre ++ w :: post)) (hstart : w.start ≤ v.start) (hstop : v.stop ≤ w.stop)
    (hio : w.flags.io = v.flags.io) (hsh : w.flags.shared = v.flags.shared) : Inv ext (pre ++ w :: post) s := by
  refine h.relist hl fun x _ u hu hc => ?_
  by_cases huv : u = v
  · subst huv
    exact ⟨w, by simp, ⟨hstart.trans hc.1, hc.2.trans_le hstop⟩, hio, hsh⟩
  refine ⟨u, ?_, hc, rfl, rfl⟩
  simp only [List.mem_append, List.mem_cons, huv, false_or] at hu
  simp only [List.mem_append, List.mem_cons]
  tauto

structure Kept (ext : Nat → Nat) (s t : Space) : Prop where
  inv : Inv ext t.mm.vmas t
  gentle : Gentle s t

theorem Kept.refl (h : Inv ext s.mm.vmas s) : Kept ext s s := ⟨h, .refl s⟩

theorem Kept.trans {u : Space} (h : Kept ext s t) (h' : Kept ext t u) : Kept ext s u :=
  ⟨h'.inv, h.gentle.trans h'.gentle⟩

theorem SameMem.kept (h : SameMem s t) (hi : Inv ext t.mm.vmas s) : Kept ext s t :=
  ⟨h.inv hi, h.gentle⟩

theorem faultAllowed_kept (hi : Inv ext s.mm.vmas s) (hcov : Covers s.mm.vmas v va)
    (write exec : Bool) : Kept ext s (faultAllowed s v va write exec).2 := by
  have hvmas := vmas_of_bare (faultAllowed_bare s v va write exec)
  have h := faultAllowed_inv hi hcov write exec
  exact ⟨hvmas ▸ h.1, h.2⟩

theorem handleMmFault_kept (hok : MmOk 0 s.mm) (hi : Inv ext s.mm.vmas s) (addr : Nat) (write exec : Bool) :
    Kept ext s (handleMmFault s addr write exec).2 := by
  have hbounds := alignDown_bounds addr
  simp only [handleMmFault]
  split
  · exact .refl hi
  rename_i haddr
  split
  · rename_i v hfind
    obtain ⟨hmem, hc⟩ := vmaFind_mem hfind
    exact faultAllowed_kept hi ⟨hmem, hc, alignDown_dvd addr, by omega⟩ write exec
  rename_i hnone
  split
  · exact .refl hi
  split
  · exact .refl hi
  rename_i g hfind hgrow
  have hvmas := hok.vmas.growDown hfind (Nat.zero_le _) (alignDown_dvd addr)
  obtain ⟨hlt, hgt, pre, post, heq, hpre, hmod⟩ :=
    vmaFindIntersect_eq_some hfind fun w => { w with start := alignDown addr PAGE_SIZE }
  have hbelow : alignDown addr PAGE_SIZE ≤ g.start := by
    have hno := vmaFind_eq_none hok.vmas hnone g (by simp [heq])
    unfold Vma.Contains at hno
    omega
  rw [hmod] at hvmas ⊢
  rw [heq] at hi
  have hgrown := (setVmas_sameMem s _).kept (hi.widen hvmas hbelow le_rfl rfl rfl)
  refine hgrown.trans (faultAllowed_kept hgrown.inv ⟨?_, ⟨le_rfl, hgt⟩, alignDown_dvd addr, ?_⟩ write exec)
  · simp [Space.setVmas]
  · simp only
    omega

end Olux.Vm
