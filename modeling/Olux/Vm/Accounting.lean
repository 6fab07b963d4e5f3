import Olux.Lib.Sum
import Olux.Vm.Kernel

namespace Olux.Vm

open Olux.Lib

variable {s s' : Space} {mm mm' : Mm} {x : Slot} {e : Pte} {ext : Nat → Nat} {l : List Vma}

def Slot.equiv : Fin PT_ENTRIES × Fin PT_ENTRIES × Fin PT_ENTRIES ≃ Slot where
  toFun x := ⟨x.1, x.2.1, x.2.2⟩
  invFun x := (x.l1, x.l2, x.l3)
  left_inv _ := rfl
  right_inv _ := rfl

instance : Fintype Slot := Fintype.ofEquiv _ Slot.equiv

def Slot.addr (x : Slot) : Nat := x.l1 * L1_SIZE + x.l2 * L2_SIZE + x.l3 * PAGE_SIZE

theorem slot_addr (x : Slot) : slot x.addr = x := by
  have hp : PT_ENTRIES = 512 := rfl
  have h1 := x.l1.isLt
  have h2 := x.l2.isLt
  have h3 := x.l3.isLt
  have h1' : x.addr / L1_SIZE % 512 = x.l1 := by simp only [Slot.addr, L1_SIZE, L2_SIZE, PAGE_SIZE]; omega
  have h2' : x.addr / L2_SIZE % 512 = x.l2 := by simp only [Slot.addr, L1_SIZE, L2_SIZE, PAGE_SIZE]; omega
  have h3' : x.addr / PAGE_SIZE % 512 = x.l3 := by simp only [Slot.addr, L1_SIZE, L2_SIZE, PAGE_SIZE]; omega
  exact Slot.ext (Fin.ext h1') (Fin.ext h2') (Fin.ext h3')

theorem addr_slot {va : Nat} (hd : PAGE_SIZE ∣ va) (hlt : va < USER_VA_END) : (slot va).addr = va := by
  simp only [slot, Slot.addr, PT_ENTRIES, L1_SIZE, L2_SIZE, PAGE_SIZE, USER_VA_END] at *
  omega

theorem Slot.addr_dvd (x : Slot) : PAGE_SIZE ∣ x.addr := by
  simp only [Slot.addr, L1_SIZE, L2_SIZE, PAGE_SIZE]
  omega

def Pte.owned (e : Pte) : Bool := e.valid && !e.swShared

def Pte.owns (e : Pte) (p : Nat) : Bool := e.owned && e.frame == p

def refs (mm : Mm) (p : Nat) : Nat := (Finset.univ.filter fun x => (mm.pgd.entry x).owns p = true).card

def mapped (mm : Mm) : Nat := (Finset.univ.filter fun x => (mm.pgd.entry x).owned = true).card

def Kernel.refs (k : Kernel) (p : Nat) : Nat := ∑ i ∈ Finset.range k.next, ((k.mms i).map fun mm => Vm.refs mm p).getD 0

def Vma.Private (v : Vma) : Prop := v.flags.shared = false ∧ v.flags.io = false

structure Fine (frame : Nat → Frame) (v : Vma) (e : Pte) : Prop where
  io : e.swShared = true → v.flags.io = true
  sole : v.Private → e.rdonly = false → (frame e.frame).refcount = 1

-- One address space among others that hold `ext` references; `l` is its list of areas,
-- which a walk may be changing.
structure Inv (ext : Nat → Nat) (l : List Vma) (s : Space) : Prop where
  vmas : VmasOk 0 l
  refcount : ∀ p, (s.frame p).refcount = refs s.mm p + ext p
  free : ∀ p, (s.frame p).free = true ↔ (s.frame p).refcount = 0
  rss : s.mm.rssPages = mapped s.mm
  placed : ∀ x, (s.mm.pgd.entry x).valid = true → ∃ v ∈ l, v.Contains x.addr ∧ Fine s.frame v (s.mm.pgd.entry x)
  calm : s.panicked = false

def Gentle (s s' : Space) : Prop := ∀ p, (s'.frame p).refcount ≤ max (s.frame p).refcount 1

theorem Gentle.refl (s : Space) : Gentle s s := fun _ => Nat.le_max_left _ _

theorem Gentle.trans {t u : Space} (h : Gentle s t) (h' : Gentle t u) : Gentle s u := by
  intro p
  have := h p
  have := h' p
  omega

theorem Gentle.of_refcount_eq (h : ∀ p, (s'.frame p).refcount = (s.frame p).refcount) : Gentle s s' := by
  intro p
  have := h p
  omega

def bit (b : Bool) : Nat := if b then 1 else 0

@[simp] theorem bit_false : bit false = 0 := rfl

@[simp] theorem bit_true : bit true = 1 := rfl

theorem refs_eq_sum (mm : Mm) (p : Nat) : refs mm p = ∑ x, bit ((mm.pgd.entry x).owns p) := by
  simp only [refs, Finset.card_filter, bit]

theorem mapped_eq_sum (mm : Mm) : mapped mm = ∑ x, bit (mm.pgd.entry x).owned := by
  simp only [mapped, Finset.card_filter, bit]

theorem refs_change (h : ∀ y, mm'.pgd.entry y = if y = x then e else mm.pgd.entry y) (p : Nat) :
    refs mm' p + bit ((mm.pgd.entry x).owns p) = refs mm p + bit (e.owns p) := by
  have hsum := sum_change (Finset.mem_univ x) (fun y => bit ((mm'.pgd.entry y).owns p))
    (fun y => bit ((mm.pgd.entry y).owns p)) fun y _ hy => by rw [h y, if_neg hy]
  simp only [h x, if_true] at hsum
  rw [refs_eq_sum, refs_eq_sum]
  exact hsum

theorem mapped_change (h : ∀ y, mm'.pgd.entry y = if y = x then e else mm.pgd.entry y) :
    mapped mm' + bit (mm.pgd.entry x).owned = mapped mm + bit e.owned := by
  have hsum := sum_change (Finset.mem_univ x) (fun y => bit (mm'.pgd.entry y).owned)
    (fun y => bit (mm.pgd.entry y).owned) fun y _ hy => by rw [h y, if_neg hy]
  simp only [h x, if_true] at hsum
  rw [mapped_eq_sum, mapped_eq_sum]
  exact hsum

theorem refs_congr (h : ∀ x, mm'.pgd.entry x = mm.pgd.entry x) (p : Nat) : refs mm' p = refs mm p := by
  simp only [refs, h]

theorem mapped_congr (h : ∀ x, mm'.pgd.entry x = mm.pgd.entry x) : mapped mm' = mapped mm := by
  simp only [mapped, h]

theorem refs_pos {p : Nat} (h : (mm.pgd.entry x).owns p = true) : 0 < refs mm p :=
  Finset.card_pos.mpr ⟨x, by simpa using h⟩

theorem Pte.owns_frame (h : e.owned = true) : e.owns e.frame = true := by
  simp [Pte.owns, h]

theorem Fine.owned {frame : Nat → Frame} {v : Vma} (h : Fine frame v e) (hv : v.Private)
    (he : e.valid = true) : e.owned = true := by
  have hio : e.swShared = false := by
    by_contra hc
    have := h.io (by simpa using hc)
    rw [hv.2] at this
    cases this
  simp [Pte.owned, he, hio]

theorem Fine.of_gentle {v : Vma} (h : Fine s.frame v e) (he : e.valid = true) (hg : Gentle s s')
    (hpos : e.owned = true → 0 < (s'.frame e.frame).refcount) : Fine s'.frame v e := by
  refine ⟨h.io, fun hv hw => ?_⟩
  have h1 := h.sole hv hw
  have h2 := hg e.frame
  have h3 := hpos (h.owned hv he)
  omega

theorem Inv.refcount_pos (h : Inv ext l s)
    (hx : (s.mm.pgd.entry x).owned = true) : 0 < (s.frame (s.mm.pgd.entry x).frame).refcount := by
  have := refs_pos (Pte.owns_frame hx)
  have := h.refcount (s.mm.pgd.entry x).frame
  omega

theorem Inv.change (h : Inv ext l s) (hentry : ∀ y, s'.mm.pgd.entry y = if y = x then e else s.mm.pgd.entry y)
    (hcount : ∀ p, (s'.frame p).refcount + bit ((s.mm.pgd.entry x).owns p) = (s.frame p).refcount + bit (e.owns p))
    (hfree : ∀ p, (s'.frame p).free = true ↔ (s'.frame p).refcount = 0)
    (hrss : s'.mm.rssPages + bit (s.mm.pgd.entry x).owned = s.mm.rssPages + bit e.owned) (hgentle : Gentle s s')
    (hcalm : s'.panicked = false)
    (hfine : e.valid = true → ∃ v ∈ l, v.Contains x.addr ∧ Fine s'.frame v e) : Inv ext l s' := by
  have hrefs : ∀ p, (s'.frame p).refcount = refs s'.mm p + ext p := by
    intro p
    have h1 := hcount p
    have h2 := refs_change hentry p
    have h3 := h.refcount p
    omega
  refine ⟨h.vmas, hrefs, hfree, ?_, ?_, hcalm⟩
  · have h1 := mapped_change hentry
    have h2 := h.rss
    omega
  intro y hy
  have hey := hentry y
  by_cases hyx : y = x
  · rw [if_pos hyx] at hey
    rw [hey] at hy ⊢
    rw [hyx]
    exact hfine hy
  rw [if_neg hyx] at hey
  rw [hey] at hy ⊢
  obtain ⟨v, hv, hc, hf⟩ := h.placed y hy
  refine ⟨v, hv, hc, hf.of_gentle hy hgentle fun ho => ?_⟩
  rw [← hey] at ho ⊢
  have := refs_pos (Pte.owns_frame ho)
  have := hrefs (s'.mm.pgd.entry y).frame
  omega

theorem Inv.same (h : Inv ext l s) (hentry : ∀ x, s'.mm.pgd.entry x = s.mm.pgd.entry x)
    (hcount : ∀ p, (s'.frame p).refcount = (s.frame p).refcount) (hfree : ∀ p, (s'.frame p).free = (s.frame p).free)
    (hrss : s'.mm.rssPages = s.mm.rssPages) (hcalm : s'.panicked = s.panicked) : Inv ext l s' := by
  refine ⟨h.vmas, ?_, ?_, ?_, ?_, hcalm.trans h.calm⟩
  · intro p
    rw [hcount, refs_congr hentry]
    exact h.refcount p
  · intro p
    rw [hfree, hcount]
    exact h.free p
  · rw [hrss, mapped_congr hentry]
    exact h.rss
  intro x hx
  rw [hentry] at hx ⊢
  obtain ⟨v, hv, hc, hf⟩ := h.placed x hx
  refine ⟨v, hv, hc, hf.io, fun hp hw => ?_⟩
  rw [hcount]
  exact hf.sole hp hw

theorem Inv.relist {l' : List Vma} (h : Inv ext l s) (hl : VmasOk 0 l')
    (hsame : ∀ x, (s.mm.pgd.entry x).valid = true → ∀ v ∈ l, v.Contains x.addr → ∃ w ∈ l', w.Contains x.addr ∧
      w.flags.io = v.flags.io ∧ w.flags.shared = v.flags.shared) : Inv ext l' s := by
  refine ⟨hl, h.refcount, h.free, h.rss, ?_, h.calm⟩
  intro x hx
  obtain ⟨v, hv, hc, hf⟩ := h.placed x hx
  obtain ⟨w, hw, hcw, hio, hsh⟩ := hsame x hx v hv hc
  refine ⟨w, hw, hcw, fun hs => ?_, fun hp hr => ?_⟩
  · rw [hio]
    exact hf.io hs
  refine hf.sole ⟨?_, ?_⟩ hr
  · rw [← hsh]
    exact hp.1
  · rw [← hio]
    exact hp.2

end Olux.Vm
