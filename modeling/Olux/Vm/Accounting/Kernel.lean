import Olux.Vm.Accounting.Dup

namespace Olux.Vm

open Olux.Lib Function List Option

variable {i : Nat} {mm : Mm} {r : Option Mm} {s : Space}

structure Sound (frame : Nat → Frame) (mm : Mm) : Prop where
  ok : MmOk 0 mm
  rss : mm.rssPages = mapped mm
  placed : ∀ x, (mm.pgd.entry x).valid = true → ∃ v ∈ mm.vmas, v.Contains x.addr ∧ Fine frame v (mm.pgd.entry x)

structure KInv (ext : Nat → Nat) (k : Kernel) : Prop where
  fresh : ∀ i, k.next ≤ i → k.mms i = none
  refcount : ∀ p, (k.frame p).refcount = k.refs p + ext p
  free : ∀ p, (k.frame p).free = true ↔ (k.frame p).refcount = 0
  sound : ∀ i mm, k.mms i = some mm → Sound k.frame mm
  calm : k.panicked = false

def optRefs (mm : Option Mm) (p : Nat) : Nat := (mm.map fun mm => refs mm p).getD 0

@[simp] theorem optRefs_some (mm : Mm) (p : Nat) : optRefs (some mm) p = refs mm p := by
  rw [optRefs, Option.map_some, Option.getD_some]

@[simp] theorem optRefs_none (p : Nat) : optRefs none p = 0 := rfl

def Kernel.others (k : Kernel) (i p : Nat) : Nat := ∑ j ∈ (Finset.range k.next).erase i, optRefs (k.mms j) p

theorem Kernel.refs_eq (k : Kernel) (hfresh : ∀ i, k.next ≤ i → k.mms i = none) (i p : Nat) :
    k.refs p = optRefs (k.mms i) p + k.others i p := by
  by_cases hi : i < k.next
  · exact (Finset.add_sum_erase (Finset.range k.next) (fun j => optRefs (k.mms j) p) (Finset.mem_range.mpr hi)).symm
  have hnone := hfresh i (by omega)
  have hnot : i ∉ Finset.range k.next := by simpa using hi
  rw [Kernel.others, Finset.erase_eq_of_notMem hnot, hnone]
  exact (Nat.zero_add _).symm

theorem Kernel.refs_le_others (k : Kernel) (hfresh : ∀ i, k.next ≤ i → k.mms i = none) {j : Nat} (hij : j ≠ i)
    (hj : k.mms j = some mm) (p : Nat) : Vm.refs mm p ≤ k.others i p := by
  have hlt : j < k.next := by
    by_contra hge
    rw [hfresh j (by omega)] at hj
    cases hj
  have hle := Finset.single_le_sum (f := fun j => optRefs (k.mms j) p) (fun _ _ => Nat.zero_le _)
    (Finset.mem_erase.mpr ⟨hij, Finset.mem_range.mpr hlt⟩)
  simp only [hj, optRefs_some] at hle
  exact hle

theorem Kernel.others_commit (k : Kernel) (i : Nat) (mm : Option Mm) (s : Space) (p : Nat) :
    (k.commit i mm s).others i p = k.others i p := by
  refine Finset.sum_congr rfl fun j hj => ?_
  simp only [Kernel.commit, update_of_ne (Finset.ne_of_mem_erase hj)]

variable {ext : Nat → Nat} {k : Kernel}

theorem Sound.of_spares {frame frame' : Nat → Frame} (h : Sound frame mm)
    (hspares : ∀ p, 0 < refs mm p → (frame p).refcount = 1 → (frame' p).refcount = 1) : Sound frame' mm := by
  refine ⟨h.ok, h.rss, fun x hx => ?_⟩
  obtain ⟨v, hv, hc, hf⟩ := h.placed x hx
  exact ⟨v, hv, hc, hf.io, fun hp hr => hspares _ (refs_pos (Pte.owns_frame (hf.owned hp hx))) (hf.sole hp hr)⟩

theorem KInv.inv (h : KInv ext k) (hi : k.mms i = some mm) (u : Supply) :
    Inv (fun p => k.others i p + ext p) mm.vmas (k.space mm u) := by
  have hs := h.sound i mm hi
  refine ⟨hs.ok.vmas, fun p => ?_, h.free, hs.rss, hs.placed, h.calm⟩
  have h1 := h.refcount p
  have h2 := k.refs_eq h.fresh i p
  simp only [hi, optRefs_some] at h2
  simp only [Kernel.space]
  omega

theorem KInv.commit (h : KInv ext k) {ext' : Nat → Nat} (hi : k.mms i = some mm) {u : Supply} {t : Space}
    (hcount : ∀ p, (t.frame p).refcount = optRefs r p + k.others i p + ext' p)
    (hfree : ∀ p, (t.frame p).free = true ↔ (t.frame p).refcount = 0)
    (hsound : ∀ mm', r = some mm' → Sound t.frame mm') (hcalm : t.panicked = false)
    (hspares : Spares (fun p => k.others i p + ext p) (k.space mm u) t) : KInv ext' (k.commit i r t) := by
  have hfresh : ∀ j, (k.commit i r t).next ≤ j → (k.commit i r t).mms j = none := by
    intro j hj
    have hnone := h.fresh j hj
    have hne : j ≠ i := by
      rintro rfl
      rw [hnone] at hi
      cases hi
    simpa [Kernel.commit, hne] using hnone
  refine ⟨hfresh, fun p => ?_, hfree, fun j mm' hj => ?_, hcalm⟩
  · rw [Kernel.refs_eq _ hfresh i p, Kernel.others_commit]
    simp only [Kernel.commit, update_self]
    exact hcount p
  by_cases hji : j = i
  · subst hji
    simp only [Kernel.commit, update_self] at hj
    exact hsound mm' hj
  simp only [Kernel.commit, update_of_ne hji] at hj
  refine (h.sound j mm' hj).of_spares fun p hp hone => hspares p ?_ hone
  have := k.refs_le_others h.fresh hji hj p
  simp only
  omega

theorem KInv.enter (h : KInv (fun p => refs mm p + ext p) k) (hs : Sound k.frame mm) : KInv ext (k.enter mm) := by
  refine ⟨fun i hi => ?_, fun p => ?_, h.free, fun i mm' hi => ?_, h.calm⟩
  · simp only [Kernel.enter] at hi ⊢
    rw [update_of_ne (by omega)]
    exact h.fresh i (by omega)
  · have hrefs : (k.enter mm).refs p = k.refs p + refs mm p := by
      simp only [Kernel.refs, Kernel.enter, Finset.sum_range_succ, update_self, map_some, getD_some]
      congr 1
      refine Finset.sum_congr rfl fun j hj => ?_
      rw [update_of_ne (Finset.mem_range.mp hj).ne]
    have h1 := h.refcount p
    rw [hrefs]
    simp only [Kernel.enter]
    omega
  by_cases hik : i = k.next
  · subst hik
    simp only [Kernel.enter, update_self, Option.some.injEq] at hi
    exact hi ▸ hs
  · simp only [Kernel.enter, update_of_ne hik] at hi
    exact h.sound i mm' hi

theorem Inv.sound {l : List Vma} (h : Inv ext l s) (hok : MmOk 0 s.mm) (hl : l = s.mm.vmas) :
    Sound s.frame s.mm := ⟨hok, h.rss, hl ▸ h.placed⟩

theorem Inv.count {others : Nat → Nat} {l : List Vma} (h : Inv (fun p => others p + ext p) l s) (p : Nat) :
    (s.frame p).refcount = optRefs (some s.mm) p + others p + ext p := by
  have := h.refcount p
  rw [optRefs_some]
  omega

theorem KInv.on (h : KInv (fun _ => 0) k) (i : Nat) (u : Supply) (f : Space → Space)
    (hf : ∀ (ext : Nat → Nat) (mm : Mm), k.mms i = some mm → MmOk 0 mm → Inv ext mm.vmas (k.space mm u) →
      Kept ext (k.space mm u) (f (k.space mm u)) ∧ MmOk 0 (f (k.space mm u)).mm) :
    KInv (fun _ => 0) (k.on i u f) := by
  unfold Kernel.on
  split
  · exact h
  rename_i mm hi
  obtain ⟨hkept, hok⟩ := hf _ mm hi (h.sound i mm hi).ok (h.inv hi u)
  refine h.commit hi hkept.inv.count hkept.inv.free ?_ hkept.inv.calm hkept.spares
  rintro mm' ⟨⟩
  exact hkept.inv.sound hok rfl

theorem KInv.create (h : KInv (fun _ => 0) k) {u u' : Supply} (heq : mmCreate u = (some mm, u')) :
    KInv (fun _ => 0) (k.enter mm) := by
  obtain ⟨_, hpgd, _, hrss, hok⟩ := mmCreate_spec heq
  refine KInv.enter ?_ ⟨hok, hrss.trans (mapped_of_empty hpgd).symm, fun x hx => ?_⟩
  · simpa only [refs_of_empty hpgd] using h
  · simp only [hpgd, Pgd.entry] at hx
    cases hx

theorem KInv.dup (h : KInv (fun _ => 0) k) (hi : k.mms i = some mm) (u : Supply) (heq : mmDup (k.space mm u) = (r, s)) :
    KInv (fun _ => 0) (match r with
      | none => k.commit i (some s.mm) s
      | some child => (k.commit i (some s.mm) s).enter child) := by
  have hok := (h.sound i mm hi).ok
  obtain ⟨hspares, hbare, hres⟩ := mmDup_spec hok (h.inv hi u) heq
  have hok' : MmOk 0 s.mm := hok.of_bare hbare
  cases r with
  | none =>
    refine h.commit hi hres.count hres.free ?_ hres.calm hspares
    rintro mm' ⟨⟩
    exact hres.sound hok' rfl
  | some child =>
  obtain ⟨hokc, hparent, hchild⟩ := hres
  refine KInv.enter (h.commit hi (fun p => ?_) hparent.free ?_ hparent.calm hspares) (hchild.sound hokc rfl)
  · have := hparent.refcount p
    rw [optRefs_some]
    omega
  · rintro mm' ⟨⟩
    exact hparent.sound hok' rfl

theorem KInv.put (h : KInv (fun _ => 0) k) (hi : k.mms i = some mm) (u : Supply)
    (heq : mmPut (k.space mm u) = (r, s)) : KInv (fun _ => 0) (k.commit i r s) := by
  have hinv := h.inv hi u
  unfold mmPut at heq
  split at heq
  · cases heq
    refine h.commit hi hinv.count h.free ?_ h.calm (.refl _ _)
    rintro mm' ⟨⟩
    have hs := h.sound i mm hi
    exact ⟨hs.ok.of_refcount _, hs.rss, hs.placed⟩
  obtain ⟨hcalm, hcount, hfree⟩ := freeTables_spec hinv
  generalize freeTables (k.space mm u) = t at *
  cases heq
  refine h.commit (u := u) hi (fun p => ?_) hfree (by simp) hcalm fun p hp hone => ?_
  · rw [hcount p, optRefs_none, Nat.zero_add]
  have h1 := hinv.refcount p
  have h2 := hcount p
  beta_reduce at hp h1
  omega

theorem store_kept (hi : Inv ext s.mm.vmas s) (va : Nat) (b : UInt8) : Kept ext s (s.store va b) := by
  have hsame : ∀ p, ((s.store va b).frame p).refcount = (s.frame p).refcount ∧
      ((s.store va b).frame p).free = (s.frame p).free := by
    intro p
    by_cases hp : p = (s.mm.pte va).frame <;> simp [Space.store, Space.setFrame, hp]
  exact ⟨hi.same (fun _ => rfl) (fun p => (hsame p).1) (fun p => (hsame p).2) rfl rfl,
    .of_refcount_eq fun p => (hsame p).1⟩

theorem userWrite_kept (hok : MmOk 0 s.mm) (hi : Inv ext s.mm.vmas s) (va : Nat) (b : UInt8) :
    Kept ext s (userWrite s va b) ∧ MmOk 0 (userWrite s va b).mm := by
  have hkept := handleMmFault_kept hok hi va true false
  have hok' := handleMmFault_ok hok (Nat.zero_le _) va true false
  simp only [userWrite]
  split
  · exact ⟨.refl hi, hok⟩
  split
  · exact ⟨store_kept hi va b, hok⟩
  split
  · exact ⟨hkept.trans (store_kept hkept.inv va b), hok'⟩
  · exact ⟨hkept, hok'⟩

theorem userRead_kept (hok : MmOk 0 s.mm) (hi : Inv ext s.mm.vmas s) (va : Nat) :
    Kept ext s (userRead s va).2 ∧ MmOk 0 (userRead s va).2.mm := by
  have hkept := handleMmFault_kept hok hi va false false
  have hok' := handleMmFault_ok hok (Nat.zero_le _) va false false
  simp only [userRead]
  split
  · exact ⟨.refl hi, hok⟩
  split <;> exact ⟨hkept, hok'⟩

theorem step_inv (h : KInv (fun _ => 0) k) (u : Supply) {op : Op} (hr : op.InRange k) : KInv (fun _ => 0) (step k u op) := by
  cases op with
  | create =>
    simp only [step]
    split
    · exact h
    · rename_i heq
      exact h.create heq
  | dup i =>
    simp only [step]
    split
    · exact h
    rename_i mm hi
    split
    · rename_i heq
      exact h.dup hi u heq
    · rename_i heq
      exact h.dup hi u heq
  | get i =>
    simp only [step]
    refine h.on i u _ fun ext mm _ hok hinv => ⟨⟨?_, .of_refcount_eq fun _ => rfl⟩, hok.of_refcount _⟩
    exact hinv.same (fun _ => rfl) (fun _ => rfl) (fun _ => rfl) rfl rfl
  | put i =>
    simp only [step]
    split
    · exact h
    · rename_i mm hi
      exact h.put hi u rfl
  | call i c =>
    simp only [step]
    refine h.on i u _ fun ext mm hi hok hinv => ?_
    exact Call.run_kept hok hinv (hr mm hi)
  | map i start stop flags file off bytes =>
    simp only [step]
    refine h.on i u _ fun ext mm hi hok hinv => ?_
    obtain ⟨hlt, hmax, hd, hd', hapart⟩ := hr mm hi
    have hok' : MmOk 0 (mapVma (k.space mm u) start stop flags file off bytes).2.mm :=
      mapVma_ok hok rfl (Nat.zero_le _) hlt hmax hd hd' hapart
    exact ⟨mapVma_kept hinv hok' rfl, hok'⟩
  | setBrk i brk =>
    simp only [step]
    refine h.on i u _ fun ext mm _ hok hinv => ⟨⟨?_, .of_refcount_eq fun _ => rfl⟩, ?_⟩
    · exact hinv.same (fun _ => rfl) (fun _ => rfl) (fun _ => rfl) rfl rfl
    have hva : USER_VA_END = 2 ^ 39 := rfl
    have hpage : PAGE_SIZE = 4096 := rfl
    have hbrk : brk ≤ USER_VA_END := hr
    exact ⟨hok.vmas, Nat.zero_le _, le_rfl, by simp only; omega, hok.mmapBase_dvd, hok.mmapBase_le,
      hok.le_stackTop, hok.stackTop_lt⟩
  | write i va b =>
    simp only [step]
    exact h.on i u _ fun ext mm _ hok hinv => userWrite_kept hok hinv va.toNat b
  | read i va =>
    simp only [step]
    exact h.on i u _ fun ext mm _ hok hinv => userRead_kept hok hinv va.toNat

theorem bootKernel_inv (data : Nat → Nat → UInt8) : KInv (fun _ => 0) (bootKernel data) := by
  refine ⟨fun _ _ => rfl, fun p => ?_, fun _ => by simp [bootKernel], fun i mm h => ?_, rfl⟩
  · simp [bootKernel, Kernel.refs]
  · cases h

theorem Kernel.Reach.inv (h : Kernel.Reach k) : KInv (fun _ => 0) k := by
  induction h with
  | boot data => exact bootKernel_inv data
  | step _ u op hr ih => exact step_inv ih u hr

theorem KInv.free_iff (h : KInv (fun _ => 0) k) (p : Nat) : (k.frame p).free = true ↔ k.refs p = 0 := by
  rw [h.free, h.refcount]
  exact Iff.rfl

-- The books of every state that the kernel gets to, and the pages that a step gives back.
theorem reach_accounted (h : k.Reach) :
    (∀ p, (k.frame p).refcount = k.refs p ∧ ((k.frame p).free = true ↔ k.refs p = 0)) ∧
      (∀ u op, op.InRange k → ∀ p, ((k.frame p).free = false ∧ ((step k u op).frame p).free = true) ↔
        0 < k.refs p ∧ (step k u op).refs p = 0) ∧
      (∀ i mm, k.mms i = some mm → mm.rssPages = mapped mm ∧
        ∀ x, (mm.pgd.entry x).valid = true → ∃ v ∈ mm.vmas, v.Contains x.addr) ∧
      k.panicked = false := by
  have hinv := h.inv
  refine ⟨fun p => ⟨hinv.refcount p, hinv.free_iff p⟩, fun u op hr p => ?_, fun i mm hi => ?_, hinv.calm⟩
  · have hbefore := hinv.free_iff p
    have hafter := (step_inv hinv u hr).free_iff p
    rw [hafter, Nat.pos_iff_ne_zero, ne_eq, ← hbefore, Bool.not_eq_true]
  have hs := hinv.sound i mm hi
  refine ⟨hs.rss, fun x hx => ?_⟩
  obtain ⟨v, hv, hc, _⟩ := hs.placed x hx
  exact ⟨v, hv, hc⟩

def oneProcess : Kernel :=
  step (bootKernel fun _ _ => 0) { pages := [some 0], objects := [true], reads := [], asid := true, random := 0 } .create

def onePage : Kernel :=
  step
    (step oneProcess { pages := [], objects := [true], reads := [], asid := true, random := 0 }
      (.map 0 0x10000 0x11000 { read := true, write := true } none 0 0))
    { pages := [some 1, some 2, some 3], objects := [], reads := [], asid := true, random := 0 } (.write 0 0x10000 7)

def forked : Kernel :=
  step onePage { pages := [some 4, some 5, some 6], objects := [true, true], reads := [], asid := true, random := 0 }
    (.dup 0)

theorem oneProcess_reach : oneProcess.Reach := .step (.boot _) _ .create trivial

theorem onePage_reach : onePage.Reach := by
  refine .step (.step oneProcess_reach _ (.map 0 0x10000 0x11000 _ none 0 0) ?_) _ (.write 0 0x10000 7) trivial
  intro mm hmm
  have hvmas : mm.vmas = [] := by
    simp only [oneProcess, step, mmCreate, Supply.object, Supply.table] at hmm
    cases hmm
    rfl
  refine ⟨by decide, by decide, by decide, by decide, ?_⟩
  rw [hvmas]
  exact fun _ h => absurd h not_mem_nil

theorem forked_reach : forked.Reach := .step onePage_reach _ (.dup 0) trivial

theorem reach_accounted_forked : (forked.frame 3).refcount = 2 ∧ forked.refs 3 = 2 ∧ (forked.frame 3).free = false := by
  have hcount : (forked.frame 3).refcount = 2 := rfl
  have h := (reach_accounted forked_reach).1 3
  exact ⟨hcount, h.1.symm.trans hcount, rfl⟩

end Olux.Vm
