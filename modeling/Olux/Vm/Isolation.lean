import Olux.Vm.Accounting.Kernel

namespace Olux.Vm

open Olux.Lib

variable {p va i j va' : Nat} {s t : Space} {v w : Vma} {mm mm' : Mm}

def KeepsData (s t : Space) : Prop := ∀ p, (s.frame p).free = false → (t.frame p).data = (s.frame p).data

theorem KeepsData.refl (s : Space) : KeepsData s s := fun _ _ => rfl

theorem SameMem.keepsData {u : Space} (h : SameMem s t) (h' : KeepsData t u) : KeepsData s u := by
  intro p hp
  have := h' p
  rw [h.frame] at this
  exact this hp

theorem Fresh.keepsData {u : Space} (h : Fresh s t p)
    (h' : ∀ q, q ≠ p → (u.frame q).data = (t.frame q).data) : KeepsData s u := by
  intro q hq
  have hne : q ≠ p := by
    rintro rfl
    rw [h.free] at hq
    cases hq
  rw [h' q hne, h.other q hne]

theorem pagePut_data (s : Space) (p q : Nat) : ((pagePut s p).frame q).data = (s.frame q).data := by
  unfold pagePut
  split
  · rfl
  all_goals by_cases hq : q = p <;> simp [freePage, Space.setFrame, hq]

theorem faultNew_keepsData (s : Space) (v : Vma) (va : Nat) : KeepsData s (faultNew s v va).2 := by
  unfold faultNew
  split
  · exact .refl s
  split
  · rename_i heq
    have hsame : SameMem s _ := allocPage_spec heq
    exact hsame.keepsData (.refl _)
  rename_i p t heq
  have hfresh : Fresh s t p := allocPage_spec heq
  generalize hu : fillPage t v va p = res
  obtain ⟨r, u⟩ := res
  have hfill := (fillPage_spec hu).2.2
  simp only
  split
  · refine hfresh.keepsData fun q hq => ?_
    simp [freePage, Space.setFrame, hq, (hfill q).2.2 hq]
  · refine hfresh.keepsData fun q hq => ?_
    simp [Space.addRss, Space.setPte, (hfill q).2.2 hq]

theorem faultWrite_keepsData (s : Space) (v : Vma) (va : Nat) (old : Pte) : KeepsData s (faultWrite s v va old).2 := by
  unfold faultWrite
  split
  · exact .refl s
  split
  · exact .refl s
  split
  · rename_i heq
    have hsame : SameMem s _ := allocPage_spec heq
    exact hsame.keepsData (.refl _)
  rename_i np t heq
  have hfresh : Fresh s t np := allocPage_spec heq
  simp only
  split
  · refine hfresh.keepsData fun q hq => ?_
    simp [Space.addRss, Space.setPte, Space.setFrame, hq]
  refine hfresh.keepsData fun q hq => ?_
  rw [pagePut_data]
  simp [Space.setPte, Space.setFrame, hq]

theorem faultIn_keepsData (s : Space) (v : Vma) (va : Nat) (write : Bool) : KeepsData s (faultIn s v va write).2 := by
  unfold faultIn
  split
  · rename_i heq
    exact (userPte_spec heq).1.keepsData (.refl _)
  rename_i heq
  refine (userPte_spec heq).1.keepsData ?_
  simp only
  split
  · exact faultNew_keepsData _ v va
  split
  · exact faultWrite_keepsData _ v va _
  · exact .refl _

theorem faultAllowed_keepsData (s : Space) (v : Vma) (va : Nat) (write exec : Bool) :
    KeepsData s (faultAllowed s v va write exec).2 := by
  unfold faultAllowed
  split
  · exact .refl s
  split
  · exact .refl s
  split
  · exact .refl s
  · exact faultIn_keepsData s v va write

theorem handleMmFault_keepsData (s : Space) (addr : Nat) (write exec : Bool) :
    KeepsData s (handleMmFault s addr write exec).2 := by
  simp only [handleMmFault]
  split
  · exact .refl s
  split
  · exact faultAllowed_keepsData s _ _ write exec
  split
  · exact .refl s
  split
  · exact .refl s
  · exact (setVmas_sameMem s _).keepsData (faultAllowed_keepsData _ _ _ write exec)

theorem slot_alignDown (va : Nat) : slot va = slot (alignDown va PAGE_SIZE) := by
  refine Slot.ext (Fin.ext ?_) (Fin.ext ?_) (Fin.ext ?_)
  all_goals simp only [slot, alignDown, L1_SIZE, L2_SIZE, PAGE_SIZE, PT_ENTRIES]; omega

theorem contains_alignDown {lo : Nat} (hok : v.Ok lo) (h : v.Contains va) : v.Contains (alignDown va PAGE_SIZE) := by
  obtain ⟨h1, h2⟩ := h
  have hd := hok.start_dvd
  simp only [Vma.Contains, alignDown, PAGE_SIZE] at *
  omega

theorem covers_of_contains (hok : MmOk 0 mm) (hv : v ∈ mm.vmas) (h : v.Contains va) :
    Covers mm.vmas v (alignDown va PAGE_SIZE) := by
  have hc := contains_alignDown (hok.vmas.each v hv) h
  exact ⟨hv, hc, alignDown_dvd va, hc.2.trans_le (hok.vmas.each v hv).max⟩

theorem Sound.fine {frame : Nat → Frame} (h : Sound frame mm) (hv : v ∈ mm.vmas) (hc : v.Contains va)
    (hvalid : (mm.pte va).valid = true) : Fine frame v (mm.pte va) := by
  unfold Mm.pte at *
  rw [slot_alignDown] at hvalid ⊢
  obtain ⟨w, hw, hcw, hf⟩ := h.placed _ hvalid
  rw [h.ok.vmas.eq_of_contains hv hw (covers_of_contains h.ok hv hc).addr hcw]
  exact hf

variable {k : Kernel}

theorem KInv.frame_ne (h : KInv (fun _ => 0) k) (hij : i ≠ j) (hi : k.mms i = some mm) (hj : k.mms j = some mm')
    (hv : v ∈ mm.vmas) (hp : v.Private) (hc : v.Contains va) (hw : w ∈ mm'.vmas) (hp' : w.Private)
    (hc' : w.Contains va') (hwrite : (mm.pte va).writable = true)
    (hvalid : (mm'.pte va').valid = true) : (mm'.pte va').frame ≠ (mm.pte va).frame := by
  simp only [Pte.writable, Bool.and_eq_true, Bool.not_eq_eq_eq_not, Bool.not_true] at hwrite
  have hfine := (h.sound i mm hi).fine hv hc hwrite.1
  have hfine' := (h.sound j mm' hj).fine hw hc' hvalid
  intro heq
  have h1 := hfine.sole hp hwrite.2
  have h2 : 0 < refs mm (mm.pte va).frame := refs_pos (Pte.owns_frame (hfine.owned hp hwrite.1))
  have h3 : 0 < refs mm' (mm'.pte va').frame := refs_pos (Pte.owns_frame (hfine'.owned hp' hvalid))
  have h4 := k.refs_le_others h.fresh hij.symm hj (mm'.pte va').frame
  have h5 := h.refcount (mm.pte va).frame
  have h6 := k.refs_eq h.fresh i (mm.pte va).frame
  simp only [hi, optRefs_some] at h6
  rw [heq] at h4
  simp only [Mm.pte] at *
  rw [heq] at h3
  omega

theorem KInv.not_free (h : KInv (fun _ => 0) k) (hj : k.mms j = some mm) (hw : w ∈ mm.vmas) (hp : w.Private)
    (hc : w.Contains va) (hvalid : (mm.pte va).valid = true) :
    (k.frame (mm.pte va).frame).free = false := by
  have hfine := (h.sound j mm hj).fine hw hc hvalid
  have h1 : 0 < refs mm (mm.pte va).frame := refs_pos (Pte.owns_frame (hfine.owned hp hvalid))
  have h2 := h.refcount (mm.pte va).frame
  have h3 := k.refs_eq h.fresh j (mm.pte va).frame
  simp only [hj, optRefs_some] at h3
  by_contra hc
  have h4 := (h.free _).mp (by simpa using hc)
  simp only [Mm.pte] at *
  omega

theorem handleMmFault_of_contains (hok : MmOk 0 s.mm) (hv : v ∈ s.mm.vmas) (hc : v.Contains va) (write exec : Bool) :
    handleMmFault s va write exec = faultAllowed s v (alignDown va PAGE_SIZE) write exec := by
  have hcov := covers_of_contains hok hv hc
  have hmax := (hok.vmas.each v hv).max
  have hlt := hc.2
  simp only [handleMmFault, vmaFind_of_contains hok.vmas hv hcov.contains]
  rw [if_neg (by omega)]

theorem store_frame_of_ne (s : Space) (va : Nat) (b : UInt8) (h : p ≠ (s.mm.pte va).frame) :
    (s.store va b).frame p = s.frame p := Function.update_of_ne h _ _

theorem userWrite_data (h : KInv (fun _ => 0) k) (hij : i ≠ j) (hi : k.mms i = some mm) (hj : k.mms j = some mm')
    (hv : v ∈ mm.vmas) (hp : v.Private) (hc : v.Contains va) (hw : w ∈ mm'.vmas) (hp' : w.Private)
    (hc' : w.Contains va') (hvalid : (mm'.pte va').valid = true) (u : Supply) (b : UInt8) :
    ((userWrite (k.space mm u) va b).frame (mm'.pte va').frame).data = (k.frame (mm'.pte va').frame).data := by
  have hok := (h.sound i mm hi).ok
  simp only [userWrite]
  split
  · rfl
  split
  · rename_i hwrite
    have hne := h.frame_ne hij hi hj hv hp hc hw hp' hc' hwrite hvalid
    exact congrArg Frame.data (store_frame_of_ne (k.space mm u) va b hne)
  -- the state between the fault and the store is reached by the fault alone
  have hafter := h.on i u (fun s => (handleMmFault s va true false).2) fun ext m _ hokm hinv =>
    ⟨handleMmFault_kept hokm hinv va true false, handleMmFault_ok hokm (Nat.zero_le _) va true false⟩
  simp only [Kernel.on, hi] at hafter
  have hkeep := handleMmFault_keepsData (k.space mm u) va true false _ (h.not_free hj hw hp' hc' hvalid)
  have hmem : v ∈ (handleMmFault (k.space mm u) va true false).2.mm.vmas := by
    rw [handleMmFault_of_contains (s := k.space mm u) hok hv hc, vmas_of_bare (faultAllowed_bare ..)]
    exact hv
  generalize handleMmFault (k.space mm u) va true false = res at *
  obtain ⟨r, t⟩ := res
  simp only at *
  split
  · rename_i hwrite
    have hti : (k.commit i (some t.mm) t).mms i = some t.mm := by simp [Kernel.commit]
    have htj : (k.commit i (some t.mm) t).mms j = some mm' := by simpa [Kernel.commit, hij.symm] using hj
    have hne := hafter.frame_ne hij hti htj hmem hp hc hw hp' hc' hwrite.2 hvalid
    rw [store_frame_of_ne t va b hne]
    exact hkeep
  · exact hkeep

def firstByte (v : Vma) (va : Nat) (reads : List (Except Nat (List UInt8))) (i : Nat) : UInt8 :=
  let delta := sub64 va v.start
  if v.file = none ∨ v.fileBytes ≤ delta then 0
  else
    match reads with
    | .ok bytes :: _ => if i < min PAGE_SIZE (v.fileBytes - delta) then bytes.getD i 0 else 0
    | _ => 0

theorem fillPage_data (hzero : ∀ i, (s.frame p).data i = 0) (h : fillPage s v va p = (0, t))
    (i : Nat) : (t.frame p).data i = firstByte v va s.supply.reads i := by
  simp only [fillPage] at h
  unfold firstByte
  simp only
  split at h
  · rename_i hcond
    cases h
    rw [if_pos hcond]
    exact hzero i
  rename_i hcond
  rw [if_neg hcond]
  split at h
  · simp [ EIO] at h
  rename_i answer rest hreads
  rw [hreads]
  split at h
  · simp only [Prod.mk.injEq] at h
    omega
  · cases h
    simp [Space.setFrame, hzero]

theorem allocPage_zero (h : allocPage s true = (some p, t)) :
    (∀ i, (t.frame p).data i = 0) ∧ t.supply.reads = s.supply.reads := by
  unfold allocPage at h
  split at h
  · cases h
  simp only at h
  split at h
  · cases h
  split at h
  · cases h
    simp [Space.setFrame]
  · cases h

theorem allocTable_reads (s : Space) : (allocTable s).2.supply.reads = s.supply.reads := by
  simp only [allocTable, Supply.table]
  split <;> rfl

theorem tableL2_reads (s : Space) (x : Slot) : (tableL2 s x).2.supply.reads = s.supply.reads := by
  have h := allocTable_reads s
  unfold tableL2
  split
  · rfl
  split <;> rename_i heq <;> rwa [heq] at h

theorem tableL3_reads (s : Space) (x : Slot) : (tableL3 s x).2.supply.reads = s.supply.reads := by
  have h := allocTable_reads s
  unfold tableL3
  split
  · rfl
  split
  · rfl
  split <;> rename_i heq <;> rwa [heq] at h

theorem userPte_reads {b : Bool} (h : userPte s va = (b, t)) : t.supply.reads = s.supply.reads := by
  have h2 := tableL2_reads s (slot va)
  unfold userPte at h
  split at h
  · rename_i heq
    cases h
    rwa [heq] at h2
  rename_i u heq
  have h3 := tableL3_reads u (slot va)
  rw [h] at h3
  rw [heq] at h2
  exact h3.trans h2

theorem faultNew_byte (hio : v.flags.io = false) (ht : s.mm.pgd.hasTable (slot va) = true)
    (h : faultNew s v va = (0, t)) (i : Nat) :
    (t.frame (t.mm.pte va).frame).data i = firstByte v va s.supply.reads i := by
  unfold faultNew at h
  rw [if_neg (by simp [hio])] at h
  split at h
  · simp [ENOMEM] at h
  rename_i p u heq
  have hfresh : Fresh s u p := allocPage_spec heq
  obtain ⟨hzero, hreads⟩ := allocPage_zero heq
  generalize hfill : fillPage u v va p = res at h
  obtain ⟨r, w⟩ := res
  simp only at h
  split at h
  · simp_all
  rename_i hr
  obtain rfl : r = 0 := Decidable.not_not.mp hr
  cases h
  have hmm : w.mm = s.mm := (fillPage_spec hfill).1.trans hfresh.mm
  have hpte : ((w.setPte va (pteProt v.flags p)).addRss.mm.pte va) = pteProt v.flags p := by
    have := entry_store ht (pteProt v.flags p) (slot va)
    simpa [Space.addRss, Space.setPte, Mm.setPte, Mm.pte, hmm] using this
  rw [hpte, ← hreads]
  exact fillPage_data hzero hfill i

theorem userRead_first (hok : MmOk 0 s.mm) (hv : v ∈ s.mm.vmas) (hc : v.Contains va) (hio : v.flags.io = false)
    (hinvalid : (s.mm.pte va).valid = false) {b : UInt8} (h : userRead s va = (some b, t)) :
    b = firstByte v (alignDown va PAGE_SIZE) s.supply.reads (va % PAGE_SIZE) := by
  have hload : s.load va = none := by simp [Space.load, hinvalid]
  simp only [userRead, hload, Option.isSome_none, Bool.false_eq_true, if_false] at h
  split at h
  swap
  · cases h
  rename_i hr
  rw [handleMmFault_of_contains hok hv hc] at hr h
  have hallowed : faultAllowed s v (alignDown va PAGE_SIZE) false false = faultIn s v (alignDown va PAGE_SIZE) false := by
    unfold faultAllowed at hr ⊢
    split at hr
    · simp [EACCES] at hr
    rw [if_neg ‹_›]
    split at hr
    · simp [EACCES] at hr
    rw [if_neg ‹_›]
    split at hr
    · simp [EACCES] at hr
    rw [if_neg ‹_›]
  rw [hallowed] at hr h
  generalize hin : faultIn s v (alignDown va PAGE_SIZE) false = res at hr h
  obtain ⟨r, w⟩ := res
  obtain rfl : r = 0 := hr
  unfold faultIn at hin
  split at hin
  · simp [ENOMEM] at hin
  rename_i w' huser
  obtain ⟨hsame, htab⟩ := userPte_spec huser
  have hinvalid' : (w'.mm.pte (alignDown va PAGE_SIZE)).valid = false := by
    rw [Mm.pte, hsame.entry, ← slot_alignDown]
    exact hinvalid
  simp only [hinvalid', if_true] at hin
  have hbyte := faultNew_byte hio (htab rfl) hin (va % PAGE_SIZE)
  rw [userPte_reads huser] at hbyte
  have hb : w.load va = some b := by simpa using congrArg Prod.fst h
  simp only [Space.load] at hb
  split at hb
  · cases hb
  split at hb
  · cases hb
    rw [← hbyte, Mm.pte, Mm.pte, ← slot_alignDown]
  · cases hb

def SoleWritable (k : Kernel) : Prop :=
  ∀ i mm, k.mms i = some mm → ∀ v ∈ mm.vmas, v.Private → ∀ va, v.Contains va →
    (mm.pte va).valid = true → (mm.pte va).rdonly = false → (k.frame (mm.pte va).frame).refcount = 1

-- A write by one process to a private page changes nothing that another can read in its
-- private areas: not the pages it has, and not the pages that a fault would bring in.
def WriteIsolated (k : Kernel) : Prop :=
  ∀ i mm, k.mms i = some mm → ∀ v ∈ mm.vmas, v.Private → ∀ va : UInt64, v.Contains va.toNat → ∀ u b,
    ∀ j mm', j ≠ i → k.mms j = some mm' → (step k u (.write i va b)).mms j = some mm' ∧
      ∀ w ∈ mm'.vmas, w.Private → ∀ va', w.Contains va' →
        (∀ u', ((step k u (.write i va b)).space mm' u').load va' = (k.space mm' u').load va') ∧
        ∀ u1 u2, u2.reads = u1.reads → ∀ b1 b2, (userRead (k.space mm' u1) va').1 = some b1 →
          (userRead ((step k u (.write i va b)).space mm' u2) va').1 = some b2 → b2 = b1

theorem KInv.load_write (h : KInv (fun _ => 0) k) (hij : i ≠ j) (hi : k.mms i = some mm) (hj : k.mms j = some mm')
    (hv : v ∈ mm.vmas) (hp : v.Private) {va : UInt64} (hc : v.Contains va.toNat) (hw : w ∈ mm'.vmas)
    (hp' : w.Private) (hc' : w.Contains va') (u : Supply) (b : UInt8) (u' : Supply) :
    ((step k u (.write i va b)).space mm' u').load va' = (k.space mm' u').load va' := by
  have hframe : ((step k u (.write i va b)).space mm' u').frame = (userWrite (k.space mm u) va.toNat b).frame := by
    simp only [step, Kernel.on, hi, Kernel.commit, Kernel.space]
  unfold Space.load
  rw [hframe]
  by_cases hvalid : (mm'.pte va').valid = true
  · have hdata := userWrite_data h hij hi hj hv hp hc hw hp' hc' hvalid u b
    simp only [Kernel.space] at hdata ⊢
    rw [hdata]
    rfl
  · simp only [Kernel.space, hvalid, Bool.false_eq_true, if_false]

theorem userRead_of_load {b : UInt8} (h : s.load va = some b) : (userRead s va).1 = some b := by
  simp [userRead, h]

theorem reach_isolated (h : k.Reach) : SoleWritable k ∧ WriteIsolated k := by
  have hinv := h.inv
  refine ⟨fun i mm hi v hv hp va hc hvalid hr => ?_, fun i mm hi v hv hp va hc u b j mm' hji hj => ⟨?_, ?_⟩⟩
  · exact ((hinv.sound i mm hi).fine hv hc hvalid).sole hp hr
  · simpa [step, Kernel.on, hi, Kernel.commit, hji] using hj
  intro w hw hp' va' hc'
  have hload := hinv.load_write hji.symm hi hj hv hp hc hw hp' hc' u b
  refine ⟨hload, fun u1 u2 hreads b1 b2 h1 h2 => ?_⟩
  have hok := (hinv.sound j mm' hj).ok
  cases hvalid : (mm'.pte va').valid with
  | false =>
    -- both reads fault the page in
    have hf1 := userRead_first (s := k.space mm' u1) hok hw hc' hp'.2 hvalid (Prod.ext h1 rfl)
    have hf2 := userRead_first (s := (step k u (.write i va b)).space mm' u2) hok hw hc' hp'.2 hvalid (Prod.ext h2 rfl)
    rw [hf1, hf2]
    exact congrArg (firstByte w _ · _) hreads
  | true =>
  have hlt : ¬USER_VA_END ≤ va' := by
    have := (hok.vmas.each w hw).max
    have := hc'.2
    omega
  obtain ⟨b', hb'⟩ : ∃ b', ∀ u', (k.space mm' u').load va' = some b' :=
    ⟨_, fun u' => by simp only [Space.load, if_neg hlt, Kernel.space, hvalid, if_true]; rfl⟩
  rw [userRead_of_load (hb' u1)] at h1
  rw [userRead_of_load ((hload u2).trans (hb' u2))] at h2
  exact Option.some.inj (h2.symm.trans h1)

theorem reach_isolated_forked : SoleWritable forked ∧ WriteIsolated forked := reach_isolated forked_reach

end Olux.Vm
