import Olux.Vm.Vma

namespace Olux.Vm

open Olux.Lib List

variable {lo addr : Nat} {v : Vma} {l pre post : List Vma}

structure Vma.Ok (lo : Nat) (v : Vma) : Prop where
  min : lo ≤ v.start
  lt : v.start < v.stop
  max : v.stop ≤ USER_VA_END
  start_dvd : PAGE_SIZE ∣ v.start
  stop_dvd : PAGE_SIZE ∣ v.stop

structure VmasOk (lo : Nat) (l : List Vma) : Prop where
  sorted : l.Pairwise fun v w => v.stop ≤ w.start
  each : ∀ v ∈ l, v.Ok lo

def Vma.Contains (v : Vma) (addr : Nat) : Prop := v.start ≤ addr ∧ addr < v.stop

theorem VmasOk.nil (lo : Nat) : VmasOk lo [] := ⟨.nil, by simp⟩

theorem VmasOk.tail (h : VmasOk lo (v :: l)) : VmasOk lo l :=
  ⟨h.sorted.tail, fun w hw => h.each w (mem_cons_of_mem v hw)⟩

theorem VmasOk.head_le (h : VmasOk lo (v :: l)) : ∀ w ∈ l, v.stop ≤ w.start := (pairwise_cons.mp h.sorted).1

theorem VmasOk.around (h : VmasOk lo (pre ++ v :: post)) :
    (∀ a ∈ pre, a.stop ≤ v.start) ∧ ∀ b ∈ post, v.stop ≤ b.start := by
  obtain ⟨_, hpost, hpre⟩ := pairwise_append.mp h.sorted
  exact ⟨fun a ha => hpre a ha v mem_cons_self, (pairwise_cons.mp hpost).1⟩

theorem VmasOk.replace (h : VmasOk lo (pre ++ v :: post)) (mid : List Vma) (hmid : VmasOk lo mid)
    (hpre : ∀ w ∈ mid, ∀ a ∈ pre, a.stop ≤ w.start)
    (hpost : ∀ w ∈ mid, ∀ b ∈ post, w.stop ≤ b.start) : VmasOk lo (pre ++ (mid ++ post)) := by
  obtain ⟨hs, hs', hcross⟩ := pairwise_append.mp h.sorted
  refine ⟨pairwise_append.mpr ⟨hs, pairwise_append.mpr ⟨hmid.sorted, hs'.tail, hpost⟩, ?_⟩, ?_⟩
  · intro a ha w hw
    rcases mem_append.mp hw with hw | hw
    · exact hpre w hw a ha
    · exact hcross a ha w (mem_cons_of_mem v hw)
  intro w hw
  simp only [mem_append] at hw
  rcases hw with hw | hw | hw
  · exact h.each w (by simp [hw])
  · exact hmid.each w hw
  · exact h.each w (by simp [hw])

theorem VmasOk.single (h : v.Ok lo) : VmasOk lo [v] :=
  ⟨pairwise_singleton _ _, by simpa using h⟩

theorem VmasOk.change {w : Vma} (h : VmasOk lo (pre ++ v :: post)) (hw : w.Ok lo)
    (hpre : ∀ a ∈ pre, a.stop ≤ w.start) (hpost : ∀ b ∈ post, w.stop ≤ b.start) :
    VmasOk lo (pre ++ w :: post) := by
  refine h.replace [w] (.single hw) ?_ ?_
  · simpa using hpre
  · simpa using hpost

theorem sub64_of_le {a b : Nat} (h : b ≤ a) (ha : a < 2 ^ 64) : sub64 a b = a - b := by
  unfold sub64
  omega

theorem add64_of_lt {a b : Nat} (h : a + b < 2 ^ 64) : add64 a b = a + b := Nat.mod_eq_of_lt h

theorem Vma.Ok.split (h : v.Ok lo) (hlo : v.start < addr) (hhi : addr < v.stop)
    (hd : PAGE_SIZE ∣ addr) : (v.lower addr).Ok lo ∧ (v.upper addr).Ok lo := by
  have hmin := h.min
  have hmax := h.max
  exact ⟨⟨hmin, hlo, by simp only [Vma.lower]; omega, h.start_dvd, hd⟩,
    ⟨by simp only [Vma.upper]; omega, hhi, hmax, hd, h.stop_dvd⟩⟩

theorem VmasOk.split (h : VmasOk lo (pre ++ v :: post)) (hlo : v.start < addr) (hhi : addr < v.stop)
    (hd : PAGE_SIZE ∣ addr) :
    VmasOk lo (pre ++ v.lower addr :: v.upper addr :: post) := by
  obtain ⟨hl, hu⟩ := (h.each v (by simp)).split hlo hhi hd
  obtain ⟨hpre, hpost⟩ := h.around
  refine h.replace [v.lower addr, v.upper addr] ⟨?_, ?_⟩ ?_ ?_
  · simp [Vma.lower, Vma.upper]
  · simpa using ⟨hl, hu⟩
  · intro w hw a ha
    have hle := hpre a ha
    simp only [mem_cons, not_mem_nil, or_false] at hw
    rcases hw with rfl | rfl
    · exact hle
    · simp only [Vma.upper]
      omega
  intro w hw b hb
  have hle := hpost b hb
  simp only [mem_cons, not_mem_nil, or_false] at hw
  rcases hw with rfl | rfl
  · simp only [Vma.lower]
    omega
  · exact hle

theorem vmaFind_eq_some (h : vmaFind addr l = some v) (f : Vma → Vma) :
    v.Contains addr ∧ ∃ pre post, l = pre ++ v :: post ∧ vmaModify addr f l = pre ++ f v :: post := by
  induction l with
  | nil => cases h
  | cons w rest ih =>
  rw [vmaFind] at h
  rw [vmaModify]
  split at h
  · cases h
  rename_i hstart
  split at h
  · rename_i hstop
    cases h
    exact ⟨⟨by omega, hstop⟩, [], rest, rfl, by simp [hstart, hstop]⟩
  rename_i hstop
  obtain ⟨hc, pre, post, heq, hmod⟩ := ih h
  exact ⟨hc, w :: pre, post, by simp [heq], by simp [hstart, hstop, hmod]⟩

theorem vmaFind_mem (h : vmaFind addr l = some v) : v ∈ l ∧ v.Contains addr := by
  obtain ⟨hc, pre, post, heq, _⟩ := vmaFind_eq_some h id
  exact ⟨by simp [heq], hc⟩

theorem vmaFind_eq_none (hl : VmasOk lo l) (h : vmaFind addr l = none) : ∀ v ∈ l, ¬v.Contains addr := by
  induction l with
  | nil => simp
  | cons w rest ih =>
  rw [vmaFind] at h
  intro v hv hc
  unfold Vma.Contains at hc
  split at h
  · rename_i hlt
    rcases mem_cons.mp hv with rfl | hv
    · omega
    have := hl.head_le v hv
    have := (hl.each w mem_cons_self).lt
    omega
  split at h
  · cases h
  rcases mem_cons.mp hv with rfl | hv
  · omega
  · exact ih hl.tail h v hv hc

theorem vmaFind_of_contains (hl : VmasOk lo l) (hv : v ∈ l) (hc : v.Contains addr) : vmaFind addr l = some v := by
  induction l with
  | nil => cases hv
  | cons w rest ih =>
  unfold Vma.Contains at hc
  rw [vmaFind]
  rcases mem_cons.mp hv with rfl | hv
  · rw [if_neg (by omega), if_pos hc.2]
  have hle := hl.head_le v hv
  have hlt := (hl.each w mem_cons_self).lt
  rw [if_neg (by omega), if_neg (by omega)]
  exact ih hl.tail hv

theorem vmaFindIntersect_eq_some {start stop : Nat} (h : vmaFindIntersect start stop l = some v) (f : Vma → Vma) :
    v.start < stop ∧ start < v.stop ∧ ∃ pre post, l = pre ++ v :: post ∧ (∀ a ∈ pre, a.stop ≤ start) ∧
      vmaModifyIntersect start stop f l = pre ++ f v :: post := by
  induction l with
  | nil => cases h
  | cons w rest ih =>
  rw [vmaFindIntersect] at h
  rw [vmaModifyIntersect]
  split at h
  · cases h
  rename_i hstart
  split at h
  · rename_i hstop
    cases h
    exact ⟨by omega, hstop, [], rest, rfl, by simp, by simp [hstart, hstop]⟩
  rename_i hstop
  obtain ⟨hlt, hgt, pre, post, heq, hpre, hmod⟩ := ih h
  refine ⟨hlt, hgt, w :: pre, post, by simp [heq], ?_, by simp [hstart, hstop, hmod]⟩
  intro a ha
  rcases mem_cons.mp ha with rfl | ha
  · omega
  · exact hpre a ha

theorem vmaFindIntersect_eq_none {start stop : Nat} (hl : VmasOk lo l)
    (h : vmaFindIntersect start stop l = none) : ∀ v ∈ l, v.stop ≤ start ∨ stop ≤ v.start := by
  induction l with
  | nil => simp
  | cons w rest ih =>
  rw [vmaFindIntersect] at h
  intro v hv
  split at h
  · rcases mem_cons.mp hv with rfl | hv
    · exact .inr ‹_›
    · have := hl.head_le v hv
      have := (hl.each w mem_cons_self).lt
      omega
  split at h
  · cases h
  rcases mem_cons.mp hv with rfl | hv
  · omega
  · exact ih hl.tail h v hv

theorem mem_vmaInsert {nv : Vma} : v ∈ vmaInsert nv l ↔ v = nv ∨ v ∈ l := by
  induction l with
  | nil => simp [vmaInsert]
  | cons w rest ih =>
  rw [vmaInsert]
  split
  · simp
  · simp only [mem_cons, ih]
    exact or_left_comm

theorem vmaInsert_ok {nv : Vma} (hl : VmasOk lo l) (hnv : nv.Ok lo)
    (hapart : ∀ v ∈ l, v.stop ≤ nv.start ∨ nv.stop ≤ v.start) : VmasOk lo (vmaInsert nv l) := by
  have hlt := hnv.lt
  induction l with
  | nil => exact .single hnv
  | cons w rest ih =>
  have hw := hapart w mem_cons_self
  have hwlt := (hl.each w mem_cons_self).lt
  rw [vmaInsert]
  split
  · refine ⟨pairwise_cons.mpr ⟨?_, hl.sorted⟩, forall_mem_cons.mpr ⟨hnv, hl.each⟩⟩
    intro v hv
    rcases mem_cons.mp hv with rfl | hv
    · omega
    · have := hl.head_le v hv
      omega
  have hrest := ih hl.tail fun v hv => hapart v (mem_cons_of_mem w hv)
  refine ⟨pairwise_cons.mpr ⟨?_, hrest.sorted⟩, forall_mem_cons.mpr ⟨hl.each w mem_cons_self, hrest.each⟩⟩
  intro v hv
  rcases mem_vmaInsert.mp hv with rfl | hv
  · omega
  · exact hl.head_le v hv

theorem forRange_rule (start stop : Nat) (f : Vma → Space → Option Vma × Space) (I : List Vma → Space → Prop)
    (halloc : ∀ l s, I l s → I l (kmalloc s).2)
    (hsplit : ∀ pre v post s addr, addr = start ∨ addr = stop → v.start < addr → addr < v.stop →
      I (pre ++ v :: post) s → I (pre ++ v.lower addr :: v.upper addr :: post) s)
    (hf : ∀ pre v post s, start ≤ v.start → v.start < stop → v.stop ≤ stop → I (pre ++ v :: post) s →
      I (pre ++ ((f v s).1.toList ++ post)) (f v s).2)
    (pre l : List Vma) (s : Space) (h : I (pre ++ l) s) :
    I (pre ++ (forRange start stop f l s).2.1) (forRange start stop f l s).2.2 := by
  fun_induction forRange start stop f l s generalizing pre with
  | case1 s => exact h
  | case2 s v rest hle ok l t heq ih =>
    rw [heq] at ih
    have h := ih (pre ++ [v]) (by simpa using h)
    simpa using h
  | case3 s v rest _ hle => exact h
  | case4 s v rest _ _ _ t hk =>
    have h := halloc _ s h
    rwa [hk] at h
  | case5 s v rest hstop hstart hlt t hk ok l u heq ih =>
    have h := halloc _ s h
    rw [hk] at h
    rw [heq] at ih
    have h := ih (pre ++ [v.lower start]) (by simpa using hsplit pre v rest t start (.inl rfl) hlt (by omega) h)
    simpa using h
  | case6 s v rest _ _ _ _ t hk =>
    have h := halloc _ s h
    rwa [hk] at h
  | case7 s v rest hstop hstart hge hlt t hk kept u hcall ok l w heq ih =>
    have h := halloc _ s h
    rw [hk] at h
    have h := hsplit pre v rest t stop (.inr rfl) (by omega) hlt h
    have h := hf pre (v.lower stop) _ t (by simp only [Vma.lower]; omega) (by simp only [Vma.lower]; omega)
      (by simp [Vma.lower]) h
    rw [hcall] at h
    rw [heq] at ih
    have h := ih (pre ++ kept.toList) (by simpa using h)
    simpa using h
  | case8 s v rest hstop hstart hge hle kept t hcall ok l u heq ih =>
  have h := hf pre v rest s (by omega) (by omega) (by omega) h
  rw [hcall] at h
  rw [heq] at ih
  have h := ih (pre ++ kept.toList) (by simpa using h)
  simpa using h

structure Hole (vmas : List Vma) (addr len : Nat) : Prop where
  min : USER_MIN_ADDR ≤ addr
  max : addr + len ≤ USER_VA_END
  dvd : PAGE_SIZE ∣ addr
  apart : ∀ v ∈ vmas, v.stop ≤ addr ∨ addr + len ≤ v.start

theorem unmappedBelow_spec {mm : Mm} (hl : VmasOk lo mm.vmas) (hbrk : mm.brkStart ≤ mm.brk) {len : Nat}
    (hlen : PAGE_SIZE ∣ len) (hwrap : USER_MIN_ADDR + len < 2 ^ 64) (top : Nat) (htop : top ≤ USER_VA_END)
    (hdvd : PAGE_SIZE ∣ top) (h : unmappedBelow mm len top ≠ 0) :
    Hole mm.vmas (unmappedBelow mm len top) len := by
  have hva : USER_VA_END = 2 ^ 39 := rfl
  fun_induction unmappedBelow mm len top with
  | case1 top hlt => exact absurd rfl h
  | case2 top hge cand v hfind ih =>
    obtain ⟨hlt, _, pre, post, heq, _⟩ := vmaFindIntersect_eq_some hfind id
    exact ih (by omega) (hl.each v (by simp [heq])).start_dvd h
  | case3 top hge cand hfind hclose hle => exact absurd rfl h
  | case4 top hge cand hfind hclose hgt ih => omega
  | case5 top hge cand hfind hclear =>
  rw [add64_of_lt hwrap] at hge
  have hcand : cand = top - len := sub64_of_le (by omega) (by omega)
  have hnone := vmaFindIntersect_eq_none hl hfind
  refine ⟨by omega, by omega, hcand ▸ Nat.dvd_sub hdvd hlen, ?_⟩
  intro v hv
  have := hnone v hv
  omega

theorem alignUp_dvd (x : Nat) : PAGE_SIZE ∣ alignUp x PAGE_SIZE := Nat.dvd_mul_left _ _

theorem alignDown_dvd (x : Nat) : PAGE_SIZE ∣ alignDown x PAGE_SIZE := Nat.dvd_mul_left _ _

theorem alignUp_of_dvd {x : Nat} (h : PAGE_SIZE ∣ x) (hlt : x < 2 ^ 64) : alignUp x PAGE_SIZE = x := by
  simp only [alignUp, PAGE_SIZE] at *
  omega

theorem alignDown_bounds (x : Nat) : alignDown x PAGE_SIZE ≤ x ∧ x < alignDown x PAGE_SIZE + PAGE_SIZE := by
  simp only [alignDown, PAGE_SIZE]
  omega

end Olux.Vm
