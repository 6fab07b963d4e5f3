import Olux.Memblock

namespace Olux.Memblock

open Olux.Lib List Option

variable {r : Region}

structure Region.Ok (r : Region) : Prop where
  pos : 0 < r.size
  base_dvd : PAGE_SIZE ∣ r.base
  size_dvd : PAGE_SIZE ∣ r.size
  no_wrap : r.base + r.size < 2 ^ 64

structure RegionsOk (l : List Region) : Prop where
  sorted : l.Pairwise fun r r' => r.base + r.size < r'.base
  each : ∀ r ∈ l, r.Ok

theorem RegionsOk.nil : RegionsOk [] := ⟨.nil, by simp⟩

theorem absorb_of_before (base last : Nat) (l : List Region) (h : ∀ r ∈ l, last < r.base) :
    absorb base last l = (base, last, l) := by
  induction l with
  | nil => rfl
  | cons r rest ih =>
    rw [absorb, if_pos (.inr (h r mem_cons_self)), ih fun r' hr' => h r' (mem_cons_of_mem r hr')]

-- The addresses a list of regions stands for.
def addresses (l : List Region) : Set Nat := {x | ∃ r ∈ l, r.base ≤ x ∧ x < r.base + r.size}

theorem mem_addresses_cons {l : List Region} {x : Nat} :
    x ∈ addresses (r :: l) ↔ r.base ≤ x ∧ x < r.base + r.size ∨ x ∈ addresses l := by
  simp [addresses]

abbrev Region.Before (r r' : Region) : Prop := r.base + r.size < r'.base

structure Absorbed (base last : Nat) (l : List Region) (b e : Nat) (kept : List Region) : Prop where
  base_le : b ≤ base
  le_last : last ≤ e
  no_wrap : e < 2 ^ 64
  dvd : ∀ d, d ∣ base → d ∣ last → (∀ r ∈ l, d ∣ r.base ∧ d ∣ r.size) → d ∣ b ∧ d ∣ e
  union : ∀ x, b ≤ x ∧ x < e ∨ x ∈ addresses kept ↔ base ≤ x ∧ x < last ∨ x ∈ addresses l
  above : ∀ c, c < base → (∀ r ∈ l, c < r.base) → c < b
  sublist : kept.Sublist l
  apart : l.Pairwise Region.Before → ∀ r ∈ kept, r.base + r.size < b ∨ e < r.base

theorem absorb_spec (base last : Nat) (l : List Region) (hl : ∀ r ∈ l, r.base + r.size < 2 ^ 64)
    (hle : base ≤ last) (hw : last < 2 ^ 64) :
    Absorbed base last l (absorb base last l).1 (absorb base last l).2.1 (absorb base last l).2.2 := by
  induction l generalizing base last with
  | nil =>
    exact ⟨le_rfl, le_rfl, hw, fun d hb he _ => ⟨hb, he⟩, fun x => .rfl, fun c hc _ => hc, .slnil, by simp [absorb]⟩
  | cons r rest ih =>
  have hr := hl r mem_cons_self
  replace ih := fun base last => ih base last fun r' hr' => hl r' (mem_cons_of_mem r hr')
  rw [absorb, Nat.mod_eq_of_lt hr]
  split
  · rename_i hskip
    have h := ih base last hle hw
    refine ⟨h.base_le, h.le_last, h.no_wrap, ?_, ?_, ?_, h.sublist.cons_cons r, ?_⟩
    · exact fun d hb he hall => h.dvd d hb he fun r' hr' => hall r' (mem_cons_of_mem r hr')
    · intro x
      have := h.union x
      simp only [mem_addresses_cons]
      tauto
    · exact fun c hc hall => h.above c hc fun r' hr' => hall r' (mem_cons_of_mem r hr')
    intro hs r' hr'
    obtain ⟨hafter, hs⟩ := pairwise_cons.mp hs
    rcases mem_cons.mp hr' with rfl | hr'
    · rcases hskip with hlow | hhigh
      · exact .inl (h.above _ hlow hafter)
      -- everything later lies above the range too
      rw [absorb_of_before base last rest fun r'' hr'' => by
        have := hafter r'' hr''
        omega]
      exact .inr hhigh
    exact h.apart hs r' hr'
  have h := ih (min base r.base) (max last (r.base + r.size)) (by omega) (by omega)
  have := h.base_le
  have := h.le_last
  refine ⟨by omega, by omega, h.no_wrap, ?_, ?_, ?_, h.sublist.cons r, fun hs => h.apart hs.tail⟩
  · intro d hb he hall
    have hd := hall r mem_cons_self
    refine h.dvd d ?_ ?_ fun r' hr' => hall r' (mem_cons_of_mem r hr')
    · rcases min_choice base r.base with h | h <;> rw [h]
      exacts [hb, hd.1]
    rcases max_choice last (r.base + r.size) with h | h <;> rw [h]
    exacts [he, Nat.dvd_add hd.1 hd.2]
  · intro x
    have hgrow : min base r.base ≤ x ∧ x < max last (r.base + r.size) ↔
        base ≤ x ∧ x < last ∨ r.base ≤ x ∧ x < r.base + r.size := by omega
    rw [h.union, mem_addresses_cons, hgrow]
    tauto
  intro c hc hall
  exact h.above c (lt_min hc (hall r mem_cons_self)) fun r' hr' => hall r' (mem_cons_of_mem r hr')

theorem mem_place {new : Region} {l : List Region} : r ∈ place new l ↔ r = new ∨ r ∈ l := by
  induction l with
  | nil => simp [place]
  | cons r' rest ih =>
  unfold place
  split
  · rw [mem_cons, ih, mem_cons]
    tauto
  · simp

theorem place_sorted (new : Region) (l : List Region) (hl : l.Pairwise Region.Before)
    (hapart : ∀ r ∈ l, r.base + r.size < new.base ∨ new.base + new.size < r.base) :
    (place new l).Pairwise Region.Before := by
  induction l with
  | nil => exact pairwise_singleton _ _
  | cons r rest ih =>
  have hafter := (pairwise_cons.mp hl).1
  have hthis := hapart r mem_cons_self
  unfold place
  split
  · refine pairwise_cons.mpr ⟨?_, ih hl.tail fun r' hr' => hapart r' (mem_cons_of_mem r hr')⟩
    intro r' hr'
    rcases mem_place.mp hr' with rfl | hr'
    · omega
    · exact hafter r' hr'
  refine pairwise_cons.mpr ⟨?_, hl⟩
  intro r' hr'
  rcases mem_cons.mp hr' with rfl | hr'
  · omega
  · have := hafter r' hr'
    omega

section Insert

variable {l l' : List Region} {base size : Nat}

-- What the range touches becomes one region.
theorem insert_eq (hl : ∀ r ∈ l, r.base + r.size < 2 ^ 64) (hsize : 0 < size) (hw : base + size < 2 ^ 64) :
    ∃ b e kept, Absorbed base (base + size) l b e kept ∧ b < e ∧
      insert l base size = if kept.length = MEMBLOCK_MAX then none else some (place ⟨b, e - b⟩ kept) := by
  have ha := absorb_spec base (base + size) l hl (Nat.le_add_right _ _) hw
  rw [insert, if_neg (Nat.ne_of_gt hsize), Nat.mod_eq_of_lt hw]
  generalize absorb base (base + size) l = out at *
  obtain ⟨b, e, kept⟩ := out
  have := ha.base_le
  have := ha.le_last
  have := ha.no_wrap
  simp only at *
  rw [show (e + 2 ^ 64 - b) % 2 ^ 64 = e - b by omega]
  exact ⟨b, e, kept, ha, by omega, rfl⟩

theorem insert_some (hl : ∀ r ∈ l, r.base + r.size < 2 ^ 64) (hsize : 0 < size) (hw : base + size < 2 ^ 64)
    (h : insert l base size = some l') :
    ∃ b e kept, Absorbed base (base + size) l b e kept ∧ b < e ∧ l' = place ⟨b, e - b⟩ kept := by
  obtain ⟨b, e, kept, ha, hlt, heq⟩ := insert_eq hl hsize hw
  exact ⟨b, e, kept, ha, hlt, (some.inj (ite_none_left_eq_some.mp (heq.symm.trans h)).2).symm⟩

theorem insert_addresses (hl : ∀ r ∈ l, r.base + r.size < 2 ^ 64) (hsize : 0 < size) (hw : base + size < 2 ^ 64)
    (h : insert l base size = some l') : addresses l' = addresses l ∪ Set.Ico base (base + size) := by
  obtain ⟨b, e, kept, ha, hlt, rfl⟩ := insert_some hl hsize hw h
  ext x
  have : x ∈ addresses (place ⟨b, e - b⟩ kept) ↔ b ≤ x ∧ x < e ∨ x ∈ addresses kept := by
    simp only [addresses, Set.mem_ofPred_eq, mem_place, exists_eq_or_imp, Nat.add_sub_cancel' hlt.le]
  rw [this, ha.union, or_comm]
  rfl

theorem insert_sorted (hl : ∀ r ∈ l, r.base + r.size < 2 ^ 64) (hs : l.Pairwise Region.Before) (hsize : 0 < size)
    (hw : base + size < 2 ^ 64) (h : insert l base size = some l') : l'.Pairwise Region.Before := by
  obtain ⟨b, e, kept, ha, hlt, rfl⟩ := insert_some hl hsize hw h
  refine place_sorted ⟨b, e - b⟩ kept (hs.sublist ha.sublist) fun r hr => ?_
  have := ha.apart hs r hr
  simp only
  omega

end Insert

theorem insert_ok (l : List Region) (base size : Nat) (hl : RegionsOk l) (hbase : PAGE_SIZE ∣ base)
    (hsize : PAGE_SIZE ∣ size) (hw : base + size < 2 ^ 64) {l' : List Region}
    (h : insert l base size = some l') : RegionsOk l' := by
  rcases Nat.eq_zero_or_pos size with rfl | hpos
  · exact some.inj h ▸ hl
  have hno := fun r hr => (hl.each r hr).no_wrap
  refine ⟨insert_sorted hno hl.sorted hpos hw h, ?_⟩
  obtain ⟨b, e, kept, ha, hlt, rfl⟩ := insert_some hno hpos hw h
  obtain ⟨hb, he⟩ := ha.dvd PAGE_SIZE hbase (Nat.dvd_add hbase hsize) fun r hr =>
    ⟨(hl.each r hr).base_dvd, (hl.each r hr).size_dvd⟩
  intro r hr
  rcases mem_place.mp hr with rfl | hr
  · exact ⟨Nat.sub_pos_of_lt hlt, hb, Nat.dvd_sub he hb, (Nat.add_sub_cancel' hlt.le).trans_lt ha.no_wrap⟩
  · exact hl.each r (ha.sublist.subset hr)

-- Insertion is set union. It gives up only on a full table none of whose regions touches the range.
theorem insert_union (l : List Region) (base size : Nat) (hl : ∀ r ∈ l, r.base + r.size < 2 ^ 64)
    (hs : l.Pairwise Region.Before) (hlen : l.length ≤ MEMBLOCK_MAX) (hsize : 0 < size) (hw : base + size < 2 ^ 64) :
    match insert l base size with
    | none => l.length = MEMBLOCK_MAX ∧ ∀ r ∈ l, r.base + r.size < base ∨ base + size < r.base
    | some l' => l'.Pairwise Region.Before ∧ addresses l' = addresses l ∪ Set.Ico base (base + size) := by
  split
  · rename_i h
    obtain ⟨b, e, kept, ha, hlt, heq⟩ := insert_eq hl hsize hw
    have hfull : kept.length = MEMBLOCK_MAX := by
      by_contra hne
      rw [heq, if_neg hne] at h
      cases h
    obtain rfl := ha.sublist.eq_of_length_le (hfull ▸ hlen)
    refine ⟨hfull, fun r hr => ?_⟩
    have := ha.apart hs r hr
    have := ha.base_le
    have := ha.le_last
    omega
  · rename_i l' h
    exact ⟨insert_sorted hl hs hsize hw h, insert_addresses hl hsize hw h⟩

theorem insert_union_bridge : insert [⟨0, 2⟩, ⟨4, 2⟩] 2 2 = some [⟨0, 6⟩] ∧
    addresses [⟨0, 6⟩] = addresses [⟨0, 2⟩, ⟨4, 2⟩] ∪ Set.Ico 2 4 :=
  ⟨by decide, (insert_union [⟨0, 2⟩, ⟨4, 2⟩] 2 2 (by decide) (by decide) (by decide) (by decide) (by decide)).2⟩

theorem memblockAdd_ok (m m' : MemMap) (base size : Nat) (hm : RegionsOk m.memory)
    (h : memblockAdd m base size = some m') : RegionsOk m'.memory := by
  unfold memblockAdd at h
  simp only at h
  split at h
  · rename_i hlt
    obtain ⟨l, hl, rfl⟩ := map_eq_some_iff.mp h
    refine insert_ok m.memory _ _ hm ?_ ?_ ?_ hl
    · exact Nat.dvd_mul_left _ _
    · exact Nat.dvd_sub (Nat.dvd_mul_left _ _) (Nat.dvd_mul_left _ _)
    have := Nat.div_mul_le_self ((base + size) % 2 ^ 64) PAGE_SIZE
    unfold alignDown at hlt ⊢
    omega
  · exact some.inj h ▸ hm

theorem memblockReserve_memory (m m' : MemMap) (base size : Nat)
    (h : memblockReserve m base size = some m') : m'.memory = m.memory := by
  unfold memblockReserve at h
  obtain ⟨l, -, rfl⟩ := map_eq_some_iff.mp h
  rfl

theorem memblockAlloc_memory (m m' : MemMap) (size align limit pa : Nat)
    (h : memblockAlloc m size align limit = some (pa, m')) : m'.memory = m.memory := by
  unfold memblockAlloc at h
  simp only at h
  split at h
  · cases h
    rfl
  obtain ⟨l, hl, he⟩ := map_eq_some_iff.mp h
  cases he
  exact memblockReserve_memory _ _ _ _ hl

-- The multiples of `align` at which a range of the given size is free in `r`, below the limit.
def FreeAt (reserved : List Region) (size align limit : Nat) (r : Region) (a : Nat) : Prop :=
  align ∣ a ∧ r.base ≤ a ∧ a + size ≤ r.base + r.size ∧ a + size ≤ limit ∧
    ∀ x, a ≤ x → x < a + size → x ∉ addresses reserved

section Alloc

variable {reserved l : List Region} {lo size align limit cand a : Nat}

theorem le_alignDown {x : Nat} (halign : 0 < align) (hdvd : align ∣ a) (hle : a ≤ x) : a ≤ alignDown x align := by
  obtain ⟨k, rfl⟩ := hdvd
  rw [alignDown, Nat.mul_comm]
  exact Nat.mul_le_mul_right _ ((Nat.le_div_iff_mul_le halign).mpr (Nat.mul_comm align k ▸ hle))

theorem disjoint_addresses (hres : ∀ r ∈ reserved, 0 < r.size) (hsize : 0 < size) :
    (∀ x, a ≤ x → x < a + size → x ∉ addresses reserved) ↔
      ∀ r ∈ reserved, a + size ≤ r.base ∨ r.base + r.size ≤ a := by
  constructor
  · intro h r hr
    by_contra hc
    have := hres r hr
    exact h (max a r.base) (by omega) (by omega) ⟨r, hr, by omega, by omega⟩
  rintro h x hx hx' ⟨r, hr, hb, he⟩
  have := h r hr
  omega

-- The search passes over an address only if a reservation covers part of the range there.
theorem searchDown_spec (hres : ∀ r ∈ reserved, r.base + r.size < 2 ^ 64) (hw : cand + size < 2 ^ 64)
    (halign : 0 < align) (hcand : align ∣ cand) :
    let Free := fun a => align ∣ a ∧ lo ≤ a ∧ ∀ r ∈ reserved, a + size ≤ r.base ∨ r.base + r.size ≤ a
    match searchDown reserved lo size align cand with
    | some a => Free a ∧ a ≤ cand ∧ ∀ a', Free a' → a' ≤ cand → a' ≤ a
    | none => ∀ a', Free a' → ¬ a' ≤ cand := by
  intro Free
  induction cand using Nat.strong_induction_on with
  | _ cand ih =>
  generalize hout : searchDown reserved lo size align cand = out
  rw [searchDown] at hout
  by_cases hlo : lo ≤ cand
  · rw [if_pos hlo] at hout
    split at hout
    · rename_i hnone
      subst hout
      refine ⟨⟨hcand, hlo, fun r hr => ?_⟩, le_rfl, fun a' _ h => h⟩
      have := find?_eq_none.mp hnone r hr
      rw [Nat.mod_eq_of_lt (hres r hr), Nat.mod_eq_of_lt hw] at this
      simp only [Bool.and_eq_true, decide_eq_true_eq] at this
      omega
    rename_i r hr
    have hlow : ∀ a', Free a' → a' ≤ cand → size ≤ r.base ∧ a' ≤ alignDown (r.base - size) align := by
      intro a' hfree ha'
      have hhit := find?_some hr
      have hmem := mem_of_find?_eq_some hr
      rw [Nat.mod_eq_of_lt (hres r hmem), Nat.mod_eq_of_lt hw] at hhit
      simp only [Bool.and_eq_true, decide_eq_true_eq] at hhit
      have := hfree.2.2 r hmem
      exact ⟨by omega, le_alignDown halign hfree.1 (by omega)⟩
    split at hout
    · subst hout
      intro a' hfree ha'
      have := hlow a' hfree ha'
      omega
    have hlt := conflict_base_lt hr
    have hdown : alignDown (r.base - size) align ≤ r.base - size := Nat.div_mul_le_self _ _
    have h := ih (alignDown (r.base - size) align) (by omega) (by omega) (Nat.dvd_mul_left _ _)
    rw [hout] at h
    cases out with
    | none => exact fun a' hfree ha' => h a' hfree (hlow a' hfree ha').2
    | some a => exact ⟨h.1, by omega, fun a' hfree ha' => h.2.2 a' hfree (hlow a' hfree ha').2⟩
  rw [if_neg hlo] at hout
  subst hout
  intro a' hfree ha'
  have := hfree.2.1
  omega

-- What a search through the regions of `l`, from the first on, should find.
def Best (reserved : List Region) (size align limit : Nat) (l : List Region) : Option Nat → Prop
  | none => ∀ r ∈ l, ∀ a, ¬ FreeAt reserved size align limit r a
  | some a => ∃ l₁ r l₂, l = l₁ ++ r :: l₂ ∧ (∀ r' ∈ l₁, ∀ a', ¬ FreeAt reserved size align limit r' a') ∧
      FreeAt reserved size align limit r a ∧ ∀ a', FreeAt reserved size align limit r a' → a' ≤ a

theorem Best.cons {out : Option Nat} (h : Best reserved size align limit l out)
    (hr : ∀ a, ¬ FreeAt reserved size align limit r a) : Best reserved size align limit (r :: l) out := by
  cases out with
  | none => exact forall_mem_cons.mpr ⟨hr, h⟩
  | some a =>
    obtain ⟨l₁, r', l₂, rfl, hbefore, hat⟩ := h
    exact ⟨r :: l₁, r', l₂, rfl, forall_mem_cons.mpr ⟨hr, hbefore⟩, hat⟩

theorem searchRegions_spec (hres : ∀ r ∈ reserved, r.Ok) (hl : ∀ r ∈ l, r.base + r.size < 2 ^ 64) (hsize : 0 < size)
    (halign : 0 < align) : Best reserved size align limit l (searchRegions reserved size align limit l) := by
  induction l with
  | nil => simp [searchRegions, Best]
  | cons r rest ih =>
  have hr := hl r mem_cons_self
  have hno := fun r' hr' => (hres r' hr').no_wrap
  have hdis := fun a => disjoint_addresses (a := a) (fun r' hr' => (hres r' hr').pos) hsize
  replace ih := ih fun r' hr' => hl r' (mem_cons_of_mem r hr')
  rw [searchRegions, Nat.mod_eq_of_lt hr]
  split
  · rename_i hsmall
    refine ih.cons fun a' hat => ?_
    obtain ⟨-, h1, h2, h3, -⟩ := hat
    omega
  rename_i hbig
  have hdown : alignDown (min (r.base + r.size) limit - size) align ≤ min (r.base + r.size) limit - size :=
    Nat.div_mul_le_self _ _
  have h := @searchDown_spec _ r.base size _ (alignDown (min (r.base + r.size) limit - size) align) hno (by omega) halign
    (Nat.dvd_mul_left _ _)
  have hle : ∀ a', FreeAt reserved size align limit r a' → a' ≤ alignDown (min (r.base + r.size) limit - size) align := by
    rintro a' ⟨hdvd, h1, h2, h3, -⟩
    exact le_alignDown halign hdvd (by omega)
  revert h
  cases searchDown reserved r.base size align (alignDown (min (r.base + r.size) limit - size) align) with
  | none =>
    intro h
    exact ih.cons fun a' hat => h a' ⟨hat.1, hat.2.1, (hdis a').mp hat.2.2.2.2⟩ (hle a' hat)
  | some a =>
    rintro ⟨⟨hdvd, hlo, hfree⟩, hle', hbest⟩
    refine ⟨[], r, rest, rfl, by simp, ⟨hdvd, hlo, by omega, by omega, (hdis a).mpr hfree⟩, fun a' hat => ?_⟩
    exact hbest a' ⟨hat.1, hat.2.1, (hdis a').mp hat.2.2.2.2⟩ (hle a' hat)

-- Early allocation takes the highest free place of the last region that has one.
theorem memblockAlloc_best (m : MemMap) (size k limit : Nat) (hmem : ∀ r ∈ m.memory, r.Ok)
    (hres : ∀ r ∈ m.reserved, r.Ok) (hfull : m.reserved.length < MEMBLOCK_MAX) (hsize : 0 < size)
    (hw : size + PAGE_SIZE ≤ 2 ^ 64) (hk : PAGE_SIZE ≤ 2 ^ k) :
    let Free := FreeAt m.reserved (alignUp size PAGE_SIZE) (2 ^ k) limit
    (∃ a m' below r above, memblockAlloc m size (2 ^ k) limit = some (a, m') ∧
      m.memory = below ++ r :: above ∧ (∀ r' ∈ above, ∀ a', ¬ Free r' a') ∧
      Free r a ∧ (∀ a', Free r a' → a' ≤ a) ∧ m'.memory = m.memory ∧
      addresses m'.reserved = addresses m.reserved ∪ Set.Ico a (a + alignUp size PAGE_SIZE)) ∨
    memblockAlloc m size (2 ^ k) limit = some (0, m) ∧ ∀ r ∈ m.memory, ∀ a', ¬ Free r a' := by
  intro Free
  have hround : PAGE_SIZE ∣ alignUp size PAGE_SIZE := Nat.dvd_mul_left _ _
  have hpos : 0 < alignUp size PAGE_SIZE := by
    simp only [alignUp, PAGE_SIZE] at hw ⊢
    omega
  have hpage : PAGE_SIZE ∣ 2 ^ k := by
    have : (2 : Nat) ^ 12 ≤ 2 ^ k := hk
    exact Nat.pow_dvd_pow 2 ((Nat.pow_le_pow_iff_right (by decide)).mp this)
  have h := @searchRegions_spec _ m.memory.reverse _ _ limit hres
    (fun r hr => (hmem r (mem_reverse.mp hr)).no_wrap) hpos (Nat.two_pow_pos k)
  unfold memblockAlloc
  revert h
  simp only
  cases searchRegions m.reserved (alignUp size PAGE_SIZE) (2 ^ k) limit m.memory.reverse with
  | none => exact fun h => .inr ⟨rfl, fun r hr => h r (mem_reverse.mpr hr)⟩
  | some a =>
  rintro ⟨l₁, r, l₂, hl, habove, hat, hbest⟩
  have hmemory : m.memory = l₂.reverse ++ r :: l₁.reverse := by
    rw [← reverse_reverse m.memory, hl]
    simp
  have hr := hmem r (by rw [hmemory]; simp)
  obtain ⟨hdvd, hlo, hhi, -, -⟩ := id hat
  have hend : a + alignUp size PAGE_SIZE < 2 ^ 64 := hhi.trans_lt hr.no_wrap
  have hap := Nat.dvd_trans hpage hdvd
  have halloc : memblockReserve m a (alignUp size PAGE_SIZE) =
      (insert m.reserved a (alignUp size PAGE_SIZE)).map fun l => { m with reserved := l } := by
    obtain ⟨i, hi⟩ := hap
    obtain ⟨j, hj⟩ := hround
    have hb : alignDown a PAGE_SIZE = a := by
      rw [alignDown, PAGE_SIZE] at *
      omega
    have he : alignUp ((a + alignUp size PAGE_SIZE) % 2 ^ 64) PAGE_SIZE = a + alignUp size PAGE_SIZE := by
      generalize alignUp size PAGE_SIZE = sz at *
      simp only [alignUp, PAGE_SIZE] at *
      omega
    simp only [memblockReserve, hb, he]
    rw [show (a + alignUp size PAGE_SIZE + 2 ^ 64 - a) % 2 ^ 64 = alignUp size PAGE_SIZE by omega]
  have hno := fun r' hr' => (hres r' hr').no_wrap
  obtain ⟨b, e, kept, ha, -, heq⟩ := insert_eq hno hpos hend
  have hroom : kept.length ≠ MEMBLOCK_MAX := by
    have := ha.sublist.length_le
    omega
  rw [if_neg hroom] at heq
  refine .inl ⟨a, { m with reserved := place ⟨b, e - b⟩ kept }, l₂.reverse, r, l₁.reverse, ?_, hmemory, ?_, hat, hbest, rfl, insert_addresses hno hpos hend heq⟩
  · simp only [halloc, heq, map_some]
  · exact fun r' hr' => habove r' (mem_reverse.mp hr')

theorem memblockAlloc_best_below : ∃ a m', memblockAlloc ⟨[⟨0, 16384⟩], [⟨12288, 4096⟩]⟩ 100 (2 ^ 12) 16384 = some (a, m') ∧
    addresses m'.reserved = addresses [⟨12288, 4096⟩] ∪ Set.Ico a (a + 4096) := by
  rcases memblockAlloc_best ⟨[⟨0, 16384⟩], [⟨12288, 4096⟩]⟩ 100 12 16384 (by simp; constructor <;> decide)
    (by simp; constructor <;> decide) (by decide) (by decide) (by decide) (by decide)
    with ⟨a, m', -, -, -, heq, -, -, -, -, -, hadd⟩ | ⟨-, hnone⟩
  · exact ⟨a, m', heq, hadd⟩
  refine absurd ⟨by decide, by decide, by decide, by decide, ?_⟩ (hnone ⟨0, 16384⟩ (by simp) 8192)
  rintro x hx hx' ⟨r, hr, hle, -⟩
  rw [mem_singleton.mp hr] at hle
  exact absurd hx' (Nat.not_lt.mpr hle)

end Alloc

-- The RAM regions the page allocator starts from, whatever the boot code did.
theorem boot_ok (calls : List BootCall) (m m' : MemMap) (hm : RegionsOk m.memory)
    (h : boot m calls = some m') : RegionsOk m'.memory := by
  induction calls generalizing m with
  | nil => exact some.inj h ▸ hm
  | cons call rest ih =>
  cases call with
  | add base size =>
    obtain ⟨m1, h1, h2⟩ := bind_eq_some_iff.mp h
    exact ih m1 (memblockAdd_ok m m1 _ _ hm h1) h2
  | reserve base size =>
    obtain ⟨m1, h1, h2⟩ := bind_eq_some_iff.mp h
    exact ih m1 (memblockReserve_memory m m1 _ _ h1 ▸ hm) h2

theorem memblockStart_le {m : MemMap} (hm : RegionsOk m.memory) (hr : r ∈ m.memory) : memblockStart m ≤ r.base := by
  rw [memblockStart]
  cases hl : m.memory with
  | nil => simp
  | cons r0 rest =>
  rw [hl] at hr hm
  rcases mem_cons.mp hr with rfl | hr
  · simp
  have := (pairwise_cons.mp hm.sorted).1 r hr
  simp only [head?_cons, map_some, getD_some]
  omega

theorem le_memblockEnd {m : MemMap} (hm : RegionsOk m.memory) (hr : r ∈ m.memory) :
    r.base + r.size ≤ memblockEnd m := by
  rw [memblockEnd]
  obtain ⟨init, last, hl⟩ := eq_nil_or_concat m.memory |>.resolve_left (ne_nil_of_mem hr)
  rw [concat_eq_append] at hl
  rw [hl] at hr hm ⊢
  have hlast := hm.each last (by simp)
  simp only [getLast?_append, getLast?_singleton, some_or, map_some, getD_some, Nat.mod_eq_of_lt hlast.no_wrap]
  rcases mem_append.mp hr with hr | hr
  · have := (pairwise_append.mp hm.sorted).2.2 r hr last (by simp)
    omega
  · rw [mem_singleton.mp hr]

end Olux.Memblock
