import Mathlib

namespace Olux.Lib

variable {x o top : Nat}

structure Block where
  base : Nat
  order : Nat
deriving DecidableEq

namespace Block

instance : Membership Nat Block := ⟨fun b x => b.base ≤ x ∧ x < b.base + 2 ^ b.order⟩

def Aligned (b : Block) : Prop := 2 ^ b.order ∣ b.base

def Disjoint (a b : Block) : Prop := ∀ x ∈ a, x ∉ b

def buddy (b : Block) : Block := ⟨b.base ^^^ 2 ^ b.order, b.order⟩

def parent (b : Block) : Block := ⟨b.base ^^^ (b.base &&& 2 ^ b.order), b.order + 1⟩

variable {b a : Block}

theorem mem_def : x ∈ b ↔ b.base ≤ x ∧ x < b.base + 2 ^ b.order := Iff.rfl

theorem base_mem (b : Block) : b.base ∈ b := by
  have := Nat.two_pow_pos b.order
  exact ⟨Nat.le_refl _, by omega⟩

theorem Aligned.mem_iff (h : b.Aligned) : x ∈ b ↔ x / 2 ^ b.order = b.base / 2 ^ b.order := by
  obtain ⟨k, hk⟩ := h
  have hp := Nat.two_pow_pos b.order
  rw [mem_def, hk, Nat.mul_div_cancel_left k hp, Nat.div_eq_iff hp]
  constructor
  · rintro ⟨h1, h2⟩
    rw [Nat.mul_comm k]
    omega
  rintro ⟨h1, h2⟩
  rw [Nat.mul_comm k] at h1 h2
  omega

theorem Disjoint.symm (h : a.Disjoint b) : b.Disjoint a :=
  fun x hb ha => h x ha hb

theorem div_two_pow_of_le (x : Nat) {p : Nat} (h : o ≤ p) : x / 2 ^ p = x / 2 ^ o / 2 ^ (p - o) := by
  rw [Nat.div_div_eq_div_mul, ← Nat.pow_add, Nat.add_sub_of_le h]

theorem nested_or_disjoint (ha : a.Aligned) (hb : b.Aligned) (h : a.order ≤ b.order) :
    (∀ x ∈ a, x ∈ b) ∨ a.Disjoint b := by
  have hx : ∀ x ∈ a, x / 2 ^ b.order = a.base / 2 ^ a.order / 2 ^ (b.order - a.order) := by
    intro x hx
    rw [div_two_pow_of_le x h, ha.mem_iff.mp hx]
  by_cases he : a.base / 2 ^ a.order / 2 ^ (b.order - a.order) = b.base / 2 ^ b.order
  · exact .inl fun x hxa => hb.mem_iff.mpr ((hx x hxa).trans he)
  · exact .inr fun x hxa hxb => he ((hx x hxa).symm.trans (hb.mem_iff.mp hxb))

theorem eq_of_order_eq (ha : a.Aligned) (hb : b.Aligned) (ho : a.order = b.order) (hxa : x ∈ a)
    (hxb : x ∈ b) : a = b := by
  have h1 := ha.mem_iff.mp hxa
  have h2 := hb.mem_iff.mp hxb
  rw [ho] at h1
  have hbase : a.base = b.base := by
    rw [← Nat.div_mul_cancel ha, ← Nat.div_mul_cancel hb, ho, ← h1, h2]
  cases a
  cases b
  simp_all

theorem xor_one_div (k : Nat) : (k ^^^ 1) / 2 = k / 2 := by
  rw [Nat.xor_div_two]
  simp

theorem xor_one_ne (k : Nat) : k ^^^ 1 ≠ k := by
  intro h
  have : (k ^^^ 1) % 2 = 1 ↔ ¬(k % 2 = 1 ↔ 1 % 2 = 1) := Nat.xor_mod_two_eq_one
  rw [h] at this
  omega

theorem two_pow_div_self (o : Nat) : 2 ^ o / 2 ^ o = 1 := Nat.div_self (Nat.two_pow_pos o)

theorem buddy_base_div (b : Block) : b.buddy.base / 2 ^ b.order = (b.base / 2 ^ b.order) ^^^ 1 := by
  simp only [buddy, Nat.xor_div_two_pow, two_pow_div_self]

theorem buddy_aligned (h : b.Aligned) : b.buddy.Aligned := by
  apply Nat.dvd_of_mod_eq_zero
  simp only [buddy, Nat.xor_mod_two_pow, Nat.mod_self, Nat.xor_zero]
  exact Nat.mod_eq_zero_of_dvd h

@[simp] theorem buddy_order (b : Block) : b.buddy.order = b.order := rfl

@[simp] theorem buddy_buddy (b : Block) : b.buddy.buddy = b := by
  simp [buddy]

theorem buddy_mem_iff (h : b.Aligned) : x ∈ b.buddy ↔ x / 2 ^ b.order = (b.base / 2 ^ b.order) ^^^ 1 := by
  rw [(buddy_aligned h).mem_iff, buddy_order, buddy_base_div]

theorem buddy_disjoint (h : b.Aligned) : b.buddy.Disjoint b := by
  intro x hx hb
  exact xor_one_ne _ (((buddy_mem_iff h).mp hx).symm.trans (h.mem_iff.mp hb))

theorem parent_aligned (h : b.Aligned) : b.parent.Aligned := by
  obtain ⟨k, hk⟩ := h
  have hmod : b.base % 2 ^ (b.order + 1) = 2 ^ b.order * (k % 2) := by
    rw [hk, Nat.pow_succ, Nat.mul_mod_mul_left]
  have hlt : 2 ^ b.order % 2 ^ (b.order + 1) = 2 ^ b.order :=
    Nat.mod_eq_of_lt (by rw [Nat.pow_succ]; omega)
  apply Nat.dvd_of_mod_eq_zero
  simp only [parent, Nat.xor_mod_two_pow, Nat.and_mod_two_pow, hmod, hlt]
  rcases Nat.mod_two_eq_zero_or_one k with h | h <;> simp [h]

theorem parent_mem_iff (h : b.Aligned) : x ∈ b.parent ↔ x ∈ b ∨ x ∈ b.buddy := by
  have hp := Nat.two_pow_pos b.order
  have hzero : 2 ^ b.order / 2 ^ (b.order + 1) = 0 := Nat.div_eq_of_lt (by rw [Nat.pow_succ]; omega)
  have hdiv : ∀ y, y / 2 ^ (b.order + 1) = y / 2 ^ b.order / 2 := fun y => by
    rw [Nat.pow_succ, Nat.div_div_eq_div_mul]
  have hbase : b.parent.base / 2 ^ (b.order + 1) = b.base / 2 ^ b.order / 2 := by
    simp only [parent, Nat.xor_div_two_pow, Nat.and_div_two_pow, hzero, Nat.and_zero, Nat.xor_zero]
    exact hdiv b.base
  rw [(parent_aligned h).mem_iff, h.mem_iff, buddy_mem_iff h]
  simp only [show b.parent.order = b.order + 1 from rfl, hbase, hdiv x]
  have hxor := xor_one_div (b.base / 2 ^ b.order)
  have hne := xor_one_ne (b.base / 2 ^ b.order)
  omega

theorem mem_halves (base o : Nat) :
    x ∈ (⟨base, o + 1⟩ : Block) ↔ x ∈ (⟨base, o⟩ : Block) ∨ x ∈ (⟨base + 2 ^ o, o⟩ : Block) := by
  have hp := Nat.two_pow_pos o
  simp only [mem_def, Nat.pow_succ]
  omega

theorem Aligned.halves {base : Nat} (h : (⟨base, o + 1⟩ : Block).Aligned) :
    (⟨base, o⟩ : Block).Aligned ∧ (⟨base + 2 ^ o, o⟩ : Block).Aligned := by
  have hd : 2 ^ o ∣ base := Nat.dvd_trans (Nat.pow_dvd_pow 2 (Nat.le_succ o)) h
  exact ⟨hd, Nat.dvd_add hd (Nat.dvd_refl _)⟩

theorem halves_disjoint (base o : Nat) : (⟨base, o⟩ : Block).Disjoint ⟨base + 2 ^ o, o⟩ := by
  intro x h1 h2
  simp only [mem_def] at h1 h2
  omega

theorem buddy_upper {base : Nat} (h : (⟨base, o + 1⟩ : Block).Aligned) :
    (⟨base + 2 ^ o, o⟩ : Block).buddy = ⟨base, o⟩ := by
  have hhalf := h.halves
  have hb := buddy_aligned hhalf.2
  have hp := Nat.two_pow_pos o
  obtain ⟨k, hk⟩ := h
  refine eq_of_order_eq hb hhalf.1 rfl (x := base) ?_ (base_mem _)
  rw [buddy_mem_iff hhalf.2]
  simp only at hk ⊢
  rw [hk, Nat.pow_succ, Nat.mul_assoc, Nat.mul_div_cancel_left _ hp]
  have h1 : (2 ^ o * (2 * k) + 2 ^ o) / 2 ^ o = 2 * k + 1 := by
    rw [Nat.add_div_right _ hp, Nat.mul_div_cancel_left _ hp]
  rw [h1]
  have hdiv := xor_one_div (2 * k + 1)
  have hne := xor_one_ne (2 * k + 1)
  omega

end Block

-- A set of aligned blocks, of orders up to `top`, that do not overlap and in which
-- every mergeable pair has been merged.
structure Canonical (top : Nat) (blocks : Set Block) : Prop where
  aligned : ∀ b ∈ blocks, b.Aligned
  order_le : ∀ b ∈ blocks, b.order ≤ top
  disjoint : ∀ a ∈ blocks, ∀ b ∈ blocks, a ≠ b → a.Disjoint b
  merged : ∀ b ∈ blocks, b.order < top → b.buddy ∉ blocks

def covered (blocks : Set Block) : Set Nat := {x | ∃ b ∈ blocks, x ∈ b}

variable {blocks : Set Block}

-- An aligned block of covered numbers lies in one block of the set: its halves do by
-- induction, and two halves that are blocks of their own would be a mergeable pair.
theorem Canonical.exists_superset (h : Canonical top blocks) (o : Nat) (ho : o ≤ top) (base : Nat)
    (ha : (⟨base, o⟩ : Block).Aligned) (hc : ∀ x ∈ (⟨base, o⟩ : Block), x ∈ covered blocks) :
    ∃ b ∈ blocks, o ≤ b.order ∧ ∀ x ∈ (⟨base, o⟩ : Block), x ∈ b := by
  induction o generalizing base with
  | zero =>
    obtain ⟨b, hb, hx⟩ := hc base (Block.base_mem _)
    refine ⟨b, hb, Nat.zero_le _, ?_⟩
    intro x hx'
    simp only [Block.mem_def, Nat.pow_zero] at hx'
    rwa [show x = base by omega]
  | succ o ih =>
  have hhalf := ha.halves
  obtain ⟨l, hl, hlo, hlsub⟩ := ih (by omega) base hhalf.1
    fun x hx => hc x ((Block.mem_halves base o).mpr (.inl hx))
  obtain ⟨u, hu, huo, husub⟩ := ih (by omega) (base + 2 ^ o) hhalf.2
    fun x hx => hc x ((Block.mem_halves base o).mpr (.inr hx))
  -- a half inside a larger block takes the whole block with it
  have hwhole : ∀ b ∈ blocks, o + 1 ≤ b.order → ∀ y, y ∈ (⟨base, o + 1⟩ : Block) → y ∈ b →
      ∃ b ∈ blocks, o + 1 ≤ b.order ∧ ∀ x ∈ (⟨base, o + 1⟩ : Block), x ∈ b := by
    intro b hb hbo y hy hyb
    rcases Block.nested_or_disjoint ha (h.aligned b hb) hbo with hsub | hdis
    · exact ⟨b, hb, hbo, hsub⟩
    · exact absurd hyb (hdis y hy)
  by_cases hlo' : o + 1 ≤ l.order
  · exact hwhole l hl hlo' base (Block.base_mem _) (hlsub base (Block.base_mem _))
  by_cases huo' : o + 1 ≤ u.order
  · exact hwhole u hu huo' (base + 2 ^ o) ((Block.mem_halves base o).mpr (.inr (Block.base_mem _)))
      (husub _ (Block.base_mem _))
  have hleq : l = ⟨base, o⟩ := Block.eq_of_order_eq (h.aligned l hl) hhalf.1 (by simp only; omega)
    (hlsub base (Block.base_mem _)) (Block.base_mem _)
  have hueq : u = ⟨base + 2 ^ o, o⟩ := Block.eq_of_order_eq (h.aligned u hu) hhalf.2
    (by simp only; omega) (husub _ (Block.base_mem _)) (Block.base_mem _)
  refine absurd ?_ (h.merged u hu (by omega))
  rw [hueq, Block.buddy_upper ha, ← hleq]
  exact hl

theorem Canonical.mem_iff (h : Canonical top blocks) (b : Block) :
    b ∈ blocks ↔ b.Aligned ∧ b.order ≤ top ∧ (∀ x ∈ b, x ∈ covered blocks) ∧
      (b.order < top → ¬∀ x ∈ b.parent, x ∈ covered blocks) := by
  constructor
  · intro hb
    refine ⟨h.aligned b hb, h.order_le b hb, fun x hx => ⟨b, hb, hx⟩, ?_⟩
    intro hlt hcov
    obtain ⟨a, ha, hao, hsub⟩ := h.exists_superset (b.order + 1) hlt b.parent.base
      (Block.parent_aligned (h.aligned b hb)) hcov
    have hne : b ≠ a := by
      rintro rfl
      omega
    have hbase := hsub b.base ((Block.parent_mem_iff (h.aligned b hb)).mpr (.inl (Block.base_mem b)))
    exact h.disjoint b hb a ha hne b.base (Block.base_mem b) hbase
  rintro ⟨haligned, hle, hcov, hmax⟩
  obtain ⟨a, ha, hao, hsub⟩ := h.exists_superset b.order hle b.base haligned hcov
  by_cases hlt : b.order < a.order
  · refine absurd ?_ (hmax (by have := h.order_le a ha; omega))
    intro x hx
    rcases Block.nested_or_disjoint (Block.parent_aligned haligned) (h.aligned a ha) hlt with hin | hdis
    · exact ⟨a, ha, hin x hx⟩
    · have hbase := (Block.parent_mem_iff haligned).mpr (.inl (Block.base_mem b))
      exact absurd (hsub _ (Block.base_mem b)) (hdis _ hbase)
  have heq : a = b := Block.eq_of_order_eq (h.aligned a ha) haligned (by omega)
    (hsub _ (Block.base_mem b)) (Block.base_mem b)
  rwa [← heq]

theorem Canonical.eq_of_covered_eq {blocks' : Set Block} (h : Canonical top blocks) (h' : Canonical top blocks')
    (hc : covered blocks = covered blocks') : blocks = blocks' := by
  ext b
  rw [h.mem_iff, h'.mem_iff, hc]

end Olux.Lib
