import Olux.Kmalloc.Theorems
import Olux.PageAlloc.Theorems

namespace Olux.Kmalloc

open Lib PageAlloc

variable {managed : Set Nat} {sys : PageAlloc.System}

theorem live_apart (h : Correct managed sys) {b c : Block} (hb : b ∈ sys.live) (hc : c ∈ sys.live) (hne : b ≠ c) :
    b.Disjoint c := by
  have hsymm : Std.Symm Block.Disjoint := ⟨fun _ _ hd => hd.symm⟩
  exact h.live_apart.forall hb hc hne

theorem live_nodup (h : Correct managed sys) : sys.live.Nodup := by
  refine List.Pairwise.imp ?_ h.live_apart
  rintro a b hd rfl
  exact hd a.base (Block.base_mem a) (Block.base_mem a)

-- The page allocator with what its clients hold, in a correct state.
abbrev BuddyState (managed : Set Nat) := { sys : PageAlloc.System // Correct managed sys }

def buddyAlloc (y : BuddyState managed) (gfp : UInt32) (order : Nat) : Option Nat × BuddyState managed :=
  match h : PageAlloc.allocPages y.1.pages gfp order with
  | some (some pfn, pages) =>
    (some pfn, ⟨⟨pages, ⟨pfn, order⟩ :: y.1.live⟩, by
      rcases allocPages_spec y.2.toInv y.2.counted gfp order with ⟨_, _, _, _, heq, hal⟩ | heq
      · rw [heq] at h
        cases h
        exact .of_counted hal.inv hal.counted
      · rw [heq] at h
        cases h⟩)
  | _ => (none, y)

def buddyFree (y : BuddyState managed) (b : Block) : BuddyState managed :=
  match h : PageAlloc.step y.1 (.free b) with
  | some sys => ⟨sys, by
      obtain ⟨sys', heq, hc⟩ := step_correct y.2 (.free b)
      rw [heq] at h
      cases h
      exact hc⟩
  | none => y

def buddy (managed : Set Nat) : Pager where
  State := BuddyState managed
  used y b := b ∈ y.1.live
  alloc := buddyAlloc
  free := buddyFree
  apart {y _ _} hb hc hne := live_apart y.2 hb hc hne
  alloc_some := by
    intro y gfp o pfn y' h
    have hnd := live_nodup y'.2
    unfold buddyAlloc at h
    split at h
    · cases h
      exact ⟨(List.nodup_cons.mp hnd).1, fun b => List.mem_cons⟩
    · cases h
  alloc_none := by
    intro y gfp o y' h b
    unfold buddyAlloc at h
    split at h
    · cases h
    · cases h
      rfl
  free_used := by
    intro y b hb c
    have hlive : (buddyFree y b).1.live = y.1.live.erase b := by
      obtain ⟨p, heq, _, _⟩ := freePages_spec (y.2.toInv.perm (List.perm_cons_erase hb)) y.2.counted
      have hstep : PageAlloc.step y.1 (.free b) = some ⟨p, y.1.live.erase b⟩ := by simp [PageAlloc.step, hb, heq]
      unfold buddyFree
      split <;> simp_all
    rw [hlive, (live_nodup y.2).mem_erase_iff]
    exact and_comm

-- Over the page allocator in any state: the live objects are apart, and their bytes are on
-- pages of RAM that are on no free list.
theorem kmalloc_on_buddy (pager : BuddyState managed) (mem : Nat → Nat) (ops : List Op) :
    match run (boot pager mem : System (buddy managed)) ops with
    | .error e => e = .hang
    | .ok y => y.live.Pairwise Obj.Apart ∧ ∀ o ∈ y.live, ∀ a, o.addr ≤ a → a < o.addr + o.size →
        virtToPage a ∈ managed ∧ virtToPage a ∉ covered y.st.pager.1.pages.freeBlocks := by
  rcases run_inv ops (boot_inv (G := buddy managed) pager mem) with ⟨y, heq, h⟩ | heq
  swap
  · rw [heq]
  rw [heq]
  refine ⟨h.live_nodup.imp_of_mem fun ho ho' hne =>
    (h.live_valid _ ho).apart h.pages (h.live_valid _ ho') hne, fun o ho a hle hlt => ?_⟩
  have hv := h.live_valid o ho
  have hlive : o.block ∈ y.st.pager.1.live := hv.used h.pages
  have hpage : virtToPage a ∈ o.block := by
    have hin := hv.inside
    unfold pageAddress PAGE_SIZE at hin
    rw [Block.mem_def, virtToPage, PAGE_SIZE]
    omega
  refine ⟨(y.st.pager.2.cover _).mpr (.inr ⟨_, hlive, hpage⟩), ?_⟩
  rintro ⟨b, hb, hin⟩
  exact y.st.pager.2.free_apart _ hlive b hb _ hpage hin

end Olux.Kmalloc
