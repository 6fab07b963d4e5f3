import Olux.Fat.Entry.Lemmas
import Olux.Fat.Grow
import Olux.Fat.Volume.Lemmas

namespace Olux.Fat

open Olux.Lib Relation Function List

variable {g : Geom} {s t u : St} {l l' : List Nat} {own : Owner → List Nat} {o : Owner} {d : Nat}

theorem dirLoad_congr (hfat : t.fat = s.fat) (hdev : t.dev = s.dev) (c : Nat) : dirLoad g c t = dirLoad g c s := by
  have hget : fatGet g t = fatGet g s := fatGet_of_fat hfat
  have hcl : ∀ k c, clustersFrom g t k c = clustersFrom g s k c := by
    intro k
    induction k with
    | zero => exact fun _ => rfl
    | succ k ih =>
      intro c
      simp only [clustersFrom, next, hget, ih]
  simp only [dirLoad, hdev, hcl]

theorem vol_congr (hfat : t.fat = s.fat) (hdev : t.dev = s.dev) : vol g t = vol g s := by
  have hget : fatGet g t = fatGet g s := fatGet_of_fat hfat
  simp only [vol, hget, Vol.mk.injEq, true_and]
  funext d
  simp only [slots, dirLoad_congr hfat hdev]

theorem length_le_maxClus (hlen : l.length * per g ≤ MAX_DIR_ENTRIES) : l.length ≤ maxClus g := by
  have hpos := per_pos (g := g)
  rw [maxClus, Nat.le_div_iff_mul_le hpos]
  omega

theorem slots_eq (hl : (rows g).Chain (fatGet g s) l) (hlen : l.length * per g ≤ MAX_DIR_ENTRIES)
    (hroot : l = [] → g.type ≠ .fat32) : slots g s (l.headD 0) = (dirAt g s l).e := by
  rw [slots, dirLoad_eq hl (length_le_maxClus hlen) hroot]

namespace Consistent

variable (h : Consistent g (vol g s) own)
include h

theorem root_ne_nil (h32 : g.type = .fat32) : own .root ≠ [] := by
  intro hnil
  have hroot := h.root.1
  rw [rootClus, if_pos h32, hnil, headD_nil] at hroot
  have h2 := (g.root_valid (type_fat32.mp h32)).1
  omega

theorem marked : Marked g := by
  by_cases h32 : g.type = .fat32
  · exact marked_of_chain (h.books.chain .root) (h.root_ne_nil h32)
  · exact marked_of_small h32

theorem nil_small (ho : DirOwner g (vol g s) own d o) (hnil : own o = []) : g.type ≠ .fat32 := by
  intro h32
  rcases ho.kind with ⟨rfl, _⟩ | ⟨_, _, _, _, _, _, hne⟩
  · exact h.root_ne_nil h32 hnil
  · exact hne hnil

theorem slots_owner (ho : DirOwner g (vol g s) own d o) : slots g s d = (dirAt g s (own o)).e := by
  rw [ho.head]
  exact slots_eq (h.books.chain o) ho.len (h.nil_small ho)

theorem slots_same (ho : DirOwner g (vol g s) own d o) (hrows : ∀ c ∈ own o, fatGet g u c = fatGet g s c)
    (hblk : ∀ b ∈ dirBlocks (own o), SameBlk g s u b) : slots g u d = slots g s d := by
  have hchain : (rows g).Chain (fatGet g u) (own o) := (h.books.chain o).congr hrows
  have hslots := slots_eq hchain ho.len (h.nil_small ho)
  rw [← ho.head] at hslots
  rw [hslots, h.slots_owner ho, dirAt_congr (Proper.of_chain (h.books.chain o)) hblk]

theorem used_block {o' : Owner} {b : Nat} (hb : b ∈ dirBlocks (own o')) : IsBlk b ∧ (b = 0 ∨ fatGet g s b ≠ 0) := by
  refine ⟨(Proper.of_chain (h.books.chain o')).isBlk hb, ?_⟩
  unfold dirBlocks at hb
  split at hb
  · exact .inl (mem_singleton.mp hb)
  · exact .inr ((h.books.chain o').ne_free hb)

end Consistent

section Growth

variable (h : Consistent g (vol g s) own) (ho : DirOwner g (vol g s) own d o) (hg : Grown g s (own o) u l')
include h hg

theorem Grown.rows_other {o' : Owner} (hne : o' ≠ o) : ∀ c ∈ own o', fatGet g u c = fatGet g s c := fun c hc =>
  hg.kept c ((h.books.chain o').ne_free hc) fun hco => hne (h.books.disjoint hc hco)

include ho

omit h in
theorem Grown.head : d = l'.headD 0 := by
  obtain ⟨m, hm⟩ := hg.pre
  rw [ho.head, ← hm]
  cases hown : own o with
  | nil =>
    have hnil := hg.root hown
    rw [← hm, hown] at hnil
    rw [hnil]
  | cons a rest => rfl

theorem Grown.nil_small (hnil : l' = []) : g.type ≠ .fat32 := by
  have hpre := hg.pre
  rw [hnil] at hpre
  exact h.nil_small ho (prefix_nil.mp hpre)

end Growth

end Olux.Fat
