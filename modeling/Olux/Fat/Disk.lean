import Olux.Fat.Dir
import Olux.Fat.Table.Lemmas

namespace Olux.Fat

open Olux.Lib

variable {g : Geom} {s t u : St}

structure SameVolume (g : Geom) (s t : St) : Prop where
  fat : t.fat = s.fat
  dev : ∀ x, g.rootOff ≤ x → t.dev x = s.dev x
  nextFree : t.nextFree = s.nextFree
  ccache : t.ccache = s.ccache

theorem SameVolume.refl : SameVolume g s s := ⟨rfl, fun _ _ => rfl, rfl, rfl⟩

theorem SameVolume.trans (h : SameVolume g s t) (h' : SameVolume g t u) : SameVolume g s u :=
  ⟨h'.fat.trans h.fat, fun x hx => (h'.dev x hx).trans (h.dev x hx), h'.nextFree.trans h.nextFree,
    h'.ccache.trans h.ccache⟩

theorem SameVolume.fatGet (h : SameVolume g s t) : fatGet g t = fatGet g s := fatGet_of_fat h.fat

theorem devWrite_eq (hro : g.ro = false) (o : Nat) (buf : List UInt8) :
    devWrite g o buf s = (.ok (), commit (putBytes s.dev o buf) s) := by
  simp [devWrite, hro, Prog.update]

def Flushed (g : Geom) (s : St) (p : Except Int Unit × St) : Prop :=
  p.1 = .ok () ∧ SameVolume g s p.2 ∧ p.2.nt = s.nt

theorem flushCopy_flushed (hro : g.ro = false) {sec k : Nat} (hsec : sec < g.fatsz / g.bps) (hk : k < g.nfats)
    {p : Except Int Unit × St} (h : Flushed g s p) : Flushed g s (flushCopy g sec p k) := by
  obtain ⟨hok, hsame, hnt⟩ := h
  have hend : g.fatOff + k * g.fatsz + sec * g.bps + g.bps ≤ g.rootOff := by
    have h1 : (sec + 1) * g.bps ≤ g.fatsz :=
      Nat.le_trans (Nat.mul_le_mul_right _ hsec) (Nat.div_mul_le_self _ _)
    have h2 : (k + 1) * g.fatsz ≤ g.nfats * g.fatsz := Nat.mul_le_mul_right _ hk
    rw [Nat.add_mul, Nat.one_mul] at h1 h2
    unfold Geom.rootOff
    omega
  simp only [flushCopy, devWrite_eq hro]
  refine ⟨hok, hsame.trans ⟨rfl, fun x hx => putBytes_outside (.inr ?_), rfl, rfl⟩, hnt⟩
  simp only [bytesAt, List.length_map, List.length_range]
  omega

theorem flushSector_flushed (hro : g.ro = false) {sec : Nat} (hsec : sec < g.fatsz / g.bps)
    {p : Except Int Unit × St} (h : Flushed g s p) : Flushed g s (flushSector g p sec) := by
  unfold flushSector
  split
  · have hq : Flushed g s ((List.range g.nfats).foldl (flushCopy g sec) p) :=
      List.foldlRecOn _ _ h fun q hq k hk => flushCopy_flushed hro hsec (List.mem_range.mp hk) hq
    exact ⟨hq.1, ⟨hq.2.1.fat, hq.2.1.dev, hq.2.1.nextFree, hq.2.1.ccache⟩, hq.2.2⟩
  · exact h

theorem fatFlush_flushed (hro : g.ro = false) : Flushed g s (fatFlush g s) := by
  have hs : Flushed g s (.ok (), s) := ⟨rfl, .refl, rfl⟩
  unfold fatFlush
  split
  · have hq : Flushed g s ((List.range (g.fatsz / g.bps)).foldl (flushSector g) (.ok (), s)) :=
      List.foldlRecOn _ _ hs fun q hq sec hsec => flushSector_flushed hro (List.mem_range.mp hsec) hq
    exact ⟨hq.1, ⟨hq.2.1.fat, hq.2.1.dev, hq.2.1.nextFree, hq.2.1.ccache⟩, hq.2.2⟩
  · exact hs

def blkOff (g : Geom) (b : Nat) : Nat := if b = 0 then g.rootOff else clusOff g b

def blkLen (g : Geom) (b : Nat) : Nat := if b = 0 then g.rootBytes else g.cs

def IsBlk (b : Nat) : Prop := b = 0 ∨ 2 ≤ b

def SameBlk (g : Geom) (s t : St) (b : Nat) : Prop :=
  ∀ k < blkLen g b, t.dev (blkOff g b + k) = s.dev (blkOff g b + k)

theorem rootOff_le_blkOff (b : Nat) : g.rootOff ≤ blkOff g b := by
  unfold blkOff clusOff Geom.dataOff
  split <;> omega

theorem SameBlk.trans {b : Nat} (h : SameBlk g s t b) (h' : SameBlk g t u b) : SameBlk g s u b :=
  fun k hk => (h' k hk).trans (h k hk)

theorem IsBlk.of_valid {c : Nat} (h : valid g c) : IsBlk c := .inr (valid_iff.mp h).1

theorem blk_apart {b b' : Nat} (hb : IsBlk b) (hb' : IsBlk b') (hne : b ≠ b') :
    blkOff g b + blkLen g b ≤ blkOff g b' ∨ blkOff g b' + blkLen g b' ≤ blkOff g b := by
  have hsucc : ∀ {m n : Nat}, 2 ≤ m → m < n → clusOff g m + g.cs ≤ clusOff g n := by
    intro m n hm hn
    have hmul : (m - 2 + 1) * g.cs ≤ (n - 2) * g.cs := Nat.mul_le_mul_right _ (by omega)
    rw [Nat.add_mul, Nat.one_mul] at hmul
    unfold clusOff
    omega
  have hroot : ∀ n, g.rootOff + g.rootBytes ≤ clusOff g n := fun n => Nat.le_add_right _ _
  unfold blkOff blkLen
  rcases hb with rfl | hb <;> rcases hb' with rfl | hb'
  · exact absurd rfl hne
  · exact .inl (by rw [if_pos rfl, if_pos rfl, if_neg (by omega)]; exact hroot b')
  · exact .inr (by rw [if_pos rfl, if_pos rfl, if_neg (by omega)]; exact hroot b)
  rw [if_neg (by omega), if_neg (by omega), if_neg (by omega), if_neg (by omega)]
  rcases Nat.lt_or_gt_of_ne hne with h | h
  · exact .inl (hsucc hb h)
  · exact .inr (hsucc hb' h)

theorem putBytes_blk {b b' o : Nat} {buf : List UInt8} (hb : IsBlk b) (hb' : IsBlk b') (hne : b' ≠ b)
    (hfit : o + buf.length ≤ blkLen g b) (ht : t.dev = putBytes s.dev (blkOff g b + o) buf) : SameBlk g s t b' := by
  intro k hk
  rw [ht]
  refine putBytes_outside ?_
  rcases blk_apart (g := g) hb hb' hne.symm with h | h
  · exact .inr (by omega)
  · exact .inl (by omega)

end Olux.Fat
