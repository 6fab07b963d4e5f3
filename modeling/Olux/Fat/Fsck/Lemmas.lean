import Olux.Fat.Dir.Open
import Olux.Fat.Fsck

namespace Olux.Fat

open Olux.Lib Relation Function List Option

variable {g : Geom} {s t : St} {k k' : Fsck} {l : List Nat} {pos : Nat → Nat} {c x y : Nat} {e : De} {i : Nat}

theorem length_le_nclus (hnodup : l.Nodup) (hv : ∀ x ∈ l, valid g x) : l.length ≤ g.nclus := by
  have hsub : l.toFinset ⊆ Finset.Ico 2 (g.nclus + 2) := by
    intro x hx
    have hx := valid_iff.mp (hv x (mem_toFinset.mp hx))
    exact Finset.mem_Ico.mpr hx
  have hcard := Finset.card_le_card hsub
  rw [toFinset_card_of_nodup hnodup, Nat.card_Ico] at hcard
  omega

structure SlotSet (g : Geom) (k k' : Fsck) (l : List Nat) (i : Nat) (e : De) (D' : Dir) : Prop where
  dir : D' = { dirAt g k.st l with e := (dirAt g k.st l).e.set i e }
  now : dirAt g k'.st l = D'
  blk : ∀ b, IsBlk b → b ∉ dirBlocks l → SameBlk g k.st k'.st b

theorem fsckWrite_spec (hro : g.ro = false) (hl : Proper g l) (hi : i < (dirAt g k.st l).e.length) (e : De) :
    SlotSet g k (fsckWrite g (dirAt g k.st l) i e k).2 l i e (fsckWrite g (dirAt g k.st l) i e k).1 ∧
      (fsckWrite g (dirAt g k.st l) i e k).2.used = k.used ∧
      fatGet g (fsckWrite g (dirAt g k.st l) i e k).2.st = fatGet g k.st := by
  have hlen : ((dirAt g k.st l).e.set i e).length = (dirAt g k.st l).e.length := length_set
  obtain ⟨t, dev, hrun, hwrote, hat, hblk⟩ := dirWrite_spec (s := k.st)
    (D := { dirAt g k.st l with e := (dirAt g k.st l).e.set i e }) (a := i) (b := i + 1) hro hl rfl
    (hlen.trans (dirAt_length l)) (by omega) (by rw [hlen]; omega)
    fun j hj => getElem?_set_ne (by omega)
  have hst : (fsckWrite g (dirAt g k.st l) i e k).2.st = t := by
    show (dirWrite g _ i (i + 1) k.st).2 = t
    rw [hrun]
  refine ⟨⟨rfl, ?_, ?_⟩, rfl, ?_⟩
  · rw [hst]
    exact hat
  · rw [hst]
    exact hblk
  · rw [hst]
    exact hwrote.fatGet_eq

structure FileFits (g : Geom) (s : St) (e : De) (l : List Nat) : Prop where
  chain : (rows g).Chain (fatGet g s) l
  start : deStart g e = l.headD 0
  length : l.length = clustersFor g e.size.toNat

theorem deStart_zero (e : De) : deStart g (deSetStart g e 0) = 0 := by
  unfold deStart deSetStart
  split <;> simp

theorem dirAt_dev (h : t.dev = s.dev) (m : List Nat) : dirAt g t m = dirAt g s m := by simp only [dirAt, h]

def inUse (e : De) : Bool := lead e.name ≠ 0

section Lists

variable {α : Type} {p : α → Bool} {xs : List α} {i : Nat} {a b : α}

theorem takeWhile_at (hi : i ≤ (xs.takeWhile p).length) (ha : xs[i]? = some a) :
    (p a = true → (xs.takeWhile p)[i]? = some a ∧ i + 1 ≤ (xs.takeWhile p).length) ∧
      (p a = false → (xs.takeWhile p).length = i) := by
  induction xs generalizing i with
  | nil => simp at ha
  | cons x xs ih =>
  cases i with
  | zero =>
    obtain rfl : x = a := by simpa using ha
    constructor
    · intro hp
      simp [hp]
    · intro hp
      simp [hp]
  | succ i =>
  have hx : p x = true := by
    by_contra hx
    simp [hx] at hi
  rw [takeWhile_cons, if_pos hx] at hi ⊢
  obtain ⟨h1, h2⟩ := ih (by simpa using hi) (by simpa using ha)
  refine ⟨fun hp => ?_, fun hp => ?_⟩
  · obtain ⟨hg, hl⟩ := h1 hp
    exact ⟨by simpa using hg, by simpa using hl⟩
  · simpa using h2 hp

end Lists

theorem le_update {i : Nat} (hpos : pos x = i) (y : Nat) : pos y ≤ Function.update pos x (i + 1) y := by
  by_cases hy : y = x
  · subst hy
    rw [update_self]
    omega
  · rw [update_of_ne hy]

theorem lt_of_lt_update {i j : Nat} (hpos : pos x = i) (hj : j < Function.update pos x (i + 1) y)
    (hp : (⟨y, j⟩ : Loc) ≠ ⟨x, i⟩) : j < pos y := by
  by_cases hyx : y = x
  · subst hyx
    rw [update_self] at hj
    have hji : j ≠ i := fun hji => hp (by rw [hji])
    omega
  · rwa [update_of_ne hyx] at hj

theorem freeLost_get (used : Nat → Bool) (s : St) (a c : Nat) : fatGet g (freeLost g used s a) c =
    if c = a ∧ fatGet g s c ≠ 0 ∧ fatGet g s c ≠ bad g ∧ used c = false then 0 else fatGet g s c := by
  unfold freeLost
  dsimp only
  by_cases hca : c = a
  · subst hca
    split
    · rename_i hlost
      rw [fatGet_fatSet (Nat.zero_le _), update_self, if_pos ⟨rfl, hlost.1, hlost.2.1, by simpa using hlost.2.2⟩]
    rename_i hlost
    rw [if_neg]
    rintro ⟨_, h1, h2, h3⟩
    exact hlost ⟨h1, h2, by simpa using h3⟩
  have hno : ¬(c = a ∧ fatGet g s c ≠ 0 ∧ fatGet g s c ≠ bad g ∧ used c = false) := fun hor => hca hor.1
  rw [if_neg hno]
  split
  · rw [fatGet_fatSet (Nat.zero_le _), update_of_ne hca]
  · rfl

theorem freeLost_dev (used : Nat → Bool) (s : St) (a : Nat) : (freeLost g used s a).dev = s.dev := by
  unfold freeLost
  dsimp only
  split
  · exact fatSet_dev
  · rfl

theorem freeLost_all (used : Nat → Bool) (cs : List Nat) (s : St) :
    (cs.foldl (freeLost g used) s).dev = s.dev ∧ ∀ c, fatGet g (cs.foldl (freeLost g used) s) c =
      if c ∈ cs ∧ fatGet g s c ≠ 0 ∧ fatGet g s c ≠ bad g ∧ used c = false then 0 else fatGet g s c := by
  induction cs generalizing s with
  | nil => exact ⟨rfl, fun c => by simp⟩
  | cons a cs ih =>
  obtain ⟨hdev, hget⟩ := ih (freeLost g used s a)
  refine ⟨hdev.trans (freeLost_dev used s a), fun c => ?_⟩
  rw [foldl_cons, hget, freeLost_get]
  by_cases hlost : fatGet g s c ≠ 0 ∧ fatGet g s c ≠ bad g ∧ used c = false
  · by_cases hca : c = a
    · simp [hca ▸ hlost, hca]
    · simp [hlost, hca]
  · simp [hlost]

theorem fsck_get (hro : g.ro = false) (s : St) :
    (∀ c, fatGet g (fsck g s).2 c = if valid g c ∧ fatGet g (fsckWalk g s).st c ≠ 0 ∧
      fatGet g (fsckWalk g s).st c ≠ bad g ∧ (fsckWalk g s).used c = false then 0 else fatGet g (fsckWalk g s).st c) ∧
      ∀ x, g.rootOff ≤ x → (fsck g s).2.dev x = (fsckWalk g s).st.dev x := by
  obtain ⟨hdev, hget⟩ := freeLost_all (g := g) (fsckWalk g s).used ((List.range g.nclus).map (· + 2)) (fsckWalk g s).st
  have hsame := (fatFlush_flushed (g := g)
    (s := ((List.range g.nclus).map (· + 2)).foldl (freeLost g (fsckWalk g s).used) (fsckWalk g s).st) hro).2.1
  have hmem : ∀ c, c ∈ (List.range g.nclus).map (· + 2) ↔ valid g c = true := by
    intro c
    rw [valid_iff, List.mem_map]
    constructor
    · rintro ⟨i, hi, rfl⟩
      have hi := mem_range.mp hi
      omega
    · intro hc
      exact ⟨c - 2, mem_range.mpr (by omega), by omega⟩
  refine ⟨fun c => ?_, fun x hx => (hsame.dev x hx).trans (congrFun hdev x)⟩
  refine (congrFun hsame.fatGet c).trans ((hget c).trans ?_)
  exact if_congr (and_congr_left' (hmem c)) rfl rfl

theorem fsck_used (hro : g.ro = false) (s : St) {c : Nat} (hc : (fsckWalk g s).used c = true) :
    fatGet g (fsck g s).2 c = fatGet g (fsckWalk g s).st c := by
  rw [(fsck_get hro s).1, if_neg]
  rintro ⟨_, _, _, hno⟩
  rw [hc] at hno
  cases hno

def wide : Geom := { tiny with
  fatsz := 8192
  nclus := 4085
  nclus_lt := by decide
  root_valid := by decide }

end Olux.Fat
