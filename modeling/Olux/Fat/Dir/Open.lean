import Olux.Fat.Volume.Slots

namespace Olux.Fat

open Olux.Lib Relation Function List Option

variable {g : Geom} {s t u : St} {l l' : List Nat} {own : Owner → List Nat} {o : Owner} {d c : Nat} {name : List UInt8}

def OnlyNt (s t : St) : Prop := t = { s with nt := t.nt }

theorem ntSet_onlyNt (ino : Nat) (p : Loc) : OnlyNt s (ntSet ino p s) := by
  unfold ntSet
  split <;> rfl

theorem nodeLoc_onlyNt (ino : Nat) : (nodeLoc g ino).Holds s fun _ t => OnlyNt s t := by
  unfold nodeLoc
  refine .bind_read ?_
  split
  · exact rfl
  split
  · exact rfl
  split
  · refine .bind (R := fun _ t => t = s) rfl ?_ ?_
    · rintro p t rfl
      exact ntSet_onlyNt _ _
    · rintro e t rfl
      exact rfl
  · exact rfl

theorem nodeGet_onlyNt (ino : Nat) : (nodeGet g ino).Holds s fun _ t => OnlyNt s t := by
  unfold nodeGet
  split
  · exact rfl
  refine .bind (nodeLoc_onlyNt ino) ?_ fun _ _ h => h
  intro p t ht
  refine .bind (R := fun _ u => u = t) rfl ?_ ?_
  · rintro D u rfl
    split <;> exact ht
  · rintro e u rfl
    exact ht

theorem openDir_onlyNt (ino : Nat) : (openDir g ino).Holds s fun r t =>
    OnlyNt s t ∧ ∀ D, r = .ok D → dirLoad g D.clus s = .ok D := by
  unfold openDir
  refine .bind (nodeGet_onlyNt ino) ?_ fun _ _ h => ⟨h, fun _ hr => by cases hr⟩
  intro n t ht
  split
  · exact ⟨ht, fun _ hr => by cases hr⟩
  refine ⟨ht, fun D hD => ?_⟩
  have hD : dirLoad g (nodeDirclus g n) t = .ok D := hD
  have hload : dirLoad g (nodeDirclus g n) s = .ok D := by
    rw [← hD]
    exact (dirLoad_congr (by rw [ht]) (by rw [ht]) _).symm
  have hclus : D.clus = nodeDirclus g n := by
    unfold dirLoad at hload
    split at hload
    · rename_i hz
      split at hload
      · cases hload
      · rw [← Except.ok.inj hload, hz]
    split at hload
    · cases hload
    · rw [← Except.ok.inj hload]
  rw [hclus]
  exact hload

theorem Consistent.dirLoad_owner (h : Consistent g (vol g s) own) {D : Dir} (ho : DirOwner g (vol g s) own D.clus o)
    (hload : dirLoad g D.clus s = .ok D) : D = dirAt g s (own o) := by
  rw [ho.head, dirLoad_eq (h.books.chain o) (length_le_maxClus ho.len) (h.nil_small ho)] at hload
  exact (Except.ok.inj hload).symm

def tiny : Geom where
  ro := false
  bps := 512
  cs := 512
  nfats := 1
  fatsz := 512
  rootEnts := 16
  rootBytes := 512
  nclus := 8
  rootClus := 0
  fatOff := 512
  cs_pow := ⟨9, by decide⟩
  bps_pos := by decide
  rootEnts_lt := by decide
  root_fits := by decide
  nclus_lt := by decide
  root_valid := by decide

def blank : St where
  fat _ := 0
  fatDirty _ := false
  fatChanged := false
  freeCount := 8
  nextFree := 2
  ccache := ⟨0, 0, 0⟩
  nt := []
  times := []
  dev _ := 0

theorem blank_get (c : Nat) : fatGet tiny blank c = 0 := by
  have hty : tiny.type = .fat12 := by decide
  simp [fatGet, hty, le16, blank]

end Olux.Fat
