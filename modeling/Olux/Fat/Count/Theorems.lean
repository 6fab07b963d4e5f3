import Olux.Fat.Count.Serve
import Olux.Fat.Fsck.Kept

namespace Olux.Fat

open Olux.Lib Function List Option

variable {g : Geom} {s t u : St} {dino ino odino ndino : Nat}

def SameCount (s t : St) : Prop := t.freeCount = s.freeCount ∧ t.nextFree = s.nextFree

theorem SameTable.count (h : SameTable s t) : SameCount s t := ⟨h.freeCount, h.nextFree⟩

theorem SameCount.trans (h : SameCount s t) (h' : SameCount t u) : SameCount s u := ⟨h'.1.trans h.1, h'.2.trans h.2⟩

theorem SameCount.fatSet (c v : Nat) : SameCount s (fatSet g c v s) := ⟨fatSet_freeCount, fatSet_nextFree⟩

theorem claimLoop_count (n prev c : Nat) (k : Fsck) : SameCount k.st (claimLoop g n prev c k).st := by
  induction n generalizing prev c k with
  | zero => exact ⟨rfl, rfl⟩
  | succ n ih =>
  rw [claimLoop]
  split
  · split
    · dsimp only
      split
      · exact ⟨rfl, rfl⟩
      · exact .fatSet _ _
    · exact ih c _ (k.setUsed c)
  · exact ⟨rfl, rfl⟩

theorem fileLoop_st (n c cnt prev : Nat) (k : Fsck) : (fileLoop g n c cnt prev k).2.2.st = k.st := by
  induction n generalizing c cnt prev k with
  | zero => rfl
  | succ n ih =>
    rw [fileLoop]
    split
    · exact ih _ _ _ (k.setUsed c)
    · rfl

theorem fsckWrite_count (d : Dir) (i : Nat) (e : De) (k : Fsck) : SameCount k.st (fsckWrite g d i e k).2.st :=
  (dirWrite_table (g := g) (s := k.st) { d with e := d.e.set i e } i (i + 1)).count

theorem fileSave_count (d : Dir) (i : Nat) (e : De) (k : Fsck) (changed : Bool) :
    SameCount k.st (fileSave g d i e k changed).2.st := by
  unfold fileSave
  split
  · exact fsckWrite_count d i e k
  · exact ⟨rfl, rfl⟩

theorem fsckFile_count (d : Dir) (i : Nat) (e : De) (k : Fsck) : SameCount k.st (fsckFile g d i e k).2.st := by
  unfold fsckFile
  dsimp only
  have hst := fileLoop_st (g := g) (clustersFor g e.size.toNat) (deStart g e) 0 0 k
  generalize fileLoop g (clustersFor g e.size.toNat) (deStart g e) 0 0 k = r at hst ⊢
  obtain ⟨cnt, prev, k'⟩ := r
  dsimp only at hst ⊢
  rw [← hst]
  split
  · exact fileSave_count d i _ k' true
  split
  · exact (SameCount.fatSet _ _).trans (fileSave_count d i _ { k' with st := fatSet g prev (eoc g) k'.st } true)
  · exact fileSave_count d i _ k' _

theorem fsckSlots_count {sub : Option (Nat → Fsck → Fsck)} (hsub : ∀ f, sub = some f → ∀ c k, SameCount k.st (f c k).st)
    (es : List De) (i : Nat) (d : Dir) (k : Fsck) : SameCount k.st (fsckSlots g sub es i d k).st := by
  induction es generalizing i d k with
  | nil => exact ⟨rfl, rfl⟩
  | cons e es ih =>
  unfold fsckSlots
  have hdelete := fsckWrite_count (g := g) d i { e with name := setLead e.name 0xE5 } k
  split
  · exact ⟨rfl, rfl⟩
  split
  · exact ih _ _ _
  split
  · cases sub with
    | none => exact hdelete.trans (ih _ _ _)
    | some f =>
      dsimp only
      split
      · exact hdelete.trans (ih _ _ _)
      · exact (hsub f rfl _ k).trans (ih _ _ _)
  · exact (fsckFile_count d i e k).trans (ih _ _ _)

theorem fsckDir_count (n c : Nat) (k : Fsck) : SameCount k.st (fsckDir g n c k).st := by
  have htree : ∀ sub : Option (Nat → Fsck → Fsck), (∀ f, sub = some f → ∀ c k, SameCount k.st (f c k).st) →
      ∀ c k, SameCount k.st (fsckTree g sub c k).st := by
    intro sub hsub c k
    have hclaim : SameCount k.st (claimDir g c k).st := by
      unfold claimDir
      split
      · exact ⟨rfl, rfl⟩
      · exact claimLoop_count _ _ _ k
    unfold fsckTree
    dsimp only
    split
    · exact hclaim
    · exact hclaim.trans (fsckSlots_count hsub _ _ _ _)
  induction n generalizing c k with
  | zero => exact htree none (fun _ hf => by cases hf) c k
  | succ n ih =>
    refine htree (some (fsckDir g n)) (fun f hf c k => ?_) c k
    obtain rfl := some.inj hf
    exact ih c k

theorem fsck_count (s : St) : SameCount s (fsck g s).2 := by
  have hlost : ∀ (used : Nat → Bool) (cs : List Nat) (t : St), SameCount t (cs.foldl (freeLost g used) t) := by
    intro used cs t
    refine List.foldlRecOn (motive := fun u => SameCount t u) cs _ ⟨rfl, rfl⟩ fun u hu c _ => hu.trans ?_
    unfold freeLost
    dsimp only
    split
    · exact .fatSet _ _
    · exact ⟨rfl, rfl⟩
  unfold fsck
  exact ((fsckDir_count 65 (rootClus g) ⟨s, fun _ => false, 0, 0⟩).trans (hlost _ _ _)).trans fatFlush_table.count

theorem setClean_rows (clean : Bool) (s : St) : SameCount s (setClean g clean s) ∧
    freeRows g (setClean g clean s) = freeRows g s := by
  have hrows : ∀ t : St, (∀ c, 2 ≤ c → fatGet g t c = fatGet g s c) → freeRows g t = freeRows g s := by
    intro t ht
    refine countP_congr fun c hc => ?_
    obtain ⟨i, -, rfl⟩ := mem_map.mp hc
    rw [ht (i + 2) (by omega)]
  unfold setClean
  split
  · exact ⟨⟨rfl, rfl⟩, rfl⟩
  dsimp only
  split
  · rename_i h32
    refine ⟨⟨rfl, rfl⟩, hrows _ fun c hc => ?_⟩
    simp only [fatGet, h32, markDirty]
    rw [le32_congr fun k hk => putBytes_outside (by simp only [bytes4, length_cons, length_nil]; omega)]
    rfl
  rename_i h32
  refine ⟨.fatSet _ _, hrows _ fun c hc => ?_⟩
  have hle : setBit clean (cleanWord g s) (cleanBit g) ≤ eoc g := by
    have hget := fatGet_le (g := g) (s := s) (c := 1)
    have hor : fatGet g s 1 ||| cleanBit g ≤ eoc g := by
      unfold eoc cleanBit at *
      cases ht : g.type with
      | fat32 => exact absurd ht h32
      | fat16 =>
        rw [ht] at hget
        exact Nat.le_of_lt_succ (Nat.or_lt_two_pow (n := 16) (Nat.lt_succ_of_le hget) (by decide))
      | fat12 =>
        rw [ht] at hget
        exact Nat.le_of_lt_succ (Nat.or_lt_two_pow (n := 12) (Nat.lt_succ_of_le hget) (by decide))
    have hword : cleanWord g s = fatGet g s 1 := by
      unfold cleanWord
      split
      · exact absurd ‹_› h32
      · rfl
    rw [hword]
    unfold setBit
    split
    · exact hor
    · omega
  exact (congrFun (fatGet_fatSet hle) c).trans (update_of_ne (by omega) _ _)

theorem fatOpen_counted (hint : Nat) (s : St) : Counted g (fatOpen g hint s) := by
  refine ⟨rfl, fun hn => ?_⟩
  unfold fatOpen
  dsimp only
  split
  · rename_i h
    exact h.2
  · exact valid_iff.mpr (by omega)

theorem main_count (hint : Nat) (s : St) : (main g hint s).freeCount = freeRows g s ∧
    (0 < g.nclus → valid g (main g hint s).nextFree) ∧ freeRows g (main g hint s) =
      freeRows g (if g.ro = false ∧ Unclean g (fatOpen g hint s) then (fsck g (fatOpen g hint s)).2 else s) := by
  have hopen := fatOpen_counted (g := g) hint s
  unfold main
  dsimp only
  by_cases hro : g.ro = true
  · rw [if_pos hro, if_neg (by simp [hro])]
    exact ⟨rfl, hopen.nextFree, freeRows_of_fat rfl⟩
  rw [if_neg hro]
  generalize hu : (if Unclean g (fatOpen g hint s) then (fsck g (fatOpen g hint s)).2 else fatOpen g hint s) = u
  obtain ⟨hcount, hrows⟩ := setClean_rows (g := g) false u
  have hflush := fatFlush_table (g := g) (s := setClean g false u)
  have hsame : SameCount (fatOpen g hint s) u := by
    rw [← hu]
    split
    · exact fsck_count _
    · exact ⟨rfl, rfl⟩
  have hall := (hsame.trans hcount).trans hflush.count
  refine ⟨hall.1.trans hopen.exact, by rw [hall.2]; exact hopen.nextFree, ?_⟩
  refine ((freeRows_of_fat hflush.fat).trans hrows).trans ?_
  rw [← hu]
  simp only [Bool.not_eq_true] at hro
  simp only [hro, true_and]
  split
  · rfl
  · exact freeRows_of_fat rfl

theorem main_counted_iff (hint : Nat) (s : St) :
    Counted g (main g hint s) ↔ (g.ro = false → Unclean g (fatOpen g hint s) →
      freeRows g (fsck g (fatOpen g hint s)).2 = freeRows g s) := by
  obtain ⟨hcount, hnext, hrows⟩ := main_count (g := g) hint s
  constructor
  · intro h hro hunclean
    rw [if_pos ⟨hro, hunclean⟩] at hrows
    rw [← hrows, ← h.exact, hcount]
  intro h
  refine ⟨?_, hnext⟩
  rw [hcount, hrows]
  split
  · rename_i hrun
    exact (h hrun.1 hrun.2).symm
  · rfl

def served (g : Geom) (s : St) (qs : List Request) : St := qs.foldl (serve g) s

theorem served_counted (hm : Marked g) (qs : List Request) (h : Counted g s)
    (ho : ∀ k q, qs[k]? = some q → Orderly g (served g s (qs.take k)) q) : Counted g (served g s qs) := by
  induction qs generalizing s with
  | nil => exact h
  | cons q qs ih =>
    refine ih (serve_counted hm q h (ho 0 q rfl)) fun k q' hq' => ?_
    exact ho (k + 1) q' hq'

-- A volume that a repair has nothing to do with: it is consistent, no cluster is lost, and no
-- directory is more than 65 levels below the root.
def InOrder (g : Geom) (s : St) : Prop :=
  ∃ own, Consistent g (vol g s) own ∧ own .new = [] ∧ ∀ n d, (vol g s).Depth g n d → n ≤ 65

theorem InOrder.fsck_row (h : InOrder g s) (hro : g.ro = false) {c : Nat} (hc : valid g c) :
    fatGet g (fsck g s).2 c = fatGet g s c := by
  obtain ⟨own, hown, hnew, hdeep⟩ := h
  obtain ⟨pos, hk, hfull⟩ := fsckWalk_passes hro hown
  by_cases hused : fatGet g s c ≠ 0 ∧ fatGet g s c ≠ bad g
  · -- in a chain, which the repair keeps
    obtain ⟨o, ho⟩ := hown.books.covered c hc hused.1 hused.2
    refine (hk.untouched hro hown hfull hdeep).rows o ?_ c ho
    rintro rfl
    rw [hnew] at ho
    cases ho
  · rw [(fsck_get hro s).1 c, hk.get, if_neg fun h => hused ⟨h.2.1, h.2.2.1⟩]

theorem InOrder.freeRows_fsck (h : InOrder g s) (hro : g.ro = false) : freeRows g (fsck g s).2 = freeRows g s := by
  refine List.countP_congr fun c hc => ?_
  obtain ⟨i, hi, rfl⟩ := List.mem_map.mp hc
  have hi := List.mem_range.mp hi
  rw [h.fsck_row hro (valid_iff.mpr (by omega))]

-- In a run of the server that starts on a volume marked clean, or on one that is in order, and in
-- which no request puts a cluster behind a free one, the counter is the number of free clusters in
-- every state.
theorem free_count_exact (hm : Marked g) (hint : Nat) (s : St) (hstart : g.ro = false → Unclean g s → InOrder g s)
    (qs : List Request)
    (ho : ∀ k q, qs[k]? = some q → Orderly g (served g (main g hint s) (qs.take k)) q) (k : Nat) :
    (served g (main g hint s) (qs.take k)).freeCount = freeRows g (served g (main g hint s) (qs.take k)) := by
  have hmain : Counted g (main g hint s) := by
    refine (main_counted_iff hint s).mpr fun hro hunclean => ?_
    have horder : InOrder g (fatOpen g hint s) := by
      obtain ⟨own, h⟩ := hstart hro hunclean
      refine ⟨own, ?_⟩
      rwa [vol_congr (t := fatOpen g hint s) (s := s) rfl rfl]
    exact (horder.freeRows_fsck hro).trans (freeRows_of_fat rfl)
  refine (served_counted hm (qs.take k) hmain fun j q hj => ?_).exact
  rw [getElem?_take] at hj
  split at hj
  · rename_i hjk
    rw [take_take, Nat.min_eq_left (Nat.le_of_lt hjk)]
    exact ho j q hj
  · cases hj

-- A new directory in the fixed root, which has no clusters.
theorem root_orderly {l : List De} (hopen : openDir g ROOT_INO s = (.ok ⟨0, l, []⟩, s)) {name : List UInt8} {k : Nat}
    {q : Request} (hq : [Request.mkdir ROOT_INO name][k]? = some q) :
    Orderly g (served g s ([Request.mkdir ROOT_INO name].take k)) q := by
  cases k with
  | zero =>
    obtain rfl := some.inj hq
    intro d t hd b hb
    obtain rfl := Except.ok.inj (Prod.mk.inj (hopen.symm.trans hd)).1
    cases hb
  | succ k => cases hq

theorem free_count_exact_mkdir :
    ((served tiny (main tiny 0 blank) [.mkdir ROOT_INO [65]]).freeCount = 7 ∧
      freeRows tiny (served tiny (main tiny 0 blank) [.mkdir ROOT_INO [65]]) = 7) ∧
    Unclean wide (tower 3) ∧ (served wide (main wide 0 (tower 3)) [.mkdir ROOT_INO [66]]).freeCount =
      freeRows wide (served wide (main wide 0 (tower 3)) [.mkdir ROOT_INO [66]]) := by
  have hone := free_count_exact (g := tiny) (marked_of_small (by decide)) 0 blank (fun _ h => absurd h.1 (by decide))
    [.mkdir ROOT_INO [65]] (fun k q hq => root_orderly (l := slotsAt (main tiny 0 blank).dev tiny.rootOff 16) rfl hq) 1
  have hcount : (served tiny (main tiny 0 blank) [.mkdir ROOT_INO [65]]).freeCount = 7 := by decide +kernel
  have horder : InOrder wide (tower 3) := ⟨towerOwn 3, tower_consistent (by decide), rfl, fun m d hd =>
    Nat.le_trans (tower_depth_le (by decide) hd) (by decide)⟩
  exact ⟨⟨hcount, hone.symm.trans hcount⟩, by decide +kernel, free_count_exact (g := wide) (marked_of_small (by decide)) 0
    (tower 3) (fun _ _ => horder) [.mkdir ROOT_INO [66]]
    (fun k q hq => root_orderly (l := slotsAt (main wide 0 (tower 3)).dev wide.rootOff 16) rfl hq) 1⟩

def lost : St := fatSet wide 2 (eoc wide) blank

theorem fsck_miscounts : (main wide 0 lost).freeCount = 4084 ∧ freeRows wide (main wide 0 lost) = 4085 := by
  have hall : ∀ t, (∀ c, valid wide c → fatGet wide t c = 0) → freeRows wide t = 4085 := by
    intro t ht
    have hlen : freeRows wide t = ((List.range wide.nclus).map (· + 2)).length :=
      List.countP_eq_length.mpr fun c hc => by
        obtain ⟨i, hi, rfl⟩ := List.mem_map.mp hc
        have hi := List.mem_range.mp hi
        simpa using ht (i + 2) (valid_iff.mpr (by omega))
    rw [hlen, length_map, length_range]
    rfl
  have hblank : ∀ c, fatGet wide blank c = 0 := fun c => rfl
  have hrow : fatGet wide lost = update (fatGet wide blank) 2 (eoc wide) := fatGet_fatSet (Nat.le_refl _)
  have hbefore : freeRows wide lost = 4084 := by
    have hset := freeRows_fatSet (g := wide) (s := blank) (c := 2) (by decide) (Nat.le_refl (eoc wide))
    rw [← lost, hall blank fun c _ => hblank c, hblank 2] at hset
    have heoc : eoc wide ≠ 0 := by decide
    simp only [heoc, decide_true, decide_false, Bool.toNat_true, Bool.toNat_false, Nat.add_zero] at hset
    omega
  obtain ⟨hcount, -, hrows⟩ := main_count (g := wide) 0 lost
  have hunclean : wide.ro = false ∧ Unclean wide (fatOpen wide 0 lost) := by decide +kernel
  rw [if_pos hunclean] at hrows
  refine ⟨hcount.trans hbefore, hrows.trans (hall _ fun c hc => ?_)⟩
  -- the root is empty: nothing is claimed, and nothing but the table has to change
  have hwalk : fsckWalk wide (fatOpen wide 0 lost) = ⟨fatOpen wide 0 lost, fun _ => false, 0, 0⟩ := rfl
  have hget := (fsck_get (g := wide) rfl (fatOpen wide 0 lost)).1 c
  rw [hwalk] at hget
  have hlost : fatGet wide (fatOpen wide 0 lost) = fatGet wide lost := fatGet_of_fat rfl
  rw [hget]
  dsimp only
  rw [hlost, hrow]
  by_cases h2 : c = 2
  · rw [h2, update_self, if_pos (by decide)]
  · rw [update_of_ne h2, hblank, ite_self]

end Olux.Fat
