import Olux.Fat.Main
import Olux.Fat.Dir.Open
import Olux.Lib.Sum

namespace Olux.Fat

open Olux.Lib Function List Option

variable {g : Geom} {s t u : St} {c v : Nat} {P : Nat → Prop}

structure Counted (g : Geom) (s : St) : Prop where
  exact : s.freeCount = freeRows g s
  nextFree : 0 < g.nclus → valid g s.nextFree

structure SameTable (s t : St) : Prop where
  fat : t.fat = s.fat
  freeCount : t.freeCount = s.freeCount
  nextFree : t.nextFree = s.nextFree

theorem SameTable.refl : SameTable s s := ⟨rfl, rfl, rfl⟩

theorem SameTable.trans (h : SameTable s t) (h' : SameTable t u) : SameTable s u :=
  ⟨h'.fat.trans h.fat, h'.freeCount.trans h.freeCount, h'.nextFree.trans h.nextFree⟩

theorem OnlyNt.table (h : OnlyNt s t) : SameTable s t := by
  rw [h]
  exact ⟨rfl, rfl, rfl⟩

theorem freeRows_of_fat (h : t.fat = s.fat) : freeRows g t = freeRows g s := by
  unfold freeRows
  rw [fatGet_of_fat h]

theorem Counted.same (h : Counted g s) (ht : SameTable s t) : Counted g t :=
  ⟨by rw [ht.freeCount, freeRows_of_fat ht.fat, h.exact], by rw [ht.nextFree]; exact h.nextFree⟩

theorem freeRows_le : freeRows g s ≤ g.nclus := by
  have h := countP_le_length (p := fun c => decide (fatGet g s c = 0)) (l := (List.range g.nclus).map (· + 2))
  rwa [length_map, length_range] at h

theorem freeRows_fatSet (hc : valid g c) (hv : v ≤ eoc g) :
    freeRows g (fatSet g c v s) + (decide (fatGet g s c = 0)).toNat = freeRows g s + (decide (v = 0)).toNat := by
  have hnodup : ((List.range g.nclus).map (· + 2)).Nodup :=
    nodup_range.map fun a b h => by simpa using h
  have hmem : c ∈ (List.range g.nclus).map (· + 2) := by
    obtain ⟨h2, hlt⟩ := valid_iff.mp hc
    exact mem_map.mpr ⟨c - 2, mem_range.mpr (by omega), by omega⟩
  have hget : fatGet g (fatSet g c v s) = update (fatGet g s) c v := fatGet_fatSet hv
  have hchange := countP_change hnodup hmem (fun x => decide (fatGet g (fatSet g c v s) x = 0))
    (fun x => decide (fatGet g s x = 0)) fun y _ hy => by rw [hget, update_of_ne hy]
  rw [hget, update_self] at hchange
  unfold freeRows
  rw [hget]
  exact hchange

@[simp] theorem fatSet_freeCount : (fatSet g c v s).freeCount = s.freeCount := by
  unfold fatSet
  split <;> rfl

theorem allocCluster_counted (hm : Marked g) (h : Counted g s) {prev : Nat}
    (hprev : prev ≠ 0 → valid g prev ∧ fatGet g s prev ≠ 0) {c : Nat} {t : St} (heq : allocCluster g prev s = (c, t)) :
    c = 0 ∧ t = s ∨ valid g c ∧ fatGet g s c = 0 ∧ Counted g t ∧ t.ccache = s.ccache ∧
      fatGet g t = if prev = 0 then Function.update (fatGet g s) c (eoc g)
        else Function.update (Function.update (fatGet g s) c (eoc g)) prev c := by
  unfold allocCluster at heq
  split at heq
  · obtain ⟨rfl, rfl⟩ := Prod.mk.inj heq
    exact .inl ⟨rfl, rfl⟩
  rename_i c' hfind
  obtain ⟨hc, hfree⟩ : valid g c' ∧ fatGet g s c' = 0 := by
    have hmem := mem_of_find?_eq_some hfind
    have hrow := find?_some hfind
    obtain ⟨i, hi, rfl⟩ := mem_map.mp hmem
    have hi := mem_range.mp hi
    have hn := valid_iff.mp (h.nextFree (by omega))
    refine ⟨valid_iff.mpr ?_, by simpa using hrow⟩
    split <;> omega
  obtain ⟨rfl, rfl⟩ := Prod.mk.inj heq
  obtain ⟨h2, hlt⟩ := valid_iff.mp hc
  have hle : c' ≤ eoc g := by
    unfold Marked at hm
    omega
  have heoc : eoc g ≠ 0 := by
    unfold eoc
    split <;> decide
  have hnext : 0 < g.nclus → valid g (if c' + 1 ≥ g.nclus + 2 then 2 else c' + 1) := by
    intro hn
    rw [valid_iff]
    split <;> omega
  have htake := freeRows_fatSet (s := s) hc (Nat.le_refl (eoc g))
  simp only [hfree, heoc, decide_true, decide_false, Bool.toNat_true, Bool.toNat_false] at htake
  have hget : fatGet g (fatSet g c' (eoc g) s) = update (fatGet g s) c' (eoc g) := fatGet_fatSet (Nat.le_refl _)
  refine .inr ⟨hc, hfree, ?_⟩
  by_cases hp : prev = 0
  · simp only [if_pos hp]
    refine ⟨⟨?_, hnext⟩, fatSet_ccache, hget⟩
    show (fatSet g c' (eoc g) s).freeCount - 1 = freeRows g (fatSet g c' (eoc g) s)
    rw [fatSet_freeCount, h.exact]
    omega
  obtain ⟨hpv, hpu⟩ := hprev hp
  have hlink := freeRows_fatSet (s := fatSet g c' (eoc g) s) hpv hle
  have hpc : prev ≠ c' := by
    rintro rfl
    exact hpu hfree
  rw [hget, update_of_ne hpc] at hlink
  simp only [hpu, show c' ≠ 0 by omega, decide_false, Bool.toNat_false, Nat.add_zero] at hlink
  simp only [if_neg hp]
  refine ⟨⟨?_, hnext⟩, by simp, ?_⟩
  · show (fatSet g prev c' (fatSet g c' (eoc g) s)).freeCount - 1 = freeRows g (fatSet g prev c' (fatSet g c' (eoc g) s))
    rw [fatSet_freeCount, fatSet_freeCount, h.exact]
    omega
  · show fatGet g (fatSet g prev c' (fatSet g c' (eoc g) s)) = _
    rw [fatGet_fatSet hle, hget]

theorem Counted.release (h : Counted g s) (hc : valid g c) (hu : fatGet g s c ≠ 0) :
    Counted g { fatSet g c 0 s with freeCount := ((fatSet g c 0 s).freeCount + 1) % 2 ^ 32 } := by
  have hset := freeRows_fatSet (s := s) hc (Nat.zero_le (eoc g))
  simp only [hu, decide_true, decide_false, Bool.toNat_true, Bool.toNat_false, Nat.add_zero] at hset
  refine ⟨?_, fun hn => ?_⟩
  · show ((fatSet g c 0 s).freeCount + 1) % 2 ^ 32 = freeRows g (fatSet g c 0 s)
    have hle := freeRows_le (g := g) (s := fatSet g c 0 s)
    have hlt := g.nclus_lt
    rw [fatSet_freeCount, h.exact, ← hset, Nat.mod_eq_of_lt (by omega)]
  show valid g (fatSet g c 0 s).nextFree
  rw [fatSet_nextFree]
  exact h.nextFree hn

theorem freeLoop_counted (k c : Nat) (h : Counted g s) : Counted g (freeLoop g k c s) := by
  induction k generalizing c s with
  | zero => exact h
  | succ k ih =>
  simp only [freeLoop]
  split
  · rename_i hc
    split
    · exact h
    · rename_i hu
      exact ih _ (h.release hc hu)
  · exact h

theorem freeChain_counted (h : Counted g s) : Counted g (freeChain g c s) :=
  (freeLoop_counted g.nclus c h).same ⟨rfl, rfl, rfl⟩

def Closed (g : Geom) (s : St) (P : Nat → Prop) : Prop :=
  ∀ x, P x → valid g x ∧ fatGet g s x ≠ 0 ∧ (valid g (fatGet g s x) → P (fatGet g s x))

theorem Closed.of_fat (h : Closed g s P) (ht : t.fat = s.fat) : Closed g t P := by
  unfold Closed
  rw [fatGet_of_fat ht]
  exact h

theorem Closed.nextLoop (h : Closed g s P) (k : Nat) (hc : P c) : nextLoop g s k c = 0 ∨ P (nextLoop g s k c) := by
  induction k generalizing c with
  | zero => exact .inr hc
  | succ k ih =>
  rw [Fat.nextLoop]
  split
  · exact .inl rfl
  unfold next
  split
  · exact ih ((h c hc).2.2 ‹_›)
  left
  cases k with
  | zero => rfl
  | succ k => rfl

theorem Closed.clustersFrom (h : Closed g s P) (k : Nat) (hc : valid g c → P c) : ∀ x ∈ clustersFrom g s k c, P x := by
  induction k generalizing c with
  | zero => simp [Fat.clustersFrom]
  | succ k ih =>
  rw [Fat.clustersFrom]
  split
  · rename_i hv
    intro x hx
    rcases mem_cons.mp hx with rfl | hx
    · exact hc hv
    refine ih (c := next g s c) (fun hn => ?_) x hx
    unfold next at hn ⊢
    split
    · exact (h c (hc hv)).2.2 ‹_›
    · rw [if_neg ‹_›] at hn
      simp [valid] at hn
  · simp

def ChainUsed (g : Geom) (s : St) (start : Nat) : Prop :=
  ∃ P : Nat → Prop, Closed g s P ∧ (valid g start → P start) ∧
    (valid g s.ccache.start → valid g s.ccache.c → P s.ccache.c)

theorem ChainUsed.same {start : Nat} (h : ChainUsed g s start) (hfat : t.fat = s.fat) (hcache : t.ccache = s.ccache) :
    ChainUsed g t start := by
  obtain ⟨P, hP, hstart, hc⟩ := h
  exact ⟨P, hP.of_fat hfat, hstart, by rw [hcache]; exact hc⟩

theorem Closed.grow (hm : Marked g) (hP : Closed g s P) {prev : Nat} (hc : valid g c)
    (hfree : fatGet g s c = 0) (hprev : prev ≠ 0 → P prev)
    (hget : fatGet g t = if prev = 0 then Function.update (fatGet g s) c (eoc g)
      else Function.update (Function.update (fatGet g s) c (eoc g)) prev c) :
    Closed g t fun x => P x ∨ x = c := by
  have hc0 : c ≠ 0 := by
    have h2 := (valid_iff.mp hc).1
    omega
  have heoc : eoc g ≠ 0 := by
    unfold eoc
    split <;> decide
  have hnot : ¬P c := fun h => (hP c h).2.1 hfree
  have hpc : prev ≠ 0 → prev ≠ c := fun hp hpc => hnot (hpc ▸ hprev hp)
  -- the rows of the set: the new cluster ends the chain, and `prev` leads to it
  have hrow : ∀ x, fatGet g t x = if prev ≠ 0 ∧ x = prev then c else if x = c then eoc g else fatGet g s x := by
    intro x
    rw [hget]
    by_cases hp : prev = 0
    · simp only [hp, if_true, ne_eq, not_true_eq_false, false_and, if_false]
      exact update_apply _ _ _ _
    · simp only [hp, if_false, ne_eq, not_false_eq_true, true_and]
      rw [update_apply, update_apply]
  intro x hx
  rw [hrow x]
  by_cases hxp : prev ≠ 0 ∧ x = prev
  · rw [if_pos hxp]
    obtain ⟨hp, rfl⟩ := hxp
    exact ⟨(hP x (hprev hp)).1, hc0, fun _ => .inr rfl⟩
  rw [if_neg hxp]
  rcases hx with hx | rfl
  · obtain ⟨hv, hu, hn⟩ := hP x hx
    rw [if_neg (fun hxc : x = c => hnot (hxc ▸ hx))]
    exact ⟨hv, hu, fun h => .inl (hn h)⟩
  · rw [if_pos rfl]
    exact ⟨hc, heoc, fun h => by rw [hm.not_valid] at h; cases h⟩

theorem growLoop_counted (hm : Marked g) (k len last start : Nat) (h : Counted g s) (hP : Closed g s P)
    (hlast : last ≠ 0 → P last) (hstart : valid g start → P start) :
    let r := growLoop g k len last start s
    Counted g r.2.2 ∧ r.2.2.ccache = s.ccache ∧
      ∃ Q : Nat → Prop, Closed g r.2.2 Q ∧ (valid g r.2.1 → Q r.2.1) ∧ ∀ x, P x → Q x := by
  induction k generalizing len last start s P with
  | zero => exact ⟨h, rfl, P, hP, hstart, fun _ hx => hx⟩
  | succ k ih =>
  rw [growLoop]
  generalize hr : allocCluster g last s = r
  obtain ⟨c, u⟩ := r
  rcases allocCluster_counted hm h (fun hl => ⟨(hP _ (hlast hl)).1, (hP _ (hlast hl)).2.1⟩) hr with
    ⟨rfl, rfl⟩ | ⟨hc, hfree, hu, hcache, hget⟩
  · exact ⟨h, rfl, P, hP, hstart, fun _ hx => hx⟩
  have hc0 : c ≠ 0 := by
    have h2 := (valid_iff.mp hc).1
    omega
  dsimp only
  rw [if_neg hc0]
  obtain ⟨hcount, hcache', Q, hQ, hstart', hPQ⟩ := ih (len + 1) c
    (if last = 0 then c else start) hu (hP.grow hm hc hfree hlast hget) (fun _ => .inr rfl) (by
      split
      · exact fun _ => .inr rfl
      · exact fun hv => .inl (hstart hv))
  exact ⟨hcount, hcache'.trans hcache, Q, hQ, hstart', fun x hx => hPQ x (.inl hx)⟩

theorem chainGrow_counted (hm : Marked g) {start : Nat} (need : Nat) (h : Counted g s) (hu : ChainUsed g s start) :
    let r := chainGrow g start need s
    Counted g r.2.2 ∧ ChainUsed g r.2.2 r.2.1 := by
  obtain ⟨P, hP, hstart, hcache⟩ := hu
  have hmem := hP.clustersFrom g.nclus hstart
  unfold chainGrow
  obtain ⟨hcount, hsame, Q, hQ, hstart', hPQ⟩ := growLoop_counted hm (need - (clustersFrom g s g.nclus start).length)
    (clustersFrom g s g.nclus start).length ((clustersFrom g s g.nclus start).getLast?.getD 0) start h hP (by
      intro hne
      cases hl : (clustersFrom g s g.nclus start).getLast? with
      | none => rw [hl] at hne; exact absurd rfl hne
      | some b => exact hmem b (mem_of_getLast? hl)) hstart
  refine ⟨hcount, Q, hQ, hstart', ?_⟩
  rw [hsame]
  exact fun hv hc => hPQ _ (hcache hv hc)

theorem nthCluster_table (start n : Nat) (s : St) : SameTable s (nthCluster g start n s).2 := by
  unfold nthCluster
  dsimp only
  generalize (if s.ccache.start = start ∧ s.ccache.n ≤ n ∧ valid g s.ccache.c then
    nextLoop g s (n - s.ccache.n) s.ccache.c else nextLoop g s n start) = c
  split
  · exact .refl
  · exact ⟨rfl, rfl, rfl⟩

theorem nthCluster_used {start n : Nat} (hP : Closed g s P) (hs : valid g start) (hstart : P start)
    (hcache : valid g s.ccache.start → valid g s.ccache.c → P s.ccache.c) :
    (nthCluster g start n s).1 = 0 ∨ P (nthCluster g start n s).1 := by
  unfold nthCluster
  dsimp only
  split
  · rename_i hhit
    exact hP.nextLoop _ (hcache (hhit.1 ▸ hs) hhit.2.2)
  · exact hP.nextLoop _ hstart

theorem chainTrim_counted {start : Nat} (keep : Nat) (h : Counted g s) (hu : ChainUsed g s start) :
    Counted g (chainTrim g start keep s).2 := by
  obtain ⟨P, hP, hstart, hcache⟩ := hu
  unfold chainTrim
  split
  · exact h
  rename_i hv
  have hv : valid g start = true := by simpa using hv
  split
  · exact freeChain_counted h
  have hsame := nthCluster_table (g := g) start (keep - 1) s
  have hat := nthCluster_used (n := keep - 1) hP hv (hstart hv) hcache
  dsimp only
  split
  · exact h.same hsame
  rename_i hne
  have hmem := hat.resolve_left hne
  obtain ⟨hcv, hcu, -⟩ := (hP.of_fat hsame.fat) _ hmem
  have heoc : eoc g ≠ 0 := by
    unfold eoc
    split <;> decide
  have hset := freeRows_fatSet (s := (nthCluster g start (keep - 1) s).2) hcv (Nat.le_refl (eoc g))
  simp only [hcu, heoc, decide_false, Bool.toNat_false, Nat.add_zero] at hset
  have hcut : Counted g (fatSet g (nthCluster g start (keep - 1) s).1 (eoc g) (nthCluster g start (keep - 1) s).2) := by
    have hn := h.same hsame
    refine ⟨?_, ?_⟩
    · rw [fatSet_freeCount, hset]
      exact hn.exact
    · rw [fatSet_nextFree]
      exact hn.nextFree
  split
  · exact hcut.same ⟨rfl, rfl, rfl⟩
  · exact (freeChain_counted hcut).same ⟨rfl, rfl, rfl⟩

theorem SameTable.bind {α β : Type} {m : Prog St Int β} {f : β → Prog St Int α}
    (hm : m.Holds s fun _ t => SameTable s t) (hf : ∀ b t, (f b).Holds t fun _ u => SameTable t u) :
    (m >>= f).Holds s fun _ t => SameTable s t :=
  hm.bind (fun b t ht => (hf b t).mono fun _ _ hu => ht.trans hu) fun _ _ ht => ht

theorem devWrite_table (off : Nat) (buf : List UInt8) : (devWrite g off buf).Holds s fun _ t => SameTable s t := by
  unfold devWrite
  split <;> exact ⟨rfl, rfl, rfl⟩

theorem dirWrite_table (d : Dir) (a b : Nat) : (dirWrite g d a b).Holds s fun _ t => SameTable s t := by
  unfold dirWrite
  generalize b - a = k
  induction k generalizing a s with
  | zero => exact .refl
  | succ k ih =>
    rw [dirWriteLoop]
    split
    · exact SameTable.bind (devWrite_table _ _) fun _ _ => ih _
    · exact .refl

theorem flushCopy_table (sec : Nat) (p : Except Int Unit × St) (k : Nat) : SameTable p.2 (flushCopy g sec p k).2 :=
  devWrite_table (s := p.2) _ _

theorem foldl_table {α : Type} (f : Except Int Unit × St → α → Except Int Unit × St)
    (hf : ∀ p a, SameTable p.2 (f p a).2) (l : List α) (p : Except Int Unit × St) : SameTable p.2 (l.foldl f p).2 :=
  List.foldlRecOn (motive := fun q => SameTable p.2 q.2) l f .refl fun q hq a _ => hq.trans (hf q a)

theorem fatFlush_table : (fatFlush g).Holds s fun _ t => SameTable s t := by
  have hsector : ∀ (p : Except Int Unit × St) sec, SameTable p.2 (flushSector g p sec).2 := by
    intro p sec
    unfold flushSector
    split
    · have h := foldl_table (flushCopy g sec) (flushCopy_table sec) (List.range g.nfats) p
      exact ⟨h.fat, h.freeCount, h.nextFree⟩
    · exact .refl
  show SameTable s (fatFlush g s).2
  unfold fatFlush
  split
  · have h := foldl_table (flushSector g) hsector (List.range (g.fatsz / g.bps)) (.ok (), s)
    exact ⟨h.fat, h.freeCount, h.nextFree⟩
  · exact .refl

theorem writeRange_table (start off : Nat) (buf : List UInt8) :
    (writeRange g start off buf).Holds s fun _ t => SameTable s t := by
  unfold writeRange
  generalize buf.length = k
  induction k generalizing off buf s with
  | zero => exact .refl
  | succ k ih =>
  rw [writeLoop]
  split
  · exact .refl
  refine SameTable.bind (m := .act _) (nthCluster_table start _ s) fun c t => ?_
  split
  · exact .refl
  · exact SameTable.bind (devWrite_table _ _) fun _ _ => ih _ _

theorem readLoop_table (start off len k : Nat) (buf : List UInt8) :
    (readLoop g start off len k buf).Holds s fun _ t => SameTable s t := by
  induction k generalizing buf s with
  | zero => exact .refl
  | succ k ih =>
  rw [readLoop]
  split
  · refine SameTable.bind (m := .act _) (nthCluster_table start _ s) fun c t => ?_
    split
    · exact .refl
    · exact SameTable.bind (m := .read _) .refl fun _ _ => ih _
  · exact .refl

theorem time_table (s : St) : SameTable s (time s).2 := by
  unfold time
  split <;> exact ⟨rfl, rfl, rfl⟩

theorem saveFile_table (n : Node) (e : De) (start : Nat) (r : Except Int Unit) :
    (saveFile g n e start r).Holds s fun _ t => SameTable s t := by
  -- all but the table of inode numbers
  have hsave : ∀ (e : De) (t : St), (do
      let e ← Prog.act (touch e true)
      let w ← (nodeSave g (n.setE e)).attempt
      let f ← (fatFlush g).attempt
      Prog.query fun _ => (firstError r (firstError w f)).map fun _ => n.setE e : Prog St Int Node).Holds t
        fun _ u => SameTable t u := by
    intro e t
    refine SameTable.bind (m := .act _) (time_table t) fun e u => ?_
    refine SameTable.bind (m := .attempt _) (dirWrite_table _ _ _) fun _ _ => ?_
    exact SameTable.bind (m := .attempt _) fatFlush_table fun _ _ => .refl
  unfold saveFile
  dsimp only
  split
  · exact SameTable.bind (m := .update _) (ntSet_onlyNt _ _).table fun _ t => hsave _ t
  · exact hsave _ s

def TailUsed (g : Geom) (s : St) (d : Dir) : Prop := ∀ b, d.cl.getLast? = some b → valid g b ∧ fatGet g s b ≠ 0

theorem TailUsed.of_fat {d : Dir} (h : TailUsed g s d) (ht : t.fat = s.fat) : TailUsed g t d := by
  unfold TailUsed
  rw [fatGet_of_fat ht]
  exact h

theorem dirExtend_counted (hm : Marked g) {d : Dir} (h : Counted g s) (hd : TailUsed g s d) :
    (dirExtend g d).Holds s fun r t => Counted g t ∧ (∀ x, fatGet g s x ≠ 0 → fatGet g t x ≠ 0) ∧
      ∀ d', r = .ok d' → TailUsed g t d' := by
  unfold dirExtend
  split
  · exact ⟨h, fun _ hx => hx, fun _ hr => by cases hr⟩
  generalize hr : allocCluster g (d.cl.getLast?.getD 0) s = r
  obtain ⟨c, u⟩ := r
  have hprev : d.cl.getLast?.getD 0 ≠ 0 → valid g (d.cl.getLast?.getD 0) ∧ fatGet g s (d.cl.getLast?.getD 0) ≠ 0 := by
    intro hne
    cases hl : d.cl.getLast? with
    | none => rw [hl] at hne; exact absurd rfl hne
    | some b => exact hd b hl
  refine .bind_act ?_
  rw [hr]
  dsimp only
  rcases allocCluster_counted hm h hprev hr with ⟨rfl, rfl⟩ | ⟨hc, hfree, hu, -, hget⟩
  · rw [if_pos rfl]
    exact ⟨h, fun _ hx => hx, fun _ hr => by cases hr⟩
  have hc0 : c ≠ 0 := by
    have h2 := (valid_iff.mp hc).1
    omega
  have heoc : eoc g ≠ 0 := by
    unfold eoc
    split <;> decide
  have hkeep : ∀ x, fatGet g s x ≠ 0 ∨ x = c → fatGet g u x ≠ 0 := by
    intro x hx
    rw [hget]
    split
    · rw [update_apply]
      split
      · exact heoc
      · exact hx.resolve_right ‹_›
    rw [update_apply, update_apply]
    split
    · exact hc0
    split
    · exact heoc
    · exact hx.resolve_right ‹_›
  rw [if_neg hc0]
  refine .bind (devWrite_table _ _) (fun _ t ht => ?_) fun _ t ht => ?_
  · refine Prog.holds_pure.mpr ⟨hu.same ht, fun x hx => ?_, fun d' hd' => ?_⟩
    · rw [fatGet_of_fat ht.fat]
      exact hkeep x (.inl hx)
    · obtain rfl := Except.ok.inj hd'
      intro b hb
      rw [getLast?_concat] at hb
      obtain rfl := some.inj hb
      rw [fatGet_of_fat ht.fat]
      exact ⟨hc, hkeep c (.inr rfl)⟩
  refine ⟨hu.same ht, fun x hx => ?_, fun d' hd' => by cases hd'⟩
  rw [fatGet_of_fat ht.fat]
  exact hkeep x (.inl hx)

theorem dirAlloc_counted (hm : Marked g) {d : Dir} (n : Nat) (h : Counted g s) (hd : TailUsed g s d) :
    (dirAlloc g d n).Holds s fun _ t => Counted g t ∧ ∀ x, fatGet g s x ≠ 0 → fatGet g t x ≠ 0 := by
  unfold dirAlloc
  generalize MAX_DIR_ENTRIES + 1 = k
  induction k generalizing d s with
  | zero => exact ⟨h, fun _ hx => hx⟩
  | succ k ih =>
  rw [dirAllocLoop]
  split
  · exact ⟨h, fun _ hx => hx⟩
  · refine (dirExtend_counted hm h hd).bind (fun d' t ht => ?_) fun _ _ ht => ⟨ht.1, ht.2.1⟩
    exact (ih ht.1 (ht.2.2 d' rfl)).mono fun _ _ hu => ⟨hu.1, fun x hx => hu.2 x (ht.2.1 x hx)⟩

theorem dirAdd_counted (hm : Marked g) {d : Dir} (name : List UInt8) (e : De) (h : Counted g s) (hd : TailUsed g s d) :
    (dirAdd g d name e).Holds s fun _ t => Counted g t ∧ ∀ x, fatGet g s x ≠ 0 → fatGet g t x ≠ 0 := by
  unfold dirAdd
  refine .bind (R := fun _ t => t = s) rfl ?_ ?_
  swap
  · rintro _ _ rfl
    exact ⟨h, fun _ hx => hx⟩
  rintro ents _ rfl
  refine (dirAlloc_counted hm ents.length h hd).bind (fun r t ht => ?_) fun _ _ ht => ht
  refine .bind (dirWrite_table _ _ _) (fun _ u hu => ?_) fun _ u hu => ?_
  · exact Prog.holds_pure.mpr ⟨ht.1.same hu, fun x hx => by rw [fatGet_of_fat hu.fat]; exact ht.2 x hx⟩
  · exact ⟨ht.1.same hu, fun x hx => by rw [fatGet_of_fat hu.fat]; exact ht.2 x hx⟩

end Olux.Fat
