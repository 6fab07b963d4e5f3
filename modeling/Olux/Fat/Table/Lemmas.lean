import Olux.Fat.Table
import Olux.Lib.Chains

namespace Olux.Fat

open Olux.Lib Function List Option

section Bytes

variable {p : Nat → UInt8}

@[simp] theorem putBytes_nil (o : Nat) : putBytes p o [] = p := by
  funext x
  simp [putBytes]

theorem putBytes_cons (o : Nat) (a : UInt8) (l : List UInt8) (x : Nat) :
    putBytes p o (a :: l) x = if x = o then a else putBytes p (o + 1) l x := by
  unfold putBytes
  rcases Nat.lt_trichotomy x o with h | h | h
  · rw [if_neg (by omega), if_neg (by omega), if_neg (by omega)]
  · subst h
    simp
  rw [if_pos (by omega), if_neg (by omega), if_pos (by omega)]
  obtain ⟨k, rfl⟩ := Nat.exists_eq_add_of_lt h
  rw [show o + k + 1 - o = k + 1 by omega, show o + k + 1 - (o + 1) = k by omega, getD_cons_succ]

theorem putBytes_outside {o x : Nat} {l : List UInt8} (h : x < o ∨ o + l.length ≤ x) : putBytes p o l x = p x := by
  unfold putBytes
  split
  · exact getD_eq_default _ _ (by omega)
  · rfl

theorem putBytes_inside {o k : Nat} {l : List UInt8} (h : k < l.length) : putBytes p o l (o + k) = l[k] := by
  unfold putBytes
  rw [if_pos (by omega), Nat.add_sub_cancel_left, getD_eq_getElem _ _ h]

theorem putBytes_append (o : Nat) (l l' : List UInt8) :
    putBytes p o (l ++ l') = putBytes (putBytes p o l) (o + l.length) l' := by
  funext x
  by_cases hx : x < o + l.length
  · rw [putBytes_outside (.inl hx)]
    simp only [putBytes]
    split
    · exact getD_append _ _ _ _ (by omega)
    · rfl
  simp only [putBytes]
  rw [if_pos (by omega), if_pos (by omega), getD_append_right _ _ _ _ (by omega), if_pos (by omega),
    getD_eq_default (n := x - o) _ _ (by omega), Nat.sub_sub]

theorem le16_congr {q : Nat → UInt8} {o : Nat} (h : ∀ k < 2, p (o + k) = q (o + k)) : le16 p o = le16 q o := by
  simp only [le16, ← h 1 (by omega)]
  rw [show p o = q o from h 0 (by omega)]

theorem le32_congr {q : Nat → UInt8} {o : Nat} (h : ∀ k < 4, p (o + k) = q (o + k)) : le32 p o = le32 q o := by
  simp only [le32, ← h 1 (by omega), ← h 2 (by omega), ← h 3 (by omega)]
  rw [show p o = q o from h 0 (by omega)]

theorem le16_putBytes (o v : Nat) (hv : v < 2 ^ 16) : le16 (putBytes p o (bytes2 v)) o = v := by
  simp only [le16, bytes2, putBytes_cons, putBytes_nil, if_true, Nat.add_eq_left]
  simp
  omega

theorem le32_putBytes (o v : Nat) (hv : v < 2 ^ 32) : le32 (putBytes p o (bytes4 v)) o = v := by
  simp only [le32, bytes4, putBytes_cons, putBytes_nil, if_true, Nat.add_eq_left]
  simp
  omega

theorem le16_lt (o : Nat) : le16 p o < 2 ^ 16 := by
  have h0 := (p o).toNat_lt
  have h1 := (p (o + 1)).toNat_lt
  simp only [le16]
  omega

theorem le32_lt (o : Nat) : le32 p o < 2 ^ 32 := by
  have h0 := (p o).toNat_lt
  have h1 := (p (o + 1)).toNat_lt
  have h2 := (p (o + 2)).toNat_lt
  have h3 := (p (o + 3)).toNat_lt
  simp only [le32]
  omega

end Bytes

variable {g : Geom} {s t : St} {c v : Nat}

theorem fatGet_of_fat (h : t.fat = s.fat) : fatGet g t = fatGet g s := by
  funext c
  simp only [fatGet, h]

theorem type_fat32 : g.type = .fat32 ↔ 65525 ≤ g.nclus := by
  unfold Geom.type
  split
  · simp
    omega
  split
  · simp
    omega
  · simp
    omega

theorem valid_iff : valid g c = true ↔ 2 ≤ c ∧ c < g.nclus + 2 := by simp [valid]

theorem fat12_other {p : Nat → UInt8} {x w : Nat} (hx : x ≠ c)
    (hw : w = if c % 2 = 1 then le16 p (c + c / 2) % 2 ^ 4 + v % 2 ^ 12 * 2 ^ 4
      else le16 p (c + c / 2) / 2 ^ 12 * 2 ^ 12 + v % 2 ^ 12) :
    let q := putBytes p (c + c / 2) (bytes2 w)
    (if x % 2 = 1 then le16 q (x + x / 2) / 2 ^ 4 else le16 q (x + x / 2) % 2 ^ 12) =
      if x % 2 = 1 then le16 p (x + x / 2) / 2 ^ 4 else le16 p (x + x / 2) % 2 ^ 12 := by
  intro q
  by_cases hshare : x = c + 1 ∧ c % 2 = 0 ∨ c = x + 1 ∧ x % 2 = 0
  · rcases hshare with ⟨rfl, hc⟩ | ⟨rfl, hx2⟩
    · have ho : c + 1 + (c + 1) / 2 = c + c / 2 + 1 := by omega
      have hq : le16 q (c + c / 2 + 1) = w / 2 ^ 8 % 2 ^ 8 + 2 ^ 8 * (p (c + c / 2 + 1 + 1)).toNat := by
        simp [q, le16, bytes2, putBytes_cons, show c + c / 2 + 1 + 1 ≠ c + c / 2 by omega]
      have h0 := (p (c + c / 2)).toNat_lt
      have h1 := (p (c + c / 2 + 1)).toNat_lt
      rw [if_neg (by omega)] at hw
      rw [if_pos (by omega), if_pos (by omega), ho, hq]
      simp only [le16] at hw ⊢
      omega
    · have ho : x + 1 + (x + 1) / 2 = x + x / 2 + 1 := by omega
      have hq : le16 q (x + x / 2) = (p (x + x / 2)).toNat + 2 ^ 8 * (w % 2 ^ 8) := by
        simp only [q, ho]
        simp [le16, bytes2, putBytes_cons, show x + x / 2 ≠ x + x / 2 + 1 + 1 by omega]
      have h0 := (p (x + x / 2)).toNat_lt
      have h1 := (p (x + x / 2 + 1)).toNat_lt
      rw [if_pos (by omega), ho] at hw
      rw [if_neg (by omega), if_neg (by omega), hq]
      simp only [le16] at hw ⊢
      omega
  rw [le16_congr (p := q) (q := p) (o := x + x / 2)]
  intro k hk
  exact putBytes_outside (by simp only [bytes2, length_cons, length_nil]; omega)

theorem fatGet_fatSet (hv : v ≤ eoc g) : fatGet g (fatSet g c v s) = Function.update (fatGet g s) c v := by
  funext x
  cases ht : g.type with
  | fat32 =>
    have hv' : v < 2 ^ 28 := by simp only [eoc, ht] at hv; omega
    by_cases hx : x = c
    · subst hx
      have hlt := le32_lt (p := s.fat) (x * 4)
      rw [update_self]
      simp only [fatGet, fatSet, ht, markDirty]
      rw [le32_putBytes _ _ (by omega)]
      omega
    rw [update_of_ne hx]
    simp only [fatGet, fatSet, ht, markDirty]
    rw [le32_congr fun k hk => putBytes_outside (by simp only [bytes4, length_cons, length_nil]; omega)]
  | fat16 =>
    have hv' : v < 2 ^ 16 := by simp only [eoc, ht] at hv; omega
    by_cases hx : x = c
    · subst hx
      rw [update_self]
      simp only [fatGet, fatSet, ht, markDirty]
      rw [le16_putBytes _ _ (by omega)]
    rw [update_of_ne hx]
    simp only [fatGet, fatSet, ht, markDirty]
    rw [le16_congr fun k hk => putBytes_outside (by simp only [bytes2, length_cons, length_nil]; omega)]
  | fat12 =>
  have hv' : v < 2 ^ 12 := by simp only [eoc, ht] at hv; omega
  by_cases hx : x = c
  · subst hx
    have hlt := le16_lt (p := s.fat) (x + x / 2)
    rw [update_self]
    simp only [fatGet, fatSet, ht, markDirty]
    rw [le16_putBytes _ _ (by split <;> omega)]
    split <;> omega
  rw [update_of_ne hx]
  simp only [fatGet, fatSet, ht, markDirty]
  exact fat12_other hx rfl

@[simp] theorem fatSet_dev : (fatSet g c v s).dev = s.dev := by
  unfold fatSet
  split <;> rfl

@[simp] theorem fatSet_nt : (fatSet g c v s).nt = s.nt := by
  unfold fatSet
  split <;> rfl

@[simp] theorem fatSet_ccache : (fatSet g c v s).ccache = s.ccache := by
  unfold fatSet
  split <;> rfl

@[simp] theorem fatSet_nextFree : (fatSet g c v s).nextFree = s.nextFree := by
  unfold fatSet
  split <;> rfl

-- How the rows of the table are read. An end mark is no cluster number: `next` would take
-- one for a link.
def rows (g : Geom) : Rows Nat Nat where
  valid c := valid g c = true
  next v := if valid g v then some v else none
  ends v := eocMin g ≤ v
  free := 0
  bad := bad g
  next_free := by simp [valid]
  ends_free := by
    unfold eocMin
    split <;> simp
  valid_next {v c} h := by
    by_cases hv : valid g v
    · rw [if_pos hv] at h
      exact Option.some.inj h ▸ hv
    · rw [if_neg hv] at h
      exact absurd h (by simp)

theorem next_eq : next g s c = ((rows g).link (fatGet g s) c).getD 0 := by
  simp only [Rows.link, rows, next]
  split <;> rfl

theorem eocMin_le_eoc : eocMin g ≤ eoc g := by
  unfold eocMin eoc
  split <;> simp

theorem fatGet_le : fatGet g s c ≤ eoc g := by
  have h16 := le16_lt (p := s.fat)
  unfold fatGet eoc
  split
  · omega
  · have := h16 (c * 2)
    omega
  have := h16 (c + c / 2)
  dsimp only
  split <;> omega

def Marked (g : Geom) : Prop := g.nclus + 2 ≤ eoc g

theorem marked_of_small (h : g.type ≠ .fat32) : Marked g := by
  unfold Marked eoc
  unfold Geom.type at h ⊢
  split at h
  · rw [if_pos (by assumption)]
    dsimp only
    omega
  split at h
  · rw [if_neg (by assumption), if_pos (by assumption)]
    dsimp only
    omega
  · exact absurd rfl h

theorem marked_of_chain {l : List Nat} (hl : (rows g).Chain (fatGet g s) l) (hne : l ≠ []) : Marked g := by
  induction l with
  | nil => exact absurd rfl hne
  | cons a l ih =>
  cases l with
  | nil =>
    have hnext : (rows g).link (fatGet g s) a = none := hl.2.1
    have hends : eocMin g ≤ fatGet g s a := hl.2.2
    have hle := fatGet_le (g := g) (s := s) (c := a)
    have hmin : 2 ≤ eocMin g := by
      unfold eocMin
      split <;> simp
    have hnot : ¬valid g (fatGet g s a) := by
      intro hv
      simp [Rows.link, rows, hv] at hnext
    rw [valid_iff] at hnot
    unfold Marked
    omega
  | cons b l => exact ih hl.tail (by simp)

theorem Marked.not_valid (h : Marked g) : valid g (eoc g) = false := by
  rw [Bool.eq_false_iff, Ne, valid_iff]
  unfold Marked at h
  omega

section Walks

variable {l : List Nat} {n k : Nat}

theorem Chain.ne_zero (h : (rows g).Chain (fatGet g s) l) (hc : c ∈ l) : c ≠ 0 := by
  have h2 := (valid_iff.mp (h.valid hc)).1
  omega

theorem Chain.length_le (h : (rows g).Chain (fatGet g s) l) : l.length ≤ g.nclus := by
  have hsub : l.toFinset ⊆ Finset.Ico 2 (g.nclus + 2) := by
    intro c hc
    exact Finset.mem_Ico.mpr (valid_iff.mp (h.valid (mem_toFinset.mp hc)))
  have hcard := Finset.card_le_card hsub
  rw [toFinset_card_of_nodup h.nodup, Nat.card_Ico] at hcard
  omega

theorem Chain.next_head {a : Nat} (h : (rows g).Chain (fatGet g s) (a :: l)) : next g s a = l.headD 0 := by
  rw [next_eq]
  cases l with
  | nil => rw [h.2.1]; rfl
  | cons b l => rw [h.2.1]; rfl

theorem clustersFrom_eq (h : (rows g).Chain (fatGet g s) l) (hk : l.length ≤ k) :
    clustersFrom g s k (l.headD 0) = l := by
  induction l generalizing k with
  | nil => cases k <;> simp [clustersFrom, valid]
  | cons a l ih =>
  cases k with
  | zero => simp at hk
  | succ k =>
    have hv : valid g a = true := h.1
    rw [headD_cons, clustersFrom, if_pos hv, Chain.next_head h, ih h.tail (by simpa using hk)]

end Walks

-- What the server keeps besides the volume: where to look for free clusters, and one
-- remembered cluster of a chain.
structure Server (g : Geom) (s : St) : Prop where
  nextFree : 0 < g.nclus → valid g s.nextFree
  cache : valid g s.ccache.start → valid g s.ccache.c →
    walk ((rows g).link (fatGet g s)) s.ccache.n s.ccache.start = some s.ccache.c

structure Aside (s t : St) : Prop where
  dev : t.dev = s.dev
  nt : t.nt = s.nt

theorem Aside.refl : Aside s s := ⟨rfl, rfl⟩

theorem Server.extend (h : Server g s) (hcache : t.ccache = s.ccache) (hnext : 0 < g.nclus → valid g t.nextFree)
    (hkeep : ∀ c, (rows g).link (fatGet g s) c ≠ none → fatGet g t c = fatGet g s c) : Server g t := by
  refine ⟨hnext, fun hstart hc => ?_⟩
  rw [hcache] at hstart hc ⊢
  refine walk_extend (h.cache hstart hc) fun d hd => ?_
  rw [Rows.link, Rows.link, hkeep d hd]

theorem findFree_some (h : Server g s) (hc : findFree g s = some c) : valid g c ∧ fatGet g s c = 0 := by
  have hmem := mem_of_find?_eq_some hc
  have hfree := find?_some hc
  obtain ⟨i, hi, rfl⟩ := mem_map.mp hmem
  have hi := mem_range.mp hi
  have hn := valid_iff.mp (h.nextFree (by omega))
  refine ⟨valid_iff.mpr ?_, by simpa using hfree⟩
  split <;> omega

section Chains

variable {l : List Nat}

theorem Marked.ends (hm : Marked g) {get : Nat → Nat} (hc : get c = eoc g) :
    (rows g).next (get c) = none ∧ (rows g).ends (get c) := by
  rw [hc]
  exact ⟨by simp [rows, hm.not_valid], eocMin_le_eoc⟩

theorem next_of_valid (hc : valid g c) : (rows g).next c = some c := by simp [rows, hc]

theorem allocCluster_spec (hm : Marked g) (hs : Server g s) (hl : (rows g).Chain (fatGet g s) l) {c : Nat} {t : St}
    (heq : allocCluster g (l.getLast?.getD 0) s = (c, t)) :
    c = 0 ∧ t = s ∨ valid g c ∧ (rows g).Swap (fatGet g s) (fatGet g t) l (l ++ [c]) ∧ Server g t ∧ Aside s t := by
  unfold allocCluster at heq
  split at heq
  · obtain ⟨rfl, rfl⟩ := Prod.mk.inj heq
    exact .inl ⟨rfl, rfl⟩
  rename_i c' hfind
  obtain ⟨hc, hfree⟩ := findFree_some hs hfind
  obtain ⟨rfl, rfl⟩ := Prod.mk.inj heq
  have hle : c' ≤ eoc g := by
    have hlt := (valid_iff.mp hc).2
    unfold Marked at hm
    omega
  have hnot : c' ∉ l := fun hmem => hl.ne_free hmem hfree
  have hnext : 0 < g.nclus → valid g (if c' + 1 ≥ g.nclus + 2 then 2 else c' + 1) := by
    intro _
    have hv := valid_iff.mp hc
    rw [valid_iff]
    split <;> omega
  refine .inr ⟨hc, ?_⟩
  -- a new chain has one row to write, a longer one has the row of its last cluster too
  cases hlast : l.getLast? with
  | none =>
    have hget : fatGet g (fatSet g c' (eoc g) s) = update (fatGet g s) c' (eoc g) :=
      fatGet_fatSet (Nat.le_refl _)
    refine ⟨.snoc hl hc hfree (hm.ends ?_) ?_ ?_, hs.extend ?_ hnext ?_, ?_⟩
    · exact (congrFun hget c').trans (update_self _ _ _)
    · simp [hlast]
    · exact fun d hd _ => (congrFun hget d).trans (update_of_ne hd _ _)
    · exact fatSet_ccache
    · intro d hd
      refine (congrFun hget d).trans (update_of_ne ?_ _ _)
      rintro rfl
      exact hd (by simp [Rows.link, hfree, rows, valid])
    · exact ⟨fatSet_dev, fatSet_nt⟩
  | some b =>
  have hb : b ∈ l := mem_of_getLast? hlast
  have hb0 : b ≠ 0 := Chain.ne_zero hl hb
  have hbc : b ≠ c' := by
    rintro rfl
    exact hnot hb
  have hget : fatGet g (fatSet g b c' (fatSet g c' (eoc g) s)) = update (update (fatGet g s) c' (eoc g)) b c' := by
    rw [fatGet_fatSet hle, fatGet_fatSet (Nat.le_refl _)]
  have hrest : ∀ d, d ≠ c' → b ≠ d → update (update (fatGet g s) c' (eoc g)) b c' d = fatGet g s d := by
    intro d hd hbd
    rw [update_of_ne (Ne.symm hbd), update_of_ne hd]
  simp only [getD_some, if_neg hb0]
  refine ⟨.snoc hl hc hfree (hm.ends ?_) ?_ ?_, hs.extend ?_ hnext ?_, ?_⟩
  · exact (congrFun hget c').trans (by rw [update_of_ne hbc.symm, update_self])
  · intro d hd
    obtain rfl : b = d := some.inj (hlast.symm.trans hd)
    have hrow := (congrFun hget b).trans (update_self _ _ _)
    exact (congrArg (rows g).next hrow).trans (next_of_valid hc)
  · exact fun d hd hd' => (congrFun hget d).trans (hrest d hd fun hbd => hd' (hbd ▸ hlast))
  · simp
  · intro d hd
    refine (congrFun hget d).trans (hrest d ?_ ?_)
    · rintro rfl
      exact hd (by simp [Rows.link, hfree, rows, valid])
    rintro rfl
    cases l with
    | nil => simp at hlast
    | cons a l => exact hd (hl.2.last hlast)
  · exact ⟨by simp, by simp⟩

theorem freeLoop_aside (k c : Nat) (s : St) : Aside s (freeLoop g k c s) := by
  induction k generalizing c s with
  | zero => exact .refl
  | succ k ih =>
  simp only [freeLoop]
  split
  · split
    · exact .refl
    · have h := ih (if valid g (fatGet g s c) then fatGet g s c else 0)
        { fatSet g c 0 s with freeCount := ((fatSet g c 0 s).freeCount + 1) % 2 ^ 32 }
      exact ⟨h.dev.trans fatSet_dev, h.nt.trans fatSet_nt⟩
  · exact .refl

theorem freeLoop_nextFree (k c : Nat) (s : St) : (freeLoop g k c s).nextFree = s.nextFree := by
  induction k generalizing c s with
  | zero => rfl
  | succ k ih =>
  simp only [freeLoop]
  split
  · split
    · rfl
    · rw [ih]
      exact fatSet_nextFree
  · rfl

theorem freeLoop_get {k : Nat} (hl : (rows g).Chain (fatGet g s) l) (hk : l.length ≤ k) (d : Nat) :
    fatGet g (freeLoop g k (l.headD 0) s) d = if d ∈ l then 0 else fatGet g s d := by
  induction l generalizing k s with
  | nil => cases k <;> simp [freeLoop, valid]
  | cons a l ih =>
  cases k with
  | zero => simp at hk
  | succ k =>
  have hv : valid g a = true := hl.1
  have hne : fatGet g s a ≠ 0 := hl.ne_free mem_cons_self
  have hnext : (if valid g (fatGet g s a) then fatGet g s a else 0) = l.headD 0 := Chain.next_head hl
  have hnot : a ∉ l := (nodup_cons.mp hl.nodup).1
  have hget : fatGet g (fatSet g a 0 s) = update (fatGet g s) a 0 := fatGet_fatSet (Nat.zero_le _)
  rw [headD_cons, freeLoop, if_pos hv]
  simp only [if_neg hne, hnext]
  generalize hu : ({ fatSet g a 0 s with freeCount := ((fatSet g a 0 s).freeCount + 1) % 2 ^ 32 } : St) = u
  replace hget : fatGet g u = update (fatGet g s) a 0 := by
    rw [← hget, ← hu]
    rfl
  rw [ih (hl.tail.congr fun c hc => ?_) (by simpa using hk), hget]
  · by_cases hd : d = a
    · simp [hd]
    · simp [hd]
  rw [hget, update_of_ne]
  rintro rfl
  exact hnot hc

theorem freeChain_get (hl : (rows g).Chain (fatGet g s) l) (d : Nat) :
    fatGet g (freeChain g (l.headD 0) s) d = if d ∈ l then 0 else fatGet g s d :=
  freeLoop_get hl (Chain.length_le hl) d

theorem freeChain_aside : Aside s (freeChain g c s) :=
  have h := freeLoop_aside (g := g) g.nclus c s
  ⟨h.dev, h.nt⟩

theorem freeChain_server (hnext : 0 < g.nclus → valid g s.nextFree) : Server g (freeChain g c s) := by
  refine ⟨fun hn => ?_, fun hv => absurd hv (by simp [freeChain, valid])⟩
  rw [← freeLoop_nextFree g.nclus c s] at hnext
  exact hnext hn

end Chains

end Olux.Fat
