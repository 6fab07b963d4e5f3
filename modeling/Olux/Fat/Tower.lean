import Olux.Fat.Fsck.Lemmas

namespace Olux.Fat

open Olux.Lib Relation List Option

variable {d m : Nat}

def towerSlot (n b i : Nat) : De :=
  if i = 0 then
    if b = 0 then { De.zero with name := setLead DOT 0xE5 }
    else deSetStart wide { De.zero with name := DOT, attr := A_DIR } (b + 1)
  else if i = 1 then
    if b = 0 then { De.zero with name := setLead DOT 0xE5 }
    else deSetStart wide { De.zero with name := DOTDOT, attr := A_DIR } (if b = 1 then 0 else b)
  else if i = 2 ∧ b < n then deSetStart wide { De.zero with name := shortName [65] [], attr := A_DIR } (b + 2)
  else De.zero

def tower (n : Nat) : St :=
  { blank with
    fat := fun x => if 4 ≤ x ∧ x < 2 * (n + 2) then 0xFF else 0
    freeCount := 4085 - n
    dev := fun x =>
      if x < 8704 then if 516 ≤ x ∧ x < 512 + 2 * (n + 2) then 0xFF else 0
      else (towerSlot n ((x - 8704) / 512) ((x - 8704) % 512 / 32)).raw.getD ((x - 8704) % 32) 0 }

def towerBlk (d : Nat) : Nat := d - 1

def towerOwn (n : Nat) : Owner → List Nat
  | .entry p => if p.idx = 2 ∧ p.dclus ≠ 1 ∧ towerBlk p.dclus < n then [towerBlk p.dclus + 2] else []
  | _ => []

variable {n : Nat}

theorem tower_ofBytes (b i : Nat) (hi : i < 16) : De.ofBytes (tower n).dev (8704 + b * 512 + i * 32) = towerSlot n b i := by
  rw [← De.ofBytes_raw (towerSlot n b i)]
  refine De.ofBytes_congr fun k hk => ?_
  have hx : ¬8704 + b * 512 + i * 32 + k < 8704 := by omega
  have hb : (8704 + b * 512 + i * 32 + k - 8704) / 512 = b := by omega
  have hs : (8704 + b * 512 + i * 32 + k - 8704) % 512 / 32 = i := by omega
  have hr : (8704 + b * 512 + i * 32 + k - 8704) % 32 = k := by omega
  show (if 8704 + b * 512 + i * 32 + k < 8704 then _ else _) = _
  rw [if_neg hx, hb, hs, hr, Nat.zero_add]

theorem tower_get (c : Nat) : fatGet wide (tower n) c = if 2 ≤ c ∧ c < n + 2 then 0xFFFF else 0 := by
  have hty : wide.type = .fat16 := by decide
  unfold fatGet
  rw [hty]
  show le16 (fun x => if 4 ≤ x ∧ x < 2 * (n + 2) then 0xFF else 0) (c * 2) = _
  unfold le16
  by_cases hc : 2 ≤ c ∧ c < n + 2
  · rw [if_pos hc]
    dsimp only
    rw [if_pos (by omega), if_pos (by omega)]
    rfl
  rw [if_neg hc]
  dsimp only
  rw [if_neg (by omega), if_neg (by omega)]
  rfl

theorem tower_chain (hn : n ≤ 4085) {c : Nat} (hc : 2 ≤ c ∧ c < n + 2) : (rows wide).Chain (fatGet wide (tower n)) [c] := by
  have hrow : fatGet wide (tower n) c = 0xFFFF := by rw [tower_get, if_pos hc]
  have hv : valid wide c = true := valid_iff.mpr (by
    show 2 ≤ c ∧ c < 4085 + 2
    omega)
  have hlink : valid wide 0xFFFF = false := by decide
  refine ⟨hv, ?_, ?_⟩
  · simp [Rows.link, rows, hrow, hlink]
  show eocMin wide ≤ fatGet wide (tower n) c
  rw [hrow]
  decide

theorem tower_slots (hn : n ≤ 4085) (hd : d = 0 ∨ 2 ≤ d ∧ d < n + 2) :
    slots wide (tower n) d = (List.range 16).map (towerSlot n (towerBlk d)) := by
  rcases hd with rfl | hd
  · have hslots := slots_eq (g := wide) (s := tower n) (l := []) trivial (by decide) (fun _ => by decide)
    rw [headD_nil] at hslots
    rw [hslots]
    refine map_congr_left fun i hi => ?_
    rw [← tower_ofBytes (n := n) _ i (mem_range.mp hi)]
    rfl
  have hper : per wide = 16 := by decide
  have hlen : dirSlots wide [d] = 16 := by simp [dirSlots, hper]
  have hslots := slots_eq (tower_chain hn hd) (by rw [hper, length_singleton]; decide) (fun h => by cases h)
  rw [headD_cons] at hslots
  rw [hslots, dirAt]
  dsimp only
  rw [hlen]
  refine map_congr_left fun i hi => ?_
  have hi := mem_range.mp hi
  rw [← tower_ofBytes (n := n) _ i hi]
  congr 1
  have hcs : wide.cs = 512 := rfl
  have hdata : wide.dataOff = 9216 := by decide
  have h0 : d ≠ 0 := by omega
  simp only [entOff, slotBlk, slotOff, cons_ne_nil, if_false, blkOff, clusOff, hper, Nat.div_eq_of_lt hi,
    getD_cons_zero, Nat.mod_eq_of_lt hi, towerBlk, hcs, hdata, h0]
  omega

theorem towerSlot_live (b i : Nat) : live (towerSlot n b i) = true ↔ i = 2 ∧ b < n := by
  have hgap : live { De.zero with name := setLead DOT 0xE5 } = false := by decide
  have hdot : live { De.zero with name := DOT, attr := A_DIR } = false := by decide
  have hdotdot : live { De.zero with name := DOTDOT, attr := A_DIR } = false := by decide
  have hsub : live { De.zero with name := shortName [65] [], attr := A_DIR } = true := by decide
  -- the start of an entry makes no difference
  have hset : ∀ e c, live (deSetStart wide e c) = live e := fun _ _ => rfl
  unfold towerSlot
  by_cases h0 : i = 0
  · rw [if_pos h0]
    refine iff_of_false ?_ (by omega)
    split <;> simp [hset, hgap, hdot]
  rw [if_neg h0]
  by_cases h1 : i = 1
  · rw [if_pos h1]
    refine iff_of_false ?_ (by omega)
    split <;> simp [hset, hgap, hdotdot]
  rw [if_neg h1]
  split
  · rename_i h
    exact iff_of_true ((hset _ _).trans hsub) h
  · rename_i h
    exact iff_of_false (by decide) h

theorem towerSlot_blank (b i : Nat) : lead (towerSlot n b i).name = 0 ↔ ¬(i < 2 ∨ i = 2 ∧ b < n) := by
  have hset : ∀ e c, (deSetStart wide e c).name = e.name := fun _ _ => rfl
  have hnames : lead DOT ≠ 0 ∧ lead DOTDOT ≠ 0 ∧ lead (shortName [65] []) ≠ 0 := by decide
  unfold towerSlot
  by_cases h0 : i = 0
  · rw [if_pos h0]
    refine iff_of_false ?_ (by omega)
    split <;> simp [hset, hnames]
  rw [if_neg h0]
  by_cases h1 : i = 1
  · rw [if_pos h1]
    refine iff_of_false ?_ (by omega)
    split <;> simp [hset, hnames]
  rw [if_neg h1]
  split
  · rename_i h
    exact iff_of_false (by simp [hset, hnames]) (fun hno => hno (.inr h))
  · rename_i h
    exact iff_of_true (show lead De.zero.name = 0 from rfl) (by omega)

theorem towerSlot_dir {b : Nat} (hb : b < n) (hn : n ≤ 4085) :
    (towerSlot n b 2).isDir = true ∧ deStart wide (towerSlot n b 2) = b + 2 := by
  have hslot : towerSlot n b 2 = deSetStart wide { De.zero with name := shortName [65] [], attr := A_DIR } (b + 2) := by
    rw [towerSlot, if_neg (by decide), if_neg (by decide), if_pos ⟨rfl, hb⟩]
  rw [hslot]
  have hty : wide.type ≠ .fat32 := by decide
  refine ⟨show De.isDir { De.zero with attr := A_DIR } = true by decide, ?_⟩
  rw [deStart, if_neg hty, Nat.zero_add]
  show (UInt16.ofNat (b + 2)).toNat = b + 2
  rw [UInt16.toNat_ofNat', Nat.mod_eq_of_lt (by omega)]

theorem tower_ent (hn : n ≤ 4085) (hd : d = 0 ∨ 2 ≤ d ∧ d < n + 2) (i : Nat) : (vol wide (tower n)).ent ⟨d, i⟩ =
      if i = 2 ∧ towerBlk d < n then some (towerSlot n (towerBlk d) 2) else none := by
  unfold Vol.ent
  show ((slots wide (tower n) d)[i]?).filter live = _
  rw [tower_slots hn hd, getElem?_map]
  by_cases hi : i < 16
  · rw [getElem?_range hi, map_some, filter_some]
    by_cases h : i = 2 ∧ towerBlk d < n
    · rw [if_pos ((towerSlot_live _ _).mpr h), if_pos h, h.1]
    · rw [if_neg (fun hl => h ((towerSlot_live _ _).mp hl)), if_neg h]
  · rw [getElem?_eq_none (by simpa using hi), if_neg (by omega)]
    rfl

theorem tower_reach (hn : n ≤ 4085) (h : (vol wide (tower n)).Reach wide d) : d = 0 ∨ 2 ≤ d ∧ d < n + 2 := by
  induction h with
  | refl => exact .inl (by decide)
  | tail _ hedge ih =>
  obtain ⟨i, e, he, _, rfl⟩ := hedge
  rw [tower_ent hn ih] at he
  split at he
  · rename_i h
    obtain rfl := some.inj he
    rw [(towerSlot_dir h.2 hn).2]
    omega
  · cases he

theorem tower_edge (hn : n ≤ 4085) (hd : d = 0 ∨ 2 ≤ d ∧ d < n + 2) (hb : towerBlk d < n) :
    (vol wide (tower n)).Edge wide d (towerBlk d + 2) := by
  obtain ⟨hdir, hst⟩ := towerSlot_dir hb hn
  exact ⟨2, towerSlot n (towerBlk d) 2, by rw [tower_ent hn hd, if_pos ⟨rfl, hb⟩], hdir, hst⟩

theorem tower_depth (hn : n ≤ 4085) (hm : m < n) : (vol wide (tower n)).Depth wide (m + 1) (m + 2) := by
  induction m with
  | zero => exact .step .root (tower_edge hn (.inl rfl) hm)
  | succ m ih =>
    have hedge := tower_edge (n := n) hn (d := m + 2) (.inr (by omega)) (by unfold towerBlk; omega)
    exact .step (ih (by omega)) hedge

theorem tower_depth_le (hn : n ≤ 4085) (h : (vol wide (tower n)).Depth wide m d) : m ≤ n := by
  have hlevel : m = towerBlk d := by
    induction h with
    | root => rfl
    | step hd hedge ih =>
    obtain ⟨i, e, he, _, rfl⟩ := hedge
    rw [tower_ent hn (tower_reach hn hd.reach)] at he
    split at he
    · rename_i hb
      obtain rfl := some.inj he
      rw [(towerSlot_dir hb.2 hn).2, ih]
      rfl
    · cases he
  have hd := tower_reach hn h.reach
  unfold towerBlk at hlevel
  omega

theorem mem_towerOwn {o : Owner} {c : Nat} (hc : c ∈ towerOwn n o) : ∃ p, o = .entry p ∧ p.idx = 2 ∧ p.dclus ≠ 1 ∧
    towerBlk p.dclus < n ∧ c = towerBlk p.dclus + 2 := by
  cases o with
  | root => cases hc
  | new => cases hc
  | entry p =>
  rw [towerOwn] at hc
  split at hc
  · rename_i h
    exact ⟨p, rfl, h.1, h.2.1, h.2.2, mem_singleton.mp hc⟩
  · cases hc

theorem tower_books (hn : n ≤ 4085) : (rows wide).Books (fatGet wide (tower n)) (towerOwn n) := by
  refine ⟨fun o => ?_, fun {o o' c} hc hc' => ?_, fun c hv h0 _ => ?_⟩
  · cases o with
    | root => trivial
    | new => trivial
    | entry p =>
    rw [towerOwn]
    split
    · rename_i h
      exact tower_chain hn (by omega)
    · trivial
  · obtain ⟨p, rfl, h1, h2, h3, h4⟩ := mem_towerOwn hc
    obtain ⟨q, rfl, h1', h2', h3', h4'⟩ := mem_towerOwn hc'
    obtain ⟨pd, pi⟩ := p
    obtain ⟨qd, qi⟩ := q
    dsimp only [towerBlk] at *
    obtain rfl : pi = qi := h1.trans h1'.symm
    obtain rfl : pd = qd := by omega
    rfl
  have hc : 2 ≤ c ∧ c < n + 2 := by
    by_contra hno
    exact h0 ((tower_get c).trans (if_neg hno))
  refine ⟨.entry ⟨if c = 2 then 0 else c - 1, 2⟩, ?_⟩
  have hblk : towerBlk (if c = 2 then 0 else c - 1) = c - 2 := by
    unfold towerBlk
    split <;> omega
  have hone : (if c = 2 then 0 else c - 1) ≠ 1 := by
    split <;> omega
  rw [towerOwn, hblk, if_pos ⟨rfl, hone, by omega⟩]
  exact mem_singleton.mpr (by omega)

theorem tower_consistent (hn : n ≤ 4085) : Consistent wide (vol wide (tower n)) (towerOwn n) := by
  have hper : per wide = 16 := by decide
  have hreach : ∀ d, d = 0 ∨ 2 ≤ d ∧ d < n + 2 → (vol wide (tower n)).Reach wide d := by
    rintro d (rfl | hd)
    · exact .refl
    · obtain ⟨m, rfl⟩ := Nat.exists_eq_add_of_le' hd.1
      exact (tower_depth hn (m := m) (by omega)).reach
  refine ⟨tower_books hn, ⟨show rootClus wide = 0 by decide, Nat.le_trans (Nat.le_of_eq (Nat.zero_mul _)) (Nat.zero_le _)⟩,
    fun p e hp he => ?_, fun p => ?_, fun d hd => ?_⟩
  · have hd := tower_reach hn hp
    obtain ⟨d, i⟩ := p
    rw [tower_ent hn hd] at he
    split at he
    · rename_i h
      obtain rfl := some.inj he
      obtain ⟨hdir, hst⟩ := towerSlot_dir h.2 hn
      dsimp only at hd
      have hown : towerOwn n (.entry ⟨d, i⟩) = [towerBlk d + 2] := if_pos ⟨h.1, by dsimp only; omega, h.2⟩
      rw [Fits, hown, if_pos hdir, hst]
      exact ⟨rfl, by simp, by rw [hper, length_singleton]; decide⟩
    · cases he
  · by_cases h : towerOwn n (.entry p) = []
    · exact .inr h
    · obtain ⟨c, hc⟩ := exists_mem_of_ne_nil _ h
      obtain ⟨q, hq, h1, h2, h3, -⟩ := mem_towerOwn hc
      obtain rfl := Owner.entry.inj hq
      obtain ⟨d, i⟩ := p
      dsimp only [towerBlk] at h1 h2 h3
      have hd : d = 0 ∨ 2 ≤ d ∧ d < n + 2 := by omega
      refine .inl ⟨hreach d hd, ?_⟩
      rw [tower_ent hn hd, if_pos ⟨h1, h3⟩]
      exact some_ne_none _
  intro i j e e' hij he he' hz
  have hat : ∀ {k f}, (slots wide (tower n) d)[k]? = some f → f = towerSlot n (towerBlk d) k := by
    intro k f hf
    rw [tower_slots hn (tower_reach hn hd), getElem?_map] at hf
    obtain ⟨k', hk', rfl⟩ := Option.map_eq_some_iff.mp hf
    obtain ⟨hlt, rfl⟩ := List.getElem?_eq_some_iff.mp hk'
    rw [List.getElem_range]
  rw [hat he, towerSlot_blank] at hz
  rw [hat he', towerSlot_blank]
  omega

end Olux.Fat
