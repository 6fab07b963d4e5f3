import Olux.Getdents
import Olux.Fat.Readdir
import Olux.Fat.Tower

namespace Olux.Getdents

open Userfs Fat List Option

variable {g : Geom} {ino : Nat} {d : Dir}

def takes (fault : Nat → Bool) (count : Nat) : Actor := fun given e =>
  (filldir64 fault ⟨0, count, (given.map reclen).sum, 0, []⟩ e).1

def posAt (actor : Actor) (srv : Server) (fuel : Nat) (s : Sb) (pos k : Nat) : Nat :=
  match ufsIterate (fun given e => decide (given.length < k) && actor given e) srv 1 fuel s ⟨pos, []⟩ with
  | some (_, _, x) => x.pos
  | none => pos

def ufsGetdents (srv : Server) (fault : Nat → Bool) (fuel : Nat) (s : Sb) (pos count : Nat) : Option (List Dirent) :=
  match ufsIterate (takes fault count) srv 1 fuel s ⟨pos, []⟩ with
  | some (_, _, x) => some (x.given.zipIdx.map fun p => ⟨p.1, posAt (takes fault count) srv fuel s pos p.2 + 1⟩)
  | none => none

theorem deliver_cut (actor : Actor) (rs : List Rec) (x : Ctx) (k m : Nat) (hm : m = x.given.length + k)
    (hk : m ≤ (deliver actor x rs).2.1.given.length) :
    (deliver (fun given e => decide (given.length < m) && actor given e) x rs).2.2 = rs.drop k := by
  induction rs generalizing x k with
  | nil => simp [deliver]
  | cons r rs ih =>
  cases k with
  | zero =>
    unfold deliver
    rw [if_pos (by simp [hm])]
    rfl
  | succ k =>
  unfold deliver at hk ⊢
  by_cases ha : actor x.given r.entry = false
  · rw [if_pos ha] at hk
    dsimp only at hk
    omega
  rw [if_neg ha] at hk
  rw [if_neg (by simpa [hm] using ha)]
  exact ih _ k (by simp; omega) hk

-- The position in front of the record `k`: the cookie of the one before it.
def front (src : Nat → List Rec) (pos k : Nat) : Nat :=
  (((src pos).take k).getLast?.map fun r => r.next % 2 ^ 64).getD pos

theorem deliver_cut_pos (actor : Actor) (rs : List Rec) (x : Ctx) (k m : Nat) (hm : m = x.given.length + k)
    (hk : m ≤ (deliver actor x rs).2.1.given.length) :
    (deliver (fun given e => decide (given.length < m) && actor given e) x rs).2.1.pos =
      ((rs.take k).getLast?.map fun r => r.next % 2 ^ 64).getD x.pos := by
  induction rs generalizing x k with
  | nil => simp [deliver]
  | cons r rs ih =>
  cases k with
  | zero =>
    unfold deliver
    rw [if_pos (by simp [hm])]
    rfl
  | succ k =>
  unfold deliver at hk ⊢
  by_cases ha : actor x.given r.entry = false
  · rw [if_pos ha] at hk
    dsimp only at hk
    omega
  rw [if_neg ha] at hk
  rw [if_neg (by simpa [hm] using ha), ih _ k (by simp; omega) hk, take_succ_cons, getLast?_cons]
  cases (rs.take k).getLast? <;> rfl

theorem deliver_all (actor : Actor) (rs : List Rec) (x : Ctx)
    (h : ∀ pre r post, rs = pre ++ r :: post → actor (x.given ++ pre.map Rec.entry) r.entry = true) :
    (deliver actor x rs).2.1.given = x.given ++ rs.map Rec.entry := by
  induction rs generalizing x with
  | nil => simp [deliver]
  | cons r rs ih =>
  have h0 := h [] r rs rfl
  rw [map_nil, append_nil] at h0
  unfold deliver
  rw [if_neg (by simp [h0]), ih]
  · simp
  intro pre r' post hsplit
  have h1 := h (r :: pre) r' post (by rw [hsplit]; rfl)
  simpa using h1

theorem liveFrom_ge {es : List De} {p i : Nat} {rest : List Nat} (h : liveFrom es p = i :: rest) : p ≤ i := by
  induction es generalizing p with
  | nil => cases h
  | cons x xs ih =>
  rw [liveFrom] at h
  split at h
  · cases h
  split at h
  · exact Nat.le_of_eq (List.cons.inj h).1
  · exact Nat.le_of_succ_le (ih h)

theorem liveFrom_next {es : List De} {p i : Nat} {rest : List Nat} (h : liveFrom (es.drop p) p = i :: rest) (hlt : p < i) :
    liveFrom (es.drop (p + 1)) (p + 1) = i :: rest := by
  cases hes : es.drop p with
  | nil =>
    rw [hes] at h
    cases h
  | cons x xs =>
  have htail : es.drop (p + 1) = xs := by
    rw [← tail_drop, hes]
    rfl
  rw [hes, liveFrom] at h
  rw [htail]
  split at h
  · cases h
  split at h
  · have := (List.cons.inj h).1
    omega
  · exact h

-- The cookie is that of a slot with an entry in it, or of one of the two dots.
def Occupied (d : Dir) (cookie : Nat) : Prop :=
  cookie < 2 ∨ ∃ e, d.e[cookie - 2]? = some e ∧ lead e.name ≠ 0 ∧ live e = true

theorem liveFrom_head_iff {es : List De} {p i : Nat} {rest : List Nat} (h : liveFrom (es.drop p) p = i :: rest) :
    p = i ↔ ∃ e, es[p]? = some e ∧ lead e.name ≠ 0 ∧ live e = true := by
  rw [← head?_drop]
  cases hes : es.drop p with
  | nil =>
    rw [hes] at h
    cases h
  | cons x xs =>
  rw [hes, liveFrom] at h
  split at h
  · cases h
  rename_i hlead
  split at h
  · rename_i hlive
    exact iff_of_true (cons.inj h).1 ⟨x, rfl, hlead, hlive⟩
  · rename_i hdead
    refine iff_of_false ?_ ?_
    · have := liveFrom_ge h
      omega
    · rintro ⟨e, he, -, hlive⟩
      cases he
      exact hdead hlive

-- One step on from a cookie lies what follows the record there exactly if the record is in
-- the slot of the cookie: otherwise the step ends in front of it.
theorem recsFrom_succ_iff {c : Nat} {r : Rec} {rs : List Rec} (h : recsFrom g ino d c = r :: rs) :
    (recsFrom g ino d (c + 1)).map Rec.entry = rs.map Rec.entry ↔ Occupied d c := by
  unfold recsFrom at h
  split at h
  · rename_i h0
    obtain ⟨rfl, rfl⟩ := List.cons.inj h
    subst h0
    exact iff_of_true rfl (.inl (by decide))
  split at h
  · rename_i h0 h1
    obtain ⟨rfl, rfl⟩ := List.cons.inj h
    subst h1
    exact iff_of_true rfl (.inl (by decide))
  obtain ⟨e, es, hes, rfl, rfl⟩ := map_eq_cons_iff.mp h
  obtain ⟨hlt, hrest⟩ := entries_idx_lt hes
  -- behind the last slot there is nothing to read
  have hin : c - 2 ≤ d.e.length := by
    by_contra hout
    rw [if_pos (by omega)] at hes
    have hidx := entries_idx d d.e.length
    rw [hes, drop_length] at hidx
    cases hidx
  rw [if_neg (by omega)] at hes
  have hidx := entries_idx d (c - 2)
  rw [hes, map_cons] at hidx
  have hge : c - 2 ≤ e.idx := liveFrom_ge hidx.symm
  have hsucc : recsFrom g ino d (c + 1) = (entries d (c - 2 + 1)).map (recOf g d) := by
    rw [recsFrom, if_neg (by omega), if_neg (by omega), if_neg (by omega), show c + 1 - 2 = c - 2 + 1 by omega]
  rw [hsucc, Occupied, or_iff_right (by omega), ← liveFrom_head_iff hidx.symm]
  by_cases heq : c - 2 = e.idx
  · rw [heq, hrest]
    exact iff_of_true rfl rfl
  refine iff_of_false (fun hsame => ?_) heq
  have hlen := congrArg List.length hsame
  have hagain := congrArg List.length ((entries_idx d (c - 2 + 1)).trans (liveFrom_next hidx.symm (by omega)))
  simp only [length_map, length_cons] at hlen hagain
  omega

theorem reclen_le {e : Entry} (h : e.name.length ≤ 255) : reclen e ≤ 280 := by
  unfold reclen
  omega

theorem takes_all (rs : List Rec) {count : Nat} (hcount : 280 * rs.length ≤ count) (pos : Nat) :
    (deliver (takes (fun _ => false) count) ⟨pos, []⟩ rs).2.1.given = rs.map Rec.entry := by
  have hsum : ∀ l : List Rec, ((l.map Rec.entry).map reclen).sum ≤ 280 * l.length := by
    intro l
    induction l with
    | nil => exact Nat.le_refl 0
    | cons r l ih =>
      have hr : reclen r.entry ≤ 280 := reclen_le r.shown_le
      simp only [map_cons, sum_cons, length_cons]
      omega
  refine (deliver_all _ rs ⟨pos, []⟩ fun pre r post hsplit => ?_).trans (nil_append _)
  have hpre := hsum pre
  have hr : reclen r.entry ≤ 280 := reclen_le r.shown_le
  have hlen := congrArg List.length hsplit
  simp only [length_append, length_cons] at hlen
  unfold takes filldir64
  dsimp only
  rw [nil_append, if_neg (by omega)]
  rfl

theorem ufsGetdents_spec {src : Nat → List Rec} (hres : Resumes src) {srv : Server} (hsrv : Answers src UFS_MAX_IO srv)
    (fault : Nat → Bool) (fuel : Nat) (hfuel : ∀ c, (src c).length < fuel) {s : Sb}
    (hs : ¬ (s.chan = none ∨ s.dead = true)) (pos count : Nat) :
    ∃ recs, ufsGetdents srv fault fuel s pos count = some recs ∧
      recs.map Dirent.entry = (deliver (takes fault count) ⟨pos, []⟩ (src pos)).2.1.given ∧
      ∀ k r, recs[k]? = some r → ∃ x, r.off = front src pos k + 1 ∧
        src (front src pos k) = x :: (src pos).drop (k + 1) ∧ (src pos)[k]? = some x ∧ x.entry = r.entry := by
  have hfit : ∀ r ∈ src pos, r.size ≤ UFS_MAX_IO := fun r _ => r.size_bounds.2.trans (by decide)
  have hrun : ∀ actor, ∃ s', ufsIterate actor srv 1 fuel s ⟨pos, []⟩ =
      some (0, s', (deliver actor ⟨pos, []⟩ (src pos)).2.1) := by
    intro actor
    obtain ⟨s', -, h⟩ := ufsIterate_delivers hres hsrv (Nat.le_refl _) actor (src pos) hfit fuel 0 (hfuel pos) hs
      ⟨pos, []⟩ rfl
    exact ⟨s', h⟩
  obtain ⟨s', hall⟩ := hrun (takes fault count)
  refine ⟨_, by unfold ufsGetdents; rw [hall], ?_, ?_⟩
  · rw [List.map_map]
    exact List.zipIdx_map_fst _ _
  intro k r hr
  obtain ⟨given, hgiven, hmap, -, -⟩ := deliver_reads (takes fault count) (src pos) ⟨pos, []⟩ (by
    intro pre e post h
    simp at h)
  rw [List.nil_append] at hgiven
  rw [hgiven, List.getElem?_map, List.getElem?_zipIdx, Option.map_map, Option.map_eq_some_iff] at hr
  obtain ⟨e, he, rfl⟩ := hr
  have hk : k < given.length := (List.getElem?_eq_some_iff.mp he).1
  obtain ⟨x, hx, hxe⟩ : ∃ x, (src pos)[k]? = some x ∧ x.entry = e := by
    have h := congrArg (fun l => l[k]?) hmap
    rw [getElem?_append_left hk, he, getElem?_map, map_eq_some_iff] at h
    exact h
  obtain ⟨s'', hcut⟩ := hrun (fun given e => decide (given.length < k) && takes fault count given e)
  have hlen : k ≤ (deliver (takes fault count) ⟨pos, []⟩ (src pos)).2.1.given.length := by
    rw [hgiven]
    omega
  have hpos : posAt (takes fault count) srv fuel s pos k = front src pos k := by
    unfold posAt
    rw [hcut]
    exact deliver_cut_pos _ _ _ k k (by simp) hlen
  refine ⟨x, by simp [hpos], ?_, hx, hxe⟩
  rw [← hpos]
  unfold posAt
  rw [hcut]
  rw [hres.deliver _ (src pos) [] (append_nil _).symm, append_nil, deliver_cut _ _ _ k k (by simp) hlen]
  exact drop_eq_getElem?_toList_append.trans (by rw [hx]; rfl)

theorem recsFrom_length_le (c : Nat) : (recsFrom g ino d c).length < d.e.length + 3 := by
  have hlive : ∀ (es : List De) (p : Nat), (liveFrom es p).length ≤ es.length := by
    intro es
    induction es with
    | nil => exact fun _ => Nat.le_refl 0
    | cons x xs ih =>
    intro p
    have := ih (p + 1)
    rw [liveFrom, length_cons]
    split
    · exact Nat.zero_le _
    split
    · rw [length_cons]
      omega
    · omega
  have hent : ∀ p, (entries d p).length ≤ d.e.length := by
    intro p
    have h := congrArg List.length (entries_idx d p)
    rw [length_map] at h
    rw [h]
    exact (hlive _ _).trans (by rw [length_drop]; omega)
  unfold recsFrom
  split
  · have := hent 0
    simp only [length_cons, length_map]
    omega
  split
  · have := hent 0
    simp only [length_cons, length_map]
    omega
  · rw [length_map]
    exact (hent _).trans_lt (by omega)

theorem handOut_all (es : List Entry) (x : Gctx) (h : x.used + (es.map reclen).sum ≤ x.size) :
    (handOut (fun _ => false) es x).recs.map Dirent.entry = x.recs.map Dirent.entry ++ es := by
  induction es generalizing x with
  | nil => rw [append_nil]; rfl
  | cons e es ih =>
  rw [map_cons, sum_cons] at h
  unfold handOut filldir64
  rw [if_neg (by omega)]
  simp only [Bool.false_eq_true, if_false]
  rw [ih _ (by dsimp only; omega)]
  simp

theorem getdents_all (n : Node) (pos : Nat) {count : Nat} (hcount : (n.listing.map reclen).sum ≤ count) :
    (sysGetdents64 (tmpfsIterate n fun _ => false) pos count).2.2.map Dirent.entry = n.listing.drop pos := by
  have hsum : ((n.listing.drop pos).map reclen).sum ≤ (n.listing.map reclen).sum := by
    conv_rhs => rw [← take_append_drop pos n.listing]
    rw [map_append, sum_append]
    omega
  have hrun : (sysGetdents64 (tmpfsIterate n fun _ => false) pos count).2.2 =
      (handOut (fun _ => false) (n.listing.drop pos) ⟨pos, count, 0, 0, []⟩).recs := by
    unfold sysGetdents64
    rw [tmpfsIterate_eq]
  rw [hrun, handOut_all _ _ (by dsimp only; omega)]
  rfl

theorem tmpfs_seek (n : Node) (fault : Nat → Bool) (pos count : Nat) {again : Nat}
    (hagain : (n.listing.map reclen).sum ≤ again) {k : Nat} {r : Dirent}
    (hr : (sysGetdents64 (tmpfsIterate n fault) pos count).2.2[k]? = some r) :
    (n.listing.drop pos)[k]? = some r.entry ∧
      (sysGetdents64 (tmpfsIterate n fun _ => false) r.off again).2.2.map Dirent.entry =
        (n.listing.drop pos).drop (k + 1) := by
  obtain ⟨j, -, -, hrecs, -⟩ := getdents_handed n fault pos count
  rw [hrecs, List.getElem?_map, List.getElem?_zipIdx, Option.map_map, Option.map_eq_some_iff] at hr
  obtain ⟨e, he, rfl⟩ := hr
  have hk : k < ((n.listing.drop pos).take j).length := (List.getElem?_eq_some_iff.mp he).1
  rw [List.length_take] at hk
  rw [getElem?_take_of_lt (by omega)] at he
  refine ⟨he, ?_⟩
  rw [getdents_all n _ hagain, drop_drop]
  rfl

-- A live mount of fatfsd, with the server's states at the requests: in all of them the directory is the same.
structure Mounted (g : Geom) (ino : Nat) (d : Dir) where
  states : Nat → St
  sb : Sb
  opens : ∀ i, (openDir g ino (states i)).1 = .ok d
  alive : ¬ (sb.chan = none ∨ sb.dead = true)

def Mounted.getdents (m : Mounted g ino d) (fault : Nat → Bool) (pos count : Nat) : Option (List Dirent) :=
  ufsGetdents (fatServer g ino UFS_MAX_IO m.states) fault (d.e.length + 3) m.sb pos count

theorem Mounted.getdents_spec (m : Mounted g ino d) (fault : Nat → Bool) (pos count : Nat) :
    ∃ recs, m.getdents fault pos count = some recs ∧
      recs.map Dirent.entry = (deliver (takes fault count) ⟨pos, []⟩ (recsFrom g ino d pos)).2.1.given ∧
      ∀ k r, recs[k]? = some r → ∃ x, r.off = front (recsFrom g ino d) pos k + 1 ∧
        recsFrom g ino d (front (recsFrom g ino d) pos k) = x :: (recsFrom g ino d pos).drop (k + 1) ∧
        (recsFrom g ino d pos)[k]? = some x ∧ x.entry = r.entry := by
  have hd : d.e.length < 2 ^ 63 := dirLoad_length ((openDir_onlyNt ino).2 d (m.opens 0))
  have hans : Answers (recsFrom g ino d) (min UFS_MAX_IO UFS_MAX_IO) (fatServer g ino UFS_MAX_IO m.states) :=
    fatServer_answers m.opens
  rw [Nat.min_self] at hans
  exact ufsGetdents_spec (recsFrom_resumes ino hd) hans fault _ recsFrom_length_le m.alive pos count

-- Reading on from the `d_off` of a record brings what follows the record. On tmpfs it does so always. On a directory of
-- fatfsd it does so exactly if the record's entry is in the slot right behind the record before it: no slot that is
-- free or of a long name has been passed over.
theorem seek_law_iff (n : Node) (m m' : Mounted g ino d) (fault : Nat → Bool) (pos count again : Nat)
    (htmpfs : (n.listing.map reclen).sum ≤ again) (hfat : 280 * (d.e.length + 2) ≤ again) :
    (∀ k r, (sysGetdents64 (tmpfsIterate n fault) pos count).2.2[k]? = some r →
      (n.listing.drop pos)[k]? = some r.entry ∧
      (sysGetdents64 (tmpfsIterate n fun _ => false) r.off again).2.2.map Dirent.entry =
        (n.listing.drop pos).drop (k + 1)) ∧
    ∃ recs, m.getdents fault pos count = some recs ∧ ∀ k r, recs[k]? = some r →
      ((recsFrom g ino d pos)[k]?.map Rec.entry = some r.entry ∧
      ∃ more, m'.getdents (fun _ => false) r.off again = some more ∧
        (more.map Dirent.entry = ((recsFrom g ino d pos).drop (k + 1)).map Rec.entry ↔
          Occupied d (front (recsFrom g ino d) pos k))) := by
  refine ⟨fun k r => tmpfs_seek n fault pos count htmpfs, ?_⟩
  obtain ⟨recs, hrun, -, hrecs⟩ := m.getdents_spec fault pos count
  refine ⟨recs, hrun, fun k r hr => ?_⟩
  obtain ⟨x, hoff, hq, hx, hxe⟩ := hrecs k r hr
  obtain ⟨more, hmore, hall, -⟩ := m'.getdents_spec (fun _ => false) r.off again
  have hlen : (recsFrom g ino d r.off).length < d.e.length + 3 := recsFrom_length_le r.off
  rw [takes_all _ (by omega)] at hall
  refine ⟨by rw [hx, map_some, hxe], more, hmore, ?_⟩
  rw [hall, hoff]
  exact recsFrom_succ_iff hq

def namedMount : Mounted tiny ROOT_INO namedRoot := ⟨fun _ => named, ⟨some 7, 0, false⟩, fun _ => rfl, by decide⟩

-- Behind '..' comes the directory with the long name.
theorem seek_law_iff_named :
    (sysGetdents64 (tmpfsIterate abc fun _ => false) 3 5040).2.2.map Dirent.entry = abc.listing.drop 3 ∧
    ∃ more, namedMount.getdents (fun _ => false) 2 5040 = some more ∧ more.map Dirent.entry = [⟨hiYou, 2, DT_DIR⟩] := by
  obtain ⟨htmpfs, recs, hrecs, hfat⟩ := seek_law_iff abc namedMount namedMount (fun _ => false) 0 72 5040
    (by decide) (by decide +kernel)
  have hread : namedMount.getdents (fun _ => false) 0 72 =
      some [⟨⟨[46], 1, DT_DIR⟩, 1⟩, ⟨⟨[46, 46], 1, DT_DIR⟩, 2⟩] := by decide +kernel
  obtain rfl := some.inj (hrecs.symm.trans hread)
  obtain ⟨more, hmore, hiff⟩ := (hfat 1 ⟨⟨[46, 46], 1, DT_DIR⟩, 2⟩ rfl).2
  refine ⟨(htmpfs 2 ⟨⟨[97], 2, 8⟩, 3⟩ (by decide)).2, more, hmore, (hiff.mpr (.inl (by decide +kernel))).trans ?_⟩
  decide +kernel

theorem seek_repeats_entry :
    ufsGetdents (fatServer wide ROOT_INO UFS_MAX_IO fun _ => tower 1) (fun _ => false) 4 ⟨some 7, 0, false⟩ 0 1000 =
      some [⟨⟨[46], 1, DT_DIR⟩, 1⟩, ⟨⟨[46, 46], 1, DT_DIR⟩, 2⟩, ⟨⟨[65], 2, DT_DIR⟩, 3⟩] ∧
    ufsGetdents (fatServer wide ROOT_INO UFS_MAX_IO fun _ => tower 1) (fun _ => false) 4 ⟨some 7, 0, false⟩ 3 1000 =
      some [⟨⟨[65], 2, DT_DIR⟩, 4⟩] := by
  decide +kernel

end Olux.Getdents
