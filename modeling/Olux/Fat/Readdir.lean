import Olux.Fat.Dir.Open
import Olux.Fat.Tree
import Olux.Userfs.Readdir

namespace Olux.Fat

open Olux.Lib Userfs Function List

variable {d : Dir}

def DT_REG : Nat := 8

def cstr (name : List UInt8) : List UInt8 := name.takeWhile (· ≠ 0)

variable (g : Geom)

def recOf (d : Dir) (e : Ent) : Rec :=
  let de := d.e.getD e.idx De.zero
  ⟨inoOf g ⟨d.clus, e.idx⟩ de, 2 + e.idx + 1, if de.isDir then DT_DIR else DT_REG, cstr e.name⟩

def readdirLoop (d : Dir) : Nat → Nat → Fill → Fill
  | 0, _, f => f
  | k + 1, pos, f =>
    match dirNext d pos with
    | none => f
    | some e =>
      match filler f (recOf g d e) with
      | none => f
      | some f => readdirLoop d k (e.idx + 1) f

variable (ino : Nat)

def dotRec : Rec := ⟨ino, 1, DT_DIR, [46]⟩

def dotdotRec (d : Dir) : Rec :=
  let up := d.e.getD 1 De.zero
  ⟨if ino ≠ ROOT_INO ∧ 1 < d.e.length ∧ lead up.name = 46 ∧ valid g (deStart g up) then deStart g up else ROOT_INO,
    2, DT_DIR, [46, 46]⟩

def readdirOf (d : Dir) (cookie : Nat) (f : Fill) : Fill :=
  match if cookie = 0 then filler f (dotRec ino) else some f with
  | none => f
  | some f =>
    if cookie ≤ 1 then
      match filler f (dotdotRec g ino d) with
      | none => f
      | some f => readdirLoop g d (d.e.length + 1) 0 f
    else readdirLoop g d (d.e.length + 1) (if cookie - 2 > d.e.length then d.e.length else cookie - 2) f

def opReaddir (ino cookie : Nat) (f : Fill) : Prog St Int Fill := do
  let d ← openDir g ino
  pure (readdirOf g ino d cookie f)

def entriesFrom (d : Dir) : Nat → Nat → List Ent
  | 0, _ => []
  | k + 1, pos =>
    match dirNext d pos with
    | none => []
    | some e => e :: entriesFrom d k (e.idx + 1)

def entries (d : Dir) (pos : Nat) : List Ent := entriesFrom d (d.e.length + 1) pos

def liveFrom : List De → Nat → List Nat
  | [], _ => []
  | e :: es, i =>
    if lead e.name = 0 then [] else if live e then i :: liveFrom es (i + 1) else liveFrom es (i + 1)

def recsFrom (d : Dir) (cookie : Nat) : List Rec :=
  if cookie = 0 then dotRec ino :: dotdotRec g ino d :: (entries d 0).map (recOf g d)
  else if cookie = 1 then dotdotRec g ino d :: (entries d 0).map (recOf g d)
  else (entries d (if cookie - 2 > d.e.length then d.e.length else cookie - 2)).map (recOf g d)

variable {g}

theorem dirNextFrom_live (es : List De) (i : Nat) (l : Lfn) :
    match dirNextFrom es i l with
    | none => liveFrom es i = []
    | some e => i ≤ e.idx ∧ e.idx < i + es.length ∧
        liveFrom es i = e.idx :: liveFrom (es.drop (e.idx + 1 - i)) (e.idx + 1) := by
  induction es generalizing i l with
  | nil => rfl
  | cons e es ih =>
  -- a slot that is passed over is one less for the rest
  have hskip : ∀ l', live e = false → lead e.name ≠ 0 → match dirNextFrom es (i + 1) l' with
      | none => liveFrom (e :: es) i = []
      | some x => i ≤ x.idx ∧ x.idx < i + (e :: es).length ∧
          liveFrom (e :: es) i = x.idx :: liveFrom ((e :: es).drop (x.idx + 1 - i)) (x.idx + 1) := by
    intro l' hl hz
    have h := ih (i + 1) l'
    have hstep : liveFrom (e :: es) i = liveFrom es (i + 1) := by
      rw [liveFrom, if_neg hz, if_neg (by simp [hl])]
    rw [hstep]
    split
    · rename_i hnone
      rw [hnone] at h
      exact h
    rename_i x hx
    rw [hx] at h
    obtain ⟨h1, h2, h3⟩ := h
    refine ⟨by omega, by rw [length_cons]; omega, ?_⟩
    rw [h3, show x.idx + 1 - i = (x.idx + 1 - (i + 1)) + 1 by omega, drop_succ_cons]
  have hhere : ∀ (x : Ent), x.idx = i → live e = true → lead e.name ≠ 0 → i ≤ x.idx ∧ x.idx < i + (e :: es).length ∧
      liveFrom (e :: es) i = x.idx :: liveFrom ((e :: es).drop (x.idx + 1 - i)) (x.idx + 1) := by
    intro x hx hl hz
    refine ⟨by omega, by rw [length_cons]; omega, ?_⟩
    rw [liveFrom, if_neg hz, if_pos hl, hx, show i + 1 - i = 1 by omega]
    rfl
  rw [dirNextFrom]
  by_cases hz : lead e.name = 0
  · rw [if_pos hz]
    rw [liveFrom, if_pos hz]
  rw [if_neg hz]
  by_cases hdel : lead e.name = 0xE5
  · rw [if_pos hdel]
    exact hskip _ (by simp [live, hdel]) hz
  rw [if_neg hdel]
  by_cases hlfn : e.attr = A_LFN
  · rw [if_pos hlfn]
    exact hskip _ (by simp [live, hlfn]) hz
  rw [if_neg hlfn]
  cases hl : live e with
  | false =>
    rw [if_pos (show (!false) = true from rfl)]
    exact hskip _ hl hz
  | true =>
  rw [if_neg (by simp)]
  split
  · rename_i h
    split at h
    · cases h
    · cases h
  rename_i x hx
  split at hx
  · cases hx
    exact hhere _ rfl hl hz
  · cases hx
    exact hhere _ rfl hl hz

theorem dirNext_some {pos : Nat} {e : Ent} (h : dirNext d pos = some e) : pos ≤ e.idx ∧ e.idx < d.e.length ∧
      liveFrom (d.e.drop pos) pos = e.idx :: liveFrom (d.e.drop (e.idx + 1)) (e.idx + 1) := by
  have hlive := dirNextFrom_live (d.e.drop pos) pos ⟨fun _ => 0, 0, 0, 0, 0⟩
  unfold dirNext at h
  rw [h] at hlive
  obtain ⟨h1, h2, h3⟩ := hlive
  rw [length_drop] at h2
  refine ⟨h1, by omega, ?_⟩
  rw [h3, drop_drop, show pos + (e.idx + 1 - pos) = e.idx + 1 by omega]

theorem dirNext_none {pos : Nat} (h : dirNext d pos = none) : liveFrom (d.e.drop pos) pos = [] := by
  have hlive := dirNextFrom_live (d.e.drop pos) pos ⟨fun _ => 0, 0, 0, 0, 0⟩
  unfold dirNext at h
  rwa [h] at hlive

theorem entriesFrom_fuel (k k' pos : Nat) (h : d.e.length - pos < k) (h' : d.e.length - pos < k') :
    entriesFrom d k pos = entriesFrom d k' pos := by
  induction k generalizing k' pos with
  | zero => omega
  | succ k ih =>
  cases k' with
  | zero => omega
  | succ k' =>
  unfold entriesFrom
  cases hn : dirNext d pos with
  | none => rfl
  | some e =>
    obtain ⟨h1, h2, -⟩ := dirNext_some hn
    exact congrArg (e :: ·) (ih k' (e.idx + 1) (by omega) (by omega))

theorem entries_step (d : Dir) (pos : Nat) : entries d pos = match dirNext d pos with
    | none => []
    | some e => e :: entries d (e.idx + 1) := by
  unfold entries
  rw [entriesFrom]
  cases hn : dirNext d pos with
  | none => rfl
  | some e =>
    obtain ⟨h1, h2, -⟩ := dirNext_some hn
    exact congrArg (e :: ·) (entriesFrom_fuel _ _ _ (by omega) (by omega))

theorem entries_idx (d : Dir) (pos : Nat) : (entries d pos).map (·.idx) = liveFrom (d.e.drop pos) pos := by
  unfold entries
  generalize hk : d.e.length + 1 = k
  have hlt : d.e.length - pos < k := by omega
  clear hk
  induction k generalizing pos with
  | zero => omega
  | succ k ih =>
  unfold entriesFrom
  cases hn : dirNext d pos with
  | none => exact (dirNext_none hn).symm
  | some e =>
    obtain ⟨h1, h2, h3⟩ := dirNext_some hn
    rw [h3]
    exact congrArg (e.idx :: ·) (ih (e.idx + 1) (by omega))

theorem entries_idx_lt {pos : Nat} {e : Ent} {es : List Ent} (h : entries d pos = e :: es) :
    e.idx < d.e.length ∧ es = entries d (e.idx + 1) := by
  rw [entries_step] at h
  cases hn : dirNext d pos with
  | none => rw [hn] at h; cases h
  | some x =>
    rw [hn] at h
    obtain ⟨rfl, rfl⟩ := List.cons.inj h
    exact ⟨(dirNext_some hn).2.1, rfl⟩

theorem readdirLoop_eq (d : Dir) (k pos : Nat) (f : Fill) :
    readdirLoop g d k pos f = fillAll f ((entriesFrom d k pos).map (recOf g d)) := by
  induction k generalizing pos f with
  | zero => rfl
  | succ k ih =>
  unfold readdirLoop entriesFrom
  cases dirNext d pos with
  | none => rfl
  | some e =>
    simp only [map_cons, fillAll]
    cases filler f (recOf g d e) with
    | none => rfl
    | some f => exact ih _ _

theorem readdirOf_eq (d : Dir) (cookie : Nat) (f : Fill) :
    readdirOf g ino d cookie f = fillAll f (recsFrom g ino d cookie) := by
  unfold readdirOf recsFrom entries
  simp only [readdirLoop_eq]
  by_cases h0 : cookie = 0
  · subst h0
    rfl
  by_cases h1 : cookie = 1
  · subst h1
    rfl
  · simp only [h0, h1, if_false, show ¬ cookie ≤ 1 by omega]

theorem recsFrom_resumes (hd : d.e.length < 2 ^ 63) : Resumes (recsFrom g ino d) := by
  have hstep : ∀ pos r rs, (entries d pos).map (recOf g d) = r :: rs → recsFrom g ino d (r.next % 2 ^ 64) = rs := by
    intro pos r rs h
    obtain ⟨e, es, hes, rfl, rfl⟩ := map_eq_cons_iff.mp h
    obtain ⟨hlt, hrest⟩ := entries_idx_lt hes
    have hnext : (recOf g d e).next % 2 ^ 64 = e.idx + 3 := by
      show (2 + e.idx + 1) % 2 ^ 64 = e.idx + 3
      omega
    rw [hnext, recsFrom, if_neg (by omega), if_neg (by omega), if_neg (by omega), hrest]
    rfl
  intro c r rs h
  unfold recsFrom at h
  by_cases h0 : c = 0
  · rw [if_pos h0] at h
    obtain ⟨rfl, rfl⟩ := List.cons.inj h
    rfl
  rw [if_neg h0] at h
  by_cases h1 : c = 1
  · rw [if_pos h1] at h
    obtain ⟨rfl, rfl⟩ := List.cons.inj h
    rw [recsFrom, if_neg (by simp [dotdotRec]), if_neg (by simp [dotdotRec])]
    simp [dotdotRec]
  · rw [if_neg h1] at h
    exact hstep _ r rs h

theorem dirLoad_length {c : Nat} {s : St} (h : dirLoad g c s = .ok d) : d.e.length < 2 ^ 63 := by
  have hslots : ∀ p o n, (slotsAt p o n).length = n := fun p o n => by simp [slotsAt]
  have hchain : ∀ k c, (clustersFrom g s k c).length ≤ k := by
    intro k
    induction k with
    | zero => exact fun _ => Nat.le_refl 0
    | succ k ih =>
    intro c
    unfold clustersFrom
    split
    · exact Nat.succ_le_succ (ih _)
    · exact Nat.zero_le _
  unfold dirLoad at h
  split at h
  · split at h
    · cases h
    · cases h
      rw [hslots]
      have := g.rootEnts_lt
      omega
  split at h
  · cases h
  cases h
  rw [length_flatMap, map_congr_left fun c _ => hslots _ _ (per g), map_const', sum_replicate_nat]
  have hper : per g ≤ 2 ^ 16 := by
    obtain ⟨k, h1, h2, h3⟩ := g.cs_pow
    have := Nat.pow_le_pow_right (show 0 < 2 by omega) h2
    unfold per
    omega
  have hmax : maxClus g ≤ 2 ^ 17 := by
    unfold maxClus MAX_DIR_ENTRIES
    exact (Nat.div_le_self _ _).trans (by omega)
  calc (clustersFrom g s (maxClus g) c).length * per g ≤ 2 ^ 17 * 2 ^ 16 :=
        Nat.mul_le_mul ((hchain _ _).trans hmax) hper
    _ < 2 ^ 63 := by decide

-- The calls of `ufs_iterate` on a file whose server answers from the states `states n`.
def fatServer (g : Geom) (ino len : Nat) (states : Nat → St) : Userfs.Server := fun n id cookie =>
  { sent := 0
    alloc := true
    recv := fun _ => .msg (handleReaddir len id fun f =>
      match (opReaddir g ino cookie f (states n)).1 with
      | .ok f => (0, f)
      | .error e => (e, f)) }

theorem fatServer_answers {ino len : Nat} {states : Nat → St} (hd : ∀ n, (openDir g ino (states n)).1 = .ok d) :
    Answers (recsFrom g ino d) (min len UFS_MAX_IO) (fatServer g ino len states) := by
  intro n id off
  refine ⟨rfl, rfl, ?_⟩
  have hop : ∀ f, (opReaddir g ino off f (states n)).1 = .ok (fillAll f (recsFrom g ino d off)) := by
    intro f
    have h := hd n
    generalize ho : openDir g ino (states n) = r at h
    obtain ⟨r, t⟩ := r
    subst h
    unfold opReaddir
    rw [Prog.bind_ok ho, readdirOf_eq]
    rfl
  unfold fatServer handleReaddir
  simp only [hop, fillAll_eq, ne_eq, not_true_eq_false, if_false, nil_append, length_nil]

def listing (g : Geom) (ino : Nat) (d : Dir) : List Entry :=
  (dotRec ino :: dotdotRec g ino d :: (entries d 0).map (recOf g d)).map Rec.entry

-- A directory that stays as it is, read with any readers and from whatever states the server is in.
theorem readdir_complete (g : Geom) (ino len : Nat) (d : Dir)
    (hname : ∀ e ∈ entries d 0, (cstr e.name).length ≤ UFS_NAME_MAX)
    (hfit : ∀ r ∈ recsFrom g ino d 0, r.size ≤ min len UFS_MAX_IO)
    (readers : List (Actor × (Nat → St))) (hopen : ∀ r ∈ readers, ∀ n, (openDir g ino (r.2 n)).1 = .ok d)
    (sb : Sb) (hsb : ¬ (sb.chan = none ∨ sb.dead = true)) :
    let calls := readers.map fun r => (r.1, fatServer g ino len r.2)
    -- the entries are the live slots, each once and under its name
    (entries d 0).map (·.idx) = liveFrom d.e 0 ∧
    listing g ino d = ⟨[46], ino % 2 ^ 64, DT_DIR⟩ :: ⟨[46, 46], (dotdotRec g ino d).ino % 2 ^ 64, DT_DIR⟩ ::
      (entries d 0).map (fun e => ⟨cstr e.name, (recOf g d e).ino % 2 ^ 64, (recOf g d e).type⟩) ∧
    ∃ given sb' pos, readCalls ((recsFrom g ino d 0).length + 1) calls sb 0 = some (given, sb', pos) ∧
      -- every call brings what its reader takes of the rest
      SharedOut calls (recsFrom g ino d 0) given (recsFrom g ino d pos) ∧
      given.flatten ++ (recsFrom g ino d pos).map Rec.entry = listing g ino d ∧
      -- and readers that take one entry at least get to the end
      ((∀ r ∈ readers, ∀ e, r.1 [] e = true) → (listing g ino d).length < readers.length →
        given.flatten = listing g ino d ∧ given.getLast? = some []) := by
  intro calls
  refine ⟨entries_idx d 0, ?_, ?_⟩
  · unfold listing
    rw [map_cons, map_cons, map_map]
    refine congrArg (_ :: ·) (congrArg (_ :: ·) (map_congr_left fun e he => ?_))
    have hshown : (recOf g d e).shown = cstr e.name := take_of_length_le (hname e he)
    have htype : (recOf g d e).type % 2 ^ 8 = (recOf g d e).type := by
      unfold recOf
      dsimp only
      split
      · rfl
      · rfl
    rw [comp_apply, Rec.entry, hshown, htype]
  have hlist : (recsFrom g ino d 0).map Rec.entry = listing g ino d := rfl
  cases readers with
  | nil =>
    refine ⟨[], sb, 0, rfl, rfl, hlist, fun _ h => absurd h (Nat.not_lt_zero _)⟩
  | cons r readers =>
  have hd : d.e.length < 2 ^ 63 := by
    have h := (openDir_onlyNt (g := g) (s := r.2 0) ino).2 d (hopen r mem_cons_self 0)
    exact dirLoad_length h
  have hsrv : ∀ c ∈ calls, Answers (recsFrom g ino d) (min len UFS_MAX_IO) c.2 := by
    intro c hc
    obtain ⟨x, hx, rfl⟩ := mem_map.mp hc
    exact fatServer_answers (hopen x hx)
  obtain ⟨given, sb', pos, hrun, hshared⟩ := readCalls_shared (recsFrom_resumes ino hd) (Nat.min_le_right _ _) calls
    hsrv _ hsb 0 hfit (Nat.lt_succ_self _)
  have hflat := hshared.flatten
  rw [hlist] at hflat
  refine ⟨given, sb', pos, hrun, hshared, hflat, fun hfirst hlen => ?_⟩
  have hcalls : ∀ c ∈ calls, ∀ e, c.1 [] e = true := by
    intro c hc
    obtain ⟨x, hx, rfl⟩ := mem_map.mp hc
    exact hfirst x hx
  obtain ⟨hrest, hlast⟩ := hshared.ends hcalls (by
    rw [← hlist, length_map] at hlen
    rwa [length_map])
  rw [hrest, map_nil, append_nil] at hflat
  exact ⟨hflat, hlast⟩

-- The root of an empty volume with one more directory, of a long name.
def hiYou : List UInt8 := [72, 105, 32, 121, 111, 117]

def named : St := (opMkdir tiny ROOT_INO hiYou blank).2

def namedRoot : Dir := ⟨0, slotsAt named.dev tiny.rootOff 16, []⟩

theorem readdir_complete_named : (entries namedRoot 0).map (fun e => (e.first, e.idx, e.name)) = [(0, 1, hiYou)] ∧
    ∃ given sb' pos, readCalls 4 ((List.replicate 4 (fun given _ => given.isEmpty, fun _ => named)).map fun r =>
      (r.1, fatServer tiny ROOT_INO 64 r.2)) ⟨some 7, 0, false⟩ 0 = some (given, sb', pos) ∧
    given.flatten = listing tiny ROOT_INO namedRoot ∧ given.getLast? = some [] := by
  have hdir : (openDir tiny ROOT_INO named).1 = .ok namedRoot := by rfl
  obtain ⟨-, -, given, sb', pos, hrun, -, -, hend⟩ := readdir_complete tiny ROOT_INO 64 namedRoot
    (by decide +kernel) (by decide +kernel) (List.replicate 4 (fun given _ => given.isEmpty, fun _ => named))
    (fun r hr n => by obtain rfl := eq_of_mem_replicate hr; exact hdir) ⟨some 7, 0, false⟩ (by decide)
  have hlen : (listing tiny ROOT_INO namedRoot).length = 3 := by decide +kernel
  have hrecs : (recsFrom tiny ROOT_INO namedRoot 0).length = 3 := by decide +kernel
  rw [hrecs] at hrun
  exact ⟨by decide +kernel, given, sb', pos, hrun, hend (fun r hr e => by obtain rfl := eq_of_mem_replicate hr; rfl)
    (by rw [hlen]; decide)⟩

end Olux.Fat
