import Olux.Userfs

namespace Olux.Userfs

open List Option

structure World where
  sb : Option Sb
  -- the inode number of the mounted root
  root : Nat
  -- the server's end of this channel is closed
  closed : Nat → Bool
  -- ghost: the references to each file that this code has taken with `fget` and
  -- not dropped; between two calls no local variable holds one, so these are
  -- the superblock's
  held : Nat → Int
  -- ghost: the files put through `s->chan` although the superblock owned no
  -- reference to them
  stolen : List Nat
  -- ghost: the references left to nobody
  leaked : List Nat

def World.fresh (closed : Nat → Bool) : World :=
  { sb := none, root := 0, closed := closed, held := fun _ => 0, stolen := [], leaked := [] }

variable (w : World)

def World.fget (f : Nat) : World := { w with held := Function.update w.held f (w.held f + 1) }

def World.filePut (f : Nat) : World := { w with held := Function.update w.held f (w.held f - 1) }

def World.leak (f : Nat) : World := { w.filePut f with leaked := f :: w.leaked }

-- `file_put` on what `s->chan` pointed to, while a local variable holds
-- `mine` references of its own to that file.
def World.chanPut (f : Nat) (mine : Int) : World :=
  { w.filePut f with stolen := if w.held f - mine < 1 then f :: w.stolen else w.stolen }

abbrev Greeting := Except Int Nat

-- What an attach request meets. `attach` and `file` are what `parse_fd` and
-- `fget` find, `path` is the result of `kern_path` and `atRoot` says that it
-- led to the root of this superblock.
structure AttachReq where
  attach : Bool
  file : Option Nat
  channel : Bool
  path : Int
  atRoot : Bool
  greeting : Greeting

def verify (g : Greeting) (root : Nat) : Int :=
  match g with
  | .error e => e
  | .ok ino => if ino ≠ root then - ESTALE else 0

def ufsAttach (chan : Nat) (q : AttachReq) : Int × World :=
  if q.path ≠ 0 then (q.path, w)
  else
    match w.sb with
    | none => (- EINVAL, w)
    | some s =>
      if q.atRoot = false then (- EINVAL, w)
      else if s.dead = false ∧ s.chan.any (fun f => !w.closed f) then (- EBUSY, w)
      else
        let r := verify q.greeting w.root
        let w := match s.chan with
          | none => w
          | some old => w.chanPut old (if old = chan then 1 else 0)
        (r, { w with sb := some { s with chan := some chan, dead := decide (r ≠ 0) } })

def userfsTryAttach (q : AttachReq) : Int × World :=
  if q.attach = false then (1, w)
  else
    match q.file with
    | none => (- EBADF, w)
    | some chan =>
      let w := w.fget chan
      if q.channel = false then (- EINVAL, w.filePut chan)
      else
        let (r, w) := ufsAttach w chan q
        if r ≠ 0 then (r, w.filePut chan) else (r, w)

-- What a mount meets; `dir` says whether the root inode could be made and is a
-- directory.
structure MountReq where
  fdOk : Bool
  file : Option Nat
  channel : Bool
  sbAlloc : Bool
  bufAlloc : Bool
  greeting : Greeting
  dir : Bool
  dalloc : Bool

def ufsPutSuper (s : Sb) : World :=
  match s.chan with
  | none => w
  | some f => w.chanPut f 0

-- `ufs_mount` as `do_mount` calls it: an error frees the superblock. The error
-- of `d_alloc` leaves the reference with the private part of the superblock,
-- which nothing points to any more.
def ufsMount (q : MountReq) : Int × World :=
  if q.fdOk = false then (- EINVAL, w)
  else
    match q.file with
    | none => (- EBADF, w)
    | some chan =>
      let w := w.fget chan
      if q.channel = false then (- EINVAL, w.filePut chan)
      else if q.sbAlloc = false then (- ENOMEM, w.filePut chan)
      else if q.bufAlloc = false then (- ENOMEM, w.filePut chan)
      else
        let s : Sb := { chan := some chan, nextId := 0, dead := false }
        match q.greeting with
        | .error e => (e, ufsPutSuper w s)
        | .ok ino =>
          if q.dir = false then (- ENOTDIR, ufsPutSuper w s)
          else if q.dalloc = false then (- ENOMEM, w.leak chan)
          else (0, { w with sb := some s, root := ino })

inductive Event where
  | mount (q : MountReq)
  | attach (q : AttachReq)
  -- the server exits: its end of the channel is closed
  | die (f : Nat)
  -- `ufs_call` gives the server up
  | giveUp
  -- `do_umount` refuses when the mount is busy
  | umount (busy : Bool)

def step : Event → World
  | .mount q => if w.sb = none then (ufsMount w q).2 else w
  | .attach q => (userfsTryAttach w q).2
  | .die f => { w with closed := Function.update w.closed f true }
  | .giveUp => { w with sb := w.sb.map fun s => { s with dead := true } }
  | .umount busy =>
    match w.sb with
    | none => w
    | some s => if busy then w else { ufsPutSuper w s with sb := none }

def run (es : List Event) : World := es.foldl step w

-- The ownership discipline: a channel the superblock points to is owned once,
-- and every `file_put` through the pointer dropped an owned reference.
def Owned : Prop :=
  (∀ s f, w.sb = some s → s.chan = some f → w.held f = 1) ∧ w.stolen = []

def Admits (q : AttachReq) (s : Sb) : Prop :=
  w.sb = some s ∧ q.path = 0 ∧ q.atRoot = true ∧ ¬ (s.dead = false ∧ s.chan.any (fun f => !w.closed f))

def LateFailure : Event → Prop
  | .attach q => q.attach = true ∧ q.file ≠ none ∧ q.channel = true ∧ (∃ s, Admits w q s) ∧ verify q.greeting w.root ≠ 0
  | _ => False

def Exact : Prop :=
  (∀ f, w.held f = if (w.sb.bind (·.chan)) = some f then 1 else 0) ∧ w.stolen = []

variable {w : World}

theorem Exact.owned (h : Exact w) : Owned w := by
  refine ⟨fun s f hs hf => ?_, h.2⟩
  rw [h.1 f, hs, bind_some, if_pos hf]

@[simp] theorem filePut_fget (f : Nat) : (w.fget f).filePut f = w := by
  simp [World.fget, World.filePut]

theorem fget_held (f g : Nat) : (w.fget f).held g = w.held g + if g = f then 1 else 0 := by
  unfold World.fget
  by_cases h : g = f
  · subst h; simp
  · simp [h]

theorem chanPut_held (f g : Nat) (mine : Int) :
    (w.chanPut f mine).held g = w.held g - if g = f then 1 else 0 := by
  unfold World.chanPut World.filePut
  by_cases h : g = f
  · subst h; simp
  · simp [h]

theorem chanPut_stolen {f : Nat} {mine : Int} (h : mine + 1 ≤ w.held f) : (w.chanPut f mine).stolen = w.stolen := by
  unfold World.chanPut
  exact if_neg (by omega)

theorem chanPut_fget (f : Nat) (h : 0 ≤ w.held f) : (w.fget f).chanPut f 0 = w := by
  have hheld : (w.fget f).held f = w.held f + 1 := by rw [fget_held, if_pos rfl]
  unfold World.chanPut
  rw [if_neg (by omega), filePut_fget]
  rfl

theorem ufsMount_exact (q : MountReq) (h : Exact w) (hsb : w.sb = none) : Exact (ufsMount w q).2 := by
  have hzero : ∀ f, w.held f = 0 := fun f => by rw [h.1 f, hsb]; rfl
  have hput : ∀ chan, ufsPutSuper (w.fget chan) { chan := some chan, nextId := 0, dead := false } = w :=
    fun chan => chanPut_fget chan (Int.le_of_eq (hzero chan).symm)
  unfold ufsMount
  split
  · exact h
  split
  · exact h
  rename_i chan _
  dsimp only
  split
  · rw [filePut_fget]; exact h
  split
  · rw [filePut_fget]; exact h
  split
  · rw [filePut_fget]; exact h
  split
  · rw [hput]; exact h
  split
  · rw [hput]; exact h
  split
  · simp only [World.leak, filePut_fget]; exact h
  refine ⟨fun f => ?_, h.2⟩
  show (w.fget chan).held f = if some chan = some f then 1 else 0
  rw [fget_held, hzero]
  simp [eq_comm]

theorem ufsAttach_refused (chan : Nat) {q : AttachReq} (h : ∀ s, ¬ Admits w q s) :
    (ufsAttach w chan q).1 ≠ 0 ∧ (ufsAttach w chan q).2 = w := by
  unfold ufsAttach
  split
  · exact ⟨‹_›, rfl⟩
  rename_i hpath
  split
  · exact ⟨show - EINVAL ≠ 0 by decide, rfl⟩
  rename_i s hsb
  split
  · exact ⟨show - EINVAL ≠ 0 by decide, rfl⟩
  rename_i hroot
  split
  · exact ⟨show - EBUSY ≠ 0 by decide, rfl⟩
  · exact absurd ⟨hsb, not_not.mp hpath, by simpa using hroot, ‹_›⟩ (h s)

theorem ufsAttach_admitted (chan : Nat) {q : AttachReq} {s : Sb} (h : Admits w q s) :
    (ufsAttach w chan q).1 = verify q.greeting w.root ∧
      (ufsAttach w chan q).2.sb = some { s with chan := some chan, dead := decide (verify q.greeting w.root ≠ 0) } ∧
      (∀ f, (ufsAttach w chan q).2.held f = w.held f - if s.chan = some f then 1 else 0) ∧
      ((∀ f, s.chan = some f → (if f = chan then 1 else 0) + 1 ≤ w.held f) →
        (ufsAttach w chan q).2.stolen = w.stolen) := by
  obtain ⟨hsb, hpath, hroot, hbusy⟩ := h
  unfold ufsAttach
  rw [if_neg (not_not.mpr hpath), hsb]
  dsimp only
  rw [if_neg (by simp [hroot]), if_neg hbusy]
  refine ⟨rfl, rfl, fun f => ?_, fun hown => ?_⟩
  · cases hc : s.chan with
    | none => simp
    | some old =>
      show (w.chanPut old (if old = chan then 1 else 0)).held f = _
      rw [chanPut_held]
      simp [eq_comm]
  cases hc : s.chan with
  | none => rfl
  | some old => exact chanPut_stolen (hown old hc)

theorem Exact.held_of_sb {s : Sb} (h : Exact w) (hsb : w.sb = some s) (f : Nat) :
    w.held f = if s.chan = some f then 1 else 0 := by
  rw [h.1 f, hsb, bind_some]

theorem userfsTryAttach_exact (q : AttachReq) (h : Exact w) (hok : ¬ LateFailure w (.attach q)) :
    Exact (userfsTryAttach w q).2 := by
  unfold userfsTryAttach
  split
  · exact h
  rename_i hattach
  split
  · exact h
  rename_i chan hfile
  dsimp only
  split
  · rw [filePut_fget]; exact h
  rename_i hchan
  by_cases had : ∃ s, Admits (w.fget chan) q s
  · obtain ⟨s, had⟩ := had
    have hzero : verify q.greeting w.root = 0 := by
      by_contra hne
      exact hok ⟨by simpa using hattach, by simp [hfile], by simpa using hchan, ⟨s, had⟩, hne⟩
    obtain ⟨hr, hsb, hheld, hstolen⟩ := ufsAttach_admitted chan had
    have hbefore := h.held_of_sb had.1
    rw [if_neg (by rw [hr]; exact not_not.mpr hzero)]
    refine ⟨fun f => ?_, ?_⟩
    · rw [hheld, fget_held, hbefore, hsb, bind_some]
      simp only [Option.some.injEq, eq_comm]
      omega
    rw [hstolen]
    · exact h.2
    · intro f hf
      rw [fget_held, hbefore, if_pos hf]
      omega
  obtain ⟨hr, hw⟩ := ufsAttach_refused chan (not_exists.mp had)
  rw [if_pos hr, hw, filePut_fget]
  exact h

theorem step_exact {e : Event} (h : Exact w) (hok : ¬ LateFailure w e) : Exact (step w e) := by
  cases e with
  | mount q =>
    unfold step
    dsimp only
    split
    · exact ufsMount_exact q h ‹_›
    · exact h
  | attach q => exact userfsTryAttach_exact q h hok
  | die f => exact h
  | giveUp =>
    refine ⟨fun f => ?_, h.2⟩
    show w.held f = _
    rw [h.1 f]
    unfold step
    cases w.sb <;> rfl
  | umount busy =>
  unfold step
  cases hsb : w.sb with
  | none => exact h
  | some s =>
  dsimp only
  split
  · exact h
  have hheld := h.held_of_sb hsb
  unfold ufsPutSuper
  cases hc : s.chan with
  | none =>
    refine ⟨fun f => ?_, h.2⟩
    show w.held f = 0
    rw [hheld, hc, if_neg (by simp)]
  | some old =>
  refine ⟨fun f => ?_, ?_⟩
  · show (w.chanPut old 0).held f = 0
    rw [chanPut_held, hheld, hc]
    simp [eq_comm]
  · show (w.chanPut old 0).stolen = []
    rw [chanPut_stolen (by rw [hheld, hc, if_pos rfl]; omega), h.2]

theorem step_late {e : Event} (h : Exact w) (hlate : LateFailure w e) : ¬ Owned (step w e) := by
  cases e with
  | attach q =>
    obtain ⟨hattach, hfile, hchan, ⟨s, had⟩, hne⟩ := hlate
    obtain ⟨chan, hfile⟩ := ne_none_iff_exists'.mp hfile
    obtain ⟨hr, hsb, hheld, -⟩ := ufsAttach_admitted (w := w.fget chan) chan had
    have hstep : step w (.attach q) = (ufsAttach (w.fget chan) chan q).2.filePut chan := by
      unfold step userfsTryAttach
      dsimp only
      rw [if_neg (by simp [hattach]), hfile]
      dsimp only
      rw [if_neg (by simp [hchan]), if_pos (by rw [hr]; exact hne)]
    rintro ⟨hown, -⟩
    rw [hstep] at hown
    have hone := hown _ chan hsb rfl
    have hcount : ((ufsAttach (w.fget chan) chan q).2.filePut chan).held chan =
        (ufsAttach (w.fget chan) chan q).2.held chan - 1 := by
      simp [World.filePut]
    rw [hcount, hheld, fget_held, h.held_of_sb had.1, if_pos rfl] at hone
    omega
  | mount q => exact hlate.elim
  | die f => exact hlate.elim
  | giveUp => exact hlate.elim
  | umount busy => exact hlate.elim

theorem run_exact (es : List Event) (h : Exact w)
    (hok : ∀ k e, es[k]? = some e → ¬ LateFailure (run w (es.take k)) e) : Exact (run w es) := by
  induction es using List.reverseRecOn with
  | nil => exact h
  | append_singleton es e ih =>
  have hinit : Exact (run w es) := by
    refine ih fun k e' hk => ?_
    have hlt : k < es.length := (List.getElem?_eq_some_iff.mp hk).1
    have hk' := hok k e' (by rw [List.getElem?_append_left hlt, hk])
    rwa [take_append_of_le_length (Nat.le_of_lt hlt)] at hk'
  have hlast := hok es.length e (by simp)
  rw [take_left'] at hlast
  · rw [run, foldl_append]
    exact step_exact hinit hlast
  · rfl

theorem fresh_exact (closed : Nat → Bool) : Exact (World.fresh closed) := ⟨fun _ => rfl, rfl⟩

-- The superblock owns its channel in every state of a run exactly when no
-- attach request of the run fails after the channel has been handed over.
theorem channel_owned_iff (closed : Nat → Bool) (es : List Event) :
    (∀ k ≤ es.length, Owned (run (World.fresh closed) (es.take k))) ↔
      ∀ k e, es[k]? = some e → ¬ LateFailure (run (World.fresh closed) (es.take k)) e := by
  constructor
  · intro hown k
    -- the first late failure would show in the state right after it
    induction k using Nat.strong_induction_on with
    | _ k ih =>
    intro e hk hlate
    have hlt : k < es.length := (List.getElem?_eq_some_iff.mp hk).1
    have hexact : Exact (run (World.fresh closed) (es.take k)) := by
      refine run_exact _ (fresh_exact closed) fun j e' hj => ?_
      rw [getElem?_take] at hj
      split at hj
      · rename_i hjk
        rw [take_take, Nat.min_eq_left (Nat.le_of_lt hjk)]
        exact ih j hjk e' hj
      · cases hj
    refine step_late hexact hlate ?_
    have hnext := hown (k + 1) hlt
    rwa [take_add_one, hk, toList_some, run, foldl_append] at hnext
  intro hok k _
  refine (run_exact _ (fresh_exact closed) fun j e hj => ?_).owned
  rw [getElem?_take] at hj
  split at hj
  · rename_i hjk
    rw [take_take, Nat.min_eq_left (Nat.le_of_lt hjk)]
    exact hok j e hj
  · cases hj

def lostChannel : List Event :=
  [.mount ⟨true, some 1, true, true, true, .ok 1, true, true⟩, .die 1,
    .attach ⟨true, some 2, true, 0, true, .error (-71)⟩, .umount false]

theorem failed_attach_loses_channel :
    (run (World.fresh fun _ => false) (lostChannel.take 3)).sb = some ⟨some 2, 0, true⟩ ∧
      (run (World.fresh fun _ => false) (lostChannel.take 3)).held 2 = 0 ∧
      (run (World.fresh fun _ => false) lostChannel).stolen = [2] ∧
      (run (World.fresh fun _ => false) lostChannel).held 2 = -1 := by
  decide

end Olux.Userfs
