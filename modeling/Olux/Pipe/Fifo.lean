import Olux.Basic

namespace Olux.Pipefs.Fifo

open Function List Option

structure Mode where
  read : Bool
  write : Bool
deriving DecidableEq

variable (m : Mode)

def Mode.readers : Int := if m.read then 1 else 0

def Mode.writers : Int := if m.write then 1 else 0

structure Counts where
  readers : Int
  writers : Int
  wCounter : Int
deriving DecidableEq

-- What a sleeping opener waits for: a writer, with the `w_counter` it has seen, or a reader.
inductive Wait where
  | writer (c : Int)
  | reader
deriving DecidableEq

structure Opener where
  mode : Mode
  nonblock : Bool
  pipe : Nat
  wait : Wait
deriving DecidableEq

-- One FIFO inode: the pipe objects that are allocated, `inode->pipe`, the open files and the
-- sleeping opens. `oops` is set where the code would use a pipe that is gone.
structure Inode where
  pipes : Nat → Option Counts
  next : Nat
  pipe : Option Nat
  files : List Mode
  openers : List Opener
  oops : Bool

def fresh : Inode := ⟨fun _ => none, 0, none, [], [], false⟩

def pipeRelease (i : Inode) : Inode :=
  match i.pipe with
  | none => { i with oops := true }
  | some a =>
    match i.pipes a with
    | none => { i with oops := true }
    | some p =>
      let p := { p with readers := p.readers - m.readers, writers := p.writers - m.writers }
      if p.readers = 0 ∧ p.writers = 0 then { i with pipe := none, pipes := Function.update i.pipes a none }
      else { i with pipes := Function.update i.pipes a (some p) }

inductive Out where
  | ret (r : Int)
  | wait (w : Wait)

variable (nonblock : Bool)

def openWrite (p : Counts) : Counts × Out :=
  if m.write then
    if ¬ m.read ∧ nonblock ∧ p.readers = 0 then (p, .ret (- ENXIO))
    else
      let p := { p with writers := p.writers + 1, wCounter := p.wCounter + 1 }
      if ¬ m.read ∧ p.readers = 0 then (p, .wait .reader) else (p, .ret 0)
  else (p, .ret 0)

def fifoOpen (p : Counts) : Counts × Out :=
  if m.read then
    let p := { p with readers := p.readers + 1 }
    if ¬ m.write ∧ ¬ nonblock ∧ p.writers = 0 then (p, .wait (.writer p.wCounter)) else openWrite m nonblock p
  else openWrite m nonblock p

def wakeUp (o : Opener) (signal : Bool) (p : Counts) : Counts × Out :=
  match o.wait with
  | .writer c =>
    if p.writers ≠ 0 ∨ p.wCounter ≠ c then openWrite o.mode o.nonblock p
    else if signal then ({ p with readers := p.readers - 1 }, .ret (- ERESTARTSYS))
    else (p, .wait (.writer c))
  | .reader =>
    if p.readers > 0 then (p, .ret 0)
    else if signal then ({ p with writers := p.writers - 1 }, .ret (- ERESTARTSYS))
    else (p, .wait .reader)

-- `open_path` behind `fifo_open`: on an error `file_put` releases the file, which has the
-- operations of a pipe by then.
def openPath (a : Nat) (i : Inode) : Counts × Out → Inode × Int
  | (p, .wait w) =>
    ({ i with pipes := Function.update i.pipes a (some p), openers := i.openers ++ [⟨m, nonblock, a, w⟩] }, 0)
  | (p, .ret r) =>
    let i := { i with pipes := Function.update i.pipes a (some p) }
    if r ≠ 0 then (pipeRelease m i, r) else ({ i with files := i.files ++ [m] }, 0)

-- An open that starts (`alloc`: whether there is memory for a pipe), a sleeping one that is
-- woken up or gets a signal, or the last reference to an open file that is dropped.
inductive Event where
  | open (m : Mode) (nonblock alloc : Bool)
  | wake (k : Nat) (signal : Bool)
  | close (k : Nat)

def step (i : Inode) : Event → Inode × Int
  | .open m nonblock alloc =>
    match i.pipe with
    | some a =>
      match i.pipes a with
      | some p => openPath m nonblock a i (fifoOpen m nonblock p)
      | none => ({ i with oops := true }, 0)
    | none =>
      if alloc then
        openPath m nonblock i.next { i with next := i.next + 1, pipe := some i.next } (fifoOpen m nonblock ⟨0, 0, 0⟩)
      else (i, - ENOMEM)
  | .wake k signal =>
    match i.openers[k]? with
    | some o =>
      match i.pipes o.pipe with
      | some p =>
        openPath o.mode o.nonblock o.pipe { i with openers := i.openers.eraseIdx k } (wakeUp o signal p)
      | none => ({ i with oops := true }, 0)
    | none => (i, 0)
  | .close k =>
    match i.files[k]? with
    | some m => (pipeRelease m { i with files := i.files.eraseIdx k }, 0)
    | none => (i, 0)

def run (i : Inode) (evs : List Event) : Inode := evs.foldl (fun i ev => (step i ev).1) i

def Inode.users (i : Inode) : List Mode := i.files ++ i.openers.map Opener.mode

def readers (ms : List Mode) : Int := (ms.map Mode.readers).sum

def writers (ms : List Mode) : Int := (ms.map Mode.writers).sum

structure Good (i : Inode) : Prop where
  sound : i.oops = false
  counts : i.openers = [] → ∀ a, i.pipe = some a →
    ∃ p, i.pipes a = some p ∧ p.readers = readers i.files ∧ p.writers = writers i.files
  only : ∀ a p, i.pipes a = some p → i.pipe = some a ∧ ¬ (p.readers = 0 ∧ p.writers = 0)
  used : i.pipe = none ↔ i.files = [] ∧ i.openers = []
  held : ∀ o ∈ i.openers, i.pipe = some o.pipe

def Wait.Fits : Wait → Mode → Prop
  | .writer _, m => m = ⟨true, false⟩
  | .reader, m => m = ⟨false, true⟩

structure Counted (i : Inode) : Prop where
  sound : i.oops = false
  bound : ∀ a p, i.pipes a = some p → a < i.next
  only : ∀ a p, i.pipes a = some p → i.pipe = some a
  counts : ∀ a, i.pipe = some a →
    ∃ p, i.pipes a = some p ∧ p.readers = readers i.users ∧ p.writers = writers i.users
  used : i.pipe = none ↔ i.users = []
  moded : ∀ m ∈ i.users, m.read = true ∨ m.write = true
  held : ∀ o ∈ i.openers, i.pipe = some o.pipe ∧ o.wait.Fits o.mode

variable {ms : List Mode}

theorem readers_perm {ms' : List Mode} (h : ms.Perm ms') : readers ms = readers ms' := (h.map _).sum_eq

theorem writers_perm {ms' : List Mode} (h : ms.Perm ms') : writers ms = writers ms' := (h.map _).sum_eq

theorem readers_cons (ms : List Mode) : readers (m :: ms) = m.readers + readers ms := by
  simp [readers]

theorem writers_cons (ms : List Mode) : writers (m :: ms) = m.writers + writers ms := by
  simp [writers]

theorem counts_pos (h : ∀ m ∈ ms, m.read = true ∨ m.write = true) :
    0 ≤ readers ms ∧ 0 ≤ writers ms ∧ (readers ms = 0 ∧ writers ms = 0 ↔ ms = []) := by
  induction ms with
  | nil => exact ⟨Int.le_refl 0, Int.le_refl 0, iff_of_true ⟨rfl, rfl⟩ rfl⟩
  | cons m ms ih =>
  obtain ⟨hr, hw, -⟩ := ih fun m' hm' => h m' (mem_cons_of_mem _ hm')
  have hm := h m mem_cons_self
  rw [readers_cons, writers_cons]
  have h1 : 0 ≤ m.readers ∧ 0 ≤ m.writers ∧ 0 < m.readers + m.writers := by
    unfold Mode.readers Mode.writers
    rcases m with ⟨_ | _, _ | _⟩ <;> simp at hm ⊢
  refine ⟨by omega, by omega, iff_of_false (by omega) (cons_ne_nil _ _)⟩

variable {i : Inode}

theorem Counted.good (h : Counted i) : Good i where
  sound := h.sound
  counts := by
    intro hnone a ha
    have husers : i.users = i.files := by simp [Inode.users, hnone]
    rw [← husers]
    exact h.counts a ha
  only := by
    intro a p hp
    have ha := h.only a p hp
    obtain ⟨p', hp', hr, hw⟩ := h.counts a ha
    obtain rfl := some.inj (hp.symm.trans hp')
    refine ⟨ha, fun hz => ?_⟩
    have hnil := (counts_pos h.moded).2.2.mp (by omega)
    rw [h.used.mpr hnil] at ha
    cases ha
  used := by
    rw [h.used, Inode.users, append_eq_nil_iff, map_eq_nil_iff]
  held := fun o ho => (h.held o ho).1

theorem openWrite_spec (p : Counts) (hx : m = ⟨false, true⟩ → nonblock = true → p.readers ≠ 0) :
    (openWrite m nonblock p).1.readers = p.readers ∧ (openWrite m nonblock p).1.writers = p.writers + m.writers ∧
      ((openWrite m nonblock p).2 = .ret 0 ∨ ∃ w, (openWrite m nonblock p).2 = .wait w ∧ w.Fits m) := by
  obtain ⟨read, write⟩ := m
  cases write with
  | false => exact ⟨rfl, (Int.add_zero _).symm, .inl rfl⟩
  | true =>
  unfold openWrite
  rw [if_pos rfl, if_neg]
  · dsimp only
    split
    · rename_i hs
      obtain rfl : read = false := by simpa using hs.1
      exact ⟨rfl, rfl, .inr ⟨.reader, rfl, rfl⟩⟩
    · exact ⟨rfl, rfl, .inl rfl⟩
  rintro ⟨hread, hnon, hzero⟩
  obtain rfl : read = false := by simpa using hread
  exact hx rfl hnon hzero

theorem fifoOpen_spec (p : Counts) (hx : m = ⟨false, true⟩ → nonblock = true → p.readers ≠ 0) :
    (fifoOpen m nonblock p).1.readers = p.readers + m.readers ∧
      (fifoOpen m nonblock p).1.writers = p.writers + m.writers ∧
      ((fifoOpen m nonblock p).2 = .ret 0 ∨ ∃ w, (fifoOpen m nonblock p).2 = .wait w ∧ w.Fits m) := by
  obtain ⟨read, write⟩ := m
  unfold fifoOpen
  cases read with
  | false => simpa [Mode.readers] using openWrite_spec ⟨false, write⟩ nonblock p hx
  | true =>
  rw [if_pos rfl]
  dsimp only
  split
  · rename_i hs
    have hwrite : write = false := by simpa using hs.1
    subst hwrite
    exact ⟨rfl, (Int.add_zero _).symm, .inr ⟨_, rfl, rfl⟩⟩
  · exact openWrite_spec ⟨true, write⟩ nonblock { p with readers := p.readers + 1 } (fun h => by cases h)

-- The other end of a sleeping open is there, or a writer has been since it went to sleep.
def Opener.answered (o : Opener) (p : Counts) : Prop :=
  match o.wait with
  | .writer c => p.writers ≠ 0 ∨ p.wCounter ≠ c
  | .reader => p.readers > 0

theorem wakeUp_spec {o : Opener} (ho : o.wait.Fits o.mode) {signal : Bool} {p : Counts}
    (hs : signal = true → o.answered p) :
    (wakeUp o signal p).1.readers = p.readers ∧ (wakeUp o signal p).1.writers = p.writers ∧
      ((wakeUp o signal p).2 = .ret 0 ∨ ∃ w, (wakeUp o signal p).2 = .wait w ∧ w.Fits o.mode) := by
  obtain ⟨m, nonblock, a, w⟩ := o
  unfold wakeUp
  cases w with
  | writer c =>
    obtain rfl : m = ⟨true, false⟩ := ho
    dsimp only
    split
    · exact ⟨rfl, rfl, .inl rfl⟩
    rename_i hnone
    rw [if_neg fun hsig => hnone (hs hsig)]
    exact ⟨rfl, rfl, .inr ⟨_, rfl, rfl⟩⟩
  | reader =>
  obtain rfl : m = ⟨false, true⟩ := ho
  dsimp only
  split
  · exact ⟨rfl, rfl, .inl rfl⟩
  rename_i hnone
  rw [if_neg fun hsig => hnone (hs hsig)]
  exact ⟨rfl, rfl, .inr ⟨_, rfl, rfl⟩⟩

structure Awaiting (i : Inode) (a : Nat) (m : Mode) (p : Counts) : Prop where
  sound : i.oops = false
  bound : a < i.next ∧ ∀ b q, i.pipes b = some q → b = a
  pipe : i.pipe = some a
  counts : p.readers = readers i.users + m.readers ∧ p.writers = writers i.users + m.writers
  moded : ∀ m' ∈ m :: i.users, m'.read = true ∨ m'.write = true
  held : ∀ o ∈ i.openers, i.pipe = some o.pipe ∧ o.wait.Fits o.mode

variable {m : Mode}

theorem Awaiting.counted {i' : Inode} {a : Nat} {p : Counts} (h : Awaiting i a m p)
    (hpipes : i'.pipes = Function.update i.pipes a (some p)) (hpipe : i'.pipe = i.pipe) (hnext : i'.next = i.next)
    (hoops : i'.oops = i.oops) (husers : i'.users.Perm (m :: i.users))
    (hheld : ∀ o ∈ i'.openers, i'.pipe = some o.pipe ∧ o.wait.Fits o.mode) : Counted i' where
  sound := hoops.trans h.sound
  bound := by
    intro b q hb
    rw [hpipes, update_apply] at hb
    have hab : b = a := by
      split at hb
      · assumption
      · exact h.bound.2 b q hb
    rw [hab, hnext]
    exact h.bound.1
  only := by
    intro b q hb
    rw [hpipes, update_apply] at hb
    have hab : b = a := by
      split at hb
      · assumption
      · exact h.bound.2 b q hb
    rw [hpipe, hab, h.pipe]
  counts := by
    intro b hb
    rw [hpipe, h.pipe] at hb
    obtain rfl := some.inj hb
    refine ⟨p, by rw [hpipes, update_self], ?_, ?_⟩
    · rw [readers_perm husers, readers_cons, h.counts.1, Int.add_comm]
    · rw [writers_perm husers, writers_cons, h.counts.2, Int.add_comm]
  used := by
    rw [hpipe, h.pipe]
    refine iff_of_false (by simp) fun hnil => ?_
    rw [hnil] at husers
    cases husers.symm.eq_nil
  moded := fun m' hm' => h.moded m' (husers.mem_iff.mp hm')
  held := hheld

theorem openPath_counted {a : Nat} (nonblock : Bool) {o : Counts × Out} (h : Awaiting i a m o.1)
    (ho : o.2 = .ret 0 ∨ ∃ w, o.2 = .wait w ∧ w.Fits m) : Counted (openPath m nonblock a i o).1 := by
  obtain ⟨p, out⟩ := o
  rcases ho with rfl | ⟨w, rfl, hw⟩
  · refine h.counted rfl rfl rfl rfl ?_ h.held
    show (i.files ++ [m] ++ i.openers.map Opener.mode).Perm (m :: (i.files ++ i.openers.map Opener.mode))
    rw [append_assoc]
    exact perm_middle
  refine h.counted rfl rfl rfl rfl ?_ fun o' ho' => ?_
  · show (i.files ++ (i.openers ++ [Opener.mk m nonblock a w]).map Opener.mode).Perm
      (m :: (i.files ++ i.openers.map Opener.mode))
    rw [map_append, ← append_assoc]
    exact perm_append_singleton _ _
  rcases mem_append.mp ho' with hold | hnew
  · exact h.held o' hold
  · obtain rfl := mem_singleton.mp hnew
    exact ⟨h.pipe, hw⟩

theorem Counted.one (h : Counted i) {a b : Nat} {q : Counts} (hpipe : i.pipe = some a)
    (hb : i.pipes b = some q) : b = a :=
  some.inj ((h.only b q hb).symm.trans hpipe)

theorem close_counted (h : Counted i) {k : Nat} (hk : i.files[k]? = some m) :
    Counted (pipeRelease m { i with files := i.files.eraseIdx k }) := by
  obtain ⟨hlt, rfl⟩ := List.getElem?_eq_some_iff.mp hk
  have hperm : i.users.Perm (i.files[k] :: { i with files := i.files.eraseIdx k }.users) :=
    ((getElem_cons_eraseIdx_perm hlt).symm.append_right _)
  have hmoded : ∀ m ∈ { i with files := i.files.eraseIdx k }.users, m.read = true ∨ m.write = true :=
    fun m hm => h.moded m (hperm.mem_iff.mpr (mem_cons_of_mem _ hm))
  cases hpipe : i.pipe with
  | none =>
    have hnil := h.used.mp hpipe
    rw [hnil] at hperm
    cases hperm.symm.eq_nil
  | some a =>
  obtain ⟨p, hp, hr, hw⟩ := h.counts a hpipe
  rw [readers_perm hperm, readers_cons] at hr
  rw [writers_perm hperm, writers_cons] at hw
  have hall := counts_pos hmoded
  unfold pipeRelease
  simp only [hp]
  split
  · rename_i hz
    have hnil := hall.2.2.mp (by omega)
    have hgone : ∀ b q, update i.pipes a none b = some q → False := by
      intro b q hb
      rw [update_apply] at hb
      split at hb
      · cases hb
      · rename_i hne
        exact hne (h.one hpipe hb)
    refine ⟨h.sound, fun b q hb => (hgone b q hb).elim, fun b q hb => (hgone b q hb).elim, ?_,
      iff_of_true rfl hnil, hmoded, fun o ho => ?_⟩
    · intro b hb
      cases hb
    have hopeners : i.openers = [] := map_eq_nil_iff.mp (append_eq_nil_iff.mp hnil).2
    rw [hopeners] at ho
    cases ho
  rename_i hz
  have hone : ∀ b q, update i.pipes a (some
      { p with readers := p.readers - i.files[k].readers, writers := p.writers - i.files[k].writers }) b = some q →
      b = a := by
    intro b q hb
    rw [update_apply] at hb
    split at hb
    · assumption
    · exact h.one hpipe hb
  refine ⟨h.sound, fun b q hb => ?_, fun b q hb => ?_, fun b hb => ?_, ?_, hmoded, fun o ho => ?_⟩
  · rw [hone b q hb]
    exact h.bound a p hp
  · exact congrArg some (hone b q hb).symm
  · obtain rfl : a = b := some.inj hb
    refine ⟨_, update_self .., ?_, ?_⟩
    · show p.readers - i.files[k].readers = readers { i with files := i.files.eraseIdx k }.users
      omega
    · show p.writers - i.files[k].writers = writers { i with files := i.files.eraseIdx k }.users
      omega
  · refine iff_of_false (some_ne_none _) fun hnil => hz ?_
    have hzero := hall.2.2.mpr hnil
    omega
  · have ho := h.held o ho
    rwa [hpipe] at ho

-- An open reads or writes, and one that only writes without waiting finds a reader. A signal comes
-- to a sleeping open only when its other end is there.
def Event.Spared (i : Inode) : Event → Prop
  | .open m nonblock _ => (m.read = true ∨ m.write = true) ∧
    (m = ⟨false, true⟩ → nonblock = true → readers i.users ≠ 0)
  | .wake k signal => signal = true → ∀ o p, i.openers[k]? = some o → i.pipes o.pipe = some p → o.answered p
  | .close _ => True

def AllSpared : Inode → List Event → Prop
  | _, [] => True
  | i, ev :: evs => ev.Spared i ∧ AllSpared (step i ev).1 evs

theorem open_counted (h : Counted i) {nonblock alloc : Bool} (hev : (Event.open m nonblock alloc).Spared i) :
    Counted (step i (.«open» m nonblock alloc)).1 := by
  obtain ⟨hm, hx⟩ := hev
  have hmoded : ∀ m' ∈ m :: i.users, m'.read = true ∨ m'.write = true := by
    intro m' hm'
    rcases mem_cons.mp hm' with rfl | hm'
    · exact hm
    · exact h.moded m' hm'
  unfold step
  cases hpipe : i.pipe with
  | some a =>
    obtain ⟨p, hp, hr, hw⟩ := h.counts a hpipe
    simp only [hp]
    obtain ⟨hr', hw', hout⟩ := fifoOpen_spec m nonblock p (by rwa [hr])
    refine openPath_counted nonblock ⟨h.sound, ⟨h.bound a p hp, fun b q hb => ?_⟩, hpipe, ?_, hmoded, h.held⟩ hout
    · exact h.one hpipe hb
    · exact ⟨by rw [hr', hr], by rw [hw', hw]⟩
  | none =>
  have hnil := h.used.mp hpipe
  have hopeners : i.openers = [] := map_eq_nil_iff.mp (append_eq_nil_iff.mp hnil).2
  dsimp only
  split
  · rw [hnil] at hx
    obtain ⟨hr', hw', hout⟩ := fifoOpen_spec m nonblock ⟨0, 0, 0⟩ hx
    have husers : { i with next := i.next + 1, pipe := some i.next }.users = [] := hnil
    refine openPath_counted nonblock ⟨h.sound, ⟨Nat.lt_succ_self _, fun b q hb => ?_⟩, rfl, ?_, hmoded, ?_⟩ hout
    · have := h.only b q hb
      rw [hpipe] at this
      cases this
    · rw [husers]
      exact ⟨hr', hw'⟩
    intro o ho
    rw [show i.openers = [] from hopeners] at ho
    cases ho
  · exact h

theorem wake_counted (h : Counted i) {k : Nat} {signal : Bool} (hev : (Event.wake k signal).Spared i) :
    Counted (step i (.wake k signal)).1 := by
  unfold step
  cases hk : i.openers[k]? with
  | none =>
    simp only [hk]
    exact h
  | some o =>
  obtain ⟨hlt, rfl⟩ := List.getElem?_eq_some_iff.mp hk
  obtain ⟨hpipe, hfits⟩ := h.held _ (List.getElem_mem hlt)
  obtain ⟨p, hp, hr, hw⟩ := h.counts _ hpipe
  simp only [hk, hp]
  have hperm : i.users.Perm (i.openers[k].mode :: { i with openers := i.openers.eraseIdx k }.users) := by
    have := ((getElem_cons_eraseIdx_perm hlt).symm.map Opener.mode).append_left i.files
    exact this.trans perm_middle
  obtain ⟨hr', hw', hout⟩ := wakeUp_spec hfits fun hsig => hev hsig _ p hk hp
  refine openPath_counted _ ⟨h.sound, ⟨h.bound _ p hp, fun b q hb => ?_⟩, hpipe, ⟨?_, ?_⟩, ?_, ?_⟩ hout
  · exact h.one hpipe hb
  · rw [hr', hr, readers_perm hperm, readers_cons, Int.add_comm]
  · rw [hw', hw, writers_perm hperm, writers_cons, Int.add_comm]
  · exact fun m' hm' => h.moded m' (hperm.mem_iff.mpr hm')
  · exact fun o ho => h.held o (mem_of_mem_eraseIdx ho)

theorem step_counted (h : Counted i) {ev : Event} (hev : ev.Spared i) : Counted (step i ev).1 := by
  cases ev with
  | «open» m nonblock alloc => exact open_counted h hev
  | wake k signal => exact wake_counted h hev
  | close k =>
  unfold step
  cases hk : i.files[k]? with
  | none =>
    simp only [hk]
    exact h
  | some m =>
    simp only [hk]
    exact close_counted h hk

theorem fresh_counted : Counted fresh where
  sound := rfl
  bound := by intro a p h; cases h
  only := by intro a p h; cases h
  counts := by intro a h; cases h
  used := iff_of_true rfl rfl
  moded := by intro m h; cases h
  held := by intro o h; cases h

theorem run_counted (evs : List Event) (h : Counted i) (hevs : AllSpared i evs) : Counted (run i evs) := by
  induction evs generalizing i with
  | nil => exact h
  | cons ev evs ih => exact ih (step_counted h hevs.1) hevs.2

-- Opens and closes in any order, as long as each open has a mode, none only writes without waiting
-- where nobody reads, and no signal comes to an open whose other end is missing.
theorem fifo_counts_hold (evs : List Event) (hevs : AllSpared fresh evs) : Good (run fresh evs) :=
  (run_counted evs fresh_counted hevs).good

-- A reader that waits for the writer and is woken up, a writer that does not wait, and a signal that
-- comes when the writer is there.
def meeting : List Event := [.open ⟨true, false⟩ false true, .open ⟨true, false⟩ false true,
  .open ⟨false, true⟩ true true, .wake 0 false, .wake 0 true, .close 0, .close 0]

theorem fifo_counts_hold_meeting : (run fresh meeting).files = [⟨true, false⟩] ∧ Good (run fresh meeting) := by
  refine ⟨by decide, fifo_counts_hold meeting ⟨⟨.inl rfl, fun h => ?_⟩, ⟨.inl rfl, fun h => ?_⟩, ⟨.inr rfl, fun _ _ => ?_⟩,
    fun h => ?_, fun _ o p ho hp => ?_, trivial, trivial, trivial⟩⟩
  · cases h
  · cases h
  · decide
  · cases h
  · cases ho
    cases hp
    exact .inl (by decide)

theorem failed_open_uncounted : ((step fresh (.open ⟨false, true⟩ true true)).2 = - ENXIO ∧
      ¬ Good (run fresh [.open ⟨false, true⟩ true true])) ∧
    let i := run fresh [.open ⟨true, false⟩ false true, .open ⟨true, false⟩ false true, .wake 0 true]
    i.openers = [⟨⟨true, false⟩, false, 0, .writer 0⟩] ∧ i.pipes 0 = none ∧ (step i (.wake 0 false)).1.oops = true := by
  refine ⟨⟨by decide, fun h => ?_⟩, by decide⟩
  obtain ⟨p, hp, -, hw⟩ := h.counts rfl 0 rfl
  obtain rfl : (⟨0, -1, 0⟩ : Counts) = p := some.inj ((show _ = some _ by decide).symm.trans hp)
  exact absurd hw (by decide)

end Olux.Pipefs.Fifo
