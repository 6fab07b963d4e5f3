import Olux.Lib.Prefixes

namespace Olux.Ptmx

open Function

def NPTY : Nat := 64

-- A pty with its slave tty. `pts` and `tty` are the open files from `pts_open` and `devtty_open`.
structure Pty where
  masterOpen : Bool
  locked : Bool
  opens : Nat
  pts : Nat
  tty : Nat
deriving DecidableEq

def Pty.closed (p : Pty) : Bool := !p.masterOpen && p.pts == 0 && p.tty == 0

-- The slots, and the controlling terminals of the processes as far as they are slaves. `early`: a
-- pty was destroyed while one of its files was open.
structure State where
  ptys : Nat → Option Pty
  ctty : Nat → Option Nat
  early : Bool

def boot : State := ⟨fun _ => none, fun _ => none, false⟩

inductive File where
  | master
  | pts
  | tty

inductive Event where
  | ptmxOpen
  | unlock (i : Nat) (locked : Bool)
  | ptsOpen (i : Nat)
  | devttyOpen (pid : Nat)
  | close (f : File) (i : Nat)
  -- a process is forked, gives its terminal up or gets one: with its first open of a slave, or by an ioctl
  | ctty (pid : Nat) (i : Option Nat)

variable (s : State)

def State.put (i : Nat) (p : Pty) : State := { s with ptys := update s.ptys i (some p) }

def State.access (i : Option Nat) (ok : Pty → Bool) (f : Pty → Pty) : State :=
  match i with
  | none => s
  | some i =>
    match s.ptys i with
    | none => s
    | some p => if ok p then s.put i (f p) else s

def ptyDestroy (i : Nat) (p : Pty) : State :=
  { ptys := update s.ptys i none
    ctty := fun pid => if s.ctty pid = some i then none else s.ctty pid
    early := s.early || !p.closed }

def release (i : Nat) (p : Pty) : File → State
  | .master =>
    if p.masterOpen then
      let p := { p with masterOpen := false }
      if p.opens = 0 then ptyDestroy s i p else s.put i p
    else s
  | .pts =>
    if p.pts = 0 then s
    else
      let p := { p with pts := p.pts - 1, opens := p.opens - 1 }
      if p.opens = 0 ∧ p.masterOpen = false then ptyDestroy s i p else s.put i p
  | .tty => if p.tty = 0 then s else s.put i { p with tty := p.tty - 1, opens := p.opens - 1 }

def step : Event → State
  | .ptmxOpen =>
    match (List.range NPTY).find? fun k => (s.ptys k).isNone with
    | none => s
    | some k => s.put k ⟨true, true, 0, 0, 0⟩
  | .unlock i locked => s.access (some i) Pty.masterOpen fun p => { p with locked }
  | .ptsOpen i =>
    s.access (some i) (fun p => p.masterOpen && !p.locked) fun p => { p with opens := p.opens + 1, pts := p.pts + 1 }
  | .devttyOpen pid =>
    s.access (s.ctty pid) (fun _ => true) fun p => { p with opens := p.opens + 1, tty := p.tty + 1 }
  | .close f i =>
    match s.ptys i with
    | none => s
    | some p => release s i p f
  | .ctty pid i => if i.all fun i => (s.ptys i).isSome then { s with ctty := update s.ctty pid i } else s

def run (evs : List Event) : State := evs.foldl step s

def Released : Prop := s.early = false ∧ ∀ i p, s.ptys i = some p → p.closed = false

def leaks : Event → Bool
  | .close .tty i => (s.ptys i).any fun p => !p.masterOpen && p.pts == 0 && p.tty == 1
  | _ => false

def Pty.Good (p : Pty) : Prop := p.opens = p.pts + p.tty ∧ p.closed = false

def Inv : Prop := s.early = false ∧ ∀ i p, s.ptys i = some p → p.Good

variable {s : State} {i : Nat} {p : Pty}

theorem closed_iff : p.closed = true ↔ p.masterOpen = false ∧ p.pts = 0 ∧ p.tty = 0 := by
  simp [Pty.closed, and_assoc]

theorem Inv.set (h : Inv s) {o : Option Pty} (ho : ∀ q, o = some q → q.Good) :
    ∀ j q, update s.ptys i o j = some q → q.Good := by
  intro j q hq
  by_cases hj : j = i
  · rw [hj, update_self] at hq
    exact ho q hq
  · rw [update_of_ne hj] at hq
    exact h.2 j q hq

theorem Inv.put (h : Inv s) (hp : p.Good) : Inv (s.put i p) :=
  ⟨h.1, h.set fun _ hq => Option.some.inj hq ▸ hp⟩

theorem Inv.destroy (h : Inv s) (hp : p.closed = true) : Inv (ptyDestroy s i p) :=
  ⟨by simp [ptyDestroy, h.1, hp], h.set fun _ hq => by cases hq⟩

theorem Inv.access (h : Inv s) {o : Option Nat} {ok : Pty → Bool} {f : Pty → Pty}
    (hf : ∀ p, p.Good → ok p = true → (f p).Good) : Inv (s.access o ok f) := by
  unfold State.access
  split
  · exact h
  split
  · exact h
  rename_i p hp
  split
  · exact h.put (hf p (h.2 _ p hp) (by assumption))
  · exact h

theorem Inv.release (h : Inv s) (hp : s.ptys i = some p) {f : File} (hb : leaks s (.close f i) = false) :
    Inv (release s i p f) := by
  obtain ⟨hopens, hopen⟩ := h.2 i p hp
  have hopen := mt closed_iff.mpr (ne_true_of_eq_false hopen)
  have hput : ∀ q : Pty, q.opens = q.pts + q.tty → ¬ (q.masterOpen = false ∧ q.pts = 0 ∧ q.tty = 0) → Inv (s.put i q) :=
    fun q hq hc => h.put ⟨hq, eq_false_of_ne_true (mt closed_iff.mp hc)⟩
  cases f with
  | master =>
    simp only [Ptmx.release]
    split
    · split
      · exact h.destroy (closed_iff.mpr ⟨rfl, by dsimp only; omega⟩)
      · exact hput _ hopens (by dsimp only; omega)
    · exact h
  | pts =>
    simp only [Ptmx.release]
    split
    · exact h
    split
    · rename_i hlast
      exact h.destroy (closed_iff.mpr ⟨hlast.2, by dsimp only; omega⟩)
    rename_i hlast
    refine hput _ (by dsimp only; omega) fun hc => hlast ⟨?_, hc.1⟩
    dsimp only at hc
    omega
  | tty =>
  simp only [Ptmx.release]
  split
  · exact h
  refine hput _ (by dsimp only; omega) fun hc => ?_
  simp only [leaks, hp, Option.any_some, Bool.and_eq_false_iff, Bool.not_eq_false', beq_eq_false_iff_ne] at hb
  dsimp only at hc
  rcases hb with (hm | hm) | hm
  · rw [hc.1] at hm
    cases hm
  · exact hm hc.2.1
  · omega

theorem step_inv {ev : Event} (h : Inv s) (hb : leaks s ev = false) : Inv (step s ev) := by
  cases ev with
  | ptmxOpen =>
    simp only [step]
    split
    · exact h
    · exact h.put ⟨rfl, rfl⟩
  | unlock i locked => exact h.access fun _ hp _ => hp
  | ptsOpen i => exact h.access fun p hp _ => ⟨by have := hp.1; dsimp only; omega, by simp [Pty.closed]⟩
  | devttyOpen pid => exact h.access fun p hp _ => ⟨by have := hp.1; dsimp only; omega, by simp [Pty.closed]⟩
  | close f i =>
    simp only [step]
    split
    · exact h
    · exact h.release (by assumption) hb
  | ctty pid i =>
    simp only [step]
    split
    · exact h
    · exact h

theorem leak_not_released {ev : Event} (hb : leaks s ev = true) : ¬ Released (step s ev) := by
  unfold leaks at hb
  split at hb
  swap
  · cases hb
  rename_i i
  obtain ⟨p, hp, hlast⟩ := (Option.any_eq_true _ _).mp hb
  simp only [Bool.and_eq_true, Bool.not_eq_true', beq_iff_eq] at hlast
  obtain ⟨⟨hm, hpts⟩, htty⟩ := hlast
  intro hr
  have hno := hr.2 i { p with tty := p.tty - 1, opens := p.opens - 1 } (by
    simp [step, hp, Ptmx.release, htty, State.put])
  refine absurd (closed_iff.mpr ?_) (ne_true_of_eq_false hno)
  exact ⟨hm, hpts, by dsimp only; omega⟩

-- Over any run: a slot is free again from the moment on when the last file of its pty is closed,
-- and not before, iff that file is never one of /dev/tty.
theorem slots_released_iff (evs : List Event) : (∀ k, Released (run boot (evs.take k))) ↔
    ∀ k ev, evs[k]? = some ev → leaks (run boot (evs.take k)) ev = false :=
  Lib.prefixes_iff (f := step) (I := Inv) ⟨rfl, fun _ _ hp => by cases hp⟩ (fun _ _ => step_inv)
    (fun _ h => ⟨h.1, fun i p hp => (h.2 i p hp).2⟩) fun _ _ _ => leak_not_released

theorem devtty_keeps_slot :
    let s := run boot [.ptmxOpen, .unlock 0 false, .ptsOpen 0, .ctty 7 (some 0), .devttyOpen 7, .close .master 0, .close .pts 0,
      .close .tty 0]
    s.ptys 0 = some ⟨false, false, 0, 0, 0⟩ ∧ ¬ Released s := by
  refine ⟨by decide, fun h => ?_⟩
  have hno := h.2 0 ⟨false, false, 0, 0, 0⟩ (by decide)
  cases hno

end Olux.Ptmx
