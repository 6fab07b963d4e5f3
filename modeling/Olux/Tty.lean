import Olux.Lib.Prefixes

namespace Olux.Tty

open List Option

def TTY_BUF : Nat := 4096

structure Termios where
  igncr : Bool
  icrnl : Bool
  inlcr : Bool
  isig : Bool
  noflsh : Bool
  iexten : Bool
  vintr : UInt8
  vquit : UInt8
  vsusp : UInt8
  verase : UInt8
  vkill : UInt8
  vwerase : UInt8
  vlnext : UInt8
  veof : UInt8
  veol : UInt8

structure Cell where
  c : UInt8
  first : Bool

-- The ring from `itail` to `icanon_end` and from there to `ihead`. `reader` is the length of the read
-- in progress and what it has done; `zeros` has for each read that returned 0 the EOF it consumed.
structure State where
  ready : List Cell
  line : List Cell
  lnext : Bool
  reader : Option (Nat × Nat)
  zeros : List (Option Bool)

def boot : State := ⟨[], [], false, none, []⟩

variable (tm : Termios)

def store (s : State) (c : UInt8) : State :=
  if TTY_BUF - 1 ≤ s.ready.length + s.line.length then s
  else if c = 10 ∨ c = tm.veof ∨ c = tm.veol then
    { s with ready := s.ready ++ (s.line ++ [⟨c, s.line.isEmpty⟩]), line := [] }
  else { s with line := s.line ++ [⟨c, s.line.isEmpty⟩] }

def eraseWord (line : List Cell) : List Cell := (line.rdropWhile (·.c == 32)).rdropWhile (·.c != 32)

def inputChar (s : State) (c : UInt8) : State :=
  if s.lnext then store tm { s with lnext := false } c
  else if tm.igncr ∧ c = 13 then s
  else
    let c := if tm.icrnl ∧ c = 13 then 10 else if tm.inlcr ∧ c = 10 then 13 else c
    if tm.isig ∧ (c = tm.vintr ∨ c = tm.vquit ∨ c = tm.vsusp) ∧ c ≠ 0 then
      if tm.noflsh then s else { s with ready := [], line := [] }
    else if c = tm.verase ∨ c = 8 then { s with line := s.line.dropLast }
    else if c = tm.vkill then { s with line := [] }
    else if c = tm.vwerase ∧ tm.iexten then { s with line := eraseWord s.line }
    else if c = tm.vlnext ∧ tm.iexten then { s with lnext := true }
    else store tm s c

-- The inner loop of `tty_read` with room for `k` characters: how many it takes, whether it ends a
-- line, the EOF it consumed, and what is left.
structure Scan where
  n : Nat
  eol : Bool
  eof : Option Bool
  rest : List Cell

def scan (veof : UInt8) : Nat → List Cell → Scan
  | 0, l => ⟨0, false, none, l⟩
  | _ + 1, [] => ⟨0, false, none, []⟩
  | k + 1, a :: l =>
    if a.c = veof then ⟨0, true, some a.first, l⟩
    else if a.c = 10 then ⟨1, true, none, l⟩
    else { scan veof k l with n := (scan veof k l).n + 1 }

-- One pass of the outer loop. The lock is dropped while the characters are copied out.
def pass (veof : UInt8) (s : State) (fault : Bool) : State :=
  match s.reader with
  | none => s
  | some (len, done) =>
    let r := scan veof (min 128 (len - done)) s.ready
    let s := { s with ready := r.rest }
    if r.n ≠ 0 ∧ fault then { s with reader := none }
    else if r.eol ∨ r.n = 0 ∨ len ≤ done + r.n then
      { s with reader := none, zeros := if done + r.n = 0 then s.zeros ++ [r.eof] else s.zeros }
    else { s with reader := some (len, done + r.n) }

inductive Event where
  | input (c : UInt8)
  -- a call that finds `can_read`, maybe after it has waited
  | read (len : Nat)
  | pass (fault : Bool)

def step (s : State) : Event → State
  | .input c => inputChar tm s c
  | .read len => if s.reader = none ∧ 0 < len ∧ s.ready ≠ [] then { s with reader := some (len, 0) } else s
  | .pass fault => pass tm.veof s fault

def run (evs : List Event) : State := evs.foldl (step tm) boot

def Honest (s : State) : Prop := ∀ x ∈ s.zeros, x = some true

def behind (veof : UInt8) (l : List Cell) : Bool := l.head?.any fun a => a.c == veof && !a.first

def plain (veof : UInt8) (a : Cell) : Bool := a.c != veof && a.c != 10

-- A pass that ends its read: the characters in front of an EOF typed behind them fill the room
-- exactly. Or a signal has flushed the input between the check and the first pass of a read.
def cut (s : State) : Event → Bool
  | .pass fault => s.reader.any fun x =>
    let k := min 128 (x.1 - x.2)
    ((s.ready.take k).all (plain tm.veof) && behind tm.veof (s.ready.drop k) && (fault || decide (x.1 - x.2 ≤ 128))) ||
      (x.2 == 0 && s.ready.isEmpty)
  | _ => false

-- What comes right behind the end of a line is the first of its own line.
def Fresh (veof : UInt8) (l : List Cell) : Prop := l.IsChain fun a b => plain veof a = false → b.first = true

structure Inv (veof : UInt8) (s : State) : Prop where
  line : ∀ a ∈ s.line, plain veof a = true
  starts : ∀ a, s.line.head? = some a → a.first = true
  fresh : Fresh veof s.ready
  next : s.reader.all (fun x => x.2 == 0) = true → behind veof s.ready = false
  room : ∀ x, s.reader = some x → x.2 < x.1
  honest : Honest s

variable {tm : Termios} {s : State}

theorem fresh_line {veof : UInt8} {l : List Cell} (hl : ∀ a ∈ l, plain veof a = true) (d : Cell) :
    Fresh veof (l ++ [d]) := by
  induction l with
  | nil => exact .singleton _
  | cons a l ih =>
  refine isChain_cons.mpr ⟨fun b _ ha => ?_, ih fun b hb => hl b (mem_cons_of_mem _ hb)⟩
  rw [hl a mem_cons_self] at ha
  cases ha

theorem Inv.store (h : Inv tm.veof s) (c : UInt8) : Inv tm.veof (store tm s c) := by
  unfold Tty.store
  split
  · exact h
  split
  · refine ⟨nofun, nofun, ?_, fun hr => ?_, h.room, h.honest⟩
    · refine isChain_append.mpr ⟨h.fresh, fresh_line h.line _, fun a _ b hb _ => ?_⟩
      cases hline : s.line with
      | nil =>
        rw [hline] at hb
        cases hb
        rfl
      | cons b' l =>
        rw [hline] at hb
        exact h.starts b (by rw [hline]; exact hb)
    have hnext := h.next hr
    -- behind what is there, or the first of the line
    cases hready : s.ready with
    | cons a l => simpa [behind, hready] using hnext
    | nil =>
      cases hline : s.line with
      | nil => simp [behind]
      | cons a l =>
        have ha := h.starts a (by rw [hline]; rfl)
        simp [behind, ha]
  rename_i hplain
  refine ⟨fun a ha => ?_, fun a ha => ?_, h.fresh, h.next, h.room, h.honest⟩
  · rcases mem_append.mp ha with ha | ha
    · exact h.line a ha
    · rw [mem_singleton.mp ha]
      simp only [not_or] at hplain
      simp [plain, hplain]
  cases hline : s.line with
  | nil =>
    rw [hline] at ha
    cases ha
    rfl
  | cons b l =>
    rw [hline] at ha
    exact h.starts a (by rw [hline]; exact ha)

theorem Inv.erase (h : Inv tm.veof s) {l : List Cell} (hl : l <+: s.line) : Inv tm.veof { s with line := l } := by
  refine ⟨fun a ha => h.line a (hl.subset ha), fun a ha => h.starts a ?_, h.fresh, h.next, h.room, h.honest⟩
  obtain ⟨r, hr⟩ := hl
  cases l with
  | nil => cases ha
  | cons b l =>
    rw [← hr]
    exact ha

theorem eraseWord_le (l : List Cell) : eraseWord l <+: l := ( rdropWhile_prefix ..).trans ( rdropWhile_prefix ..)

theorem Inv.inputChar (h : Inv tm.veof s) (c : UInt8) : Inv tm.veof (inputChar tm s c) := by
  unfold Tty.inputChar
  split
  · exact Inv.store (s := { s with lnext := false }) ⟨h.line, h.starts, h.fresh, h.next, h.room, h.honest⟩ c
  split
  · exact h
  extract_lets d
  clear_value d
  split
  · split
    · exact h
    · exact ⟨nofun, nofun, .nil, fun _ => rfl, h.room, h.honest⟩
  split
  · exact h.erase ( dropLast_prefix _)
  split
  · exact h.erase nil_prefix
  split
  · exact h.erase (eraseWord_le _)
  split
  · exact ⟨h.line, h.starts, h.fresh, h.next, h.room, h.honest⟩
  · exact h.store d

theorem scan_zero {veof : UInt8} {k : Nat} {l : List Cell} (h : (scan veof (k + 1) l).n = 0) :
    l = [] ∨ ∃ a l', l = a :: l' ∧ a.c = veof ∧ (scan veof (k + 1) l).eof = some a.first := by
  cases l with
  | nil => exact .inl rfl
  | cons a l =>
  unfold scan at h ⊢
  split at h
  · rename_i hc
    rw [if_pos hc]
    exact .inr ⟨a, l, rfl, hc, rfl⟩
  · split at h <;> cases h

-- Either the room is filled, or the characters are used up, or the scan has come to the end of a line.
theorem scan_rest (veof : UInt8) (k : Nat) (l : List Cell) :
    (l.take k).all (plain veof) = true ∧ (scan veof k l).rest = l.drop k ∧ (scan veof k l).n = min k l.length ∧
        (scan veof k l).eol = false ∨
      ∃ pre a, l = pre ++ a :: (scan veof k l).rest ∧ plain veof a = false := by
  induction k generalizing l with
  | zero => exact .inl ⟨rfl, rfl, (Nat.zero_min _).symm, rfl⟩
  | succ k ih =>
  cases l with
  | nil => exact .inl ⟨rfl, rfl, rfl, rfl⟩
  | cons a l =>
  unfold scan
  split
  · rename_i hc
    exact .inr ⟨[], a, rfl, by simp [plain, hc]⟩
  split
  · rename_i hc
    exact .inr ⟨[], a, rfl, by simp [plain, hc]⟩
  rename_i hv hn
  rcases ih (l := l) with ⟨hall, hrest, hlen, heol⟩ | ⟨pre, b, hl, hb⟩
  · refine .inl ⟨?_, hrest, ?_, heol⟩
    · simpa [plain, hv, hn] using hall
    · simp only [hlen, length_cons]
      omega
  · exact .inr ⟨a :: pre, b, congrArg (a :: ·) hl, hb⟩

theorem Fresh.not_behind {veof : UInt8} {pre l : List Cell} {a : Cell} (h : Fresh veof (pre ++ a :: l))
    (ha : plain veof a = false) : behind veof l = false := by
  cases l with
  | nil => rfl
  | cons b l =>
    have hb : b.first = true := (isChain_cons_cons.mp (isChain_append.mp h).2.1).1 ha
    simp [behind, hb]

theorem Inv.fresh_rest (h : Inv tm.veof s) (k : Nat) : Fresh tm.veof (scan tm.veof k s.ready).rest := by
  rcases scan_rest tm.veof k s.ready with ⟨-, hrest, -, -⟩ | ⟨pre, a, hl, -⟩
  · rw [hrest]
    exact h.fresh.suffix (drop_suffix _ _)
  · exact h.fresh.suffix ⟨pre ++ [a], by rw [append_assoc]; exact hl.symm⟩

theorem Inv.pass (h : Inv tm.veof s) {fault : Bool} (hb : cut tm s (.pass fault) = false) : Inv tm.veof (pass tm.veof s fault) := by
  unfold Tty.pass
  cases hreader : s.reader with
  | none => exact h
  | some x =>
  obtain ⟨len, done⟩ := x
  simp only [cut, hreader, any_some, Bool.or_eq_false_iff] at hb
  obtain ⟨hend, hfull⟩ := hb
  have hroom : done < len := h.room _ hreader
  obtain ⟨k, hk⟩ : ∃ k, min 128 (len - done) = k + 1 := Nat.exists_eq_succ_of_ne_zero (by omega)
  dsimp only
  rw [hk] at hend ⊢
  have hfresh := h.fresh_rest (k + 1)
  -- a read that ends here does not leave such an EOF in front
  have hnext : fault = true ∨ len ≤ done + (scan tm.veof (k + 1) s.ready).n ∨ (scan tm.veof (k + 1) s.ready).n = 0 ∨
      (scan tm.veof (k + 1) s.ready).eol = true → behind tm.veof (scan tm.veof (k + 1) s.ready).rest = false := by
    intro hstop
    rcases scan_rest tm.veof (k + 1) s.ready with ⟨hall, hrest, hlen, heol⟩ | ⟨pre, a, hl, ha⟩
    · rw [hrest]
      by_contra hbehind
      rw [Bool.not_eq_false] at hbehind
      rw [hall, hbehind, Bool.true_and, Bool.true_and, Bool.or_eq_false_iff, decide_eq_false_iff_not] at hend
      have hlong : k + 1 < s.ready.length := by
        by_contra hshort
        rw [drop_eq_nil_of_le (Nat.not_lt.mp hshort)] at hbehind
        cases hbehind
      rw [heol, hend.1] at hstop
      simp only [Bool.false_eq_true, false_or, or_false] at hstop
      omega
    · have hfresh := h.fresh
      rw [hl] at hfresh
      exact hfresh.not_behind ha
  split
  · rename_i hf
    exact ⟨h.line, h.starts, hfresh, fun _ => hnext (.inl hf.2), nofun, h.honest⟩
  rename_i hf
  split
  · rename_i hstop
    refine ⟨h.line, h.starts, hfresh, fun _ => hnext ?_, nofun, fun x hx => ?_⟩
    · tauto
    dsimp only at hx
    split at hx
    swap
    · exact h.honest x hx
    rename_i hzero
    rcases mem_append.mp hx with hx | hx
    · exact h.honest x hx
    -- the read has taken nothing: its first pass has found an EOF
    rw [mem_singleton.mp hx]
    obtain rfl : done = 0 := by omega
    have hready : s.ready ≠ [] := by simpa using hfull
    have hn : (scan tm.veof (k + 1) s.ready).n = 0 := by omega
    obtain ⟨a, l, hl, hc, heof⟩ := (scan_zero hn).resolve_left hready
    have hgood := h.next (by rw [hreader]; rfl)
    rw [behind, hl] at hgood
    rw [heof]
    simpa [hc] using hgood
  rename_i hgo
  refine ⟨h.line, h.starts, hfresh, fun hd => ?_, fun x hx => ?_, h.honest⟩
  · simp only [all_some, beq_iff_eq] at hd
    omega
  cases hx
  dsimp only
  omega

theorem step_inv {ev : Event} (h : Inv tm.veof s) (hb : cut tm s ev = false) : Inv tm.veof (step tm s ev) := by
  cases ev with
  | input c => exact h.inputChar c
  | pass fault => exact h.pass hb
  | read len =>
  simp only [step]
  split
  · rename_i hread
    exact ⟨h.line, h.starts, h.fresh, fun _ => h.next (by rw [hread.1]; rfl), fun x hx => some.inj hx ▸ hread.2.1,
      h.honest⟩
  · exact h

-- Over any run in which no read has its room filled exactly up to an EOF typed behind characters.
theorem eof_on_empty_line (tm : Termios) (evs : List Event)
    (h : ∀ k ev, evs[k]? = some ev → cut tm (run tm (evs.take k)) ev = false) (k : Nat) : Honest (run tm (evs.take k)) := by
  have hboot : Inv tm.veof boot := ⟨nofun, nofun, .nil, fun _ => rfl, nofun, nofun⟩
  exact (Lib.prefixes (f := step tm) hboot (fun _ _ => step_inv) h k).honest

def defaultTermios : Termios := ⟨false, true, false, true, false, true, 3, 28, 26, 127, 21, 23, 22, 4, 0⟩

-- An EOF behind a character ends the line, and the next one is typed on an empty line.
def twoEofs : List Event := [.input 97, .input 4, .read 2, .pass false, .input 4, .read 2, .pass false]

theorem eof_on_empty_line_typed :
    (run defaultTermios twoEofs).zeros = [some true] ∧ Honest (run defaultTermios twoEofs) := by
  refine ⟨rfl, eof_on_empty_line defaultTermios twoEofs (fun k ev hev => ?_) 7⟩
  match k with
  | 0 | 1 | 2 | 3 | 4 | 5 | 6 =>
    cases hev
    rfl
  | k + 7 => cases hev

theorem full_buffer_leaves_eof :
    let s := run defaultTermios [.input 97, .input 98, .input 4, .read 2, .pass false, .read 2, .pass false]
    s.zeros = [some false] ∧ ¬ Honest s := by
  refine ⟨rfl, fun h => ?_⟩
  have hfirst := h (some false) (mem_singleton_self _)
  cases hfirst

def canRead (hangup : Bool) (s : State) : Bool := hangup || !s.ready.isEmpty

-- A character as it is behind the mapping of CR and NL; one after VLNEXT is not mapped.
def mapped (tm : Termios) (s : State) (c : UInt8) : Option UInt8 :=
  if s.lnext then some c
  else if tm.igncr ∧ c = 13 then none
  else some (if tm.icrnl ∧ c = 13 then 10 else if tm.inlcr ∧ c = 10 then 13 else c)

-- The control characters of `default_termios`; the flags are any.
structure Termios.DefaultCc (tm : Termios) : Prop where
  vintr : tm.vintr = 3
  vquit : tm.vquit = 28
  vsusp : tm.vsusp = 26
  verase : tm.verase = 127
  vkill : tm.vkill = 21
  vwerase : tm.vwerase = 23
  vlnext : tm.vlnext = 22

theorem inputChar_newline (htm : tm.DefaultCc) {c : UInt8} (hc : mapped tm s c = some 10) :
    inputChar tm s c = store tm { s with lnext := false } 10 := by
  unfold mapped at hc
  unfold inputChar
  split at hc
  · rename_i hl
    rw [if_pos hl, some.inj hc]
  rename_i hl
  split at hc
  · cases hc
  rename_i hign
  have hs : ({ s with lnext := false } : State) = s := by
    cases s
    simpa using hl
  rw [if_neg hl, if_neg hign, hs]
  dsimp only
  rw [some.inj hc, htm.vintr, htm.vquit, htm.vsusp, htm.verase, htm.vkill, htm.vwerase, htm.vlnext]
  simp

-- A newline releases the reader iff it may read already or the ring has a place left.
theorem newline_releases_iff (htm : tm.DefaultCc) {c : UInt8} (hc : mapped tm s c = some 10) (hangup : Bool) :
    canRead hangup (inputChar tm s c) = true ↔ canRead hangup s = true ∨ s.ready.length + s.line.length < TTY_BUF - 1 := by
  rw [inputChar_newline htm hc, store]
  split
  · rename_i hfull
    exact ⟨.inl, fun h => h.resolve_right (Nat.not_lt.mpr hfull)⟩
  rename_i hroom
  rw [if_pos (.inl rfl)]
  exact ⟨fun _ => .inr (Nat.not_le.mp hroom), fun _ => by simp [canRead]⟩

theorem newline_releases_typed : canRead false (run defaultTermios [.input 97, .input 98]) = false ∧
    canRead false (inputChar defaultTermios (run defaultTermios [.input 97, .input 98]) 13) = true :=
  ⟨rfl, (newline_releases_iff ⟨rfl, rfl, rfl, rfl, rfl, rfl, rfl⟩ (by decide) false).mpr (.inr (by decide))⟩

theorem run_typed (n : Nat) (hn : n ≤ TTY_BUF - 1) : let s := run defaultTermios (replicate n (.input 97))
    s.ready = [] ∧ s.line.length = n ∧ s.lnext = false := by
  induction n with
  | zero => exact ⟨rfl, rfl, rfl⟩
  | succ n ih =>
  obtain ⟨hready, hline, hl⟩ := ih (by omega)
  rw [run, replicate_succ', foldl_append, ← run]
  generalize run defaultTermios (replicate n (.input 97)) = s at *
  have hroom : ¬ TTY_BUF - 1 ≤ n := by omega
  simp [step, inputChar, hl, store, hready, hline, defaultTermios, -Nat.sub_le_iff_le_add, hroom]

theorem full_line_drops (n : Nat) (hn : n = TTY_BUF - 1) :
    canRead false (run defaultTermios (replicate n (.input 97) ++ [.input 10])) = false := by
  obtain ⟨hready, hline, hl⟩ := run_typed n (Nat.le_of_eq hn)
  rw [run, foldl_append, ← run]
  generalize run defaultTermios (replicate n (.input 97)) = s at *
  simp [step, inputChar, hl, store, hready, hline, ← hn, defaultTermios, canRead]

theorem full_line_keeps_reader :
    canRead false (run defaultTermios (replicate 4095 (.input 97) ++ [.input 10])) = false :=
  full_line_drops 4095 rfl

end Olux.Tty
