import Olux.Userfs

namespace Olux.Getdents

open Userfs List

structure Dirent where
  entry : Entry
  off : Nat
deriving DecidableEq

def reclen (e : Entry) : Nat := (19 + e.name.length + 1 + 7) / 8 * 8

structure Gctx where
  pos : Nat
  size : Nat
  used : Nat
  err : Int
  recs : List Dirent

def filldir64 (fault : Nat → Bool) (g : Gctx) (e : Entry) : Bool × Gctx :=
  if g.used + reclen e > g.size then (false, if g.used = 0 then { g with err := - EINVAL } else g)
  else if fault g.used then (false, { g with err := - EFAULT })
  else (true, { g with used := g.used + reclen e, recs := g.recs ++ [⟨e, g.pos + 1⟩] })

def sysGetdents64 (iterate : Gctx → Int × Gctx) (pos count : Nat) : Int × Nat × List Dirent :=
  let (r, g) := iterate ⟨pos, count, 0, 0, []⟩
  (if r ≠ 0 then r else if g.err ≠ 0 ∧ g.used = 0 then g.err else g.used, g.pos, g.recs)

-- A tmpfs directory: its own number, that of `n->parent` if there is one, and its entries.
structure Node where
  ino : Nat
  parent : Option Nat
  entries : List Entry

def Node.dot (n : Node) : Entry := ⟨[46], n.ino, DT_DIR⟩

def Node.dotdot (n : Node) : Entry := ⟨[46, 46], n.parent.getD n.ino, DT_DIR⟩

def iterateEntries (fault : Nat → Bool) : List Entry → Nat → Gctx → Gctx
  | [], _, g => g
  | e :: es, idx, g =>
    if idx < g.pos then iterateEntries fault es (idx + 1) g
    else
      match filldir64 fault g e with
      | (false, g) => g
      | (true, g) => iterateEntries fault es (idx + 1) { g with pos := idx + 1 }

def iterateDot (fault : Nat → Bool) (e : Entry) (idx : Nat) (g : Gctx) : Bool × Gctx :=
  if g.pos = idx then
    match filldir64 fault g e with
    | (false, g) => (false, g)
    | (true, g) => (true, { g with pos := idx + 1 })
  else (true, g)

def tmpfsIterate (n : Node) (fault : Nat → Bool) (g : Gctx) : Int × Gctx :=
  match iterateDot fault n.dot 0 g with
  | (false, g) => (0, g)
  | (true, g) =>
    match iterateDot fault n.dotdot 1 g with
    | (false, g) => (0, g)
    | (true, g) => (0, iterateEntries fault n.entries 2 g)

def addEntry (es : List Entry) (e : Entry) : List Entry := if e.name.length > NAME_MAX then es else es ++ [e]

def create (es : List Entry) (e : Entry) : List Entry :=
  if es.any (·.name = e.name) then es else addEntry es e

def removeEntry (es : List Entry) (name : List UInt8) : List Entry := es.eraseP (·.name = name)

def Node.listing (n : Node) : List Entry := n.dot :: n.dotdot :: n.entries

def handOut (fault : Nat → Bool) : List Entry → Gctx → Gctx
  | [], g => g
  | e :: es, g =>
    match filldir64 fault g e with
    | (false, g) => g
    | (true, g') => handOut fault es { g' with pos := g.pos + 1 }

variable {fault : Nat → Bool} {g : Gctx} {n : Node}

theorem iterateEntries_eq (es : List Entry) (idx : Nat) (h : idx ≤ g.pos) :
    iterateEntries fault es idx g = handOut fault (es.drop (g.pos - idx)) g := by
  induction es generalizing idx g with
  | nil => rw [drop_nil]; rfl
  | cons e es ih =>
  unfold iterateEntries
  split
  · rename_i hlt
    rw [ih (idx + 1) (by omega), show g.pos - idx = (g.pos - (idx + 1)) + 1 by omega, drop_succ_cons]
  have hpos : idx = g.pos := by omega
  subst hpos
  rw [Nat.sub_self, drop_zero, handOut]
  split
  · rfl
  rename_i g' _
  have hrest := ih (g := { g' with pos := g.pos + 1 }) (g.pos + 1) (Nat.le_refl _)
  rw [Nat.sub_self, drop_zero] at hrest
  exact hrest

theorem tmpfsIterate_eq : tmpfsIterate n fault g = (0, handOut fault (n.listing.drop g.pos) g) := by
  -- from a position behind the two dots on
  have hentries : ∀ g : Gctx, 2 ≤ g.pos →
      iterateEntries fault n.entries 2 g = handOut fault (n.listing.drop g.pos) g := by
    intro g hg
    rw [iterateEntries_eq n.entries 2 hg, Node.listing, show g.pos = (g.pos - 2) + 1 + 1 by omega, drop_succ_cons,
      drop_succ_cons]
    rfl
  have hone : ∀ g : Gctx, 1 ≤ g.pos → (match iterateDot fault n.dotdot 1 g with
      | (false, g) => (0, g)
      | (true, g) => (0, iterateEntries fault n.entries 2 g) : Int × Gctx) = (0, handOut fault (n.listing.drop g.pos) g) := by
    intro g hg
    unfold iterateDot
    by_cases h1 : g.pos = 1
    · rw [if_pos h1, h1]
      show _ = ((0 : Int), handOut fault (n.dotdot :: n.entries) g)
      rw [handOut]
      cases hfill : filldir64 fault g n.dotdot with
      | mk ok g' =>
      cases ok with
      | false => rfl
      | true =>
        rw [h1]
        exact congrArg (Prod.mk (0 : Int)) (hentries { g' with pos := 2 } (Nat.le_refl 2))
    · rw [if_neg h1]
      exact congrArg (Prod.mk (0 : Int)) (hentries g (by omega))
  unfold tmpfsIterate
  by_cases h0 : g.pos = 0
  · unfold iterateDot
    rw [if_pos h0, h0]
    show _ = ((0 : Int), handOut fault (n.dot :: n.dotdot :: n.entries) g)
    rw [handOut]
    cases hfill : filldir64 fault g n.dot with
    | mk ok g' =>
    cases ok with
    | false => rfl
    | true =>
      rw [h0]
      exact hone { g' with pos := 1 } (Nat.le_refl 1)
  have hskip : iterateDot fault n.dot 0 g = (true, g) := if_neg h0
  rw [hskip]
  exact hone g (by omega)

structure Handed (es : List Entry) (g g' : Gctx) (j : Nat) : Prop where
  le : j ≤ es.length
  pos : g'.pos = g.pos + j
  recs : g'.recs = g.recs ++ ((es.take j).zipIdx g.pos).map fun p => ⟨p.1, p.2 + 1⟩
  used : g'.used = g.used + ((es.take j).map reclen).sum
  refused : j < es.length → g'.used = 0 → g'.err ≠ 0

theorem reclen_pos (e : Entry) : 0 < reclen e := by
  unfold reclen
  omega

theorem handOut_handed (fault : Nat → Bool) (es : List Entry) (g : Gctx) : ∃ j, Handed es g (handOut fault es g) j := by
  induction es generalizing g with
  | nil => exact ⟨0, Nat.le_refl 0, rfl, by simp [handOut], rfl, fun h => absurd h (Nat.lt_irrefl 0)⟩
  | cons e es ih =>
  unfold handOut filldir64
  by_cases hfit : g.used + reclen e > g.size
  · rw [if_pos hfit]
    refine ⟨0, Nat.zero_le _, ?_, ?_, ?_, fun _ hz => ?_⟩ <;> dsimp only at *
    · split <;> rfl
    · split <;> simp
    · split <;> rfl
    split
    · exact (show (- EINVAL : Int) ≠ 0 by decide)
    · rename_i hne
      rw [if_neg hne] at hz
      exact absurd hz hne
  rw [if_neg hfit]
  by_cases hfault : fault g.used = true
  · rw [if_pos hfault]
    exact ⟨0, Nat.zero_le _, rfl, by simp, rfl, fun _ _ => by dsimp only; decide⟩
  rw [if_neg hfault]
  obtain ⟨j, hle, hpos, hrecs, hused, hrefused⟩ := ih { g with
    used := g.used + reclen e, recs := g.recs ++ [⟨e, g.pos + 1⟩], pos := g.pos + 1 }
  dsimp only at hpos hrecs hused ⊢
  refine ⟨j + 1, Nat.succ_le_succ hle, by omega, ?_, ?_, fun hlt hz => hrefused (Nat.lt_of_succ_lt_succ hlt) hz⟩
  · rw [hrecs, take_succ_cons, zipIdx_cons, map_cons, append_assoc]
    rfl
  · rw [hused, take_succ_cons, map_cons, sum_cons]
    omega

theorem getdents_handed (n : Node) (fault : Nat → Bool) (pos count : Nat) :
    ∃ j ≤ (n.listing.drop pos).length, (sysGetdents64 (tmpfsIterate n fault) pos count).2.1 = pos + j ∧
      (sysGetdents64 (tmpfsIterate n fault) pos count).2.2 =
        (((n.listing.drop pos).take j).zipIdx pos).map (fun p => ⟨p.1, p.2 + 1⟩) ∧
      ((sysGetdents64 (tmpfsIterate n fault) pos count).1 = 0 → n.listing.drop pos = []) := by
  obtain ⟨j, hle, hpos, hrecs, hused, hrefused⟩ := handOut_handed fault (n.listing.drop pos) ⟨pos, count, 0, 0, []⟩
  have hrun : sysGetdents64 (tmpfsIterate n fault) pos count =
      (let g := handOut fault (n.listing.drop pos) ⟨pos, count, 0, 0, []⟩
      (if g.err ≠ 0 ∧ g.used = 0 then g.err else g.used, g.pos, g.recs)) := by
    unfold sysGetdents64
    rw [tmpfsIterate_eq]
    rfl
  rw [hrun]
  generalize handOut fault (n.listing.drop pos) ⟨pos, count, 0, 0, []⟩ = g at *
  dsimp only at *
  refine ⟨j, hle, hpos, hrecs, fun hz => ?_⟩
  have hused0 : g.used = 0 := by
    split at hz
    · rename_i h
      exact h.2
    · omega
  by_contra hne
  have hlt := length_pos_iff.mpr hne
  by_cases hj : j = 0
  · have herr := hrefused (by omega) hused0
    rw [if_pos ⟨herr, hused0⟩] at hz
    exact herr hz
  obtain ⟨e, es, hes⟩ := exists_cons_of_ne_nil hne
  obtain ⟨i, rfl⟩ := Nat.exists_eq_succ_of_ne_zero hj
  rw [hes, Nat.succ_eq_add_one, take_succ_cons, map_cons, sum_cons] at hused
  have := reclen_pos e
  omega

structure Reading where
  node : Node
  pos : Nat
  returned : List Entry

inductive Event where
  | getdents (count : Nat) (fault : Nat → Bool)
  | create (e : Entry)
  | remove (name : List UInt8)

def Reading.step (s : Reading) : Event → Reading
  | .getdents count fault =>
    let (_, pos, recs) := sysGetdents64 (tmpfsIterate s.node fault) s.pos count
    { s with pos := pos, returned := s.returned ++ recs.map (·.entry) }
  | .create e => { s with node := { s.node with entries := Getdents.create s.node.entries e } }
  | .remove name => { s with node := { s.node with entries := removeEntry s.node.entries name } }

def Reading.run (s : Reading) (evs : List Event) : Reading := evs.foldl Reading.step s

def Reading.opened (n : Node) : Reading := ⟨n, 0, []⟩

-- No entry is removed that has been passed already.
def Ahead (s : Reading) : List Event → Prop
  | [] => True
  | ev :: evs => (∀ name, ev = .remove name → ∀ e ∈ s.node.listing.take s.pos, e.name ≠ name) ∧ Ahead (s.step ev) evs

structure InStep (s : Reading) : Prop where
  names : (s.node.entries.map (·.name)).Nodup
  pos : s.pos ≤ s.node.listing.length
  returned : s.returned = s.node.listing.take s.pos

variable {s : Reading}

theorem getdents_inStep (h : InStep s) (count : Nat) (fault : Nat → Bool) :
    InStep (s.step (.getdents count fault)) := by
  obtain ⟨j, hle, hpos, hrecs, -⟩ := getdents_handed s.node fault s.pos count
  have hstep : s.step (.getdents count fault) = { s with
      pos := s.pos + j, returned := s.returned ++ (s.node.listing.drop s.pos).take j } := by
    unfold Reading.step
    dsimp only
    rw [hpos, hrecs, map_map]
    congr 2
    exact zipIdx_map_fst s.pos _
  have hp := h.pos
  rw [length_drop] at hle
  rw [hstep]
  refine ⟨h.names, by dsimp only; omega, ?_⟩
  dsimp only
  rw [h.returned, take_add]

theorem create_inStep (h : InStep s) (e : Entry) : InStep (s.step (.create e)) := by
  unfold Reading.step create addEntry
  dsimp only
  split
  · exact h
  split
  · exact h
  rename_i hnew _
  have hlist : ({ s.node with entries := s.node.entries ++ [e] } : Node).listing = s.node.listing ++ [e] := rfl
  refine ⟨?_, ?_, ?_⟩
  · rw [map_append, map_singleton, nodup_append]
    refine ⟨h.names, by simp, fun x hx y hy heq => hnew ?_⟩
    obtain ⟨e', he', rfl⟩ := mem_map.mp hx
    rw [mem_singleton.mp hy] at heq
    exact any_eq_true.mpr ⟨e', he', by simpa using heq⟩
  · have hp := h.pos
    rw [hlist, length_append]
    dsimp only
    omega
  · rw [hlist, take_append_of_le_length h.pos]
    exact h.returned

theorem remove_inStep (h : InStep s) {name : List UInt8}
    (hahead : ∀ e ∈ s.node.listing.take s.pos, e.name ≠ name) : InStep (s.step (.remove name)) := by
  unfold Reading.step removeEntry
  dsimp only
  obtain ⟨n, pos, returned⟩ := s
  obtain ⟨hnames, hpos, hret⟩ := h
  dsimp only at *
  have hnames' : ((n.entries.eraseP (·.name = name)).map (·.name)).Nodup :=
    hnames.sublist (eraseP_sublist.map _)
  match pos with
  | 0 => exact ⟨hnames', Nat.zero_le _, hret⟩
  | 1 => exact ⟨hnames', by simp [Node.listing], hret⟩
  | k + 2 =>
    have hk : k ≤ n.entries.length := by
      simp only [Node.listing, length_cons] at hpos
      omega
    -- the entries in front of the position stay
    have hfront : n.entries.eraseP (·.name = name) = n.entries.take k ++ (n.entries.drop k).eraseP (·.name = name) := by
      conv_lhs => rw [← take_append_drop k n.entries]
      refine eraseP_append_right _ fun e he hname => ?_
      refine hahead e ?_ (by simpa using hname)
      simp only [Node.listing, take_succ_cons, mem_cons]
      exact .inr (.inr he)
    have hlen : (n.entries.take k).length = k := length_take_of_le hk
    refine ⟨hnames', ?_, ?_⟩
    · simp only [Node.listing, hfront, length_cons, length_append, hlen]
      omega
    simp only [Node.listing, hfront, take_succ_cons] at hret ⊢
    rw [take_left' hlen]
    exact hret

theorem run_inStep (h : InStep s) (evs : List Event) (hahead : Ahead s evs) : InStep (s.run evs) := by
  induction evs generalizing s with
  | nil => exact h
  | cons ev evs ih =>
  refine ih ?_ hahead.2
  cases ev with
  | getdents count fault => exact getdents_inStep h count fault
  | create e => exact create_inStep h e
  | remove name => exact remove_inStep h (hahead.1 name rfl)

theorem step_keeps {e : Entry} (h : e ∈ s.node.entries) (ev : Event) (hev : ev ≠ .remove e.name) :
    e ∈ (s.step ev).node.entries := by
  cases ev with
  | getdents count fault => exact h
  | create e' =>
    show e ∈ create s.node.entries e'
    unfold create addEntry
    split
    · exact h
    split
    · exact h
    · exact mem_append_left _ h
  | remove name =>
    have hne : name ≠ e.name := fun heq => hev (heq ▸ rfl)
    exact (mem_eraseP_of_neg (by simpa using Ne.symm hne)).mpr h

theorem run_keeps {e : Entry} (h : e ∈ s.node.entries) (evs : List Event)
    (hevs : ∀ ev ∈ evs, ev ≠ .remove e.name) : e ∈ (s.run evs).node.entries := by
  induction evs generalizing s with
  | nil => exact h
  | cons ev evs ih =>
    exact ih (step_keeps h ev (hevs ev mem_cons_self)) fun ev' hev' => hevs ev' (mem_cons_of_mem _ hev')

theorem step_dots (s : Reading) (ev : Event) :
    (s.step ev).node.dot = s.node.dot ∧ (s.step ev).node.dotdot = s.node.dotdot := by
  cases ev <;> exact ⟨rfl, rfl⟩

theorem run_dots (s : Reading) (evs : List Event) :
    (s.run evs).node.dot = s.node.dot ∧ (s.run evs).node.dotdot = s.node.dotdot := by
  induction evs generalizing s with
  | nil => exact ⟨rfl, rfl⟩
  | cons ev evs ih =>
    obtain ⟨h1, h2⟩ := ih (s.step ev)
    obtain ⟨h3, h4⟩ := step_dots s ev
    exact ⟨h1.trans h3, h2.trans h4⟩

-- As long as no entry is removed that has been passed, a reader who comes to the end has got
-- each entry that was there all the time exactly once.
theorem listing_exactly_once (n : Node) (hn : (n.listing.map (·.name)).Nodup) (evs : List Event)
    (hahead : Ahead (.opened n) evs) (count : Nat) (fault : Nat → Bool)
    (hend : (sysGetdents64 (tmpfsIterate ((Reading.opened n).run evs).node fault) ((Reading.opened n).run evs).pos count).1 = 0)
    (e : Entry) (he : e ∈ n.entries) (hkept : ∀ ev ∈ evs, ev ≠ .remove e.name) :
    (((Reading.opened n).run evs).step (.getdents count fault)).returned.count e = 1 := by
  rw [Node.listing, map_cons, map_cons, nodup_cons, nodup_cons] at hn
  obtain ⟨hdot, hdotdot, hnames⟩ := hn
  have hstep : InStep ((Reading.opened n).run evs) := run_inStep ⟨hnames, Nat.zero_le _, rfl⟩ evs hahead
  obtain ⟨h1, h2⟩ : _ = n.dot ∧ _ = n.dotdot := run_dots (.opened n) evs
  have hin := run_keeps (s := .opened n) he evs hkept
  generalize (Reading.opened n).run evs = s at *
  obtain ⟨j, hle, -, hrecs, hlast⟩ := getdents_handed s.node fault s.pos count
  have hnil := hlast hend
  -- the last call returns nothing, and everything has been returned before
  have hall : (s.step (.getdents count fault)).returned = s.node.listing := by
    have hp := drop_eq_nil_iff.mp hnil
    show s.returned ++ (sysGetdents64 (tmpfsIterate s.node fault) s.pos count).2.2.map (·.entry) = _
    rw [hrecs, hnil, hstep.returned, take_of_length_le hp, take_nil, zipIdx_nil, map_nil, map_nil, append_nil]
  have hne : ∀ {x : Entry}, x.name ∉ n.entries.map (·.name) → (x == e) = false := by
    intro x hx
    rw [beq_eq_false_iff_ne]
    rintro rfl
    exact hx (mem_map_of_mem he)
  rw [hall, Node.listing, h1, h2, count_cons, count_cons, hne hdotdot, hne fun hx => hdot (mem_cons_of_mem _ hx)]
  exact count_eq_one_of_mem (hstep.names.of_map _) hin

def abc : Node := ⟨1, none, [⟨[97], 2, 8⟩, ⟨[98], 3, 8⟩, ⟨[99], 4, 8⟩]⟩

theorem listing_exactly_once_abc :
    (((Reading.opened abc).run [.getdents 72 fun _ => false, .create ⟨[100], 5, 8⟩, .remove [98],
      .getdents 1000 fun _ => false]).step (.getdents 24 fun _ => false)).returned.count ⟨[97], 2, 8⟩ = 1 :=
  listing_exactly_once abc (by decide) [.getdents 72 fun _ => false, .create ⟨[100], 5, 8⟩, .remove [98],
    .getdents 1000 fun _ => false] (by simp [Ahead]; decide) 24 (fun _ => false) (by decide) ⟨[97], 2, 8⟩ (by decide) (by simp)

theorem removal_hides_entry :
    let evs : List Event := [.getdents 72 fun _ => false, .remove [97], .getdents 1000 fun _ => false]
    let s := (Reading.opened abc).run evs
    (sysGetdents64 (tmpfsIterate s.node fun _ => false) s.pos 1000).1 = 0 ∧ ⟨[98], 3, 8⟩ ∈ s.node.entries ∧
      (s.step (.getdents 1000 fun _ => false)).returned.count ⟨[98], 3, 8⟩ = 0 := by
  decide

end Olux.Getdents
