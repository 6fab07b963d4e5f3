import Olux.Unix.Lifetime

namespace Olux.Unix.Lifetime

open Function List

-- The pointers between the sockets. What is reached is not released: the sockets that are bound,
-- embryos, and the peers of streams, which come in pairs; a datagram socket may point to one
-- that is.
structure Shape (g : Graph) : Prop where
  lt : ∀ u, (g.cell u).sock = true → u < g.n
  file : ∀ u, (g.cell u).file = true → (g.cell u).sock = true ∧ (g.cell u).state ≠ .closed ∧
    (g.cell u).closing = false ∧ (g.cell u).parent = none
  released : ∀ u, (g.cell u).sock = false → (g.cell u).state = .closed ∧ (g.cell u).peer = none ∧
    (g.cell u).backlog = []
  peer : ∀ u p, (g.cell u).peer = some p → p < g.n ∧ (g.cell p).type = (g.cell u).type
  pairs : ∀ u p, (g.cell u).peer = some p → (g.cell u).type ≠ .dgram → (g.cell p).peer = some u ∧ p ≠ u
  single : ∀ u, (g.cell u).type ≠ .dgram → (g.cell u).state = .unconnected ∨ (g.cell u).state = .listening →
    (g.cell u).peer = none
  bound : ∀ j ∈ g.bound, (g.cell j).sock = true ∧ (g.cell j).addr ≠ none ∧ (g.cell j).parent = none ∧
    (g.cell j).closing = false
  nodup : g.bound.Nodup
  backlog : ∀ j e, e ∈ (g.cell j).backlog ↔ (g.cell e).parent = some j
  distinct : ∀ j, (g.cell j).backlog.Nodup
  embryo : ∀ e j, (g.cell e).parent = some j → (g.cell e).sock = true ∧ (g.cell e).closing = false ∧
    (g.cell e).state ≠ .closed
  connects : ∀ x ∈ g.connects, (g.cell x.1).file = true ∧ (g.cell x.1).type ≠ .dgram ∧ x.2 < g.n
  binds : ∀ x ∈ g.binds, (g.cell x.1).file = true

theorem set_cell (g : Graph) (j k : Nat) (c : Cell) : (g.set j c).cell k = if k = j then c else g.cell k :=
  update_apply ..

section

variable {g : Graph} {u e p t : Nat}

theorem Shape.retouch (h : Shape g) {c : Cell} (htype : c.type = (g.cell u).type) (hsock : c.sock = (g.cell u).sock)
    (hpeer : c.peer = (g.cell u).peer) (hbacklog : c.backlog = (g.cell u).backlog)
    (hparent : c.parent = (g.cell u).parent) (hfile : c.file = (g.cell u).file) (hclosing : c.closing = (g.cell u).closing)
    (haddr : (g.cell u).addr ≠ none → c.addr ≠ none)
    (hstate : c.state = (g.cell u).state ∨ (g.cell u).peer = none ∧ (g.cell u).sock = true ∧ c.state ≠ .closed) :
    Shape (g.set u c) := by
  cases h
  refine .mk ?_ ?_ ?_ ?_ ?_ ?_ ?_ ‹_› ?_ ?_ ?_ ?_ ?_
  all_goals simp only [set_cell]
  all_goals grind [Graph.set, Cell.withPeer, Cell.joined]

theorem Shape.new (h : Shape g) (type : SockType) (file : Bool) :
    Shape { g.set g.n (Cell.new type file) with n := g.n + 1 } := by
  have hnone : (g.cell g.n).sock = false := eq_false_of_ne_true fun hs => Nat.lt_irrefl _ (h.lt _ hs)
  cases h
  refine .mk ?_ ?_ ?_ ?_ ?_ ?_ ?_ ‹_› ?_ ?_ ?_ ?_ ?_
  all_goals simp only [set_cell]
  all_goals grind [Graph.set, Cell.new]

theorem Shape.repeer (h : Shape g) (hu : (g.cell u).sock = true) (htype : (g.cell u).type = .dgram) {peer : Option Nat}
    (hpeer : ∀ p, peer = some p → p < g.n ∧ (g.cell p).type = .dgram) : Shape (g.set u ((g.cell u).withPeer peer)) := by
  cases h
  refine .mk ?_ ?_ ?_ ?_ ?_ ?_ ?_ ‹_› ?_ ?_ ?_ ?_ ?_
  all_goals simp only [set_cell]
  all_goals grind [Graph.set, Cell.withPeer, Cell.joined]

theorem Shape.pair (h : Shape g) (hne : u ≠ e) (hu : (g.cell u).sock = true) (he : (g.cell e).sock = true)
    (htype : (g.cell e).type = (g.cell u).type) (hup : (g.cell u).peer = none) (hep : (g.cell e).peer = none) :
    Shape ((g.set u ((g.cell u).joined e)).set e ((g.cell e).joined u)) := by
  cases h
  refine .mk ?_ ?_ ?_ ?_ ?_ ?_ ?_ ‹_› ?_ ?_ ?_ ?_ ?_
  all_goals simp only [set_cell]
  all_goals grind [Graph.set, Cell.withPeer, Cell.joined]

theorem Shape.adopt (h : Shape g) (hne : t ≠ e) (ht : (g.cell t).sock = true) (he : (g.cell e).sock = true)
    (hfile : (g.cell e).file = false) (hclosing : (g.cell e).closing = false) (hstate : (g.cell e).state ≠ .closed)
    (hparent : (g.cell e).parent = none) (hbound : e ∉ g.bound) {ct ce : Cell} {k : Int}
    (hct : ct = { g.cell t with backlog := (g.cell t).backlog ++ [e], nbacklog := k })
    (hce : ce = { g.cell e with parent := some t }) : Shape ((g.set t ct).set e ce) := by
  have hnotin : e ∉ (g.cell t).backlog := fun hin => nomatch hparent.symm.trans ((h.backlog t e).mp hin)
  subst hct hce
  cases h
  refine .mk ?_ ?_ ?_ ?_ ?_ ?_ ?_ ‹_› ?_ ?_ ?_ ?_ ?_
  all_goals simp only [set_cell]
  all_goals grind [Graph.set, Cell.withPeer, Cell.joined]

theorem Shape.pop (h : Shape g) {rest : List Nat} (hrest : (g.cell u).backlog = e :: rest) (hne : u ≠ e)
    (file closing : Bool) (hone : file = true → closing = false) {cu ce : Cell} {k : Int}
    (hcu : cu = { g.cell u with backlog := rest, nbacklog := k })
    (hce : ce = { g.cell e with parent := none, file, closing }) : Shape ((g.set u cu).set e ce) := by
  have hparent : (g.cell e).parent = some u := (h.backlog u e).mp (hrest ▸ mem_cons_self)
  have hnd' := h.distinct u
  rw [hrest, nodup_cons] at hnd'
  subst hcu hce
  cases h
  refine .mk ?_ ?_ ?_ ?_ ?_ ?_ ?_ ‹_› ?_ ?_ ?_ ?_ ?_
  all_goals simp only [set_cell]
  all_goals grind [Graph.set, Cell.withPeer, Cell.joined]

theorem Shape.bind (h : Shape g) (hfile : (g.cell u).file = true) (hnew : u ∉ g.bound) {c : Cell} {addr : Nat}
    (hc : c = { g.cell u with addr := some addr }) : Shape { g.set u c with bound := u :: g.bound } := by
  subst hc
  cases h
  refine .mk ?_ ?_ ?_ ?_ ?_ ?_ ?_ (nodup_cons.mpr ⟨hnew, ‹_›⟩) ?_ ?_ ?_ ?_ ?_
  all_goals simp only [set_cell]
  all_goals grind [Graph.set, Cell.withPeer, Cell.joined]

theorem Shape.beginRelease (h : Shape g) (hfile : (g.cell u).file = true) (hidle : idle g u = true) {c : Cell}
    (hc : c = { g.cell u with state := .closed, file := false, closing := true }) :
    Shape { g.set u c with bound := g.bound.erase u } := by
  unfold idle at hidle
  rw [Bool.and_eq_true, all_eq_true, all_eq_true] at hidle
  have hnd' := h.nodup.erase u
  subst hc
  cases h
  refine .mk ?_ ?_ ?_ ?_ ?_ ?_ ?_ hnd' ?_ ?_ ?_ ?_ ?_
  all_goals simp only [set_cell]
  all_goals grind [Graph.set, Cell.withPeer, Cell.joined]

theorem Shape.leave (h : Shape g) (hclosing : (g.cell u).closing = true) (hbacklog : (g.cell u).backlog = [])
    (halone : (g.cell u).type = .dgram ∨ (g.cell u).peer = none) : Shape (g.set u (g.cell u).dead) := by
  cases h
  refine .mk ?_ ?_ ?_ ?_ ?_ ?_ ?_ ‹_› ?_ ?_ ?_ ?_ ?_
  all_goals simp only [set_cell]
  all_goals grind [Graph.set, Cell.withPeer, Cell.dead]

theorem Shape.part (h : Shape g) (hclosing : (g.cell u).closing = true) (hbacklog : (g.cell u).backlog = [])
    (hpeer : (g.cell u).peer = some p) (htype : (g.cell u).type ≠ .dgram) :
    Shape ((g.set p ((g.cell p).withPeer none)).set u (g.cell u).dead) := by
  have hpair := h.pairs u p hpeer htype
  cases h
  refine .mk ?_ ?_ ?_ ?_ ?_ ?_ ?_ ‹_› ?_ ?_ ?_ ?_ ?_
  all_goals simp only [set_cell]
  all_goals grind [Graph.set, Cell.withPeer, Cell.dead]

theorem Shape.calls (h : Shape g) {connects binds : List (Nat × Nat)}
    (hconnects : ∀ x ∈ connects, (g.cell x.1).file = true ∧ (g.cell x.1).type ≠ .dgram ∧ x.2 < g.n)
    (hbinds : ∀ x ∈ binds, (g.cell x.1).file = true) : Shape { g with connects, binds } :=
  ⟨h.lt, h.file, h.released, h.peer, h.pairs, h.single, h.bound, h.nodup, h.backlog, h.distinct, h.embryo, hconnects,
    hbinds⟩

end

theorem boot_shape : Shape boot.graph := by
  refine ⟨fun u h => (nomatch h), fun u h => (nomatch h), fun u _ => ⟨rfl, rfl, rfl⟩, fun u p h => (nomatch h),
    fun u p h => (nomatch h), fun u _ h => ?_, fun j h => absurd h not_mem_nil, nodup_nil, fun j e => ?_,
    fun j => nodup_nil, fun e j h => (nomatch h), fun x h => absurd h not_mem_nil,
    fun x h => absurd h not_mem_nil⟩
  · rfl
  · exact iff_of_false not_mem_nil nofun

end Olux.Unix.Lifetime
