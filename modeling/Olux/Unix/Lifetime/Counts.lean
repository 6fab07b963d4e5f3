import Olux.Unix.Lifetime.Shape
import Olux.Lib.Sum

namespace Olux.Unix.Lifetime

open Function List Option

def links (g : Graph) (j : Nat) : Nat :=
  (List.range g.n).countP fun u => (g.cell u).type == .dgram && (g.cell u).peer == some j

def own (c : Cell) : Nat := if c.sock then 1 else 0

def total (g : Graph) (j : Nat) : Nat := own (g.cell j) + links g j

def bit (c : Cell) (j : Nat) : Nat := (c.type == .dgram && c.peer == some j).toNat

section

variable {g : Graph} {u j : Nat} {c : Cell}

theorem links_set (hu : u < g.n) : links (g.set u c) j + bit (g.cell u) j = links g j + bit c j := by
  have hchange := Lib.countP_change (nodup_range (n := g.n)) (mem_range.mpr hu)
    (fun v => ((g.set u c).cell v).type == .dgram && ((g.set u c).cell v).peer == some j)
    (fun v => (g.cell v).type == .dgram && (g.cell v).peer == some j) fun v _ hv => by
      rw [set_cell, if_neg hv]
  rw [set_cell, if_pos rfl] at hchange
  exact hchange

theorem total_set (hu : u < g.n) : total (g.set u c) j + bit (g.cell u) j + (if j = u then own (g.cell u) else 0) =
    total g j + bit c j + (if j = u then own c else 0) := by
  have hlinks := links_set (j := j) (c := c) hu
  unfold total
  rw [set_cell]
  split
  · rename_i hj
    subst hj
    omega
  · omega

theorem total_same (hu : u < g.n) (htype : c.type = (g.cell u).type) (hpeer : c.peer = (g.cell u).peer)
    (hsock : c.sock = (g.cell u).sock) : total (g.set u c) j = total g j := by
  have hset := total_set (j := j) (c := c) hu
  have hbit : bit c j = bit (g.cell u) j := by
    unfold bit
    rw [htype, hpeer]
  have hown : own c = own (g.cell u) := by
    unfold own
    rw [hsock]
  rw [hbit, hown] at hset
  omega

theorem total_new (type : SockType) (file : Bool) (h : Shape g) :
    total { g.set g.n (Cell.new type file) with n := g.n + 1 } j = if j = g.n then 1 else total g j := by
  have hrange : links { g.set g.n (Cell.new type file) with n := g.n + 1 } j = links g j := by
    unfold links
    rw [range_succ, countP_append]
    have hlast : ([g.n].countP fun u => ((g.set g.n (Cell.new type file)).cell u).type == .dgram &&
        ((g.set g.n (Cell.new type file)).cell u).peer == some j) = 0 := by
      rw [countP_eq_zero]
      intro v hv
      rw [mem_singleton.mp hv, set_cell, if_pos rfl]
      simp [Cell.new]
    dsimp only
    rw [hlast, Nat.add_zero]
    refine countP_congr fun v hv => ?_
    rw [set_cell, if_neg (Nat.ne_of_lt (mem_range.mp hv))]
  have hzero : links g g.n = 0 := by
    unfold links
    rw [countP_eq_zero]
    intro v _ hv
    rw [Bool.and_eq_true, beq_iff_eq, beq_iff_eq] at hv
    exact Nat.lt_irrefl _ (h.peer v g.n hv.2).1
  unfold total
  rw [hrange]
  dsimp only
  rw [set_cell]
  split
  · rename_i hj
    rw [hj, hzero]
    rfl
  · rfl

theorem bit_of_ne {c : Cell} (h : c.peer ≠ some j) : bit c j = 0 := by
  unfold bit
  rw [beq_eq_false_iff_ne.mpr h, Bool.and_false]
  rfl

theorem bit_self {p : Nat} (htype : c.type = .dgram) (hpeer : c.peer = some p) : bit c j = if j = p then 1 else 0 := by
  unfold bit
  rw [htype, hpeer]
  by_cases hj : j = p
  · subst hj
    simp
  · rw [if_neg hj, beq_eq_false_iff_ne.mpr fun he => hj (some.inj he).symm]
    rfl

theorem bit_stream (htype : c.type ≠ .dgram) : bit c j = 0 := by
  unfold bit
  rw [beq_eq_false_iff_ne.mpr htype]
  rfl

theorem total_pair {e : Nat} (hu : u < g.n) (he : e < g.n) (hne : e ≠ u) (hup : (g.cell u).peer = none)
    (hep : (g.cell e).peer = none) : total ((g.set u ((g.cell u).joined e)).set e ((g.cell e).joined u)) j =
      total g j + bit ((g.cell u).joined e) j + bit ((g.cell e).joined u) j := by
  have hset := total_set (j := j) (c := (g.cell u).joined e) hu
  have hset' := total_set (g := g.set u ((g.cell u).joined e)) (u := e) (j := j) (c := (g.cell e).joined u) he
  rw [set_cell, if_neg hne] at hset'
  have hold : bit (g.cell u) j = 0 := bit_of_ne (by rw [hup]; exact nofun)
  have hold' : bit (g.cell e) j = 0 := bit_of_ne (by rw [hep]; exact nofun)
  have hown : own ((g.cell u).joined e) = own (g.cell u) := rfl
  have hown' : own ((g.cell e).joined u) = own (g.cell e) := rfl
  rw [hown] at hset
  rw [hown'] at hset'
  omega

theorem total_withPeer (hu : u < g.n) (peer : Option Nat) :
    total (g.set u ((g.cell u).withPeer peer)) j + bit (g.cell u) j = total g j + bit ((g.cell u).withPeer peer) j := by
  have hset := total_set (j := j) (c := (g.cell u).withPeer peer) hu
  have hown : own ((g.cell u).withPeer peer) = own (g.cell u) := rfl
  rw [hown] at hset
  omega

theorem total_dead (hu : u < g.n) (hsock : (g.cell u).sock = true) :
    total (g.set u (g.cell u).dead) j + bit (g.cell u) j + (if j = u then 1 else 0) = total g j := by
  have hset := total_set (j := j) (c := (g.cell u).dead) hu
  have hown : own (g.cell u) = 1 := if_pos hsock
  have hdead : own (g.cell u).dead = 0 := rfl
  have hbit : bit (g.cell u).dead j = 0 := bit_of_ne nofun
  rw [hown, hdead, hbit] at hset
  split at hset
  · rename_i hj
    rw [if_pos hj]
    omega
  rename_i hj
  rw [if_neg hj]
  omega

theorem links_pos (hu : u < g.n) (htype : (g.cell u).type = .dgram) (hpeer : (g.cell u).peer = some j) :
    1 ≤ links g j := by
  refine countP_pos_iff.mpr ⟨u, mem_range.mpr hu, ?_⟩
  rw [htype, hpeer]
  simp

end

-- The counts are right up to `d`, no freed usock was accessed, and a usock was freed, once, when
-- its count came to 0.
structure Debt (s : State) (d : Nat → Int) : Prop where
  refs : ∀ j, j < s.graph.n → s.refs j = total s.graph j + d j
  freed : ∀ j, j < s.graph.n → s.freed j = if s.refs j = 0 then 1 else 0
  fresh : ∀ j, s.graph.n ≤ j → s.freed j = 0
  safe : s.oops = false

section

variable {s : State} {d d' : Nat → Int} {j : Nat}

theorem Debt.alive (h : Debt s d) (hj : j < s.graph.n) (hpos : 1 ≤ s.refs j) : s.freed j = 0 := by
  rw [h.freed j hj, if_neg (by omega)]

theorem touch_of_alive (h : s.freed j = 0) : touch j s = s := by
  unfold touch
  rw [h]
  simp

theorem useSock_of_alive (h : s.freed j = 0) (hsock : (s.cell j).sock = true) : useSock j s = s := by
  unfold useSock
  rw [touch_of_alive h, hsock]
  simp

theorem modify_of_alive (h : s.freed j = 0) (f : Cell → Cell) :
    modify j f s = { s with graph := s.graph.set j (f (s.cell j)) } := by
  unfold modify
  rw [touch_of_alive h]

theorem Debt.congr (h : Debt s d) (hd : ∀ j, j < s.graph.n → d j = d' j) : Debt s d' :=
  ⟨fun j hj => by rw [← hd j hj]; exact h.refs j hj, h.freed, h.fresh, h.safe⟩

theorem Debt.regraph (h : Debt s d) {g : Graph} (hn : g.n = s.graph.n)
    (hd : ∀ j, j < s.graph.n → total g j + d' j = total s.graph j + d j) : Debt { s with graph := g } d' := by
  refine ⟨fun j hj => ?_, fun j hj => ?_, fun j hj => ?_, h.safe⟩
  · dsimp only at hj ⊢
    rw [hn] at hj
    rw [h.refs j hj]
    exact (hd j hj).symm
  · dsimp only at hj
    rw [hn] at hj
    exact h.freed j hj
  dsimp only at hj
  rw [hn] at hj
  exact h.fresh j hj

theorem Debt.uput (h : Debt s d) (hj : j < s.graph.n) (hpos : 1 ≤ s.refs j) :
    Debt (uput j s) fun k => d k - if k = j then 1 else 0 := by
  have halive := h.alive hj hpos
  unfold Lifetime.uput
  rw [touch_of_alive halive]
  refine ⟨fun k hk => ?_, fun k hk => ?_, fun k hk => ?_, h.safe⟩
  · dsimp only at hk ⊢
    have hrefs := h.refs k hk
    rw [update_apply]
    split
    · rename_i hkj
      subst hkj
      omega
    · omega
  · show update s.freed j _ k = if update s.refs j (s.refs j - 1) k = 0 then 1 else 0
    rw [update_apply, update_apply]
    split
    · rw [halive]
    · exact h.freed k hk
  dsimp only at hk ⊢
  rw [update_apply, if_neg (by omega)]
  exact h.fresh k hk

theorem Debt.uget (h : Debt s d) (hj : j < s.graph.n) (hpos : 1 ≤ s.refs j) :
    Debt (uget j s) fun k => d k + if k = j then 1 else 0 := by
  have halive := h.alive hj hpos
  unfold Lifetime.uget
  rw [touch_of_alive halive]
  refine ⟨fun k hk => ?_, fun k hk => ?_, h.fresh, h.safe⟩
  · dsimp only at hk ⊢
    have hrefs := h.refs k hk
    rw [update_apply]
    split
    · rename_i hkj
      subst hkj
      omega
    · omega
  show s.freed k = if update s.refs j (s.refs j + 1) k = 0 then 1 else 0
  rw [update_apply]
  split
  · rename_i hkj
    subst hkj
    rw [if_neg (by omega)]
    exact halive
  · exact h.freed k hk

end

structure Ok (s : State) : Prop where
  shape : Shape s.graph
  debt : Debt s fun _ => 0

theorem boot_ok : Ok boot :=
  ⟨boot_shape, ⟨fun _ hj => absurd hj (Nat.not_lt_zero _), fun _ hj => absurd hj (Nat.not_lt_zero _), fun _ _ => rfl, rfl⟩⟩

section

variable {s : State} {u p : Nat}

theorem Ok.refs_eq (h : Ok s) (hu : u < s.graph.n) : s.refs u = total s.graph u := by
  have hrefs := h.debt.refs u hu
  omega

theorem Ok.pos_sock (h : Ok s) (hu : (s.cell u).sock = true) : u < s.graph.n ∧ 1 ≤ s.refs u := by
  have hlt := h.shape.lt u hu
  have hown : own (s.graph.cell u) = 1 := by
    unfold own
    exact if_pos hu
  refine ⟨hlt, ?_⟩
  rw [h.refs_eq hlt]
  unfold total
  omega

theorem Ok.sock_of_peer (h : Ok s) (hpeer : (s.cell u).peer = some p) : (s.cell u).sock = true := by
  by_contra hs
  exact nomatch hpeer.symm.trans (h.shape.released u (eq_false_of_ne_true hs)).2.1

theorem Ok.pos_peer (h : Ok s) (hpeer : (s.cell u).peer = some p) : p < s.graph.n ∧ 1 ≤ s.refs p := by
  by_cases htype : (s.cell u).type = .dgram
  · have hlt := (h.shape.peer u p hpeer).1
    have hu := h.shape.lt u (h.sock_of_peer hpeer)
    have hlinks := links_pos hu htype hpeer
    refine ⟨hlt, ?_⟩
    rw [h.refs_eq hlt]
    unfold total
    omega
  · have hpair := (h.shape.pairs u p hpeer htype).1
    exact h.pos_sock (h.sock_of_peer hpair)

theorem Ok.alive_sock (h : Ok s) (hu : (s.cell u).sock = true) : s.freed u = 0 :=
  h.debt.alive (h.pos_sock hu).1 (h.pos_sock hu).2

theorem Ok.alive_peer (h : Ok s) (hpeer : (s.cell u).peer = some p) : s.freed p = 0 :=
  h.debt.alive (h.pos_peer hpeer).1 (h.pos_peer hpeer).2

theorem Ok.sock_of_file (h : Ok s) (hu : (s.cell u).file = true) : (s.cell u).sock = true := (h.shape.file u hu).1

theorem Ok.alive_file (h : Ok s) (hu : (s.cell u).file = true) : s.freed u = 0 := h.alive_sock (h.sock_of_file hu)

theorem Ok.sock_of_open (h : Ok s) (hu : (s.cell u).state ≠ .closed) : (s.cell u).sock = true := by
  by_contra hs
  exact hu (h.shape.released u (eq_false_of_ne_true hs)).1

theorem Ok.regraph (h : Ok s) {g : Graph} (hshape : Shape g) (hn : g.n = s.graph.n)
    (htotal : ∀ j, j < s.graph.n → total g j = total s.graph j) : Ok { s with graph := g } :=
  ⟨hshape, h.debt.regraph hn fun j hj => by rw [htotal j hj]⟩

theorem Ok.new (h : Ok s) (type : SockType) (file : Bool) : Ok (usockNew (Cell.new type file) s) := by
  refine ⟨h.shape.new type file, ⟨fun j hj => ?_, fun j hj => ?_, fun j hj => ?_, h.debt.safe⟩⟩
  · dsimp only [usockNew] at hj ⊢
    rw [total_new type file h.shape, update_apply]
    split
    · rfl
    · rename_i hne
      exact h.debt.refs j (by omega)
  · dsimp only [usockNew] at hj
    show s.freed j = if update s.refs s.graph.n 1 j = 0 then 1 else 0
    rw [update_apply]
    split
    · rename_i hj'
      rw [hj', h.debt.fresh _ (Nat.le_refl _)]
      rfl
    · rename_i hne
      exact h.debt.freed j (by omega)
  · dsimp only [usockNew] at hj ⊢
    exact h.debt.fresh j (by omega)

end

theorem findBound_eq {s : State} (addr : Nat) {l : List Nat} (h : ∀ j ∈ l, s.freed j = 0) :
    (findBound addr l s).2 = s ∧ ∀ t, (findBound addr l s).1 = some t → t ∈ l ∧ (s.cell t).addr = some addr := by
  induction l with
  | nil => exact ⟨rfl, fun t ht => (nomatch ht)⟩
  | cons j l ih =>
  obtain ⟨hsame, hfound⟩ := ih fun k hk => h k (mem_cons_of_mem _ hk)
  unfold findBound
  rw [touch_of_alive (h j mem_cons_self)]
  split
  · rename_i haddr
    refine ⟨rfl, fun t ht => ?_⟩
    obtain rfl := some.inj ht
    exact ⟨mem_cons_self, haddr⟩
  · exact ⟨hsame, fun t ht => ⟨mem_cons_of_mem _ (hfound t ht).1, (hfound t ht).2⟩⟩

theorem Ok.alive_bound {s : State} (h : Ok s) {j : Nat} (hj : j ∈ s.graph.bound) : s.freed j = 0 :=
  h.alive_sock (h.shape.bound j hj).1

theorem Ok.lookup {s s' : State} (h : Ok s) {addr : Nat} {t : Option Nat} (hl : lookup addr s = (t, s')) :
    s' = s ∧ ∀ j, t = some j → (s.cell j).sock = true := by
  obtain ⟨hsame, hfound⟩ := findBound_eq addr fun j (hj : j ∈ s.graph.bound) => h.alive_bound hj
  unfold Lifetime.lookup at hl
  split at hl
  · rename_i s1 hf
    rw [hf] at hsame
    cases hl
    exact ⟨hsame, fun j hj => (nomatch hj)⟩
  rename_i t1 s1 hf
  rw [hf] at hsame hfound
  dsimp only at hsame hfound
  subst hsame
  have hbound := (hfound t1 rfl).1
  rw [touch_of_alive (h.alive_bound hbound)] at hl
  split at hl
  · cases hl
    exact ⟨rfl, fun j hj => (nomatch hj)⟩
  cases hl
  refine ⟨rfl, fun j hj => ?_⟩
  obtain rfl := some.inj hj
  exact (h.shape.bound _ hbound).1

end Olux.Unix.Lifetime
