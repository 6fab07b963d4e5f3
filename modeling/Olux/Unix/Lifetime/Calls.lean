import Olux.Unix.Lifetime.Counts

namespace Olux.Unix.Lifetime

open Function List Option

variable {e p : Nat}

structure Keeps (s s' : State) : Prop where
  ok : Ok s'
  sock : s'.nullSock = s.nullSock

theorem Ok.keeps {s : State} (h : Ok s) : Keeps s s := ⟨h, rfl⟩

theorem Ok.guarded {s s' : State} (h : Ok s) {q : Prop} [Decidable q] (hq : q → Keeps s s') : Keeps s (if q then s' else s) := by
  split
  · exact hq (by assumption)
  · exact h.keeps

theorem Keeps.trans {s s' s'' : State} (h : Keeps s s') (h' : Keeps s' s'') : Keeps s s'' := ⟨h'.ok, h'.sock.trans h.sock⟩

theorem set_self (g : Graph) (j : Nat) (c : Cell) : (g.set j c).cell j = c := update_self ..

theorem set_of_ne (g : Graph) {j k : Nat} (h : k ≠ j) (c : Cell) : (g.set j c).cell k = g.cell k := update_of_ne h ..

theorem total_same_two {g : Graph} {u j : Nat} {c d : Cell} (hu : u < g.n) (he : e < g.n) (hne : e ≠ u)
    (hc : c.type = (g.cell u).type ∧ c.peer = (g.cell u).peer ∧ c.sock = (g.cell u).sock)
    (hd : d.type = (g.cell e).type ∧ d.peer = (g.cell e).peer ∧ d.sock = (g.cell e).sock) :
    total ((g.set u c).set e d) j = total g j := by
  have hcell : (g.set u c).cell e = g.cell e := set_of_ne _ hne _
  rw [← hcell] at hd
  have hfirst : total (g.set u c) j = total g j := total_same hu hc.1 hc.2.1 hc.2.2
  rw [← hfirst]
  exact total_same (g := g.set u c) he hd.1 hd.2.1 hd.2.2

theorem modify_modify {s : State} {a b : Nat} (ha : s.freed a = 0) (hb : s.freed b = 0) (hne : b ≠ a) (f f' : Cell → Cell) :
    modify b f' (modify a f s) =
      { s with graph := (s.graph.set a (f (s.graph.cell a))).set b (f' (s.graph.cell b)) } := by
  rw [modify_of_alive ha, modify_of_alive (s := { s with graph := s.graph.set a (f (s.cell a)) }) hb]
  unfold State.cell
  dsimp only
  rw [set_of_ne _ hne]

section

variable {s : State} {u t : Nat}

theorem socketpair_keeps (h : Ok s) (type : SockType) : Keeps s (unixSocketpair type s) := by
  have h1 := h.new type true
  have h2 := h1.new type true
  have hne : s.graph.n + 1 ≠ s.graph.n := Nat.succ_ne_self _
  unfold unixSocketpair pair
  dsimp only
  generalize hs2 : usockNew (.new type true) (usockNew (.new type true) s) = s2 at h2
  have hcell : ∀ k, k = s.graph.n ∨ k = s.graph.n + 1 → s2.graph.cell k = Cell.new type true := by
    intro k hk
    rw [← hs2]
    dsimp only [usockNew]
    rw [set_cell]
    split
    · rfl
    rcases hk with rfl | rfl
    · exact set_self ..
    · rename_i hk
      exact absurd rfl hk
  have hn : s2.graph.n = s.graph.n + 2 := by
    rw [← hs2]
    rfl
  have hnull : s2.nullSock = s.nullSock := by
    rw [← hs2]
    rfl
  have ha := hcell _ (.inl rfl)
  have hb := hcell _ (.inr rfl)
  generalize s.graph.n = a at *
  have hsa : (s2.graph.cell a).sock = true := congrArg Cell.sock ha
  have hsb : (s2.graph.cell (a + 1)).sock = true := congrArg Cell.sock hb
  have hpa : (s2.graph.cell a).peer = none := congrArg Cell.peer ha
  have hpb : (s2.graph.cell (a + 1)).peer = none := congrArg Cell.peer hb
  have hta : (s2.graph.cell a).type = type := congrArg Cell.type ha
  have htb : (s2.graph.cell (a + 1)).type = type := congrArg Cell.type hb
  have hla : a < s2.graph.n := by omega
  have hlb : a + 1 < s2.graph.n := by omega
  have hshape := h2.shape.pair (Ne.symm hne) hsa hsb (htb.trans hta.symm) hpa hpb
  have htotal := fun j => total_pair (j := j) hla hlb hne hpa hpb
  rw [modify_modify (h2.alive_sock hsa) (h2.alive_sock hsb) hne]
  split
  · -- datagram peers hold references on each other
    rename_i htype
    have hdebt : Debt { s2 with
        graph := (s2.graph.set a ((s2.graph.cell a).joined (a + 1))).set (a + 1) ((s2.graph.cell (a + 1)).joined a) }
        fun j => - (bit ((s2.graph.cell a).joined (a + 1)) j : Int) - bit ((s2.graph.cell (a + 1)).joined a) j := by
      refine h2.debt.regraph rfl fun j _ => ?_
      rw [htotal j]
      omega
    have hget := hdebt.uget (j := a) hla (h2.pos_sock hsa).2
    have hget' := hget.uget (j := a + 1) hlb
      (by unfold uget; dsimp only; rw [update_of_ne hne]; exact (h2.pos_sock hsb).2)
    refine ⟨⟨hshape, hget'.congr fun j _ => ?_⟩, hnull⟩
    rw [bit_self (c := (s2.graph.cell a).joined (a + 1)) (hta.trans htype) rfl,
      bit_self (c := (s2.graph.cell (a + 1)).joined a) (htb.trans htype) rfl]
    by_cases h1 : j = a + 1 <;> by_cases h2 : j = a <;> simp [h1, h2]
  rename_i htype
  refine ⟨h2.regraph hshape rfl fun j _ => ?_, hnull⟩
  rw [htotal j, bit_stream (c := (s2.graph.cell a).joined (a + 1)) (by rwa [← hta] at htype),
    bit_stream (c := (s2.graph.cell (a + 1)).joined a) (by rwa [← htb] at htype), Nat.add_zero]

theorem bindCall_keeps (h : Ok s) (hfile : (s.cell u).file = true) (addr : Nat) :
    Keeps s { touch u s with graph := { s.graph with binds := s.graph.binds ++ [(u, addr)] } } := by
  rw [touch_of_alive (h.alive_file hfile)]
  refine ⟨h.regraph (h.shape.calls h.shape.connects fun x hx => ?_) rfl fun _ _ => rfl, rfl⟩
  rcases mem_append.mp hx with hx | hx
  · exact h.shape.binds x hx
  · rw [mem_singleton.mp hx]
    exact hfile

theorem bind_keeps (h : Ok s) (hfile : (s.cell u).file = true) (haddr : (s.cell u).addr = none) (addr : Nat) :
    Keeps s (bind u addr s) := by
  obtain ⟨hsame, -⟩ := findBound_eq addr fun j (hj : j ∈ s.graph.bound) => h.alive_bound hj
  unfold bind
  split
  · rename_i t s₁ hf
    rw [hf] at hsame
    dsimp only at hsame
    subst hsame
    exact h.keeps
  rename_i s₁ hf
  rw [hf] at hsame
  dsimp only at hsame
  subst hsame
  rw [modify_of_alive (h.alive_file hfile)]
  have hnew : u ∉ s₁.graph.bound := fun hb => (h.shape.bound u hb).2.1 haddr
  have hlt := (h.pos_sock (h.sock_of_file hfile)).1
  exact ⟨h.regraph (h.shape.bind hfile hnew rfl) rfl fun j _ => total_same hlt rfl rfl rfl, rfl⟩

theorem listen_keeps (h : Ok s) (hfile : (s.cell u).file = true) (backlog : Int) : Keeps s (listen u backlog s) := by
  have halive := h.alive_file hfile
  have hsock := h.sock_of_file hfile
  unfold listen
  dsimp only
  rw [touch_of_alive halive]
  split
  · exact h.keeps
  rename_i htype
  split
  · exact h.keeps
  split
  · exact h.keeps
  rename_i hstate
  have hpeer : (s.cell u).peer = none := by
    refine h.shape.single u htype ?_
    by_contra hno
    exact hstate ⟨fun he => hno (.inl he), fun he => hno (.inr he)⟩
  rw [modify_of_alive halive]
  refine ⟨h.regraph (h.shape.retouch rfl rfl rfl rfl rfl rfl rfl id (.inr ⟨hpeer, hsock, nofun⟩)) rfl fun j _ => ?_, rfl⟩
  exact total_same (h.pos_sock hsock).1 rfl rfl rfl

theorem peer_eq_none (h : Ok s) (hfile : (s.cell u).file = true) (htype : (s.cell u).type ≠ .dgram)
    (hstate : (s.cell u).state ≠ .connected) : (s.cell u).peer = none := by
  refine h.shape.single u htype ?_
  have hopen := (h.shape.file u hfile).2.1
  change (s.graph.cell u).state ≠ .connected at hstate
  cases hst : (s.graph.cell u).state with
  | unconnected => exact .inl rfl
  | listening => exact .inr rfl
  | connected => exact absurd hst hstate
  | closed => exact absurd hst hopen

theorem pair_keeps (h : Ok s) (hne : e ≠ u) (hu : (s.cell u).sock = true) (he : (s.cell e).sock = true)
    (htypes : (s.cell e).type = (s.cell u).type) (htype : (s.cell u).type ≠ .dgram) (hup : (s.cell u).peer = none)
    (hep : (s.cell e).peer = none) : Keeps s (pair u e s) ∧
      (pair u e s).graph = (s.graph.set u ((s.cell u).joined e)).set e ((s.cell e).joined u) := by
  unfold pair
  rw [modify_modify (h.alive_sock hu) (h.alive_sock he) hne]
  refine ⟨⟨h.regraph (h.shape.pair (Ne.symm hne) hu he htypes hup hep) rfl fun j _ => ?_, rfl⟩, rfl⟩
  rw [total_pair (h.pos_sock hu).1 (h.pos_sock he).1 hne hup hep, bit_stream (c := (s.graph.cell u).joined e) htype,
    bit_stream (c := (s.graph.cell e).joined u) (htypes ▸ htype), Nat.add_zero]

theorem adopt_keeps (addr : Option Nat) (h : Ok s) (hne : e ≠ t) (ht : (s.cell t).sock = true)
    (he : (s.cell e).sock = true) (haddr : (s.cell e).addr = none) (hfile : (s.cell e).file = false)
    (hclosing : (s.cell e).closing = false) (hstate : (s.cell e).state ≠ .closed)
    (hparent : (s.cell e).parent = none) :
    Keeps s (modify e (fun c => { c with parent := some t }) (modify t (fun c =>
      { c with backlog := c.backlog ++ [e], nbacklog := c.nbacklog + 1 }) (modify e (fun c => { c with addr }) s))) := by
  have hle := (h.pos_sock he).1
  have hbound : e ∉ s.graph.bound := fun hb => (h.shape.bound e hb).2.1 haddr
  rw [modify_of_alive (h.alive_sock he)]
  have h1 : Ok { s with graph := s.graph.set e { s.cell e with addr } } :=
    h.regraph (h.shape.retouch rfl rfl rfl rfl rfl rfl rfl (fun hno => absurd haddr hno) (.inl rfl)) rfl fun j _ =>
      total_same hle rfl rfl rfl
  have hse : (s.graph.set e { s.cell e with addr }).cell e = { s.cell e with addr } := set_self ..
  have hst : (s.graph.set e { s.cell e with addr }).cell t = s.cell t := set_of_ne _ (Ne.symm hne) _
  have hb : (s.graph.set e { s.cell e with addr }).bound = s.graph.bound := rfl
  generalize s.graph.set e { s.cell e with addr } = g at *
  have ht1 : (g.cell t).sock = true := (congrArg Cell.sock hst).trans ht
  have he1 : (g.cell e).sock = true := (congrArg Cell.sock hse).trans he
  rw [modify_modify (s := { s with graph := g }) (h1.alive_sock ht1) (h1.alive_sock he1) hne]
  have hshape := h1.shape.adopt (Ne.symm hne) ht1 he1 ((congrArg Cell.file hse).trans hfile)
    ((congrArg Cell.closing hse).trans hclosing) (by rw [hse]; exact hstate) ((congrArg Cell.parent hse).trans hparent)
    (by rw [hb]; exact hbound) (k := (g.cell t).nbacklog + 1) rfl rfl
  refine ⟨h1.regraph hshape rfl fun j _ => ?_, rfl⟩
  exact total_same_two (h1.pos_sock ht1).1 (h1.pos_sock he1).1 hne ⟨rfl, rfl, rfl⟩ ⟨rfl, rfl, rfl⟩

theorem addEmbryo_keeps (h : Ok s) (hfile : (s.cell u).file = true) (htype : (s.cell u).type ≠ .dgram)
    (hstate : (s.cell u).state ≠ .connected) (ht : (s.cell t).sock = true) : Keeps s (addEmbryo u t s) := by
  have hsock := h.sock_of_file hfile
  have hpeer := peer_eq_none h hfile htype hstate
  have hue : s.graph.n ≠ u := Nat.ne_of_gt (h.pos_sock hsock).1
  have hte : s.graph.n ≠ t := Nat.ne_of_gt (h.pos_sock ht).1
  have h1 := h.new (s.cell u).type false
  have hcu : (usockNew (.new (s.cell u).type false) s).cell u = s.cell u := set_of_ne _ (Ne.symm hue) _
  have hct : (usockNew (.new (s.cell u).type false) s).cell t = s.cell t := set_of_ne _ (Ne.symm hte) _
  have hce : (usockNew (.new (s.cell u).type false) s).cell s.graph.n = Cell.new (s.cell u).type false := set_self ..
  have hnull : (usockNew (.new (s.cell u).type false) s).nullSock = s.nullSock := rfl
  unfold addEmbryo
  dsimp only
  generalize usockNew (.new (s.cell u).type false) s = s1 at *
  generalize s.graph.n = e at *
  obtain ⟨hpair, hgraph⟩ := pair_keeps h1 hue (by rw [hcu]; exact hsock) (by rw [hce]; rfl) (by rw [hce, hcu]; rfl)
    (by rw [hcu]; exact htype) (by rw [hcu]; exact hpeer) (by rw [hce]; rfl)
  have hce2 : (pair u e s1).cell e = (Cell.new (s.cell u).type false).joined u := by
    show (pair u e s1).graph.cell e = _
    rw [hgraph, set_self, hce]
  have hct2 : ((pair u e s1).cell t).sock = true := by
    unfold State.cell
    rw [hgraph, set_of_ne _ (Ne.symm hte), set_cell]
    split
    · rw [hcu]
      exact hsock
    · exact (congrArg Cell.sock hct).trans ht
  rw [useSock_of_alive (hpair.ok.alive_sock hct2) hct2]
  have hadopt := adopt_keeps ((pair u e s1).cell t).addr hpair.ok hte hct2 (by rw [hce2]; rfl) (by rw [hce2]; rfl)
    (by rw [hce2]; rfl) (by rw [hce2]; rfl) (by rw [hce2]; exact nofun) (by rw [hce2]; rfl)
  exact ⟨hadopt.ok, hadopt.sock.trans (hpair.sock.trans hnull)⟩

theorem connectRoom_keeps (h : Ok s) (hfile : (s.cell u).file = true) (htype : (s.cell u).type ≠ .dgram)
    (hstate : (s.cell u).state ≠ .connected) (ht : (s.cell t).sock = true) (nonblock alloc : Bool) :
    Keeps s (connectRoom u t nonblock alloc s) := by
  unfold connectRoom
  dsimp only
  rw [touch_of_alive (h.alive_sock ht)]
  split
  · split
    · exact h.keeps
    · refine ⟨h.regraph (h.shape.calls (fun x hx => ?_) h.shape.binds) rfl fun _ _ => rfl, rfl⟩
      rcases mem_append.mp hx with hx | hx
      · exact h.shape.connects x hx
      · rw [mem_singleton.mp hx]
        exact ⟨hfile, htype, (h.pos_sock ht).1⟩
  split
  · exact addEmbryo_keeps h hfile htype hstate ht
  · exact h.keeps

theorem dropPeer_debt (h : Ok s) (hfile : (s.cell u).file = true) (htype : (s.cell u).type = .dgram) (peer : Option Nat)
    (hpeer : ∀ p, peer = some p → p < s.graph.n ∧ (s.cell p).type = .dgram) :
    (dropPeer u peer s).graph = s.graph.set u ((s.cell u).withPeer peer) ∧
      Shape (s.graph.set u ((s.cell u).withPeer peer)) ∧
      Debt (dropPeer u peer s) (fun j => - (bit ((s.cell u).withPeer peer) j : Int)) ∧
      (dropPeer u peer s).nullSock = s.nullSock := by
  have hsock := h.sock_of_file hfile
  have hlt := (h.pos_sock hsock).1
  have hshape := h.shape.repeer hsock htype hpeer
  have hset := fun j => total_withPeer (g := s.graph) (j := j) hlt peer
  unfold dropPeer
  split
  · rename_i hnone
    rw [modify_of_alive (h.alive_sock hsock)]
    refine ⟨rfl, hshape, h.debt.regraph rfl fun j _ => ?_, rfl⟩
    have hold : bit (s.graph.cell u) j = 0 := bit_of_ne (by rw [show (s.graph.cell u).peer = none from hnone]; exact nofun)
    have hj := hset j
    change total (s.graph.set u ((s.graph.cell u).withPeer peer)) j + - (bit ((s.graph.cell u).withPeer peer) j : Int) = _
    omega
  rename_i p hp
  have hpos := h.pos_peer hp
  have hput := h.debt.uput hpos.1 hpos.2
  rw [touch_of_alive (h.alive_sock hsock)]
  -- the socket's own reference is left, also if it was its own peer
  have halive : (uput p s).freed u = 0 := by
    refine hput.alive hlt ?_
    have hrefs := hput.refs u hlt
    have hown : own (s.graph.cell u) = 1 := if_pos hsock
    have htotal : total s.graph u = own (s.graph.cell u) + links s.graph u := rfl
    change (uput p s).refs u = (total s.graph u : Int) + (0 - if u = p then 1 else 0) at hrefs
    by_cases hup : u = p
    · have hlinks := links_pos hlt htype hp
      rw [if_pos hup] at hrefs
      rw [← hup] at hlinks
      omega
    · rw [if_neg hup] at hrefs
      omega
  rw [modify_of_alive halive]
  refine ⟨rfl, hshape, hput.regraph rfl fun j _ => ?_, rfl⟩
  have hold : bit (s.graph.cell u) j = if j = p then 1 else 0 := bit_self htype hp
  have hj := hset j
  change total (s.graph.set u ((s.graph.cell u).withPeer peer)) j + - (bit ((s.graph.cell u).withPeer peer) j : Int) =
    total s.graph j + (0 - if j = p then 1 else 0)
  by_cases hjp : j = p
  · rw [if_pos hjp] at hold ⊢
    omega
  · rw [if_neg hjp] at hold ⊢
    omega

theorem dissolve_keeps (h : Ok s) (hfile : (s.cell u).file = true) (htype : (s.cell u).type = .dgram) :
    Keeps s (dropPeer u none s) := by
  obtain ⟨hgraph, hshape, hdebt, hnull⟩ := dropPeer_debt h hfile htype none nofun
  refine ⟨⟨hgraph ▸ hshape, hdebt.congr fun j _ => ?_⟩, hnull⟩
  rw [bit_of_ne (c := (s.cell u).withPeer none) nofun]
  rfl

theorem connectDgram_keeps (h : Ok s) (hfile : (s.cell u).file = true) (htype : (s.cell u).type = .dgram)
    (ht : (s.cell t).sock = true) (htt : (s.cell t).type = .dgram) : Keeps s (uget t (dropPeer u (some t) s)) := by
  have htlt := (h.pos_sock ht).1
  obtain ⟨hgraph, hshape, hdebt, hnull⟩ := dropPeer_debt h hfile htype (some t) fun p hp => by
    obtain rfl := some.inj hp
    exact ⟨htlt, htt⟩
  have hult := (h.pos_sock (h.sock_of_file hfile)).1
  have hn : (dropPeer u (some t) s).graph.n = s.graph.n := by
    rw [hgraph]
    rfl
  have hself : ((dropPeer u (some t) s).graph.cell u) = (s.cell u).withPeer (some t) := by rw [hgraph, set_self]
  have hlinks : 1 ≤ links (dropPeer u (some t) s).graph t :=
    links_pos (by rw [hn]; exact hult) (by rw [hself]; exact htype) (by rw [hself]; rfl)
  have hown : own ((dropPeer u (some t) s).graph.cell t) = 1 := by
    unfold own
    rw [hgraph, set_cell]
    split
    · exact if_pos (h.sock_of_file hfile)
    · exact if_pos ht
  have hpos : 1 ≤ (dropPeer u (some t) s).refs t := by
    have hrefs := hdebt.refs t (by rw [hn]; exact htlt)
    rw [bit_self (c := (s.cell u).withPeer (some t)) htype rfl, if_pos rfl] at hrefs
    unfold total at hrefs
    omega
  have hget := hdebt.uget (by rw [hn]; exact htlt) hpos
  refine ⟨⟨hgraph ▸ hshape, hget.congr fun j _ => ?_⟩, hnull⟩
  rw [bit_self (c := (s.cell u).withPeer (some t)) htype rfl]
  split <;> rfl

theorem connect_keeps (h : Ok s) (hfile : (s.cell u).file = true) (addr : Option Nat) (nonblock alloc : Bool) :
    Keeps s (connect u addr nonblock alloc s) := by
  unfold connect
  split
  · split
    · rename_i htype
      exact dissolve_keeps h hfile htype
    · exact h.keeps
  split
  · rename_i s₁ hl
    obtain ⟨rfl, -⟩ := h.lookup hl
    exact h.keeps
  rename_i t s₁ hl
  obtain ⟨rfl, hfound⟩ := h.lookup hl
  have ht := hfound t rfl
  dsimp only
  rw [useSock_of_alive (h.alive_sock ht) ht]
  split
  · exact h.keeps
  rename_i htypes
  have htypes := not_not.mp htypes
  split
  · rename_i htype
    exact connectDgram_keeps h hfile htype ht (htypes.trans htype)
  rename_i htype
  split
  · rw [touch_of_alive (h.alive_file hfile)]
    exact h.keeps
  rename_i hstate
  split
  · rw [touch_of_alive (h.alive_sock ht)]
    exact h.keeps
  · exact connectRoom_keeps h hfile htype hstate ht nonblock alloc

theorem connectGo_keeps (h : Ok s) (hfile : (s.cell u).file = true) (htype : (s.cell u).type ≠ .dgram) (signal : Bool)
    (hgood : signal = false → s.freed t = 0 ∧ (s.cell u).state ≠ .connected) (nonblock alloc : Bool) :
    Keeps s (connectGo u t signal nonblock alloc s) := by
  unfold connectGo
  split
  · exact h.keeps
  rename_i hsignal
  obtain ⟨halive, hstate⟩ := hgood (eq_false_of_ne_true hsignal)
  dsimp only
  rw [touch_of_alive halive]
  split
  · exact h.keeps
  rename_i hlisten
  refine connectRoom_keeps h hfile htype hstate (h.sock_of_open ?_) nonblock alloc
  rw [not_not.mp hlisten]
  exact nofun

theorem accept_keeps (h : Ok s) (hfile : (s.cell u).file = true) : Keeps s (accept u s) := by
  have halive := h.alive_file hfile
  unfold accept
  rw [touch_of_alive halive]
  split
  · exact h.keeps
  split
  · exact h.keeps
  rename_i e rest hrest
  have hparent : (s.graph.cell e).parent = some u := (h.shape.backlog u e).mp (hrest ▸ mem_cons_self)
  obtain ⟨hse, hclosing, -⟩ := h.shape.embryo e u hparent
  have hne : e ≠ u := by
    rintro rfl
    exact absurd (hparent.symm.trans (h.shape.file e hfile).2.2.2) (Option.some_ne_none _)
  dsimp only
  rw [modify_modify halive (h.alive_sock hse) hne]
  refine ⟨h.regraph (h.shape.pop hrest (Ne.symm hne) true (s.graph.cell e).closing
    (fun _ => hclosing) (k := (s.graph.cell u).nbacklog - 1) rfl rfl) rfl fun j _ => ?_, rfl⟩
  exact total_same_two (h.pos_sock (h.sock_of_file hfile)).1 (h.pos_sock hse).1 hne ⟨rfl, rfl, rfl⟩ ⟨rfl, rfl, rfl⟩

theorem sock_of_stream_peer (h : Ok s) (hpeer : (s.cell u).peer = some t) (htype : (s.cell u).type ≠ .dgram) :
    (s.cell t).sock = true := h.sock_of_peer (h.shape.pairs u t hpeer htype).1

theorem send_keeps (h : Ok s) (hfile : (s.cell u).file = true) (addr : Option Nat) (shut : Bool) :
    Keeps s (send u addr shut s) := by
  have hdgram : ∀ {t : Nat}, s.freed t = 0 → Keeps s (if (s.cell t).state = .closed ∨ shut then s else useSock t s) := by
    intro t ht
    split
    · exact h.keeps
    rename_i hopen
    rw [useSock_of_alive ht (h.sock_of_open fun hc => hopen (.inl hc))]
    exact h.keeps
  unfold send
  dsimp only
  rw [touch_of_alive (h.alive_file hfile)]
  split
  · split
    · rename_i s₁ htarget
      split at htarget
      · obtain ⟨-, rfl⟩ := Prod.mk.inj htarget
        exact h.keeps
      · obtain ⟨rfl, -⟩ := h.lookup htarget
        exact h.keeps
    · rename_i t s₁ htarget
      split at htarget
      · obtain ⟨hpeer, rfl⟩ := Prod.mk.inj htarget
        rw [touch_of_alive (h.alive_peer hpeer)]
        exact hdgram (h.alive_peer hpeer)
      obtain ⟨rfl, hfound⟩ := h.lookup htarget
      rw [touch_of_alive (h.alive_sock (hfound t rfl))]
      exact hdgram (h.alive_sock (hfound t rfl))
  rename_i htype
  split
  · exact h.keeps
  rename_i t hpeer
  rw [touch_of_alive (h.alive_peer hpeer), useSock_of_alive (h.alive_peer hpeer) (sock_of_stream_peer h hpeer htype)]
  split <;> exact h.keeps

theorem readPeer_eq (h : Ok s) (hfile : (s.cell u).file = true) : readPeer u s = s := by
  unfold readPeer
  rw [touch_of_alive (h.alive_file hfile)]
  split
  · rfl
  · rename_i t hpeer
    exact touch_of_alive (h.alive_peer hpeer)

theorem Ok.withNull (h : Ok s) (b : Bool) : Ok { s with nullSock := b } :=
  ⟨h.shape, ⟨h.debt.refs, h.debt.freed, h.debt.fresh, h.debt.safe⟩⟩

theorem poll_ok (h : Ok s) (hfile : (s.cell u).file = true) (shut : Bool) :
    Ok (poll u shut s) ∧ (poll u shut s).nullSock = (s.nullSock || deadPoll s (.poll u shut)) := by
  unfold poll deadPoll
  dsimp only
  rw [touch_of_alive (h.alive_file hfile), readPeer_eq h hfile, hfile]
  split
  · rename_i hlisten
    refine ⟨h, ?_⟩
    rw [hlisten]
    split <;> simp
  rename_i hlisten
  split
  · exact ⟨h, (Bool.or_false _).symm⟩
  rename_i t hpeer
  have halive := h.alive_peer hpeer
  by_cases htype : (s.cell u).type = .dgram
  · rw [if_pos htype, htype]
    unfold useSock
    rw [touch_of_alive halive]
    refine ⟨h.withNull _, ?_⟩
    rw [bne_iff_ne.mpr hlisten]
    simp
  · rw [if_neg htype, useSock_of_alive halive (sock_of_stream_peer h hpeer htype), beq_eq_false_iff_ne.mpr htype]
    simp [h]

end

end Olux.Unix.Lifetime
