import Olux.Unix

-- The lifetime of AF_UNIX sockets: their reference counts and the pointers between them, with
-- every operation cut where it drops ulock.

namespace Olux.Unix.Lifetime

-- struct usock without its count and its data: `sock` is whether u->sock is set, `addr` the
-- address or inode it is bound to, `parent` the listener in whose backlog it is. `file` is
-- whether a descriptor reaches the socket, and `closing` whether its release has begun.
structure Cell where
  type : SockType
  sock : Bool
  state : UState
  peer : Option Nat
  addr : Option Nat
  backlog : List Nat
  nbacklog : Int
  maxBacklog : Int
  parent : Option Nat
  file : Bool
  closing : Bool

def Cell.new (type : SockType) (file : Bool) : Cell :=
  ⟨type, true, .unconnected, none, none, [], 0, 0, none, file, false⟩

def Cell.withPeer (c : Cell) (peer : Option Nat) : Cell := { c with peer }

def Cell.joined (c : Cell) (p : Nat) : Cell := { c with peer := some p, state := .connected }

def Cell.dead (c : Cell) : Cell := { c with state := .closed, peer := none, sock := false }

-- The usocks that have been allocated are those below `n`. `connects` are the calls of
-- u_connect that wait for room in a backlog, with the pointer to the listener, and `binds` those
-- of u_bind that have seen an unbound socket and have yet to take ulock.
structure Graph where
  n : Nat
  cell : Nat → Cell
  bound : List Nat
  connects : List (Nat × Nat)
  binds : List (Nat × Nat)

-- The counts u->refs and how often each usock was freed. `oops`: a freed usock was accessed;
-- `nullSock`: t->sock was followed while it was NULL.
structure State where
  graph : Graph
  refs : Nat → Int
  freed : Nat → Nat
  oops : Bool
  nullSock : Bool

def boot : State :=
  ⟨⟨0, fun _ => { Cell.new .stream false with sock := false, state := .closed }, [], [], []⟩, fun _ => 0, fun _ => 0, false,
    false⟩

variable (s : State)

def State.cell (j : Nat) : Cell := s.graph.cell j

def touch (j : Nat) (s : State) : State := { s with oops := s.oops || s.freed j != 0 }

def useSock (j : Nat) (s : State) : State := { touch j s with nullSock := s.nullSock || !(s.cell j).sock }

def uput (j : Nat) (s : State) : State :=
  let r := s.refs j - 1
  { touch j s with
    refs := Function.update s.refs j r
    freed := Function.update s.freed j (if r = 0 then s.freed j + 1 else s.freed j) }

def uget (j : Nat) (s : State) : State := { touch j s with refs := Function.update s.refs j (s.refs j + 1) }

def Graph.set (g : Graph) (j : Nat) (c : Cell) : Graph := { g with cell := Function.update g.cell j c }

def modify (j : Nat) (f : Cell → Cell) (s : State) : State := { touch j s with graph := s.graph.set j (f (s.cell j)) }

def usockNew (c : Cell) (s : State) : State :=
  { s with
    graph := { s.graph.set s.graph.n c with n := s.graph.n + 1 }
    refs := Function.update s.refs s.graph.n 1 }

def findBound (addr : Nat) : List Nat → State → Option Nat × State
  | [], s => (none, s)
  | j :: rest, s => if (s.cell j).addr = some addr then (some j, touch j s) else findBound addr rest (touch j s)

def lookup (addr : Nat) (s : State) : Option Nat × State :=
  match findBound addr s.graph.bound s with
  | (none, s) => (none, s)
  | (some t, s) => if (s.cell t).state = .closed then (none, touch t s) else (some t, touch t s)

def pair (a b : Nat) (s : State) : State := modify b (fun c => c.joined a) (modify a (fun c => c.joined b) s)

def unixSocketpair (type : SockType) (s : State) : State :=
  let a := s.graph.n
  let b := a + 1
  let s := pair a b (usockNew (Cell.new type true) (usockNew (Cell.new type true) s))
  if type = .dgram then uget b (uget a s) else s

def bind (u addr : Nat) (s : State) : State :=
  match findBound addr s.graph.bound s with
  | (some _, s) => s
  | (none, s) =>
    let s := modify u (fun c => { c with addr := some addr }) s
    { s with graph := { s.graph with bound := u :: s.graph.bound } }

variable (u : Nat)

def listen (backlog : Int) (s : State) : State :=
  let c := s.cell u
  if c.type = .dgram then s
  else if c.addr = none then touch u s
  else if c.state ≠ .unconnected ∧ c.state ≠ .listening then touch u s
  else modify u (fun c => { c with state := .listening, maxBacklog := backlog }) s

def addEmbryo (u t : Nat) (s : State) : State :=
  let e := s.graph.n
  let s := pair u e (usockNew (Cell.new (s.cell u).type false) s)
  let s := modify e (fun c => { c with addr := (s.cell t).addr }) (useSock t s)
  modify e (fun c => { c with parent := some t }) (modify t (fun c =>
    { c with backlog := c.backlog ++ [e], nbacklog := c.nbacklog + 1 }) s)

def connectRoom (u t : Nat) (nonblock alloc : Bool) (s : State) : State :=
  let s := touch t s
  if (s.cell t).nbacklog ≥ (s.cell t).maxBacklog then
    if nonblock then s else { s with graph := { s.graph with connects := s.graph.connects ++ [(u, t)] } }
  else if alloc then addEmbryo u t s
  else s

def dropPeer (peer : Option Nat) (s : State) : State :=
  match (s.cell u).peer with
  | none => modify u (fun c => c.withPeer peer) s
  | some p => modify u (fun c => c.withPeer peer) (uput p (touch u s))

def connect (addr : Option Nat) (nonblock alloc : Bool) (s : State) : State :=
  match addr with
  | none => if (s.cell u).type = .dgram then dropPeer u none s else s
  | some addr =>
    match lookup addr s with
    | (none, s) => s
    | (some t, s) =>
      let s := useSock t s
      if (s.cell t).type ≠ (s.cell u).type then s
      else if (s.cell u).type = .dgram then uget t (dropPeer u (some t) s)
      else if (s.cell u).state = .connected then touch u s
      else if (s.cell t).state ≠ .listening then touch t s
      else connectRoom u t nonblock alloc s

def connectGo (u t : Nat) (signal nonblock alloc : Bool) (s : State) : State :=
  if signal then s
  else
    let s := touch t s
    if (s.cell t).state ≠ .listening then s else connectRoom u t nonblock alloc s

def accept (s : State) : State :=
  if (s.cell u).state ≠ .listening then touch u s
  else
    match (s.cell u).backlog with
    | [] => touch u s
    | e :: rest =>
      let s := modify u (fun c => { c with backlog := rest, nbacklog := c.nbacklog - 1 }) s
      modify e (fun c => { c with parent := none, file := true }) s

def send (addr : Option Nat) (shut : Bool) (s : State) : State :=
  let s := touch u s
  if (s.cell u).type = .dgram then
    let target :=
      match addr with
      | none => ((s.cell u).peer, s)
      | some addr => lookup addr s
    match target with
    | (none, s) => s
    | (some t, s) =>
      let s := touch t s
      if (s.cell t).state = .closed ∨ shut then s else useSock t s
  else
    match (s.cell u).peer with
    | none => s
    | some t => if shut then touch t s else useSock t s

def readPeer (s : State) : State :=
  match (s.cell u).peer with
  | none => touch u s
  | some t => touch t (touch u s)

def poll (shut : Bool) (s : State) : State :=
  if (s.cell u).state = .listening then touch u s
  else
    let s := readPeer u s
    match (s.cell u).peer with
    | none => s
    | some t =>
      if (s.cell u).type = .dgram then useSock t s
      else if (s.cell u).state = .connected ∧ shut = false then useSock t s
      else s

def beginRelease (s : State) : State :=
  let s := modify u (fun c => { c with state := .closed, file := false, closing := true }) s
  { s with graph := { s.graph with bound := s.graph.bound.erase u } }

def cutPeer (s : State) : State :=
  match (s.cell u).peer with
  | none => s
  | some p =>
    if (s.cell u).type = .dgram then
      let s := touch p s
      let s := if (s.cell p).peer = some u then uput u (modify p (fun c => c.withPeer none) s) else s
      uput p (touch p s)
    else modify p (fun c => c.withPeer none) s

def releaseGo (s : State) : State :=
  match (s.cell u).backlog with
  | e :: rest =>
    let s := modify u (fun c => { c with backlog := rest }) s
    modify e (fun c => { c with parent := none, closing := true }) s
  | [] => uput u (modify u Cell.dead (cutPeer u s))

inductive Event where
  | socket (type : SockType)
  | socketpair (type : SockType)
  | bind (u addr : Nat)
  | bindGo (k : Nat)
  | listen (u : Nat) (backlog : Int)
  | connect (u : Nat) (addr : Option Nat) (nonblock alloc : Bool)
  | connectGo (k : Nat) (signal nonblock alloc : Bool)
  | accept (u : Nat)
  | send (u : Nat) (addr : Option Nat) (shut : Bool)
  | recv (u : Nat)
  | shutdown (u : Nat)
  | poll (u : Nat) (shut : Bool)
  | release (u : Nat)
  | releaseGo (u : Nat)

def idle (g : Graph) (u : Nat) : Bool := g.connects.all (fun x => x.1 != u) && g.binds.all fun x => x.1 != u

def step (s : State) : Event → State
  | .socket type => usockNew (Cell.new type true) s
  | .socketpair type => unixSocketpair type s
  | .bind u addr =>
    if (s.cell u).file ∧ (s.cell u).addr = none then
      { touch u s with graph := { s.graph with binds := s.graph.binds ++ [(u, addr)] } }
    else s
  | .bindGo k =>
    match s.graph.binds[k]? with
    | none => s
    | some (u, addr) => bind u addr { s with graph := { s.graph with binds := s.graph.binds.eraseIdx k } }
  | .listen u backlog => if (s.cell u).file then listen u backlog s else s
  | .connect u addr nonblock alloc => if (s.cell u).file then connect u addr nonblock alloc s else s
  | .connectGo k signal nonblock alloc =>
    match s.graph.connects[k]? with
    | none => s
    | some (u, t) =>
      connectGo u t signal nonblock alloc { s with graph := { s.graph with connects := s.graph.connects.eraseIdx k } }
  | .accept u => if (s.cell u).file then accept u s else s
  | .send u addr shut => if (s.cell u).file then send u addr shut s else s
  | .recv u => if (s.cell u).file then readPeer u s else s
  | .shutdown u => if (s.cell u).file then readPeer u s else s
  | .poll u shut => if (s.cell u).file then poll u shut s else s
  | .release u => if (s.cell u).file ∧ idle s.graph u then beginRelease u s else s
  | .releaseGo u => if (s.cell u).closing ∧ (s.cell u).sock then releaseGo u s else s

def run (evs : List Event) : State := evs.foldl step s

-- The four things that break the counting: a bind that goes on although its socket has been
-- bound by another call, a waiting connect whose listener is freed or whose socket has been
-- connected by another call, and the release of a datagram socket that is its own peer.
def misuse : Event → Bool
  | .bindGo k =>
    match s.graph.binds[k]? with
    | none => false
    | some (u, _) => (s.cell u).addr != none
  | .connectGo k signal _ _ =>
    match s.graph.connects[k]? with
    | none => false
    | some (u, t) => !signal && (s.freed t != 0 || (s.cell u).state == .connected)
  | .releaseGo u => (s.cell u).closing && (s.cell u).sock && (s.cell u).type == .dgram && (s.cell u).peer == some u
  | _ => false

def deadPoll : Event → Bool
  | .poll u _ =>
    match (s.cell u).peer with
    | none => false
    | some t => (s.cell u).file && (s.cell u).state != .listening && (s.cell u).type == .dgram && !(s.cell t).sock
  | _ => false

def always (p : State → Event → Bool) (s : State) : List Event → Bool
  | [] => true
  | ev :: evs => p s ev && always p (step s ev) evs

end Olux.Unix.Lifetime
