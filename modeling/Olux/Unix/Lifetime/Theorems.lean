import Olux.Unix.Lifetime.Release

namespace Olux.Unix.Lifetime

open Function List Option

variable {s : State}

theorem bindGo_keeps (h : Ok s) {k : Nat} (hev : misuse s (.bindGo k) = false) : Keeps s (step s (.bindGo k)) := by
  dsimp only [step]
  split
  · exact h.keeps
  rename_i u addr hk
  dsimp only [misuse] at hev
  rw [hk] at hev
  have haddr : (s.cell u).addr = none := by simpa using hev
  have hfile := h.shape.binds _ (mem_of_getElem? hk)
  have h1 : Ok { s with graph := { s.graph with binds := s.graph.binds.eraseIdx k } } :=
    h.regraph (h.shape.calls h.shape.connects fun x hx => h.shape.binds x (mem_of_mem_eraseIdx hx)) rfl fun _ _ => rfl
  exact Keeps.trans ⟨h1, rfl⟩ (bind_keeps (u := u) h1 hfile haddr addr)

theorem connectGo_event_keeps (h : Ok s) {k : Nat} {signal nonblock alloc : Bool}
    (hev : misuse s (.connectGo k signal nonblock alloc) = false) :
    Keeps s (step s (.connectGo k signal nonblock alloc)) := by
  dsimp only [step]
  split
  · exact h.keeps
  rename_i u t hk
  dsimp only [misuse] at hev
  rw [hk] at hev
  obtain ⟨hfile, htype, -⟩ := h.shape.connects _ (mem_of_getElem? hk)
  have h1 : Ok { s with graph := { s.graph with connects := s.graph.connects.eraseIdx k } } :=
    h.regraph (h.shape.calls (fun x hx => h.shape.connects x (mem_of_mem_eraseIdx hx)) h.shape.binds) rfl fun _ _ => rfl
  refine Keeps.trans ⟨h1, rfl⟩ (connectGo_keeps (u := u) h1 hfile htype signal (fun hsignal => ?_) nonblock alloc)
  rw [hsignal] at hev
  have hgood : s.freed t = 0 ∧ (s.cell u).state ≠ .connected := by simpa using hev
  exact hgood

theorem releaseGo_event_keeps (h : Ok s) {u : Nat} (hev : misuse s (.releaseGo u) = false) :
    Keeps s (step s (.releaseGo u)) := by
  refine h.guarded fun hguard => releaseGo_keeps h hguard.1 hguard.2 fun hself => ?_
  unfold misuse at hev
  dsimp only at hev
  rw [hguard.1, hguard.2, hself.1, hself.2] at hev
  simp at hev

theorem step_ok (h : Ok s) {ev : Event} (hev : misuse s ev = false) :
    Ok (step s ev) ∧ (step s ev).nullSock = (s.nullSock || deadPoll s ev) := by
  have hkeeps : ∀ {s' : State}, Keeps s s' → Ok s' ∧ s'.nullSock = (s.nullSock || false) :=
    fun hk => ⟨hk.ok, hk.sock.trans (Bool.or_false _).symm⟩
  have hread : ∀ u, Keeps s (if (s.cell u).file then readPeer u s else s) := fun u =>
    h.guarded fun hfile => by
      rw [readPeer_eq h hfile]
      exact h.keeps
  cases ev with
  | socket type => exact hkeeps ⟨h.new type true, rfl⟩
  | socketpair type => exact hkeeps (socketpair_keeps h type)
  | bind u addr => exact hkeeps (h.guarded fun hfile => bindCall_keeps h hfile.1 addr)
  | bindGo k => exact hkeeps (bindGo_keeps h hev)
  | listen u backlog => exact hkeeps (h.guarded fun hfile => listen_keeps h hfile backlog)
  | connect u addr nonblock alloc =>
    exact hkeeps (h.guarded fun hfile => connect_keeps h hfile addr nonblock alloc)
  | connectGo k signal nonblock alloc => exact hkeeps (connectGo_event_keeps h hev)
  | accept u => exact hkeeps (h.guarded fun hfile => accept_keeps h hfile)
  | send u addr shut => exact hkeeps (h.guarded fun hfile => send_keeps h hfile addr shut)
  | recv u => exact hkeeps (hread u)
  | shutdown u => exact hkeeps (hread u)
  | release u => exact hkeeps (h.guarded fun hguard => beginRelease_keeps h hguard.1 hguard.2)
  | releaseGo u => exact hkeeps (releaseGo_event_keeps h hev)
  | poll u shut =>
  dsimp only [step]
  split
  · rename_i hfile
    exact poll_ok h hfile shut
  rename_i hfile
  refine ⟨h, ?_⟩
  dsimp only [deadPoll]
  rw [eq_false_of_ne_true hfile]
  split <;> simp

theorem run_ok (h : Ok s) {evs : List Event} (hevs : always (fun s ev => !misuse s ev) s evs = true) :
    Ok (run s evs) ∧ ((run s evs).nullSock = false ↔
      s.nullSock = false ∧ always (fun s ev => !deadPoll s ev) s evs = true) := by
  induction evs generalizing s with
  | nil => exact ⟨h, (and_iff_left rfl).symm⟩
  | cons ev evs ih =>
  unfold always at hevs
  rw [Bool.and_eq_true, Bool.not_eq_true'] at hevs
  obtain ⟨hok, hnull⟩ := step_ok h hevs.1
  obtain ⟨hrun, hiff⟩ := ih hok hevs.2
  refine ⟨hrun, hiff.trans ?_⟩
  rw [hnull, Bool.or_eq_false_iff, and_assoc]
  refine and_congr_right fun _ => ?_
  rw [always, Bool.and_eq_true, Bool.not_eq_true']

-- As long as none of these cases comes up, every count is one for the unreleased socket and one for each datagram
-- socket that points to it, a usock is freed once, and nothing has accessed a freed one.
theorem lifetime_counted (evs : List Event) (h : always (fun s ev => !misuse s ev) boot evs = true) :
    (run boot evs).oops = false ∧ ∀ j, j < (run boot evs).graph.n →
      (run boot evs).refs j = ((if ((run boot evs).cell j).sock then 1 else 0 : Nat) : Int) +
          ((List.range (run boot evs).graph.n).countP fun u =>
            ((run boot evs).cell u).type == .dgram && ((run boot evs).cell u).peer == some j : Nat) ∧
        (run boot evs).freed j = if (run boot evs).refs j = 0 then 1 else 0 := by
  have hok := (run_ok boot_ok h).1
  refine ⟨hok.debt.safe, fun j hj => ⟨?_, hok.debt.freed j hj⟩⟩
  rw [hok.refs_eq hj]
  exact Int.natCast_add _ _

-- A stream connection from end to end, and a datagram socket whose peer is released before it.
def stroll : List Event :=
  [.socket .stream, .bind 0 5, .bindGo 0, .listen 0 1, .socket .stream, .connect 1 (some 5) false true, .accept 0,
    .send 2 none false, .poll 1 false, .release 1, .releaseGo 1, .release 0, .releaseGo 0, .socket .dgram, .socket .dgram,
    .bind 4 6, .bindGo 0, .connect 3 (some 6) false true, .poll 3 false, .send 3 none false, .release 4, .releaseGo 4]

theorem lifetime_counted_stroll :
    always (fun s ev => !misuse s ev) boot stroll = true ∧ (run boot stroll).oops = false ∧
      (run boot stroll).refs 4 = 1 ∧ (run boot stroll).freed 4 = if (run boot stroll).refs 4 = 0 then 1 else 0 := by
  have hstroll : always (fun s ev => !misuse s ev) boot stroll = true := by decide +kernel
  obtain ⟨hsafe, hcount⟩ := lifetime_counted stroll hstroll
  exact ⟨hstroll, hsafe, by decide +kernel, (hcount 4 (by decide +kernel)).2⟩

def selfRelease : List Event :=
  [.socket .dgram, .bind 0 5, .bindGo 0, .connect 0 (some 5) false true, .release 0, .releaseGo 0]

theorem self_peer_put_twice :
    (run boot selfRelease).oops = true ∧ (run boot selfRelease).refs 0 = -1 ∧ (run boot selfRelease).freed 0 = 1 := by
  decide +kernel

example : (run boot [.socket .stream, .bind 0 5, .bindGo 0, .listen 0 0, .socket .stream, .connect 1 (some 5) false true,
    .release 0, .releaseGo 0, .connectGo 0 false false true]).oops = true := by decide +kernel

example : (run boot [.socket .stream, .bind 0 5, .bindGo 0, .listen 0 1, .socket .stream, .socket .stream,
    .connect 2 (some 5) false true, .connect 1 (some 5) false true, .accept 0, .connect 1 (some 5) false true, .accept 0,
    .connectGo 0 false false true, .release 1, .releaseGo 1, .recv 4]).oops = true := by decide +kernel

example : (run boot [.socket .dgram, .bind 0 5, .bind 0 6, .bindGo 0, .bindGo 0, .release 0, .releaseGo 0, .socket .dgram,
    .connect 1 (some 7) false true]).oops = true := by decide +kernel

-- t->sock is never followed when it is NULL, in a run without the four above, exactly if no
-- datagram socket is polled whose peer has been released.
theorem sock_followed_iff (evs : List Event) (h : always (fun s ev => !misuse s ev) boot evs = true) :
    (run boot evs).nullSock = false ↔ always (fun s ev => !deadPoll s ev) boot evs = true :=
  (run_ok boot_ok h).2.trans (and_iff_right rfl)

theorem sock_followed_stroll : ((run boot stroll).cell 3).peer = some 4 ∧ (run boot stroll).nullSock = false :=
  ⟨by decide +kernel, (sock_followed_iff stroll (by decide +kernel)).mpr (by decide +kernel)⟩

def pollOrphan : List Event :=
  [.socket .dgram, .socket .dgram, .bind 1 5, .bindGo 0, .connect 0 (some 5) false true, .release 1, .releaseGo 1,
    .poll 0 false]

theorem poll_follows_null :
    always (fun s ev => !misuse s ev) boot pollOrphan = true ∧ (run boot pollOrphan).nullSock = true ∧
      (run boot pollOrphan).oops = false := by
  decide +kernel

end Olux.Unix.Lifetime
