import Olux.Unix.Lifetime.Calls

namespace Olux.Unix.Lifetime

open Function List Option

variable {e p u t : Nat} {s : State}

theorem beginRelease_keeps (h : Ok s) (hfile : (s.cell u).file = true) (hidle : idle s.graph u = true) :
    Keeps s (beginRelease u s) := by
  have hlt := (h.pos_sock (h.sock_of_file hfile)).1
  unfold beginRelease
  dsimp only
  rw [modify_of_alive (h.alive_file hfile)]
  exact ⟨h.regraph (h.shape.beginRelease hfile hidle rfl) rfl fun j _ => total_same hlt rfl rfl rfl, rfl⟩

structure Cut (s s' : State) (u : Nat) : Prop where
  n : s'.graph.n = s.graph.n
  cell : s'.cell u = s.cell u
  shape : Shape (s'.graph.set u (s'.cell u).dead)
  debt : Debt s' fun j => - (bit (s.cell u) j : Int)
  null : s'.nullSock = s.nullSock

theorem cutStream (h : Ok s) (hclosing : (s.cell u).closing = true) (hbacklog : (s.cell u).backlog = [])
    (hpeer : (s.cell u).peer = some p) (htype : (s.cell u).type ≠ .dgram) :
    Cut s (modify p (fun c => c.withPeer none) s) u := by
  obtain ⟨hpair, hne⟩ := h.shape.pairs u p hpeer htype
  have hlt := (h.pos_peer hpeer).1
  have htp : (s.graph.cell p).type ≠ .dgram := by
    rw [(h.shape.peer u p hpeer).2]
    exact htype
  have hcell : (s.graph.set p ((s.graph.cell p).withPeer none)).cell u = s.graph.cell u := set_of_ne _ (Ne.symm hne) _
  rw [modify_of_alive (h.alive_peer hpeer)]
  refine ⟨rfl, hcell, ?_, h.debt.regraph rfl fun j _ => ?_, rfl⟩
  · show Shape ((s.graph.set p ((s.graph.cell p).withPeer none)).set u
      ((s.graph.set p ((s.graph.cell p).withPeer none)).cell u).dead)
    rw [hcell]
    exact h.shape.part hclosing hbacklog hpeer htype
  have hset := total_withPeer (g := s.graph) (j := j) hlt none
  rw [bit_stream htp, bit_stream (c := (s.graph.cell p).withPeer none) htp] at hset
  rw [bit_stream htype]
  change (total (s.graph.set p ((s.graph.cell p).withPeer none)) j : Int) + _ = _
  omega

theorem unlink_ok (h : Ok s) (hu : (s.cell u).sock = true) (hback : (s.cell p).peer = some u)
    (htype : (s.cell p).type = .dgram) :
    Ok (uput u (modify p (fun c => c.withPeer none) s)) ∧
      (uput u (modify p (fun c => c.withPeer none) s)).graph = s.graph.set p ((s.cell p).withPeer none) := by
  have hp := h.sock_of_peer hback
  have hlt := (h.pos_sock hp).1
  rw [modify_of_alive (h.alive_sock hp)]
  have hdebt : Debt { s with graph := s.graph.set p ((s.cell p).withPeer none) } fun j => if j = u then 1 else 0 := by
    refine h.debt.regraph rfl fun j _ => ?_
    have hset := total_withPeer (g := s.graph) (j := j) hlt none
    rw [bit_self (c := s.graph.cell p) htype hback, bit_of_ne (c := (s.graph.cell p).withPeer none) nofun] at hset
    change (total (s.graph.set p ((s.graph.cell p).withPeer none)) j : Int) + _ = _
    split at hset
    · rename_i hj
      rw [if_pos hj]
      omega
    rename_i hj
    rw [if_neg hj]
    omega
  have hput := hdebt.uput (j := u) (h.pos_sock hu).1 (h.pos_sock hu).2
  refine ⟨⟨h.shape.repeer hp htype nofun, hput.congr fun j _ => ?_⟩, rfl⟩
  split <;> rfl

theorem cutDgram (h : Ok s) (hclosing : (s.cell u).closing = true) (hbacklog : (s.cell u).backlog = [])
    (hpeer : (s.cell u).peer = some p) (htype : (s.cell u).type = .dgram) : Cut s (uput p (touch p s)) u := by
  have hpos := h.pos_peer hpeer
  rw [touch_of_alive (h.alive_peer hpeer)]
  refine ⟨rfl, rfl, h.shape.leave hclosing hbacklog (.inl htype), ?_, rfl⟩
  refine (h.debt.uput hpos.1 hpos.2).congr fun j _ => ?_
  rw [bit_self htype hpeer]
  split <;> rfl

theorem cutPeer_cut (h : Ok s) (hu : (s.cell u).sock = true) (hclosing : (s.cell u).closing = true)
    (hbacklog : (s.cell u).backlog = []) (hself : ¬ ((s.cell u).type = .dgram ∧ (s.cell u).peer = some u)) :
    Cut s (cutPeer u s) u := by
  unfold cutPeer
  split
  · rename_i hnone
    refine ⟨rfl, rfl, h.shape.leave hclosing hbacklog (.inr hnone), h.debt.congr fun j _ => ?_, rfl⟩
    rw [bit_of_ne (by rw [hnone]; exact nofun)]
    rfl
  rename_i p hpeer
  split
  · rename_i htype
    have hne : p ≠ u := fun he => hself ⟨htype, he ▸ hpeer⟩
    have htp : (s.cell p).type = .dgram := (h.shape.peer u p hpeer).2.trans htype
    dsimp only
    rw [touch_of_alive (h.alive_peer hpeer)]
    split
    · rename_i hback
      obtain ⟨h1, hgraph⟩ := unlink_ok h hu hback htp
      have hnull : (uput u (modify p (fun c => c.withPeer none) s)).nullSock = s.nullSock := rfl
      have hcell : (uput u (modify p (fun c => c.withPeer none) s)).cell u = s.cell u := by
        show (uput u (modify p (fun c => c.withPeer none) s)).graph.cell u = _
        rw [hgraph]
        exact set_of_ne _ (Ne.symm hne) _
      have hn : (uput u (modify p (fun c => c.withPeer none) s)).graph.n = s.graph.n := rfl
      generalize uput u (modify p (fun c => c.withPeer none) s) = s1 at *
      have hcut := cutDgram h1 (by rw [hcell]; exact hclosing) (by rw [hcell]; exact hbacklog)
        (by rw [hcell]; exact hpeer) (by rw [hcell]; exact htype)
      exact ⟨hcut.n.trans hn, hcut.cell.trans hcell, hcut.shape, hcell ▸ hcut.debt, hcut.null.trans hnull⟩
    · exact cutDgram h hclosing hbacklog hpeer htype
  · rename_i htype
    exact cutStream h hclosing hbacklog hpeer htype

theorem releaseGo_keeps (h : Ok s) (hclosing : (s.cell u).closing = true) (hu : (s.cell u).sock = true)
    (hself : ¬ ((s.cell u).type = .dgram ∧ (s.cell u).peer = some u)) : Keeps s (releaseGo u s) := by
  have hlt := (h.pos_sock hu).1
  unfold releaseGo
  split
  · rename_i e rest hrest
    have hparent : (s.graph.cell e).parent = some u := (h.shape.backlog u e).mp (hrest ▸ mem_cons_self)
    obtain ⟨hse, hopen, -⟩ := h.shape.embryo e u hparent
    have hne : e ≠ u := by
      rintro rfl
      exact nomatch hopen.symm.trans hclosing
    dsimp only
    rw [modify_modify (h.alive_sock hu) (h.alive_sock hse) hne]
    refine ⟨h.regraph (h.shape.pop hrest (Ne.symm hne) (s.graph.cell e).file true
      (fun hf => ?_) (k := (s.graph.cell u).nbacklog) rfl rfl) rfl fun j _ => ?_, rfl⟩
    · exact nomatch hparent.symm.trans (h.shape.file e hf).2.2.2
    · exact total_same_two hlt (h.pos_sock hse).1 hne ⟨rfl, rfl, rfl⟩ ⟨rfl, rfl, rfl⟩
  rename_i hbacklog
  have hcut := cutPeer_cut h hu hclosing hbacklog hself
  generalize cutPeer u s = s1 at *
  have hlt1 : u < s1.graph.n := by
    rw [hcut.n]
    exact hlt
  have hsock1 : (s1.graph.cell u).sock = true := (congrArg Cell.sock hcut.cell).trans hu
  have hbit : bit (s.cell u) u = 0 := by
    by_cases htype : (s.cell u).type = .dgram
    · exact bit_of_ne fun hp => hself ⟨htype, hp⟩
    · exact bit_stream htype
  -- the socket's own reference keeps it until the last uput
  have halive : s1.freed u = 0 := by
    refine hcut.debt.alive hlt1 ?_
    have hrefs := hcut.debt.refs u hlt1
    have hown : own (s1.graph.cell u) = 1 := if_pos hsock1
    rw [hbit] at hrefs
    unfold total at hrefs
    omega
  rw [modify_of_alive halive]
  have hdebt : Debt { s1 with graph := s1.graph.set u (s1.cell u).dead } fun j => if j = u then 1 else 0 := by
    refine hcut.debt.regraph rfl fun j _ => ?_
    have hset := total_dead (g := s1.graph) (j := j) hlt1 hsock1
    have hcell : s1.graph.cell u = s.cell u := hcut.cell
    change (total (s1.graph.set u (s1.graph.cell u).dead) j : Int) + _ = _
    rw [← hcell]
    split at hset
    · rename_i hj
      rw [if_pos hj]
      omega
    rename_i hj
    rw [if_neg hj]
    omega
  have hput := hdebt.uput (j := u) hlt1 (by
    have hrefs := hdebt.refs u hlt1
    rw [if_pos rfl] at hrefs
    omega)
  refine ⟨⟨hcut.shape, hput.congr fun j _ => ?_⟩, hcut.null⟩
  split <;> rfl

end Olux.Unix.Lifetime
