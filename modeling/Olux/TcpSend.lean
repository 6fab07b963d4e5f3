import Olux.Basic

namespace Olux.TcpSend

def CHUNK : Nat := 16384

inductive SockState where
  | closed
  | bound
  | listen
  | connecting
  | connected
deriving DecidableEq

-- Errors are negative: `fail e` stands for an error other than ERR_MEM that lwip_errno maps to -(e + 1).
inductive Write where
  | ok
  | mem
  | fail (e : Nat)
deriving DecidableEq

-- What one turn of a loop finds: the lock is dropped between any two. `err` and `wait` are the
-- numbers of the errors in `i->err` and from sock_wait, 0 for none.
structure Turn where
  copyFails : Bool
  err : Nat
  state : SockState
  shutWr : Bool
  pcb : Bool
  sndbuf : Nat
  queueFull : Bool
  write : Write
  nonblock : Bool
  wait : Nat

-- The value returned and the bytes that tcp_write accepted.
structure Sent where
  ret : Int
  accepted : Nat

def out (done : Nat) (r : Int) : Int := if done ≠ 0 then done else r

def sendError (t : Turn) : Int :=
  if t.state = .closed ∧ t.err = 0 then -EPIPE
  else if t.err ≠ 0 then -t.err
  else if t.state = .connecting then -EAGAIN
  else if t.state = .connected then -EPIPE
  else -ENOTCONN

-- The connection has an error, is not connected, is shut down for writing or has no pcb.
def Turn.gone (t : Turn) : Prop := t.err ≠ 0 ∨ t.state ≠ .connected ∨ t.shutWr = true ∨ t.pcb = false

instance (t : Turn) : Decidable t.gone := inferInstanceAs (Decidable (_ ∨ _))

-- The loops of `tcp_send` at offset `off` of a chunk of `n` bytes.
def sendLoop (len done n off accepted : Nat) : List Turn → Option Sent
  | [] => if off < n ∨ done + n < len then none else some ⟨out (done + n) 0, accepted⟩
  | t :: ts =>
    if off < n then
      let w := min (min t.sndbuf (n - off)) 0xffff
      let sleep :=
        if done + off ≠ 0 ∧ t.nonblock then some ⟨out (done + off) 0, accepted⟩
        else if t.wait ≠ 0 then some ⟨out (done + off) (-t.wait), accepted⟩
        else sendLoop len done n off accepted ts
      if t.gone then some ⟨out done (sendError t), accepted⟩
      else if t.queueFull ∨ t.sndbuf = 0 then sleep
      else
        match t.write with
        | .ok => sendLoop len done n (off + w) (accepted + w) ts
        | .mem => sleep
        | .fail e => some ⟨out done (-(e + 1)), accepted⟩
    else if done + n < len then
      if t.copyFails then some ⟨out (done + n) (-EFAULT), accepted⟩
      else sendLoop len (done + n) (min (len - (done + n)) CHUNK) 0 accepted ts
    else some ⟨out (done + n) 0, accepted⟩

def tcpSend (alloc : Bool) (len : Nat) (ts : List Turn) : Option Sent :=
  if alloc then sendLoop len 0 0 0 0 ts else some ⟨-ENOMEM, 0⟩

def Sent.Exact (x : Sent) : Prop := (0 < x.ret → x.ret = x.accepted) ∧ (x.ret < 0 → x.accepted = 0)

-- There is no room, or tcp_write finds no memory.
def Turn.full (t : Turn) : Prop := t.queueFull = true ∨ t.sndbuf = 0 ∨ t.write = .mem

-- The turns from offset `off` of a chunk of `n` bytes on that starts at `done`: none finds the
-- connection gone or tcp_write failing while some of its chunk has been accepted. A turn that
-- waits goes on only if it may sleep and the wait succeeds.
def Spared (len done n off : Nat) : List Turn → Prop
  | [] => True
  | t :: ts =>
    if off < n then
      (t.gone → off = 0) ∧
      (¬ t.gone → t.full → (t.nonblock = true → done + off = 0) → t.wait = 0 → Spared len done n off ts) ∧
      (¬ t.gone → ¬ t.full →
        ((∃ e, t.write = .fail e) → off = 0) ∧
        (t.write = .ok → Spared len done n (off + min (min t.sndbuf (n - off)) 0xffff) ts))
    else done + n < len → t.copyFails = false → Spared len (done + n) (min (len - (done + n)) CHUNK) 0 ts

theorem sendError_neg (t : Turn) : sendError t < 0 := by
  unfold sendError
  split
  · decide
  split
  · omega
  split
  · decide
  split <;> decide

theorem out_exact_iff {done off : Nat} {r : Int} (h : 0 < off → r < 0) (hr : r ≤ 0) :
    Sent.Exact ⟨out done r, done + off⟩ ↔ off = 0 := by
  unfold Sent.Exact out
  split <;> dsimp only <;> omega

theorem out_exact {done : Nat} {r : Int} (hr : r ≤ 0) : Sent.Exact ⟨out done r, done⟩ := by
  have hall : Sent.Exact ⟨out done r, done + 0⟩ ↔ 0 = 0 :=
    out_exact_iff (fun h => absurd h (Nat.lt_irrefl 0)) hr
  exact hall.mpr rfl

theorem sendLoop_exact_iff {len : Nat} (ts : List Turn) {done n off : Nat} {x : Sent} (hle : off ≤ n)
    (h : sendLoop len done n off (done + off) ts = some x) : x.Exact ↔ Spared len done n off ts := by
  induction ts generalizing done n off with
  | nil =>
    simp only [sendLoop] at h
    split at h
    · cases h
    obtain rfl : off = n := by omega
    cases h
    exact iff_of_true (out_exact (Int.le_refl 0)) trivial
  | cons t ts ih =>
  simp only [sendLoop] at h
  rw [Spared]
  split at h
  · rename_i hlt
    rw [if_pos hlt]
    split at h
    · rename_i hgone
      cases h
      have hneg := sendError_neg t
      rw [out_exact_iff (fun _ => hneg) (Int.le_of_lt hneg)]
      simp [hgone]
    rename_i hgone
    -- the part of a turn that finds no room
    have hsleep (hfull : t.full) : (if done + off ≠ 0 ∧ t.nonblock then some ⟨out (done + off) 0, done + off⟩
        else if t.wait ≠ 0 then some ⟨out (done + off) (-t.wait), done + off⟩
        else sendLoop len done n off (done + off) ts) = some x →
        (x.Exact ↔ ((t.nonblock = true → done + off = 0) → t.wait = 0 → Spared len done n off ts)) := by
      intro hy
      split at hy
      · rename_i hnb
        cases hy
        exact iff_of_true (out_exact (Int.le_refl 0)) fun h0 => absurd (h0 hnb.2) hnb.1
      rename_i hnb
      split at hy
      · rename_i hwait
        cases hy
        exact iff_of_true (out_exact (by omega)) fun _ h0 => absurd h0 hwait
      rename_i hwait
      have hgo : t.nonblock = true → done + off = 0 := fun h1 => not_not.mp fun h0 => hnb ⟨h0, h1⟩
      rw [ih hle hy]
      exact ⟨fun h _ _ => h, fun h => h hgo (not_not.mp hwait)⟩
    split at h
    · rename_i hroom
      have hfull : t.full := hroom.imp_right .inl
      rw [hsleep hfull h]
      simp [hgone, hfull]
    rename_i hroom
    obtain ⟨hq, hbuf⟩ := not_or.mp hroom
    split at h
    · rename_i hw
      rw [Nat.add_assoc] at h
      rw [ih (by omega) h]
      simp [hgone, Turn.full, hq, hbuf, hw]
    · rename_i hw
      have hfull : t.full := .inr (.inr hw)
      rw [hsleep hfull h]
      simp [hgone, hfull]
    · rename_i e hw
      cases h
      rw [out_exact_iff (by omega) (by omega)]
      simp [hgone, Turn.full, hq, hbuf, hw]
  rename_i hlt
  rw [if_neg hlt]
  obtain rfl : off = n := by omega
  split at h
  · rename_i hmore
    split at h
    · rename_i hcopy
      cases h
      exact iff_of_true (out_exact (by decide)) fun _ h0 => absurd hcopy (by simp [h0])
    · rename_i hcopy
      rw [ih (Nat.zero_le _) h]
      simp [hmore, hcopy]
  · rename_i hmore
    cases h
    exact iff_of_true (out_exact (Int.le_refl 0)) fun h0 => absurd h0 hmore

-- A call says what it queued iff no turn finds the connection gone, or tcp_write failing, inside
-- of a chunk.
theorem tcp_send_exact_iff (alloc : Bool) (len : Nat) (ts : List Turn) (x : Sent) (h : tcpSend alloc len ts = some x) :
    x.Exact ↔ (alloc = true → Spared len 0 0 0 ts) := by
  unfold tcpSend at h
  split at h
  · rename_i halloc
    rw [sendLoop_exact_iff ts (Nat.le_refl 0) h]
    simp [halloc]
  · rename_i halloc
    cases h
    exact iff_of_true ⟨by decide, fun _ => rfl⟩ fun h0 => absurd h0 halloc

def roomTurn : Turn := ⟨false, 0, .connected, false, true, 100, false, .ok, false, 0⟩

def resetTurn : Turn := ⟨false, 104, .closed, false, false, 0, false, .ok, false, 0⟩

theorem tcp_send_exact_whole : tcpSend true 200 [roomTurn, roomTurn, roomTurn] = some ⟨200, 200⟩ ∧
    Spared 200 0 0 0 [roomTurn, roomTurn, roomTurn] :=
  ⟨rfl, (tcp_send_exact_iff true 200 [roomTurn, roomTurn, roomTurn] _ rfl).mp ⟨fun _ => rfl, by decide⟩ rfl⟩

theorem accepted_bytes_forgotten :
    tcpSend true 300 [roomTurn, roomTurn, resetTurn] = some ⟨-104, 100⟩ ∧ ¬ Sent.Exact ⟨-104, 100⟩ :=
  ⟨rfl, fun h => absurd (h.2 (by decide)) (by decide)⟩

end Olux.TcpSend
