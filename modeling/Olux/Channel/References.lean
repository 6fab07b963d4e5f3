import Olux.Channel

namespace Olux.Channel

open Function List Option

theorem sendTurn_cases (side : Bool) (m : Msg) (turn : Turn) :
    (sendTurn side m turn = .failed (- EPIPE) m.files ∧ turn.chan.closed (!side) = true) ∨
      (turn.chan.closed (!side) = false ∧ turn.chan.nq (!side) < CHAN_MAX_QUEUED ∧
        turn.chan.bytes (!side) + m.len ≤ CHAN_MAX_BYTES ∧ sendTurn side m turn = .queued { turn.chan with
          q := Function.update turn.chan.q (!side) (turn.chan.q (!side) ++ [m])
          nq := Function.update turn.chan.nq (!side) (turn.chan.nq (!side) + 1)
          bytes := Function.update turn.chan.bytes (!side) (turn.chan.bytes (!side) + m.len) }) ∨
      (∃ r, sendTurn side m turn = .failed r [] ∧ r ≠ 0 ∧ r ≠ - EPIPE) ∨ sendTurn side m turn = .again := by
  unfold sendTurn
  dsimp only
  split
  · rename_i hclosed
    exact .inl ⟨rfl, hclosed⟩
  rename_i hclosed
  split
  · rename_i hroom
    exact .inr (.inl ⟨eq_false_of_ne_true hclosed, hroom.1, hroom.2, rfl⟩)
  split
  · exact .inr (.inr (.inl ⟨_, rfl, by decide, by decide⟩))
  split
  · exact .inr (.inr (.inl ⟨_, rfl, by decide, by decide⟩))
  · exact .inr (.inr (.inr rfl))

-- Where the references are at the end of chan_send: they are put on -EPIPE and on no other
-- error.
def Hands (side : Bool) (files : List Nat) (turns : List Turn) : Sent → Prop
  | .sleeping m => m.files = files
  | .queued m c => m.files = files ∧ ∃ turn ∈ turns, c.q (!side) = turn.chan.q (!side) ++ [m]
  | .failed r puts => r ≠ 0 ∧ (r = - EPIPE ∧ puts = files ∨ r ≠ - EPIPE ∧ puts = [])

theorem sendLoop_hands (side : Bool) (m : Msg) (turns : List Turn) :
    Hands side m.files turns (sendLoop side m turns) := by
  induction turns with
  | nil => rfl
  | cons turn turns ih =>
  unfold sendLoop
  rcases sendTurn_cases side m turn with ⟨h, -⟩ | ⟨-, -, -, h⟩ | ⟨r, h, hr, hpipe⟩ | h
  · rw [h]
    exact ⟨by decide, .inl ⟨rfl, rfl⟩⟩
  · rw [h]
    exact ⟨rfl, turn, mem_cons_self, update_self _ _ _⟩
  · rw [h]
    exact ⟨hr, .inr ⟨hpipe, rfl⟩⟩
  rw [h]
  dsimp only
  revert ih
  cases sendLoop side m turns with
  | sleeping m' => exact id
  | queued m' c =>
    rintro ⟨hm, turn', hturn, hq⟩
    exact ⟨hm, turn', mem_cons_of_mem _ hturn, hq⟩
  | failed r puts => exact id

theorem prepare_files {rq : Request} {m : Msg} (h : prepare rq = .ok m) : m.files = rq.files := by
  unfold prepare at h
  split at h
  · cases h
  split at h
  · cases h
  split at h
  · cases h
  · cases h
    rfl

theorem prepare_error {rq : Request} {e : Int} (h : prepare rq = .error e) : e ≠ 0 ∧ e ≠ - EPIPE := by
  unfold prepare at h
  split at h
  · cases h
    exact ⟨by decide, by decide⟩
  split at h
  · cases h
    exact ⟨by decide, by decide⟩
  split at h
  · cases h
    exact ⟨by decide, by decide⟩
  · cases h

theorem chanSend_hands (side : Bool) (rq : Request) (turns : List Turn) :
    Hands side rq.files turns (chanSend side rq turns) := by
  unfold chanSend
  split
  · rename_i e he
    exact ⟨(prepare_error he).1, .inr ⟨(prepare_error he).2, rfl⟩⟩
  rename_i m hm
  rw [← prepare_files hm]
  exact sendLoop_hands side m turns

theorem not_perm_append_self {files : List Nat} : files.Perm (files ++ files) ↔ files = [] := by
  constructor
  · intro h
    have hlen := h.length_eq
    rw [length_append] at hlen
    exact eq_nil_of_length_eq_zero (by omega)
  · rintro rfl
    exact .refl _

-- chan_send ends at a turn that finds the peer closed; before it the peer's queue is full and the call waits.
def FoundClosed (side : Bool) (len : Nat) : List Turn → Prop
  | [] => False
  | turn :: turns =>
    turn.chan.closed (!side) = true ∨
      (¬ (turn.chan.nq (!side) < CHAN_MAX_QUEUED ∧ turn.chan.bytes (!side) + len ≤ CHAN_MAX_BYTES) ∧
        turn.nonblock = false ∧ turn.wake ≠ .signal ∧ FoundClosed side len turns)

theorem sendLoop_epipe_iff (side : Bool) (m : Msg) (turns : List Turn) :
    (∃ puts, sendLoop side m turns = .failed (- EPIPE) puts) ↔ FoundClosed side m.len turns := by
  induction turns with
  | nil => exact iff_of_false nofun id
  | cons turn turns ih =>
  unfold sendLoop sendTurn FoundClosed
  dsimp only
  by_cases hclosed : turn.chan.closed (!side) = true
  · rw [if_pos hclosed]
    exact iff_of_true ⟨_, rfl⟩ (.inl hclosed)
  rw [if_neg hclosed, or_iff_right hclosed]
  by_cases hroom : turn.chan.nq (!side) < CHAN_MAX_QUEUED ∧ turn.chan.bytes (!side) + m.len ≤ CHAN_MAX_BYTES
  · rw [if_pos hroom]
    exact iff_of_false nofun fun h => h.1 hroom
  rw [if_neg hroom, and_iff_right hroom]
  by_cases hnonblock : turn.nonblock = true
  · rw [if_pos hnonblock]
    exact iff_of_false nofun fun h => by simp [hnonblock] at h
  rw [if_neg hnonblock, and_iff_right (eq_false_of_ne_true hnonblock)]
  by_cases hwake : turn.wake = .signal
  · rw [if_pos hwake]
    exact iff_of_false nofun fun h => h.1 hwake
  · rw [if_neg hwake, and_iff_right hwake]
    exact ih

theorem Buf.copy_length {b : Buf} {len : Nat} {data : List UInt8} (h : b.copy len = some data) :
    data.length = len := by
  cases b with
  | kernel mem =>
    cases h
    simp
  | user mem =>
  rw [Buf.copy] at h
  split at h
  · rename_i hlen
    cases h
    exact hlen.symm
  · cases mem with
    | none => cases h
    | some b =>
      cases h
      simp

theorem chanSend_epipe_iff (side : Bool) (rq : Request) (turns : List Turn) :
    (∃ puts, chanSend side rq turns = .failed (- EPIPE) puts) ↔
      rq.len ≤ OLUX_MSG_MAX ∧ rq.alloc = true ∧ rq.buf.copy rq.len ≠ none ∧ FoundClosed side rq.len turns := by
  unfold chanSend prepare
  by_cases hlen : rq.len > OLUX_MSG_MAX
  · rw [if_pos hlen]
    exact iff_of_false nofun fun h => absurd h.1 (Nat.not_le.mpr hlen)
  rw [if_neg hlen, and_iff_right (Nat.le_of_not_lt hlen)]
  by_cases halloc : rq.alloc = false
  · rw [if_pos halloc]
    exact iff_of_false nofun fun h => by simp [halloc] at h
  rw [if_neg halloc, and_iff_right (eq_true_of_ne_false halloc)]
  cases hdata : rq.buf.copy rq.len with
  | none => exact iff_of_false nofun fun h => h.1 rfl
  | some data =>
    rw [and_iff_right (some_ne_none data), ← Buf.copy_length hdata]
    exact sendLoop_epipe_iff side _ turns

theorem collect_eq_zero_iff (words : List Word) : (collect words).2 = 0 ↔ ∀ w ∈ words, ∃ f, w = .file f := by
  induction words with
  | nil => simp [collect]
  | cons w words ih =>
    cases w with
    | fault => exact iff_of_false (show ¬ - EFAULT = 0 by decide) fun h => by simpa using h .fault mem_cons_self
    | bad => exact iff_of_false (show ¬ - EBADF = 0 by decide) fun h => by simpa using h .bad mem_cons_self
    | file f => simpa [collect] using ih

theorem collect_files_eq_nil {words : List Word} (h : (collect words).2 = 0) :
    (collect words).1 = [] ↔ words = [] := by
  cases words with
  | nil => simp [collect]
  | cons w words =>
    cases w with
    | fault => exact absurd h (show ¬ - EFAULT = 0 by decide)
    | bad => exact absurd h (show ¬ - EBADF = 0 by decide)
    | file f => simp [collect]

-- A call that passes at least one file, gets as far as the loop of chan_send and finds the peer closed there.
structure SendCall.PeerClosed (call : SendCall) (side : Bool) : Prop where
  found : call.found = .channel side
  passes : call.words ≠ []
  fds : call.words.length ≤ OLUX_MSG_MAX_FDS
  open_ : ∀ w ∈ call.words, ∃ f, w = .file f
  len : call.len ≤ OLUX_MSG_MAX
  alloc : call.alloc = true
  readable : call.len = 0 ∨ call.buf ≠ none
  closed : FoundClosed side call.len call.turns

theorem Buf.copy_user_ne_none (mem : Option (Nat → UInt8)) (len : Nat) :
    (Buf.user mem).copy len ≠ none ↔ len = 0 ∨ mem ≠ none := by
  unfold Buf.copy
  by_cases hlen : len = 0
  · simp [hlen]
  · simp [hlen]

theorem SendCall.peerClosed_iff {call : SendCall} {side : Bool} (hfds : ¬ call.words.length > OLUX_MSG_MAX_FDS)
    (hfound : call.found = .channel side) (hopen : (collect call.words).2 = 0) : (∃ i, call.PeerClosed i) ↔
      call.files ≠ [] ∧ ∃ puts, chanSend side call.request call.turns = .failed (- EPIPE) puts := by
  rw [chanSend_epipe_iff, Ne, SendCall.files, collect_files_eq_nil hopen]
  constructor
  · rintro ⟨i, h⟩
    cases hfound.symm.trans h.found
    exact ⟨h.passes, h.len, h.alloc, (Buf.copy_user_ne_none _ _).mpr h.readable, h.closed⟩
  · rintro ⟨hpasses, hlen, halloc, hcopy, hclosed⟩
    exact ⟨side, hfound, hpasses, Nat.le_of_not_lt hfds, (collect_eq_zero_iff _).mp hopen, hlen, halloc,
      (Buf.copy_user_ne_none _ _).mp hcopy, hclosed⟩

theorem sysOluxMsgSend_conserved_iff (call : SendCall) :
    (sysOluxMsgSend call).Conserved ↔ ¬ ∃ side, call.PeerClosed side := by
  unfold sysOluxMsgSend
  split
  · rename_i hfds
    exact iff_of_true (List.Perm.refl _) fun ⟨_, h⟩ => absurd h.fds (Nat.not_le.mpr hfds)
  rename_i hfds
  split
  · rename_i hfound
    exact iff_of_true (List.Perm.refl _) fun ⟨_, h⟩ => nomatch hfound.symm.trans h.found
  · rename_i hfound
    exact iff_of_true (List.Perm.refl _) fun ⟨_, h⟩ => nomatch hfound.symm.trans h.found
  rename_i side hfound
  split
  · rename_i hopen
    exact iff_of_true (List.Perm.refl _) fun ⟨_, h⟩ => hopen ((collect_eq_zero_iff _).mpr h.open_)
  rename_i hopen
  rw [SendCall.peerClosed_iff hfds hfound (not_not.mp hopen)]
  have hhands : Hands side call.files call.turns (chanSend side call.request call.turns) :=
    chanSend_hands side call.request call.turns
  revert hhands
  cases chanSend side call.request call.turns with
  | sleeping m =>
    intro hfiles
    refine iff_of_true ?_ nofun
    simp only [Outcome.Conserved, append_nil]
    rw [show m.files = call.files from hfiles]
  | queued m c =>
    rintro ⟨hfiles, -⟩
    refine iff_of_true ?_ nofun
    simp only [Outcome.Conserved, append_nil, nil_append]
    rw [hfiles]
  | failed r puts =>
  rintro ⟨hr, ⟨rfl, rfl⟩ | ⟨hpipe, rfl⟩⟩
  · -- the message's references are put by free_msg and by the caller
    dsimp only
    rw [if_pos hr]
    simp only [Outcome.Conserved, nil_append, not_perm_append_self]
    simp
  refine iff_of_true ?_ fun ⟨_, _, h⟩ => hpipe (Sent.failed.inj h).1
  dsimp only
  rw [if_pos hr]
  exact .refl _

theorem installLoop_append (call : RecvCall) (i : Nat) (files : List Nat) :
    (installLoop call i files).1 ++ (installLoop call i files).2 = files := by
  induction files generalizing i with
  | nil => rfl
  | cons f fs ih =>
  simp only [installLoop]
  generalize (if call.ufds then call.install i else - EBADF) = nfd
  by_cases hnfd : nfd < 0
  · rw [if_pos hnfd]
    rfl
  · rw [if_neg hnfd]
    exact congrArg (f :: ·) (ih (i + 1))

theorem receive_conserved (call : RecvCall) (m : Msg) : (receive call m).Conserved := by
  unfold receive
  split
  · exact .refl _
  · simp only [Outcome.Conserved, nil_append, installLoop_append]
    exact .refl _

theorem sysOluxMsgRecv_conserved (call : RecvCall) : (sysOluxMsgRecv call).Conserved := by
  unfold sysOluxMsgRecv
  split
  · exact .refl _
  · exact .refl _
  split
  · exact .refl _
  · exact .refl _
  · exact receive_conserved call _

theorem recvTurn_message {side : Bool} {maxlen : Nat} {deadline interruptible : Bool} {turn : Turn} {m : Msg}
    {c : Chan} (h : recvTurn side maxlen deadline interruptible turn = .message m c) :
    ∃ rest, turn.chan.q side = m :: rest ∧ m.len ≤ maxlen ∧ c = { turn.chan with
        q := Function.update turn.chan.q side rest
        nq := Function.update turn.chan.nq side (turn.chan.nq side - 1)
        bytes := Function.update turn.chan.bytes side (turn.chan.bytes side - m.len) } := by
  have hwait : ∀ {w : Receiving}, (w = if turn.chan.closed (!side) then .failed (- EPIPE) 0
      else if turn.nonblock then .failed (- EAGAIN) 0
      else if interruptible ∧ turn.wake = .signal then .failed (- ERESTARTSYS) 0
      else if turn.wake = .timeout ∧ deadline then .failed (- ETIMEDOUT) 0
      else .again) → w ≠ .message m c := by
    rintro w rfl
    repeat' split
    all_goals exact nofun
  unfold recvTurn at h
  dsimp only at h
  split at h
  · split at h
    · rename_i m' rest hq
      split at h
      · cases h
      rename_i hlen
      cases h
      exact ⟨rest, hq, Nat.le_of_not_lt hlen, rfl⟩
    · exact absurd h (hwait rfl)
  · exact absurd h (hwait rfl)

theorem chanRecv_message {side : Bool} {maxlen : Nat} {deadline interruptible : Bool} {turns : List Turn} {m : Msg}
    {c : Chan} (h : chanRecv side maxlen deadline interruptible turns = .message m c) :
    ∃ turn ∈ turns, turn.chan.q side = m :: c.q side := by
  induction turns with
  | nil => cases h
  | cons turn turns ih =>
  unfold chanRecv at h
  split at h
  · rename_i m' c' hturn
    cases h
    obtain ⟨rest, hq, -, hc⟩ := recvTurn_message hturn
    refine ⟨turn, mem_cons_self, ?_⟩
    rw [hc, hq]
    dsimp only
    rw [update_self]
  · cases h
  · obtain ⟨turn', hturn', hq⟩ := ih h
    exact ⟨turn', mem_cons_of_mem _ hturn', hq⟩

-- A send conserves the references it passes unless it finds the peer closed: then free_msg and the system call put
-- the same ones. A receive conserves them.
theorem msg_references_conserved_iff (send : SendCall) (recv : RecvCall) (side : Bool) :
    ((sysOluxMsgSend send).Conserved ↔ ¬ ∃ i, send.PeerClosed i) ∧
      (sysOluxMsgRecv recv).Conserved ∧
      (∀ m c, chanSend side send.request send.turns = .queued m c →
        m.files = send.files ∧ ∃ turn ∈ send.turns, c.q (!side) = turn.chan.q (!side) ++ [m]) ∧
      (∀ m c, chanRecv side recv.len false true recv.turns = .message m c →
        ∃ turn ∈ recv.turns, turn.chan.q side = m :: c.q side) := by
  refine ⟨sysOluxMsgSend_conserved_iff send, sysOluxMsgRecv_conserved recv, fun m c h => ?_, fun m c h => ?_⟩
  · have hhands := chanSend_hands side send.request send.turns
    rw [h] at hhands
    exact hhands
  · exact chanRecv_message h

def epipeCall : SendCall :=
  { found := .channel false
    words := [.file 7]
    buf := none
    len := 0
    proc := ⟨1, 0, 0⟩
    alloc := true
    turns := [⟨{ chanCreatePair with closed := fun side => side, refs := 1 }, false, .woken⟩] }

theorem closed_peer_puts_twice :
    (sysOluxMsgSend epipeCall).ret = some (- EPIPE) ∧ (sysOluxMsgSend epipeCall).taken = [7] ∧
      (sysOluxMsgSend epipeCall).puts = [7, 7] ∧ ¬ (sysOluxMsgSend epipeCall).Conserved := by
  refine ⟨by decide, by decide, by decide, fun h => ?_⟩
  exact absurd h.length_eq (by decide)

end Olux.Channel
