import Olux.Pipe

namespace Olux.Pipefs

open List

variable {lens : List Nat}

def MAX_RW : Nat := 0x7ffff000
def noFault : Nat → Bool := fun _ => false

variable (nonblock : Bool)

def sysRead (len : Nat) (p : Pipe) : Out × List UInt8 × Pipe :=
  vfsRead noFault nonblock (min len MAX_RW) p

def sysWrite (data : List UInt8) (p : Pipe) : Out × Nat × Pipe :=
  vfsWrite noFault nonblock (data.take MAX_RW) 0 p

inductive Turn where
  | sleep
  | ret (r : Int)
  | next (r : Nat)
deriving DecidableEq

variable {nonblock : Bool} {p : Pipe}

def starved (nonblock : Bool) (p : Pipe) : Out :=
  if p.writers = 0 then .ret 0 else if nonblock then .ret (- EAGAIN) else .sleep

theorem sysRead_empty {len : Nat} (hlen : len ≠ 0) (hempty : pipeUsed p = 0) :
    sysRead nonblock len p = (starved nonblock p, [], p) := by
  unfold sysRead vfsRead pipeRead starved
  rw [if_neg (by unfold MAX_RW; omega), if_neg (by simpa using hempty)]
  split
  · rfl
  split
  · rfl
  · rfl

theorem sysRead_some (nonblock : Bool) {len : Nat} (hlen : len ≠ 0) (h : p.Ok) (hused : pipeUsed p ≠ 0) :
    ∃ p', sysRead nonblock len p = (.ret (min len (pipeUsed p) : Nat), p.contents.take (min len (pipeUsed p)), p') ∧
      Took p p' (p.contents.take (min len (pipeUsed p))) := by
  have hle := h.used_le
  obtain ⟨more, hmore, htook, -, hall⟩ := readLoop_took noFault (min len MAX_RW) (min len MAX_RW) [] h (Nat.zero_le _)
    (Nat.le_add_left _ _)
  obtain ⟨hfailed, hcount⟩ := hall fun _ => rfl
  have hcount : more.length = min len (pipeUsed p) := by
    rw [hcount]
    unfold MAX_RW PIPE_SIZE at *
    simp only [length_nil]
    omega
  have hbytes : more = p.contents.take (min len (pipeUsed p)) := by
    rw [htook.contents, ← hcount, take_left']
    rfl
  unfold sysRead vfsRead pipeRead
  rw [if_neg (by unfold MAX_RW; omega), if_pos hused]
  generalize readLoop noFault (min len MAX_RW) (min len MAX_RW) [] p = w at hmore htook hfailed
  obtain ⟨out, failed, p'⟩ := w
  obtain rfl : failed = false := hfailed
  obtain rfl : out = more := hmore
  refine ⟨p', ?_, hbytes ▸ htook⟩
  dsimp only
  rw [if_neg (by simp), ← hbytes, ← hcount]

variable (nonblock : Bool)

section Interleaved

-- A run of another thread on the pipe, between two turns of the writev, and the bytes it puts in.
inductive Other where
  | read (len : Nat)
  | write (data : List UInt8)

def Other.act : Other → Pipe → List UInt8 × Pipe
  | .read len, p => ([], (sysRead true len p).2.2)
  | .write data, p => (data.take (sysWrite true data p).2.1, (sysWrite true data p).2.2)

-- The bytes put into the pipe, piece by piece, each with whether it is the writev's.
abbrev Log := List (Bool × List UInt8)

def others : List Other → Pipe → Log × Pipe
  | [], p => ([], p)
  | o :: os, p => ((false, (o.act p).1) :: (others os (o.act p).2).1, (others os (o.act p).2).2)

def Contiguous (log : Log) : Prop :=
  ∃ pre mid post, log.filter (fun e => e.2 ≠ []) = pre ++ mid ++ post ∧ (∀ e ∈ pre ++ post, e.1 = false) ∧
    ∀ e ∈ mid, e.1 = true

variable {v : List UInt8}

theorem Other.act_ok (o : Other) (h : p.Ok) : (o.act p).2.Ok ∧ (o.act p).2.readers = p.readers := by
  cases o with
  | read len =>
    by_cases hlen : len = 0
    · subst hlen
      exact ⟨h, rfl⟩
    by_cases hused : pipeUsed p = 0
    · rw [Other.act, sysRead_empty hlen hused]
      exact ⟨h, rfl⟩
    · obtain ⟨p', hread, htook⟩ := sysRead_some true hlen h hused
      rw [Other.act, hread]
      exact ⟨htook.ok, htook.readers⟩
  | write data =>
    have hwrote : Wrote (data.take MAX_RW) 0 p (sysWrite true data p) := by
      unfold sysWrite vfsWrite
      split
      · exact Wrote.refl h (Nat.zero_le _) _
      · exact writeLoop_wrote noFault true _ _ 0 h (Nat.zero_le _)
    exact ⟨hwrote.2.2.ok, hwrote.2.2.readers⟩

theorem Contiguous.behind {log log' : Log} (h : Contiguous log') (hlog : ∀ e ∈ log, e.1 = false ∨ e.2 = []) :
    Contiguous (log ++ log') := by
  obtain ⟨pre, mid, post, heq, hout, hmid⟩ := h
  refine ⟨log.filter (fun e => e.2 ≠ []) ++ pre, mid, post, ?_, fun e he => ?_, hmid⟩
  · rw [filter_append, heq, append_assoc, append_assoc, append_assoc]
  · rw [append_assoc] at he
    rcases mem_append.mp he with he | he
    · obtain ⟨hmem, hne⟩ := mem_filter.mp he
      exact (hlog e hmem).resolve_right (of_decide_eq_true hne)
    · exact hout e he

theorem Contiguous.tail {b : Bool} {log : Log} (h : Contiguous ((b, []) :: log)) : Contiguous log := by
  obtain ⟨pre, mid, post, heq, hrest⟩ := h
  exact ⟨pre, mid, post, by simpa using heq, hrest⟩

variable {w : List UInt8} {vs : List (List UInt8)}

end Interleaved

def crowded : Pipe := ⟨⟨fun _ => 0, 65533, 0⟩, 1, 1, 1⟩

end Olux.Pipefs
