import Olux.Basic
import Olux.Lib.Ring

namespace Olux.Pipefs

open Lib List

variable {bytes data : List UInt8}

def PIPE_SIZE : Nat := 64 * 1024
def PIPE_BUF : Nat := 4096

def POLLIN : Nat := 0x1
def POLLOUT : Nat := 0x4
def POLLERR : Nat := 0x8
def POLLHUP : Nat := 0x10
def POLLRDNORM : Nat := 0x40
def POLLWRNORM : Nat := 0x100

-- `struct pipe`, with the buffer and the two counters of 64 bits as a ring.
structure Pipe where
  ring : RingBuf UInt8
  readers : Nat
  writers : Nat
  wCounter : Nat

@[irreducible] def pipeUsed (p : Pipe) : Nat := p.ring.used (2 ^ 64)

@[irreducible] def Pipe.contents (p : Pipe) : List UInt8 := p.ring.contents PIPE_SIZE (2 ^ 64)

def Pipe.Ok (p : Pipe) : Prop := p.ring.Ok PIPE_SIZE (2 ^ 64)

inductive Out where
  | ret (r : Int)
  | sleep
deriving DecidableEq

def partly (done : Nat) (err : Int) : Int := if done ≠ 0 then done else err

-- The copy loop of `pipe_read`; `fault` tells at which offsets of the user's buffer a copy fails.
def readLoop (fault : Nat → Bool) (len : Nat) : Nat → List UInt8 → Pipe → List UInt8 × Bool × Pipe
  | 0, out, p => (out, false, p)
  | fuel + 1, out, p =>
    if out.length < len ∧ pipeUsed p ≠ 0 then
      let off := p.ring.tail % PIPE_SIZE
      let n := min (min (len - out.length) (pipeUsed p)) (PIPE_SIZE - off)
      if fault out.length then (out, true, p)
      else readLoop fault len fuel (out ++ p.ring.peek PIPE_SIZE n) { p with ring := p.ring.advance (2 ^ 64) n }
    else (out, false, p)

variable (fault : Nat → Bool)

def pipeRead (nonblock : Bool) (len : Nat) (p : Pipe) : Out × List UInt8 × Pipe :=
  if pipeUsed p ≠ 0 then
    match readLoop fault len len [] p with
    | (out, failed, p) => (.ret (if failed ∧ out = [] then - EFAULT else out.length), out, p)
  else if p.writers = 0 then (.ret 0, [], p)
  else if nonblock then (.ret (- EAGAIN), [], p)
  else (.sleep, [], p)

def writeLoop (fault : Nat → Bool) (nonblock : Bool) (data : List UInt8) : Nat → Nat → Pipe → Out × Nat × Pipe
  | 0, done, p => (.ret done, done, p)
  | fuel + 1, done, p =>
    if done < data.length then
      if p.readers = 0 then (.ret (partly done (- EPIPE)), done, p)
      else
        let space := PIPE_SIZE - pipeUsed p
        let want := data.length - done
        -- writes <= PIPE_BUF are atomic
        if space = 0 ∨ want ≤ PIPE_BUF ∧ space < want then
          if nonblock then (.ret (partly done (- EAGAIN)), done, p) else (.sleep, done, p)
        else
          let off := p.ring.head % PIPE_SIZE
          let n := min (min want space) (PIPE_SIZE - off)
          if fault done then (.ret (partly done (- EFAULT)), done, p)
          else
            writeLoop fault nonblock data fuel (done + n)
              { p with ring := p.ring.push PIPE_SIZE (2 ^ 64) ((data.drop done).take n) }
    else (.ret done, done, p)

def pipeWrite (nonblock : Bool) (data : List UInt8) (done : Nat) (p : Pipe) : Out × Nat × Pipe :=
  writeLoop fault nonblock data (data.length + 1) done p

def vfsRead (nonblock : Bool) (len : Nat) (p : Pipe) : Out × List UInt8 × Pipe :=
  if len = 0 then (.ret 0, [], p) else pipeRead fault nonblock len p

def vfsWrite (nonblock : Bool) (data : List UInt8) (done : Nat) (p : Pipe) : Out × Nat × Pipe :=
  if data.length = 0 then (.ret 0, done, p) else pipeWrite fault nonblock data done p

def readable (p : Pipe) : Bool := pipeUsed p ≠ 0 || p.writers = 0

def writable (want : Nat) (p : Pipe) : Bool := p.readers = 0 || PIPE_SIZE - pipeUsed p ≥ min want PIPE_BUF

def pipePoll (read write : Bool) (p : Pipe) : Nat :=
  (if read then
    (if pipeUsed p ≠ 0 then POLLIN ||| POLLRDNORM else 0) ||| (if p.writers = 0 ∧ p.wCounter ≠ 0 then POLLHUP else 0)
  else 0) |||
  (if write then
    (if PIPE_SIZE - pipeUsed p ≥ PIPE_BUF then POLLOUT ||| POLLWRNORM else 0) ||| (if p.readers = 0 then POLLERR else 0)
  else 0)

variable {fault : Nat → Bool} {nonblock : Bool} {p p' : Pipe}

@[simp] theorem length_contents : p.contents.length = pipeUsed p := by
  unfold Pipe.contents pipeUsed
  exact RingBuf.length_contents

theorem Pipe.Ok.used_le (h : p.Ok) : pipeUsed p ≤ PIPE_SIZE := by
  unfold pipeUsed
  exact h.used

theorem dvd_word : PIPE_SIZE ∣ 2 ^ 64 := by decide

structure Took (p p' : Pipe) (out : List UInt8) : Prop where
  ok : p'.Ok
  contents : p.contents = out ++ p'.contents
  readers : p'.readers = p.readers
  writers : p'.writers = p.writers

theorem Took.refl (h : p.Ok) : Took p p [] := ⟨h, (nil_append _).symm, rfl, rfl⟩

theorem Took.trans {p'' : Pipe} {out out' : List UInt8} (h : Took p p' out) (h' : Took p' p'' out') :
    Took p p'' (out ++ out') where
  ok := h'.ok
  contents := by rw [h.contents, h'.contents, append_assoc]
  readers := h'.readers.trans h.readers
  writers := h'.writers.trans h.writers

structure Put (p p' : Pipe) (bytes : List UInt8) : Prop where
  ok : p'.Ok
  contents : p'.contents = p.contents ++ bytes
  readers : p'.readers = p.readers
  writers : p'.writers = p.writers

theorem Put.refl (h : p.Ok) : Put p p [] := ⟨h, (append_nil _).symm, rfl, rfl⟩

theorem Put.trans {p'' : Pipe} {bytes' : List UInt8} (h : Put p p' bytes) (h' : Put p' p'' bytes') :
    Put p p'' (bytes ++ bytes') where
  ok := h'.ok
  contents := by rw [h'.contents, h.contents, append_assoc]
  readers := h'.readers.trans h.readers
  writers := h'.writers.trans h.writers

theorem Put.used (h : Put p p' bytes) : pipeUsed p' = pipeUsed p + bytes.length := by
  have hlen := congrArg List.length h.contents
  simpa using hlen

theorem Took.used (h : Took p p' bytes) : pipeUsed p = bytes.length + pipeUsed p' := by
  have hlen := congrArg List.length h.contents
  simpa using hlen

theorem advance_took (h : p.Ok) {n : Nat} (hn : n ≤ pipeUsed p) (hend : p.ring.tail % PIPE_SIZE + n ≤ PIPE_SIZE) :
    Took p { p with ring := p.ring.advance (2 ^ 64) n } (p.ring.peek PIPE_SIZE n) := by
  unfold pipeUsed at hn
  obtain ⟨hpeek, hdrop, hok⟩ := RingBuf.contents_advance h dvd_word hn hend
  refine ⟨hok, ?_, rfl, rfl⟩
  unfold Pipe.contents
  rw [hpeek, hdrop, take_append_drop]

theorem push_put (h : p.Ok) (bytes : List UInt8) (hroom : pipeUsed p + bytes.length ≤ PIPE_SIZE)
    (hend : p.ring.head % PIPE_SIZE + bytes.length ≤ PIPE_SIZE) :
    Put p { p with ring := p.ring.push PIPE_SIZE (2 ^ 64) bytes } bytes := by
  unfold pipeUsed at hroom
  obtain ⟨hcontents, hok⟩ := RingBuf.contents_push h dvd_word (by decide) hroom hend
  refine ⟨hok, ?_, rfl, rfl⟩
  unfold Pipe.contents
  exact hcontents

theorem readLoop_took (fault : Nat → Bool) (len fuel : Nat) (out : List UInt8) (h : p.Ok) (hlen : out.length ≤ len)
    (hfuel : len ≤ out.length + fuel) :
    ∃ more, (readLoop fault len fuel out p).1 = out ++ more ∧ Took p (readLoop fault len fuel out p).2.2 more ∧
      (out ++ more).length ≤ len ∧ ((∀ k, fault k = false) →
        (readLoop fault len fuel out p).2.1 = false ∧ more.length = min (len - out.length) (pipeUsed p)) := by
  induction fuel generalizing out p with
  | zero =>
    refine ⟨[], (append_nil _).symm, .refl h, by simpa using hlen, fun _ => ⟨rfl, ?_⟩⟩
    rw [show len - out.length = 0 by omega, Nat.zero_min]
    rfl
  | succ fuel ih =>
  unfold readLoop
  by_cases hgo : out.length < len ∧ pipeUsed p ≠ 0
  · rw [if_pos hgo]
    dsimp only
    generalize hn : min (min (len - out.length) (pipeUsed p)) (PIPE_SIZE - p.ring.tail % PIPE_SIZE) = n
    have hoff : p.ring.tail % PIPE_SIZE < PIPE_SIZE := Nat.mod_lt _ (by decide)
    have hpeek : (p.ring.peek PIPE_SIZE n).length = n := by simp [RingBuf.peek]
    by_cases hf : fault out.length = true
    · rw [if_pos hf]
      refine ⟨[], (append_nil _).symm, .refl h, by simpa using hlen, fun hno => ?_⟩
      rw [hno] at hf
      cases hf
    rw [if_neg hf]
    have hpiece := advance_took h (n := n) (by omega) (by omega)
    obtain ⟨more, hmore, htook, hle, hall⟩ := ih (out ++ p.ring.peek PIPE_SIZE n) hpiece.ok
      (by rw [length_append, hpeek]; omega) (by rw [length_append, hpeek]; omega)
    refine ⟨p.ring.peek PIPE_SIZE n ++ more, by rw [hmore, append_assoc], hpiece.trans htook,
      by rwa [← append_assoc], fun hno => ?_⟩
    obtain ⟨hfailed, hcount⟩ := hall hno
    have hused := hpiece.used
    rw [length_append, hpeek] at hcount
    rw [hpeek] at hused
    refine ⟨hfailed, ?_⟩
    rw [length_append, hpeek, hcount]
    omega
  rw [if_neg hgo]
  refine ⟨[], (append_nil _).symm, .refl h, by simpa using hlen, fun _ => ⟨rfl, ?_⟩⟩
  show 0 = _
  omega

theorem vfsRead_took (fault : Nat → Bool) (nonblock : Bool) (len : Nat) (h : p.Ok) :
    Took p (vfsRead fault nonblock len p).2.2 (vfsRead fault nonblock len p).2.1 := by
  unfold vfsRead
  split
  · exact .refl h
  unfold pipeRead
  split
  · obtain ⟨more, hmore, htook, -⟩ := readLoop_took fault len len [] h (Nat.zero_le _) (by simp)
    rw [nil_append] at hmore
    dsimp only
    rw [hmore]
    exact htook
  split
  · exact .refl h
  split
  · exact .refl h
  · exact .refl h

def Wrote (data : List UInt8) (done : Nat) (p : Pipe) (w : Out × Nat × Pipe) : Prop :=
  done ≤ w.2.1 ∧ w.2.1 ≤ data.length ∧ Put p w.2.2 ((data.drop done).take (w.2.1 - done))

theorem Wrote.refl {done : Nat} (h : p.Ok) (hdone : done ≤ data.length) (out : Out) :
    Wrote data done p (out, done, p) := by
  refine ⟨Nat.le_refl _, hdone, ?_⟩
  rw [Nat.sub_self, take_zero]
  exact Put.refl h

theorem Wrote.step {done n : Nat} {w : Out × Nat × Pipe} (h : Put p p' ((data.drop done).take n))
    (hrest : Wrote data (done + n) p' w) : Wrote data done p w := by
  obtain ⟨hge, hle, hput⟩ := hrest
  refine ⟨by omega, hle, ?_⟩
  have hjoin : (data.drop done).take (w.2.1 - done) =
      (data.drop done).take n ++ (data.drop (done + n)).take (w.2.1 - (done + n)) := by
    rw [← drop_drop, ← take_add, show n + (w.2.1 - (done + n)) = w.2.1 - done by omega]
  rw [hjoin]
  exact h.trans hput

theorem writeLoop_wrote (fault : Nat → Bool) (nonblock : Bool) (data : List UInt8) (fuel done : Nat) (h : p.Ok)
    (hdone : done ≤ data.length) : Wrote data done p (writeLoop fault nonblock data fuel done p) := by
  induction fuel generalizing done p with
  | zero => exact .refl h hdone _
  | succ fuel ih =>
  unfold writeLoop
  split
  · split
    · exact .refl h hdone _
    dsimp only
    split
    · split
      · exact .refl h hdone _
      · exact .refl h hdone _
    split
    · exact .refl h hdone _
    rename_i hlt hreaders hroom hfault
    generalize hn : min (min (data.length - done) (PIPE_SIZE - pipeUsed p)) (PIPE_SIZE - p.ring.head % PIPE_SIZE) = n
    have hlen : ((data.drop done).take n).length = n := by
      rw [length_take, length_drop]
      omega
    have hused := h.used_le
    have hoff : p.ring.head % PIPE_SIZE < PIPE_SIZE := Nat.mod_lt _ (by decide)
    have hput := push_put h ((data.drop done).take n) (by omega) (by omega)
    exact .step hput (ih (done + n) hput.ok (by omega))
  · exact .refl h hdone _

theorem writeLoop_all (nonblock : Bool) (data : List UInt8) (fuel done : Nat) (h : p.Ok) (hfault : ∀ k, fault k = false)
    (hdone : done ≤ data.length) (hfuel : data.length < done + fuel) (hreaders : p.readers ≠ 0)
    (hroom : pipeUsed p + (data.length - done) ≤ PIPE_SIZE) :
    ∃ p', writeLoop fault nonblock data fuel done p = (.ret data.length, data.length, p') := by
  induction fuel generalizing done p with
  | zero => omega
  | succ fuel ih =>
  unfold writeLoop
  by_cases hlt : done < data.length
  · rw [if_pos hlt, if_neg hreaders]
    dsimp only
    rw [if_neg (by omega), if_neg (by rw [hfault]; decide)]
    generalize hn : min (min (data.length - done) (PIPE_SIZE - pipeUsed p)) (PIPE_SIZE - p.ring.head % PIPE_SIZE) = n
    have hlen : ((data.drop done).take n).length = n := by
      rw [length_take, length_drop]
      omega
    have hoff : p.ring.head % PIPE_SIZE < PIPE_SIZE := Nat.mod_lt _ (by decide)
    have hput := push_put h ((data.drop done).take n) (by omega) (by omega)
    have hused := hput.used
    exact ih (done + n) hput.ok (by omega) (by omega) hreaders (by omega)
  · rw [if_neg hlt, show done = data.length by omega]
    exact ⟨p, rfl⟩

theorem writeLoop_stuck (fault : Nat → Bool) (nonblock : Bool) (fuel : Nat) {done : Nat}
    (hdone : done < data.length) (hfull : p.readers = 0 ∨ PIPE_SIZE - pipeUsed p = 0 ∨
      data.length - done ≤ PIPE_BUF ∧ PIPE_SIZE - pipeUsed p < data.length - done) :
    writeLoop fault nonblock data (fuel + 1) done p = (if p.readers = 0 then .ret (partly done (- EPIPE))
        else if nonblock then .ret (partly done (- EAGAIN)) else .sleep, done, p) := by
  rw [writeLoop, if_pos hdone]
  by_cases hreaders : p.readers = 0
  · rw [if_pos hreaders, if_pos hreaders]
  rw [if_neg hreaders, if_neg hreaders]
  dsimp only
  rw [if_pos (hfull.resolve_left hreaders)]
  cases nonblock
  · rfl
  · rfl

theorem vfsWrite_atomic (nonblock : Bool) (h : p.Ok) (hfault : ∀ k, fault k = false) (hdata : data.length ≤ PIPE_BUF) :
    (∃ p', vfsWrite fault nonblock data 0 p = (.ret data.length, data.length, p')) ∨
      (p.readers = 0 ∨ PIPE_SIZE - pipeUsed p < data.length) ∧
        ∃ out, vfsWrite fault nonblock data 0 p = (out, 0, p) ∧ out ≠ .ret data.length := by
  unfold vfsWrite
  by_cases hnil : data.length = 0
  · rw [if_pos hnil, hnil]
    exact .inl ⟨p, rfl⟩
  rw [if_neg hnil]
  have hused := h.used_le
  by_cases hroom : p.readers ≠ 0 ∧ pipeUsed p + (data.length - 0) ≤ PIPE_SIZE
  · exact .inl (writeLoop_all nonblock data _ 0 h hfault (Nat.zero_le _) (by omega) hroom.1 hroom.2)
  have hfull : p.readers = 0 ∨ PIPE_SIZE - pipeUsed p < data.length := by omega
  refine .inr ⟨hfull, _, writeLoop_stuck fault nonblock _ (by omega) (by omega), ?_⟩
  split
  · intro heq
    have hneg : (- EPIPE : Int) = data.length := Out.ret.inj heq
    unfold EPIPE at hneg
    omega
  split
  · intro heq
    have hneg : (- EAGAIN : Int) = data.length := Out.ret.inj heq
    unfold EAGAIN at hneg
    omega
  · intro heq
    cases heq

theorem vfsWrite_room (nonblock : Bool) (h : p.Ok) (hfault : ∀ k, fault k = false)
    (hroom : data.length ≤ PIPE_SIZE - pipeUsed p) : (vfsWrite fault nonblock data 0 p).1 ≠ .ret (- EAGAIN) := by
  unfold vfsWrite
  by_cases hnil : data.length = 0
  · rw [if_pos hnil]
    exact fun heq => absurd (Out.ret.inj heq) (by decide)
  rw [if_neg hnil]
  unfold pipeWrite
  by_cases hreaders : p.readers = 0
  · rw [writeLoop_stuck fault nonblock _ (by omega) (.inl hreaders), if_pos hreaders]
    exact fun heq => absurd (Out.ret.inj heq) (by decide)
  obtain ⟨p', heq⟩ := writeLoop_all nonblock data (data.length + 1) 0 h hfault (Nat.zero_le _) (by omega) hreaders
    (by omega)
  rw [heq]
  intro hret
  have hneg : (data.length : Int) = - EAGAIN := Out.ret.inj hret
  unfold EAGAIN at hneg
  omega

theorem pollout_iff (read : Bool) : pipePoll read true p &&& POLLOUT ≠ 0 ↔ PIPE_SIZE - pipeUsed p ≥ PIPE_BUF := by
  unfold pipePoll
  rw [if_pos rfl]
  by_cases h : PIPE_SIZE - pipeUsed p ≥ PIPE_BUF
  · rw [if_pos h]
    refine iff_of_true ?_ h
    cases read with
    | false =>
      rw [if_neg (by decide)]
      split <;> decide
    | true =>
      rw [if_pos rfl]
      split <;> split <;> split <;> decide
  rw [if_neg h]
  refine iff_of_false ?_ h
  cases read with
  | false =>
    rw [if_neg (by decide)]
    split <;> decide
  | true =>
    rw [if_pos rfl]
    split <;> split <;> split <;> decide

end Olux.Pipefs
