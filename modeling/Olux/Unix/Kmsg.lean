import Olux.Unix

namespace Olux.Unix

open List

-- The copies in terms of the buffers laid end to end.

variable {src : List UInt8} {iov : List (List UInt8)}

theorem kmsgCopyFrom_eq (off n : Nat) (iov : List (List UInt8)) :
    kmsgCopyFrom off n iov = (iov.flatten.drop off).take n := by
  induction iov generalizing off n with
  | nil => simp [kmsgCopyFrom]
  | cons b iov ih =>
  unfold kmsgCopyFrom
  rw [flatten_cons]
  split
  · rename_i hn
    rw [hn, take_zero]
  split
  · rename_i hoff
    rw [ih, drop_append, drop_of_length_le hoff, nil_append]
  rename_i hoff
  dsimp only
  rw [ih, drop_zero, drop_append_of_le_length (Nat.le_of_not_le hoff), take_append, length_drop]
  rcases Nat.le_total n (b.length - off) with hle | hle
  · rw [Nat.min_eq_left hle, Nat.sub_self, Nat.sub_eq_zero_of_le hle]
  · have hlen : (b.drop off).length ≤ n := by rwa [length_drop]
    rw [Nat.min_eq_right hle, take_of_length_le (Nat.le_of_eq (length_drop ..)), take_of_length_le hlen]

theorem kmsgCopyTo_flatten {off : Nat} (h : off + src.length ≤ iov.flatten.length) :
    (kmsgCopyTo off src iov).flatten = iov.flatten.take off ++ src ++ iov.flatten.drop (off + src.length) := by
  induction iov generalizing off src with
  | nil =>
    obtain ⟨rfl, hsrc⟩ : off = 0 ∧ src.length = 0 := Nat.add_eq_zero_iff.mp (Nat.le_zero.mp h)
    rw [eq_nil_of_length_eq_zero hsrc]
    rfl
  | cons b iov ih =>
  rw [flatten_cons, length_append] at h
  unfold kmsgCopyTo
  split
  · rename_i hsrc
    rw [hsrc, append_nil, length_nil, Nat.add_zero, take_append_drop]
  split
  · rename_i hoff
    rw [flatten_cons, flatten_cons, ih (by omega), take_append, take_of_length_le hoff,
      drop_append, drop_of_length_le (by omega : b.length ≤ off + src.length), nil_append,
      show off + src.length - b.length = off - b.length + src.length by omega]
    simp only [append_assoc]
  rename_i hoff
  have hoff' : off ≤ b.length := Nat.le_of_not_le hoff
  dsimp only
  rw [flatten_cons, flatten_cons, take_append_of_le_length hoff']
  rcases Nat.le_total src.length (b.length - off) with hle | hle
  · rw [Nat.min_eq_left hle, take_length, drop_length, drop_append_of_le_length (by omega)]
    rw [ih (Nat.zero_le _), take_zero, nil_append, nil_append, length_nil, drop_zero]
    simp only [append_assoc]
  rw [Nat.min_eq_right hle, drop_of_length_le (by omega : b.length ≤ off + (b.length - off)), append_nil,
    ih (by rw [length_drop]; omega), take_zero, nil_append, length_drop, drop_append,
    drop_of_length_le (by omega : b.length ≤ off + src.length), nil_append,
    show 0 + (src.length - (b.length - off)) = off + src.length - b.length by omega]
  simp only [append_assoc]
  rw [← append_assoc (src.take _), take_append_drop]

theorem kmsgCopyTo_length {off : Nat}
    (h : off + src.length ≤ iov.flatten.length) : (kmsgCopyTo off src iov).flatten.length = iov.flatten.length := by
  rw [kmsgCopyTo_flatten h, length_append, length_append, length_take, length_drop]
  omega

theorem kmsgCopyTo_take {off : Nat} (h : off + src.length ≤ iov.flatten.length) :
    (kmsgCopyTo off src iov).flatten.take (off + src.length) = iov.flatten.take off ++ src := by
  have hlen : (iov.flatten.take off ++ src).length = off + src.length := by
    rw [length_append, length_take]
    omega
  rw [kmsgCopyTo_flatten h, ← hlen, take_left]

variable {m m' : Kmsg} {c : Uchunk} {done n : Nat} {r : Int}

structure Chunk (m : Kmsg) (done n : Nat) (c : Uchunk) (m' : Kmsg) : Prop where
  data : c.data = kmsgCopyFrom done n m.iov
  off : c.off = 0
  fds : c.fds ++ m'.fds = m.fds
  iov : m'.iov = m.iov
  len : m'.len = m.len
  trunc : m'.trunc = m.trunc

def Sending.Ok (rets : Int → Prop) (queues : Uchunk → Kmsg → Prop) : Sending → Prop
  | .ret r => rets r
  | .again => True
  | .queued c m' => queues c m'

variable {x : Sending} {rets : Int → Prop} {queues : Uchunk → Kmsg → Prop}

theorem Sending.Ok.ret (h : x.Ok rets queues) (hx : x = .ret r) : rets r := by
  rw [hx] at h
  exact h

theorem Sending.Ok.queued (h : x.Ok rets queues) (hx : x = .queued c m') : queues c m' := by
  rw [hx] at h
  exact h

theorem partly_cases (h : r < 0) : (0 ≤ partly done r → partly done r = done) ∧ (partly done r < 0 → done = 0) := by
  unfold partly
  split
  · exact ⟨fun _ => rfl, fun hneg => absurd hneg (by omega)⟩
  · rename_i hdone
    exact ⟨fun hpos => absurd hpos (by omega), fun _ => Decidable.not_not.mp hdone⟩

theorem neg_wait {wait : Nat} (h : wait ≠ 0) : - (wait : Int) < 0 := by omega

theorem makeChunk_cases (m : Kmsg) (off len : Nat) (env : Env) : (∃ e, makeChunk m off len env = .error e ∧ e < 0) ∨
    makeChunk m off len env = .ok ⟨kmsgCopyFrom off len m.iov, 0, [], env.creds, []⟩ := by
  unfold makeChunk
  split
  · exact .inl ⟨- ENOBUFS, rfl, by decide⟩
  split
  · exact .inl ⟨- EFAULT, rfl, by decide⟩
  · exact .inr rfl

theorem sendStreamTurn_ok (u : Usock) (t : Option Usock) (m : Kmsg) (done : Nat) (env : Env) :
    (sendStreamTurn u t m done env).Ok (fun r => (0 ≤ r → r = done) ∧ (r < 0 → done = 0)) fun c m' =>
      t ≠ none ∧ Chunk m done (if u.type = .seqpacket then m.len else min (m.len - done) 65536) c m' := by
  unfold sendStreamTurn
  dsimp only
  generalize (if u.type = .seqpacket then m.len else min (m.len - done) 65536) = n
  split
  · split
    · exact partly_cases (by decide)
    · exact partly_cases (by decide)
  split
  · split
    · exact partly_cases (by decide)
    · exact partly_cases (by decide)
  split
  · split
    · exact ⟨fun _ => rfl, fun hneg => absurd hneg (by omega)⟩
    · split
      · rename_i hwait
        exact partly_cases (neg_wait hwait)
      · trivial
  rcases makeChunk_cases m done n env with ⟨e, he, hneg⟩ | hc
  · rw [he]
    exact partly_cases hneg
  · rw [hc]
    dsimp only
    split
    · exact ⟨nofun, rfl, rfl, append_nil _, rfl, rfl, rfl⟩
    · exact ⟨nofun, rfl, rfl, rfl, rfl, rfl, rfl⟩

theorem sendDgramTurn_ok (u : Usock) (t : Except Int Usock) (m : Kmsg) (env : Env) : (sendDgramTurn u t m env).Ok
    (fun r => t = .error r ∨ r < 0) fun c m' => (∃ t', t = .ok t') ∧ Chunk m 0 m.len c m' := by
  unfold sendDgramTurn
  split
  · exact .inl rfl
  split
  · exact .inr (by decide)
  split
  · exact .inr (by decide)
  split
  · split
    · exact .inr (by decide)
    · split
      · exact .inr (by decide)
      · trivial
  · rcases makeChunk_cases m 0 m.len env with ⟨e, he, hneg⟩ | hc
    · rw [he]
      exact .inr hneg
    · rw [hc]
      exact ⟨⟨_, rfl⟩, rfl, rfl, append_nil _, rfl, rfl, rfl⟩

end Olux.Unix
