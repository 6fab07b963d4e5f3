import Olux.Sendmsg

namespace Olux.Sendmsg

open Olux.Lib

variable {k off : Nat}

def Access.Ok : Access → Prop
  | .copy count elems => count ≤ elems
  | .store index elems => 0 ≤ index ∧ index < elems

structure Parse.Safe (e : Env) (s : Parse) : Prop where
  inside : ∀ m ∈ s.accepted, m.1 + m.2 ≤ e.controllen
  accesses : ∀ a ∈ s.accesses, a.Ok
  count : s.nfds ≤ SCM_MAX_FD
  alive : s.hung = false

structure SafeParse (e : Env) : Prop where
  terminates : ∃ k, (run e k).Done e ∧ (run e k).hung = false
  safe : ∀ k, (run e k).Safe e

variable (e : Env)

def FdsOk (base n : Nat) : Prop :=
  ∀ i < n, ∃ ufd f, e.ufdAt (base + i * 4) = some ufd ∧ e.fget ufd = some f

-- The message `c` at `off`, met as number `k` with `nfds` descriptors taken before
-- it, is processed without an error and leaves so many descriptors.
inductive Handled (e : Env) (k off nfds : Nat) (c : Ucmsg) : Nat → Prop where
  | rights (hlevel : c.level = SOL_SOCKET) (htype : c.type = SCM_RIGHTS)
      (hcount : nfds + (c.len - 16) / 4 ≤ 253) (halloc : e.allocOk k = true)
      (hfds : FdsOk e (off + 16) ((c.len - 16) / 4)) :
      Handled e k off nfds c (nfds + (c.len - 16) / 4)
  | credentials (hlevel : c.level = SOL_SOCKET) (htype : c.type = SCM_CREDENTIALS) :
      Handled e k off nfds c nfds

-- Message number `k` of the buffer starts at `off`, offsets being integers: each
-- message lies inside the buffer and is followed by the next multiple of 8.
inductive MsgAt (e : Env) : Nat → Nat → Nat → Prop where
  | first : MsgAt e 0 0 0
  | next {k off nfds nfds' : Nat} {c : Ucmsg} (h : MsgAt e k off nfds)
      (hc : e.ucmsgAt off = some c) (hlen : 16 ≤ c.len) (hfit : off + c.len ≤ e.controllen)
      (hh : Handled e k off nfds c nfds') : MsgAt e (k + 1) (off + (c.len + 7) / 8 * 8) nfds'

-- No header that the parser gets to has a length that wraps around when its offset
-- is added.
def NoWrap : Prop :=
  e.control = 0 ∨ ∀ k off nfds c, MsgAt e k off nfds → off + 16 ≤ e.controllen →
    e.ucmsgAt off = some c → off + c.len < 2 ^ 64

theorem MsgAt.bounds {e : Env} {nfds : Nat} (h : MsgAt e k off nfds) :
    16 * k ≤ off ∧ off ≤ e.controllen + 7 ∧ nfds ≤ 253 := by
  induction h with
  | first => omega
  | next h hc hlen hfit hh ih =>
    cases hh with
    | rights _ _ hcount _ _ => omega
    | credentials _ _ => omega

theorem ucmsgAt_len_lt {e : Env} {c : Ucmsg} (h : e.ucmsgAt off = some c) : c.len < 2 ^ 64 := by
  unfold Env.ucmsgAt at h
  obtain ⟨b, -, rfl⟩ := Option.map_eq_some_iff.mp h
  exact Nat.mod_lt _ (by decide)

variable (base elems i n : Nat)

@[simp] theorem takeFds_accepted (s : Parse) :
    (takeFds e base elems i n s).accepted = s.accepted := by
  induction n generalizing i s with
  | zero => rfl
  | succ n ih =>
  unfold takeFds
  split
  · rfl
  split
  · rfl
  · rw [ih]

theorem rights_accepted (c : Ucmsg) (s : Parse) : (rights e c s).accepted = s.accepted := by
  unfold rights
  simp only
  by_cases h : SCM_MAX_FD < narrowInt ((c.len - 16) / 4) + s.nfds
  · rw [if_pos h]
  rw [if_neg h]
  cases kmalloc _ (e.allocOk s.iter) with
  | null => rfl
  | hang => rfl
  | bytes b => exact takeFds_accepted _ _ _ _ _ _

theorem message_accepted (c : Ucmsg) (s : Parse) : (message e c s).accepted = s.accepted := by
  unfold message
  split
  · exact rights_accepted e c s
  · split <;> rfl

theorem takeFds_spec (s : Parse)
    (hpos : 0 ≤ s.nfds) (hroom : s.nfds + n < elems) (hacc : ∀ a ∈ s.accesses, a.Ok) :
    (∀ a ∈ (takeFds e base elems i n s).accesses, a.Ok) ∧ (takeFds e base elems i n s).nfds ≤ s.nfds + n ∧
      (takeFds e base elems i n s).hung = s.hung := by
  induction n generalizing i s with
  | zero => exact ⟨hacc, by simp [takeFds], rfl⟩
  | succ n ih =>
  unfold takeFds
  split
  · exact ⟨hacc, by simp; omega, rfl⟩
  split
  · exact ⟨hacc, by simp; omega, rfl⟩
  have hstore : (Access.store s.nfds elems).Ok := ⟨hpos, by omega⟩
  have h := ih (i + 1) { s with nfds := s.nfds + 1, accesses := s.accesses ++ [.store s.nfds elems] }
    (by simp only; omega) (by simp only; omega) (by
      intro a ha
      rcases List.mem_append.mp ha with ha | ha
      · exact hacc a ha
      · rw [List.mem_singleton.mp ha]
        exact hstore)
  refine ⟨h.1, ?_, h.2.2⟩
  have := h.2.1
  simp only at this
  omega

theorem takeFds_complete (s : Parse) (hz : (takeFds e base elems i n s).r = 0) :
    (takeFds e base elems i n s).nfds = s.nfds + n ∧
      ∀ j, i ≤ j → j < i + n → ∃ ufd f, e.ufdAt (base + j * 4) = some ufd ∧ e.fget ufd = some f := by
  induction n generalizing i s with
  | zero => exact ⟨by simp [takeFds], by omega⟩
  | succ n ih =>
  unfold takeFds at hz ⊢
  cases hufd : e.ufdAt (base + i * 4) with
  | none => simp [hufd, EFAULT] at hz
  | some ufd =>
  cases hf : e.fget ufd with
  | none => simp [hufd, hf, EBADF] at hz
  | some f =>
  simp only [hufd, hf] at hz ⊢
  obtain ⟨hn, hj⟩ := ih (i + 1) _ hz
  refine ⟨by rw [hn]; push_cast; omega, ?_⟩
  intro j hij hlt
  by_cases he : j = i
  · exact ⟨ufd, f, he ▸ hufd, hf⟩
  · exact hj j (by omega) (by omega)

theorem takeFds_of_fdsOk (s : Parse)
    (h : ∀ j, i ≤ j → j < i + n → ∃ ufd f, e.ufdAt (base + j * 4) = some ufd ∧ e.fget ufd = some f) :
    (takeFds e base elems i n s).r = s.r ∧ (takeFds e base elems i n s).nfds = s.nfds + n ∧
      (takeFds e base elems i n s).hung = s.hung := by
  induction n generalizing i s with
  | zero => simp [takeFds]
  | succ n ih =>
  obtain ⟨ufd, f, hufd, hf⟩ := h i (by omega) (by omega)
  unfold takeFds
  simp only [hufd, hf]
  obtain ⟨hr, hn, hh⟩ := ih (i + 1) { s with nfds := s.nfds + 1, accesses := s.accesses ++ [.store s.nfds elems] }
    (fun j hij hlt => h j (by omega) (by omega))
  exact ⟨hr, by rw [hn]; push_cast; omega, hh⟩

theorem narrowInt_count (len : Nat) (h : len < 2 ^ 32) :
    narrowInt ((len - 16) / 4) = ((len - 16) / 4 : Nat) := narrowInt_of_lt (by omega)

theorem kmalloc_array (total : Nat) (h : total ≤ 253) (ok : Bool) :
    kmalloc ((8 * ((total : Int) + 1) % 2 ^ 64).toNat) ok =
      if ok then .bytes (8 * (total + 1)) else .null := by
  have hsize : (8 * ((total : Int) + 1) % 2 ^ 64).toNat = 8 * (total + 1) := by omega
  rw [hsize]
  have hclass : (Kmalloc.sizeClass (8 * (total + 1))).isSome = true := by
    rw [Kmalloc.sizeClass, List.find?_isSome]
    refine ⟨7, by decide, decide_eq_true ?_⟩
    unfold Kmalloc.classSize Kmalloc.MIN_SHIFT
    omega
  unfold kmalloc
  rw [if_neg (by omega), if_pos hclass]

theorem rights_spec (c : Ucmsg) (s : Parse) (nfds : Nat) (hn : s.nfds = nfds)
    (hsafe : s.Safe e) (hlen : c.len < 2 ^ 32) :
    (rights e c s).Safe e ∧ ((rights e c s).r = 0 → nfds + (c.len - 16) / 4 ≤ 253 ∧ e.allocOk s.iter = true ∧
        FdsOk e (s.off + 16) ((c.len - 16) / 4) ∧
        (rights e c s).nfds = (nfds + (c.len - 16) / 4 : Nat)) := by
  have hnarrow := narrowInt_count c.len hlen
  unfold rights FdsOk
  generalize (c.len - 16) / 4 = n at hnarrow ⊢
  simp only [hnarrow, hn]
  by_cases hcount : nfds + n ≤ 253
  · rw [if_neg (by simp only [SCM_MAX_FD]; omega)]
    have hk := kmalloc_array (nfds + n) hcount (e.allocOk s.iter)
    rw [Int.natCast_add] at hk
    rw [hk]
    cases halloc : e.allocOk s.iter with
    | false =>
      refine ⟨⟨hsafe.inside, hsafe.accesses, hn ▸ hsafe.count, hsafe.alive⟩, ?_⟩
      intro h
      simp [ENOMEM] at h
    | true =>
    have helems : 8 * (nfds + n + 1) / 8 = nfds + n + 1 := by omega
    simp only [if_true, helems, Int.toNat_natCast]
    let moved := if (nfds : Int) ≠ 0 then s.accesses ++ [.copy nfds (nfds + n + 1)] else s.accesses
    have hmoved : ∀ a ∈ moved, a.Ok := by
      intro a ha
      by_cases hz : (nfds : Int) ≠ 0
      · simp only [moved, if_pos hz, List.mem_append, List.mem_singleton] at ha
        rcases ha with ha | rfl
        · exact hsafe.accesses a ha
        · simp only [Access.Ok]
          omega
      · simp only [moved, if_neg hz] at ha
        exact hsafe.accesses a ha
    obtain ⟨hacc, hle, hhung⟩ := takeFds_spec e (s.off + 16) (nfds + n + 1) 0 n
      { s with nfds := nfds, accesses := moved } (by simp) (by simp only; omega) hmoved
    refine ⟨⟨?_, hacc, ?_, ?_⟩, ?_⟩
    · rw [takeFds_accepted]
      exact hsafe.inside
    · simp only at hle
      simp only [SCM_MAX_FD]
      exact Int.le_trans hle (by omega)
    · rw [hhung]
      exact hsafe.alive
    intro hz
    obtain ⟨htotal, hfds⟩ := takeFds_complete _ _ _ _ _ _ hz
    exact ⟨hcount, trivial, fun i hi => hfds i (by omega) (by omega), by rw [htotal]; simp⟩
  rw [if_pos (by simp only [SCM_MAX_FD]; omega)]
  refine ⟨⟨hsafe.inside, hsafe.accesses, hn ▸ hsafe.count, hsafe.alive⟩, ?_⟩
  intro h
  simp [EINVAL] at h

theorem rights_of_fdsOk (c : Ucmsg) (s : Parse) (nfds : Nat) (hn : s.nfds = nfds)
    (hlen : c.len < 2 ^ 32) (hcount : nfds + (c.len - 16) / 4 ≤ 253)
    (halloc : e.allocOk s.iter = true) (hfds : FdsOk e (s.off + 16) ((c.len - 16) / 4)) :
    (rights e c s).r = s.r ∧ (rights e c s).nfds = (nfds + (c.len - 16) / 4 : Nat) ∧ (rights e c s).hung = s.hung := by
  have hnarrow := narrowInt_count c.len hlen
  unfold rights
  unfold FdsOk at hfds
  generalize (c.len - 16) / 4 = n at hnarrow hcount hfds ⊢
  simp only [hnarrow, hn]
  rw [if_neg (by simp only [SCM_MAX_FD]; omega)]
  have hk := kmalloc_array (nfds + n) hcount (e.allocOk s.iter)
  rw [Int.natCast_add, halloc] at hk
  rw [halloc, hk]
  simp only [if_true, Int.toNat_natCast]
  obtain ⟨hr, htotal, hhung⟩ := takeFds_of_fdsOk e (s.off + 16) (8 * (nfds + n + 1) / 8) 0 n
    { s with nfds := nfds, accesses := if (nfds : Int) ≠ 0 then
      s.accesses ++ [.copy nfds (8 * (nfds + n + 1) / 8)] else s.accesses }
    (fun j _ hj => hfds j (by omega))
  exact ⟨hr, by rw [htotal]; simp, hhung⟩

structure Parse.At (e : Env) (k : Nat) (s : Parse) : Prop where
  r : s.r = 0
  alive : s.hung = false
  iter : s.iter = k
  msg : ∃ nfds : Nat, s.nfds = nfds ∧ MsgAt e k s.off nfds

theorem next_off (off len controllen : Nat) (hc : controllen < 2 ^ 32) (h : off + len ≤ controllen) :
    (off + CMSG_ALIGN len) % 2 ^ 64 = off + (len + 7) / 8 * 8 := by
  unfold CMSG_ALIGN
  omega

theorem not_done {e : Env} {s : Parse} (hat : s.At e k) (hdone : ¬s.Done e) :
    e.control ≠ 0 ∧ s.off + 16 ≤ e.controllen := by
  obtain ⟨nfds, -, hmsg⟩ := hat.msg
  have hb := hmsg.bounds
  have hl := e.controllen_lt
  unfold Parse.Done at hdone
  omega

theorem step_safe (k : Nat) (s : Parse) (hat : s.At e k) (hsafe : s.Safe e)
    (hdone : ¬s.Done e) (hwrap : ∀ c, e.ucmsgAt s.off = some c → s.off + c.len < 2 ^ 64) :
    (step e s).Safe e ∧ ((step e s).Done e ∨ (step e s).At e (k + 1)) := by
  obtain ⟨nfds, hn, hmsg⟩ := hat.msg
  have hl := e.controllen_lt
  unfold step
  rw [if_neg (by simp [hdone, hat.alive])]
  cases hc : e.ucmsgAt s.off with
  | none =>
    exact ⟨⟨hsafe.inside, hsafe.accesses, hsafe.count, hsafe.alive⟩, .inl (.inl (by simp [EFAULT]))⟩
  | some c =>
  by_cases hrej : c.len < 16 ∨ e.controllen < (s.off + c.len) % 2 ^ 64
  · simp only [if_pos hrej]
    exact ⟨⟨hsafe.inside, hsafe.accesses, hsafe.count, hsafe.alive⟩, .inl (.inl (by simp [EINVAL]))⟩
  simp only [if_neg hrej]
  have hw := hwrap c hc
  have hfit : s.off + c.len ≤ e.controllen := by omega
  have hlen : 16 ≤ c.len := by omega
  have hoff := next_off s.off c.len e.controllen hl hfit
  -- the message joins the accepted ones
  let s1 : Parse := { s with accepted := s.accepted ++ [(s.off, c.len)] }
  have hsafe1 : s1.Safe e := by
    refine ⟨?_, hsafe.accesses, hsafe.count, hsafe.alive⟩
    intro m hm
    rcases List.mem_append.mp hm with hm | hm
    · exact hsafe.inside m hm
    · rw [List.mem_singleton.mp hm]
      exact hfit
  have hkeep : ∀ s2 : Parse, s2.Safe e →
      Parse.Safe e { s2 with off := (s.off + CMSG_ALIGN c.len) % 2 ^ 64, iter := s.iter + 1 } :=
    fun s2 h => ⟨h.inside, h.accesses, h.count, h.alive⟩
  unfold message
  by_cases hrights : c.level = SOL_SOCKET ∧ c.type = SCM_RIGHTS
  · rw [if_pos hrights]
    obtain ⟨hsafe2, hgo⟩ := rights_spec e c s1 nfds hn hsafe1 (by omega)
    refine ⟨hkeep _ hsafe2, ?_⟩
    by_cases hz : (rights e c s1).r = 0
    · obtain ⟨hcount, halloc, hfds, htotal⟩ := hgo hz
      have halloc' : e.allocOk k = true := hat.iter ▸ halloc
      refine .inr ⟨hz, hsafe2.alive, by simp only [hat.iter], _, htotal, ?_⟩
      simp only [hoff]
      exact .next hmsg hc hlen hfit (.rights hrights.1 hrights.2 hcount halloc' hfds)
    · exact .inl (.inl hz)
  rw [if_neg hrights]
  by_cases hcred : c.level = SOL_SOCKET ∧ c.type = SCM_CREDENTIALS
  · rw [if_pos hcred]
    refine ⟨hkeep _ hsafe1, .inr ⟨hat.r, hat.alive, by simp only [hat.iter], nfds, hn, ?_⟩⟩
    simp only [hoff]
    exact .next hmsg hc hlen hfit (.credentials hcred.1 hcred.2)
  · rw [if_neg hcred]
    exact ⟨⟨hsafe1.inside, hsafe1.accesses, hsafe1.count, hsafe1.alive⟩, .inl (.inl (by simp [EINVAL]))⟩

theorem step_handled (k nfds nfds' : Nat) (c : Ucmsg) (s : Parse) (hcontrol : e.control ≠ 0)
    (hr : s.r = 0) (halive : s.hung = false) (hiter : s.iter = k) (hn : s.nfds = nfds)
    (hc : e.ucmsgAt s.off = some c) (hlen : 16 ≤ c.len) (hfit : s.off + c.len ≤ e.controllen)
    (hh : Handled e k s.off nfds c nfds') :
    (step e s).r = 0 ∧ (step e s).hung = false ∧ (step e s).iter = k + 1 ∧
      (step e s).nfds = nfds' ∧ (step e s).off = s.off + (c.len + 7) / 8 * 8 := by
  have hl := e.controllen_lt
  have hoff := next_off s.off c.len e.controllen hl hfit
  have hdone : ¬s.Done e := by
    unfold Parse.Done
    omega
  unfold step
  rw [if_neg (by simp [hdone, halive])]
  simp only [hc, if_neg (show ¬(c.len < 16 ∨ e.controllen < (s.off + c.len) % 2 ^ 64) by omega), hoff, hiter]
  unfold message
  cases hh with
  | rights hlevel htype hcount halloc hfds =>
    rw [if_pos ⟨hlevel, htype⟩]
    obtain ⟨h1, h2, h3⟩ := rights_of_fdsOk e c { s with accepted := s.accepted ++ [(s.off, c.len)] }
      nfds hn (by omega) hcount (by simpa only [hiter] using halloc) hfds
    simp only [hr, halive, hiter] at h1 h2 h3 ⊢
    exact ⟨h1, h3, trivial, h2, trivial⟩
  | credentials hlevel htype =>
    rw [if_neg (by simp [htype, SCM_CREDENTIALS, SCM_RIGHTS]), if_pos ⟨hlevel, htype⟩]
    exact ⟨hr, halive, trivial, hn, trivial⟩

theorem run_of_msgAt (hcontrol : e.control ≠ 0) {nfds : Nat} (h : MsgAt e k off nfds) :
    (run e k).r = 0 ∧ (run e k).hung = false ∧ (run e k).iter = k ∧ (run e k).nfds = nfds ∧ (run e k).off = off := by
  induction h with
  | first => exact ⟨rfl, rfl, rfl, rfl, rfl⟩
  | @next k off nfds nfds' c h hc hlen hfit hh ih =>
    obtain ⟨hr, halive, hiter, hn, hoff⟩ := ih
    subst hoff
    exact step_handled e k nfds nfds' c (run e k) hcontrol hr halive hiter hn hc hlen hfit hh

theorem step_of_done {e : Env} {s : Parse} (h : s.Done e) : step e s = s := if_pos (.inl h)

theorem run_safe (hwrap : NoWrap e) (k : Nat) : (run e k).Safe e ∧ ((run e k).Done e ∨ (run e k).At e k) := by
  induction k with
  | zero =>
    refine ⟨⟨by simp [run], by simp [run], by simp [run, SCM_MAX_FD], rfl⟩, .inr ?_⟩
    exact ⟨rfl, rfl, rfl, 0, rfl, .first⟩
  | succ k ih =>
  obtain ⟨hsafe, hstate⟩ := ih
  by_cases hdone : (run e k).Done e
  · rw [run, step_of_done hdone]
    exact ⟨hsafe, .inl hdone⟩
  have hat := hstate.resolve_left hdone
  have hbuf := not_done hat hdone
  obtain ⟨nfds, -, hmsg⟩ := hat.msg
  exact step_safe e k (run e k) hat hsafe hdone fun c hc =>
    (hwrap.resolve_left hbuf.1) k _ nfds c hmsg hbuf.2 hc

-- Offsets grow by at least a header at each message, so the loop ends.
theorem run_terminates (hwrap : NoWrap e) : (run e (e.controllen + 1)).Done e := by
  rcases (run_safe e hwrap (e.controllen + 1)).2 with hdone | hat
  · exact hdone
  by_contra hdone
  have hbuf := not_done hat hdone
  obtain ⟨nfds, -, hmsg⟩ := hat.msg
  have hb := hmsg.bounds
  omega

-- The parser is safe exactly on the buffers in which no header it gets to wraps
-- around.
theorem safeParse_iff_noWrap : SafeParse e ↔ NoWrap e := by
  constructor
  · intro h
    by_cases hcontrol : e.control = 0
    · exact .inl hcontrol
    refine .inr fun k off nfds c hmsg hoff hc => ?_
    by_contra hge
    -- the wrapped end passes the check, and the message is accepted
    obtain ⟨hr, halive, hiter, hn, rfl⟩ := run_of_msgAt e hcontrol hmsg
    have hl := e.controllen_lt
    have hlt := ucmsgAt_len_lt hc
    have hdone : ¬(run e k).Done e := by
      unfold Parse.Done
      omega
    have hmem : ((run e k).off, c.len) ∈ (run e (k + 1)).accepted := by
      rw [run, step, if_neg (by simp [hdone, halive])]
      simp only [hc, if_neg (show ¬(c.len < 16 ∨ e.controllen < ((run e k).off + c.len) % 2 ^ 64) by omega),
        message_accepted]
      simp
    have := (h.safe (k + 1)).inside _ hmem
    simp only at this
    omega
  · intro h
    refine ⟨⟨e.controllen + 1, run_terminates e h, (run_safe e h _).1.alive⟩, fun k => (run_safe e h k).1⟩

def loopingBytes : List UInt8 :=
  [16, 0, 0, 0, 0, 0, 0, 0, 1, 0, 0, 0, 2, 0, 0, 0,
   0xf0, 0xff, 0xff, 0xff, 0xff, 0xff, 0xff, 0xff, 1, 0, 0, 0, 2, 0, 0, 0,
   0, 0, 0, 0, 0, 0, 0, 0]

def looping : Env where
  mem := fun a => if 4096 ≤ a ∧ a < 4136 then some (loopingBytes.getD (a - 4096) 0) else none
  control := 4096
  controllen := 40
  controllen_lt := by decide
  fget := fun _ => none
  allocOk := fun _ => true

theorem looping_not_safeParse : ¬SafeParse looping := by
  intro h
  have hmem : (16, 2 ^ 64 - 16) ∈ (run looping 2).accepted := by decide
  have := (h.safe 2).inside _ hmem
  revert this
  decide

end Olux.Sendmsg
