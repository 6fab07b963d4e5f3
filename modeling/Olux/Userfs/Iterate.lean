import Olux.Userfs

namespace Olux.Userfs

open Olux.Lib

variable {b : List UInt8}

theorem recvLoop_some {s : Sb} {recv : Nat → Recv} {a : Answer} (fuel p : Nat) (h : recvLoop s recv fuel p = some a) :
    ∃ k, (∀ j < k, answerOf s (recv (p + j)) = none) ∧ answerOf s (recv (p + k)) = some a := by
  induction fuel generalizing p with
  | zero => cases h
  | succ fuel ih =>
  rw [recvLoop] at h
  cases ha : answerOf s (recv p) with
  | some a' =>
    rw [ha, Option.some_or] at h
    exact ⟨0, fun j hj => absurd hj (Nat.not_lt_zero j), ha.trans h⟩
  | none =>
  rw [ha, Option.none_or] at h
  obtain ⟨k, hstale, hend⟩ := ih (p + 1) h
  refine ⟨k + 1, fun j hj => ?_, by rw [← hend]; congr 2; omega⟩
  cases j with
  | zero => exact ha
  | succ j =>
    rw [show p + (j + 1) = p + 1 + j by omega]
    exact hstale j (by omega)

theorem recvLoop_of_answer {s : Sb} {recv : Nat → Recv} {a : Answer} (k p : Nat)
    (hstale : ∀ j < k, answerOf s (recv (p + j)) = none) (hend : answerOf s (recv (p + k)) = some a) :
    recvLoop s recv (k + 1) p = some a := by
  induction k generalizing p with
  | zero =>
    rw [Nat.add_zero] at hend
    rw [recvLoop, hend, Option.some_or]
  | succ k ih =>
  have h0 := hstale 0 (by omega)
  rw [Nat.add_zero] at h0
  rw [recvLoop, h0, Option.none_or]
  refine ih (p + 1) (fun j hj => ?_) (by rw [← hend]; congr 2; omega)
  rw [show p + 1 + j = p + (j + 1) by omega]
  exact hstale (j + 1) (by omega)

variable (actor : Actor)

theorem records_malformed (x : Ctx) (h : wellFormed b = false) : records actor b x = (false, x) := by
  rw [records, dif_neg (by simp [h])]

theorem records_refused {actor : Actor} {x : Ctx} (h : wellFormed b = true)
    (ha : actor x.given (dirEntry b) = false) : records actor b x = (true, x) := by
  rw [records, dif_pos h, if_pos ha]

theorem records_taken {actor : Actor} {x : Ctx} (h : wellFormed b = true) (ha : actor x.given (dirEntry b) = true) :
    records actor b x = records actor (b.drop (dirReclen b)) ⟨dirNext b, x.given ++ [dirEntry b]⟩ := by
  rw [records, dif_pos h, if_neg (by simp [ha])]

theorem records_given (b : List UInt8) (x : Ctx) :
    x.given.length ≤ (records actor b x).2.given.length := by
  fun_induction records actor b x with
  | case1 => exact le_refl _
  | case2 b x h ha ih =>
    simp only [List.length_append, List.length_singleton] at ih
    omega
  | case3 => exact le_refl _

theorem records_progress (x : Ctx) (h : wellFormed b = true) :
    (records actor b x).1 = true ∨ x.given.length < (records actor b x).2.given.length := by
  cases ha : actor x.given (dirEntry b) with
  | false => exact .inl (by rw [records_refused h ha])
  | true =>
  right
  rw [records_taken h ha]
  have hgrow := records_given actor (b.drop (dirReclen b)) ⟨dirNext b, x.given ++ [dirEntry b]⟩
  simp only [List.length_append, List.length_singleton] at hgrow
  omega

def Progress (s : Sb) (c : Call) (x : Ctx) : Prop :=
  ∃ wait p s' x', iteratePass actor s c wait x = some (p, s', x') ∧ (p ≠ .again ∨ x.given.length < x'.given.length)

def Useful (alloc : Bool) (a : Answer) : Prop :=
  a.err ≠ 0 ∨ repLen a.rep = 0 ∨ alloc = false ∨ wellFormed (repData a.rep) = true

theorem progress_iff_useful (s : Sb) (c : Call) (x : Ctx) :
    Progress actor s c x ↔ ∃ wait a, ufsCall s c wait = some a ∧ Useful c.alloc a := by
  constructor
  · rintro ⟨wait, p, s', x', h, hp⟩
    unfold iteratePass at h
    cases ha : ufsCall s c wait with
    | none => rw [ha] at h; cases h
    | some a =>
    refine ⟨wait, a, ha, ?_⟩
    rw [ha] at h
    by_contra hu
    simp only [Useful, not_or, not_not, Bool.not_eq_true, Bool.not_eq_false] at hu
    obtain ⟨herr, hlen, halloc, hbad⟩ := hu
    simp only [herr, hlen, halloc, records_malformed actor x hbad, ne_eq, not_true_eq_false, if_false,
      reduceCtorEq, Bool.false_eq_true, Option.some.injEq, Prod.mk.injEq] at h
    obtain ⟨rfl, rfl, rfl⟩ := h
    exact hp.elim (fun hp => hp rfl) (Nat.lt_irrefl _)
  rintro ⟨wait, a, ha, hu⟩
  unfold Progress iteratePass
  refine ⟨wait, ?_⟩
  simp only [ha]
  by_cases herr : a.err = 0
  · by_cases hlen : repLen a.rep = 0
    · exact ⟨_, _, _, by rw [if_neg (by simp [herr]), if_pos hlen], .inl (by simp)⟩
    cases halloc : c.alloc with
    | false => exact ⟨_, _, _, by rw [if_neg (by simp [herr]), if_neg hlen, if_pos rfl], .inl (by simp)⟩
    | true =>
    have hwf : wellFormed (repData a.rep) = true := by
      rcases hu with h | h | h | h
      · exact absurd herr h
      · exact absurd h hlen
      · rw [halloc] at h; cases h
      · exact h
    rw [if_neg (by simp [herr]), if_neg hlen, if_neg (by simp)]
    rcases records_progress actor x hwf with hfull | hgrow
    · exact ⟨_, _, _, by rw [if_pos hfull], .inl (by simp)⟩
    cases hfull : (records actor (repData a.rep) x).1 with
    | true => exact ⟨_, _, _, by rw [if_pos rfl], .inl (by simp)⟩
    | false => exact ⟨_, _, _, by rw [if_neg (by simp)], .inr hgrow⟩
  · exact ⟨_, _, _, by rw [if_pos herr], .inl (by simp)⟩

def Stale (id : Nat) : Recv → Prop
  | .error _ => False
  | .msg b => framed b = true ∧ repId b ≠ id

-- A message that makes `ufs_iterate` return or holds an entry: an error, a
-- badly framed message, or the reply to this request with an error, without
-- data, without memory for the copy, or with a well-formed first record.
def Settles (id : Nat) (alloc : Bool) : Recv → Prop
  | .error _ => True
  | .msg b => framed b = false ∨
      (repId b = id ∧ (repErr b ≠ 0 ∨ repLen b = 0 ∨ alloc = false ∨ wellFormed (repData b) = true))

theorem answerOf_none_iff (s : Sb) (m : Recv) : answerOf s m = none ↔ Stale s.nextId m := by
  cases m with
  | error n => simp [answerOf, Stale]
  | msg b =>
  simp only [answerOf, Stale]
  by_cases hf : framed b = false
  · simp [hf]
  by_cases hid : repId b = s.nextId
  · rw [if_neg hf, if_neg (not_not.mpr hid)]
    split <;> simp [hid]
  · simp [hf, hid]

theorem eio_ne : (- EIO : Int) ≠ 0 := by decide

theorem answerOf_useful_iff (s : Sb) (alloc : Bool) (m : Recv) :
    (∃ a, answerOf s m = some a ∧ Useful alloc a) ↔ Settles s.nextId alloc m := by
  cases m with
  | error n => exact ⟨fun _ => trivial, fun _ => ⟨_, rfl, .inl eio_ne⟩⟩
  | msg b =>
  simp only [answerOf, Settles]
  by_cases hf : framed b = false
  · rw [if_pos hf]
    exact ⟨fun _ => .inl hf, fun _ => ⟨_, rfl, .inl eio_ne⟩⟩
  rw [if_neg hf, or_iff_right hf]
  by_cases hid : repId b = s.nextId
  · rw [if_neg (not_not.mpr hid)]
    by_cases herr : 0 < repErr b ∨ repErr b < -MAX_ERRNO
    · have hne : repErr b ≠ 0 := by
        unfold MAX_ERRNO at herr
        omega
      rw [if_pos herr]
      exact ⟨fun _ => ⟨hid, .inl hne⟩, fun _ => ⟨_, rfl, .inl eio_ne⟩⟩
    rw [if_neg herr]
    constructor
    · rintro ⟨a, ha, hu⟩
      cases ha
      exact ⟨hid, hu⟩
    · rintro ⟨-, hu⟩
      exact ⟨_, rfl, hu⟩
  · simp [hid]

def requestId (s : Sb) : Nat := (s.nextId + 1) % 2 ^ 32

-- A pass gets somewhere exactly when the mount has no live server, the request
-- cannot be sent, or the first message that is not a stale reply settles it.
theorem iteratePass_progress_iff (s : Sb) (c : Call) (x : Ctx) : Progress actor s c x ↔
      s.chan = none ∨ s.dead = true ∨ c.sent ≠ 0 ∨
        ∃ k, (∀ j < k, Stale (requestId s) (c.recv j)) ∧ Settles (requestId s) c.alloc (c.recv k) := by
  rw [progress_iff_useful]
  unfold ufsCall
  rw [← or_assoc]
  by_cases hdead : s.chan = none ∨ s.dead = true
  · simp only [if_pos hdead]
    exact ⟨fun _ => .inl hdead, fun _ => ⟨0, _, rfl, .inl eio_ne⟩⟩
  simp only [if_neg hdead, or_iff_right hdead]
  by_cases hsent : c.sent = 0
  · generalize hs : ({ s with nextId := (s.nextId + 1) % 2 ^ 32 } : Sb) = s'
    have hid : s'.nextId = requestId s := by rw [← hs]; rfl
    simp only [hsent, ne_eq, not_true_eq_false, if_false, false_or]
    constructor
    · rintro ⟨wait, a, ha, hu⟩
      obtain ⟨k, hstale, hend⟩ := recvLoop_some wait 0 ha
      simp only [Nat.zero_add] at hstale hend
      refine ⟨k, fun j hj => ?_, ?_⟩
      · rw [← hid]
        exact (answerOf_none_iff s' _).mp (hstale j hj)
      · rw [← hid]
        exact (answerOf_useful_iff s' c.alloc _).mp ⟨a, hend, hu⟩
    rintro ⟨k, hstale, hend⟩
    rw [← hid] at hend
    obtain ⟨a, ha, hu⟩ := (answerOf_useful_iff s' c.alloc _).mpr hend
    refine ⟨k + 1, a, recvLoop_of_answer k 0 (fun j hj => ?_) (by rwa [Nat.zero_add]), hu⟩
    rw [answerOf_none_iff, hid, Nat.zero_add]
    exact hstale j hj
  · simp only [ne_eq, hsent, not_false_eq_true, if_true, true_or, iff_true]
    exact ⟨0, _, rfl, .inl eio_ne⟩

def shortReply (id : Nat) : List UInt8 :=
  leBytes 0 4 ++ (leBytes id 4 ++ (leBytes 1 4 ++ List.replicate 125 0))

def trapServer : Server := fun _ id _ => { sent := 0, recv := fun _ => .msg (shortReply id), alloc := true }

theorem shortReply_id (id : Nat) : repId (shortReply id) = id % 2 ^ 32 := by
  have h := leField_append (leBytes 0 4) (leBytes id 4 ++ (leBytes 1 4 ++ List.replicate 125 0)) 0 4
  rw [leField_leBytes] at h
  exact h

theorem shortReply_fixed (id : Nat) : framed (shortReply id) = true ∧ repErr (shortReply id) = 0 ∧
    repLen (shortReply id) = 1 ∧ wellFormed (repData (shortReply id)) = false := by
  have hlen : repLen (shortReply id) = 1 := by
    have h := leField_append (leBytes 0 4 ++ leBytes id 4) (leBytes 1 4 ++ List.replicate 125 0) 0 4
    rw [leField_leBytes, List.append_assoc] at h
    exact h
  have hsize : (shortReply id).length = 137 := by simp [shortReply]
  have herr : repErr (shortReply id) = 0 := by
    unfold repErr shortReply
    rw [leField_leBytes]
    decide
  refine ⟨by simp [framed, hsize, hlen, REPLY_SIZE], herr, hlen, ?_⟩
  have hdata : (repData (shortReply id)).length = 1 := by simp [repData, hlen, hsize, REPLY_SIZE]
  simp [wellFormed, hdata, DIRENT_SIZE]

theorem trap_pass {s : Sb} (n wait : Nat) (x : Ctx) (hs : ¬ (s.chan = none ∨ s.dead = true)) :
    iteratePass actor s (trapServer n (requestId s) x.pos) (wait + 1) x =
      some (.again, { s with nextId := requestId s }, x) := by
  obtain ⟨hf, herr, hlen, hbad⟩ := shortReply_fixed (requestId s)
  have hid : repId (shortReply (requestId s)) = requestId s := by
    rw [shortReply_id, requestId, Nat.mod_mod]
  have hcall : ufsCall s (trapServer n (requestId s) x.pos) (wait + 1) =
      some ⟨0, shortReply (requestId s), { s with nextId := requestId s }⟩ := by
    have hans : answerOf { s with nextId := requestId s } (.msg (shortReply (requestId s))) =
        some ⟨0, shortReply (requestId s), { s with nextId := requestId s }⟩ := by
      simp [answerOf, hf, hid, herr, MAX_ERRNO]
    have hrecv : (trapServer n (requestId s) x.pos).recv 0 = .msg (shortReply (requestId s)) := rfl
    unfold ufsCall
    rw [if_neg hs, if_neg (by simp [trapServer]), ← requestId, recvLoop, hrecv, hans, Option.some_or]
  unfold iteratePass
  rw [hcall]
  simp [hlen, trapServer, records_malformed actor x hbad]

theorem trap_never_returns (wait fuel n : Nat) (s : Sb) (x : Ctx)
    (hs : ¬ (s.chan = none ∨ s.dead = true)) : iterateFrom actor trapServer wait fuel n s x = none := by
  induction fuel generalizing n s with
  | zero => rfl
  | succ fuel ih =>
  unfold iterateFrom
  cases wait with
  | zero =>
    have hwait : iteratePass actor s (trapServer n (requestId s) x.pos) 0 x = none := by
      unfold iteratePass ufsCall
      rw [if_neg hs, if_neg (by simp [trapServer])]
      rfl
    rw [← requestId, hwait]
  | succ wait =>
    rw [← requestId, trap_pass actor n wait x hs]
    exact ih (n + 1) { s with nextId := requestId s } hs

theorem malformed_reply_traps : iteratePass (fun _ _ => true) ⟨some 1, 0, false⟩ (trapServer 0 1 0) 1 ⟨0, []⟩ =
        some (.again, ⟨some 1, 1, false⟩, ⟨0, []⟩) ∧
      ∀ wait fuel, ufsIterate (fun _ _ => true) trapServer wait fuel ⟨some 1, 0, false⟩ ⟨0, []⟩ = none := by
  refine ⟨trap_pass _ 0 0 ⟨0, []⟩ (by simp), fun wait fuel => ?_⟩
  exact trap_never_returns _ wait fuel 0 _ _ (by simp)

end Olux.Userfs
