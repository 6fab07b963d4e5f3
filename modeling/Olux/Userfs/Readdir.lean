import Olux.Userfs.Server
import Olux.Userfs.Iterate

namespace Olux.Userfs

open Olux.Lib List Option

variable {rs rest : List Rec}

def Rec.entry (r : Rec) : Entry := ⟨r.shown, r.ino % 2 ^ 64, r.type % 2 ^ 8⟩

theorem Rec.shown_le (r : Rec) : r.shown.length ≤ 255 := by
  unfold Rec.shown UFS_NAME_MAX
  rw [length_take]
  omega

theorem Rec.size_bounds (r : Rec) : 24 + r.shown.length ≤ r.size ∧ r.size ≤ 280 := by
  have h := r.shown_le
  unfold Rec.size DIRENT_SIZE
  omega

theorem Rec.encode_length (r : Rec) : r.encode.length = r.size := by
  have h := r.size_bounds
  simp only [Rec.encode, length_append, leBytes_length, length_replicate, NAME_OFF]
  omega

theorem Rec.encode_fields (r : Rec) (rest : List UInt8) :
    dirIno (r.encode ++ rest) = r.ino % 2 ^ 64 ∧ dirNext (r.encode ++ rest) = r.next % 2 ^ 64 ∧
      dirReclen (r.encode ++ rest) = r.size ∧ dirType (r.encode ++ rest) = r.type % 2 ^ 8 ∧
      dirNamelen (r.encode ++ rest) = r.shown.length := by
  have hsize := r.size_bounds
  have hshown := r.shown_le
  simp only [Rec.encode, append_assoc]
  generalize r.shown ++ (List.replicate (r.size - NAME_OFF - r.shown.length) 0 ++ rest) = tl
  have hnext := leField_append (leBytes r.ino 8)
    (leBytes r.next 8 ++ (leBytes r.size 2 ++ (leBytes r.type 1 ++ (leBytes r.shown.length 1 ++ tl)))) 0 8
  have hlen := leField_append (leBytes r.ino 8 ++ leBytes r.next 8)
    (leBytes r.size 2 ++ (leBytes r.type 1 ++ (leBytes r.shown.length 1 ++ tl))) 0 2
  have htype := leField_append (leBytes r.ino 8 ++ (leBytes r.next 8 ++ leBytes r.size 2))
    (leBytes r.type 1 ++ (leBytes r.shown.length 1 ++ tl)) 0 1
  have hname := leField_append (leBytes r.ino 8 ++ (leBytes r.next 8 ++ (leBytes r.size 2 ++ leBytes r.type 1)))
    (leBytes r.shown.length 1 ++ tl) 0 1
  rw [leField_leBytes] at hnext hlen htype hname
  simp only [append_assoc, length_append, leBytes_length] at hnext hlen htype hname
  refine ⟨leField_leBytes _ _ _, hnext, ?_, htype, ?_⟩
  · exact hlen.trans (Nat.mod_eq_of_lt (by omega))
  · exact hname.trans (Nat.mod_eq_of_lt (by omega))

theorem Rec.encode_read (r : Rec) (rest : List UInt8) :
    wellFormed (r.encode ++ rest) = true ∧ dirEntry (r.encode ++ rest) = r.entry ∧
      (r.encode ++ rest).drop (dirReclen (r.encode ++ rest)) = rest := by
  obtain ⟨hino, -, hlen, htype, hname⟩ := r.encode_fields rest
  have hsize := r.size_bounds
  have hel := r.encode_length
  refine ⟨?_, ?_, ?_⟩
  · simp only [wellFormed, hlen, hname, length_append, hel, Bool.and_eq_true, decide_eq_true_eq]
    unfold DIRENT_SIZE
    omega
  · have htext : ((r.encode ++ rest).drop NAME_OFF).take r.shown.length = r.shown := by
      have hfront : r.encode ++ rest = (leBytes r.ino 8 ++ (leBytes r.next 8 ++ (leBytes r.size 2 ++
          (leBytes r.type 1 ++ leBytes r.shown.length 1)))) ++ (r.shown ++
          (List.replicate (r.size - NAME_OFF - r.shown.length) 0 ++ rest)) := by
        simp only [Rec.encode, append_assoc]
      rw [hfront, drop_left' (by simp [NAME_OFF]), take_left']
      rfl
    simp only [dirEntry, hino, htype, hname, htext, Rec.entry]
  · rw [hlen, ← hel, drop_left']
    rfl

def encodeAll (rs : List Rec) : List UInt8 := rs.flatMap Rec.encode

def deliver (actor : Actor) : Ctx → List Rec → Bool × Ctx × List Rec
  | x, [] => (false, x, [])
  | x, r :: rs =>
    if actor x.given r.entry = false then (true, x, r :: rs)
    else deliver actor ⟨r.next % 2 ^ 64, x.given ++ [r.entry]⟩ rs

theorem records_encodeAll (actor : Actor) (rs : List Rec) (x : Ctx) :
    records actor (encodeAll rs) x = ((deliver actor x rs).1, (deliver actor x rs).2.1) := by
  induction rs generalizing x with
  | nil => exact records_malformed actor x (by decide)
  | cons r rs ih =>
  obtain ⟨hwf, hentry, hrest⟩ := r.encode_read (encodeAll rs)
  obtain ⟨-, hnext, -⟩ := r.encode_fields (encodeAll rs)
  show records actor (r.encode ++ encodeAll rs) x = _
  unfold deliver
  split
  · rename_i ha
    exact records_refused hwf (by rw [hentry]; exact ha)
  rename_i ha
  rw [records_taken hwf (by rw [hentry]; simpa using ha), hrest, hnext, hentry]
  exact ih _

theorem deliver_append (actor : Actor) (x : Ctx) (rs rs' : List Rec) : deliver actor x (rs ++ rs') =
      if (deliver actor x rs).1 then (true, (deliver actor x rs).2.1, (deliver actor x rs).2.2 ++ rs')
      else deliver actor (deliver actor x rs).2.1 rs' := by
  induction rs generalizing x with
  | nil => rfl
  | cons r rs ih =>
    simp only [cons_append, deliver]
    split
    · simp
    · exact ih _

def batch (cap : Nat) : Nat → List Rec → List Rec
  | _, [] => []
  | used, r :: rs => if used + r.size > cap then [] else r :: batch cap (used + r.size) rs

theorem batch_rest (cap used : Nat) (rs : List Rec) : ∃ rest, rs = batch cap used rs ++ rest := by
  induction rs generalizing used with
  | nil => exact ⟨[], rfl⟩
  | cons r rs ih =>
  unfold batch
  split
  · exact ⟨r :: rs, rfl⟩
  · obtain ⟨rest, hrest⟩ := ih (used + r.size)
    exact ⟨rest, congrArg (r :: ·) hrest⟩

theorem fillAll_eq (f : Fill) (rs : List Rec) :
    fillAll f rs = { f with buf := f.buf ++ encodeAll (batch f.cap f.buf.length rs) } := by
  induction rs generalizing f with
  | nil => simp [fillAll, batch, encodeAll]
  | cons r rs ih =>
  unfold fillAll filler batch
  by_cases h : f.buf.length + r.size > f.cap
  · simp [h, encodeAll]
  simp only [if_neg h]
  rw [ih]
  simp [encodeAll, length_append, r.encode_length]

theorem encodeAll_batch_length (cap used : Nat) (rs : List Rec) (h : used ≤ cap) :
    used + (encodeAll (batch cap used rs)).length ≤ cap := by
  induction rs generalizing used with
  | nil => simpa [batch, encodeAll] using h
  | cons r rs ih =>
  unfold batch
  split
  · simpa [encodeAll] using h
  have hrest := ih (used + r.size) (by omega)
  simp only [encodeAll, flatMap_cons, length_append, r.encode_length] at hrest ⊢
  omega

theorem replyBytes_fields (id : Nat) (hid : id < 2 ^ 32) (data : List UInt8) (hdata : data.length ≤ UFS_MAX_IO) :
    framed (replyBytes 0 id data) = true ∧ repErr (replyBytes 0 id data) = 0 ∧ repId (replyBytes 0 id data) = id ∧
      repLen (replyBytes 0 id data) = data.length ∧ repData (replyBytes 0 id data) = data := by
  have hlen : repLen (replyBytes 0 id data) = data.length := by
    have h := leField_append (leBytes 0 4 ++ leBytes id 4) (leBytes data.length 4 ++ (List.replicate 124 0 ++ data)) 0 4
    rw [leField_leBytes, append_assoc] at h
    exact h.trans (Nat.mod_eq_of_lt (by unfold UFS_MAX_IO at hdata; omega))
  have hidf : repId (replyBytes 0 id data) = id := by
    have h := leField_append (leBytes 0 4) (leBytes id 4 ++ (leBytes data.length 4 ++ (List.replicate 124 0 ++ data))) 0 4
    rw [leField_leBytes] at h
    exact h.trans (Nat.mod_eq_of_lt (by omega))
  have herr : repErr (replyBytes 0 id data) = 0 := by
    unfold repErr replyBytes
    rw [leField_leBytes]
    decide
  have hsize : (replyBytes 0 id data).length = 136 + data.length := by
    simp only [replyBytes, length_append, leBytes_length, length_replicate]
    omega
  refine ⟨by simp [framed, hsize, hlen, REPLY_SIZE], herr, hidf, hlen, ?_⟩
  have hdrop : (replyBytes 0 id data).drop REPLY_SIZE = data := by
    have hfront : replyBytes 0 id data =
        (leBytes 0 4 ++ (leBytes id 4 ++ (leBytes data.length 4 ++ List.replicate 124 0))) ++ data := by
      simp only [replyBytes, append_assoc]
      rfl
    rw [hfront, drop_left']
    simp [REPLY_SIZE]
  rw [repData, hdrop, hlen, take_length]

def Resumes (src : Nat → List Rec) : Prop := ∀ c r rs, src c = r :: rs → src (r.next % 2 ^ 64) = rs

theorem Resumes.deliver {src : Nat → List Rec} (h : Resumes src) (actor : Actor) {x : Ctx} (rs rs' : List Rec)
    (hx : src x.pos = rs ++ rs') :
    src (deliver actor x rs).2.1.pos = (deliver actor x rs).2.2 ++ rs' := by
  induction rs generalizing x with
  | nil => exact hx
  | cons r rs ih =>
    unfold Userfs.deliver
    split
    · exact hx
    · exact ih (h _ _ _ hx)

theorem deliver_rest (actor : Actor) (x : Ctx) (rs : List Rec) :
    (deliver actor x rs).1 = false → (deliver actor x rs).2.2 = [] := by
  induction rs generalizing x with
  | nil => exact fun _ => rfl
  | cons r rs ih =>
    unfold deliver
    split
    · exact fun h => by cases h
    · exact ih _

theorem deliver_suffix (actor : Actor) (x : Ctx) (rs : List Rec) : (deliver actor x rs).2.2 <:+ rs := by
  induction rs generalizing x with
  | nil => exact suffix_refl _
  | cons r rs ih =>
    unfold deliver
    split
    · exact suffix_refl _
    · exact (ih _).trans (suffix_cons _ _)

def Answers (src : Nat → List Rec) (cap : Nat) (srv : Server) : Prop :=
  ∀ n id off, (srv n id off).sent = 0 ∧ (srv n id off).alloc = true ∧
    (srv n id off).recv 0 = .msg (replyBytes 0 id (encodeAll (batch cap 0 (src off))))

theorem iteratePass_batch {src : Nat → List Rec} {cap : Nat} {srv : Server} (hsrv : Answers src cap srv)
    (hcap : cap ≤ UFS_MAX_IO) (actor : Actor) {s : Sb} (hs : ¬ (s.chan = none ∨ s.dead = true)) (n : Nat) (x : Ctx) :
    iteratePass actor s (srv n (requestId s) x.pos) 1 x =
      if encodeAll (batch cap 0 (src x.pos)) = [] then some (.ret 0, { s with nextId := requestId s }, x)
      else if (deliver actor x (batch cap 0 (src x.pos))).1 then
        some (.ret 0, { s with nextId := requestId s }, (deliver actor x (batch cap 0 (src x.pos))).2.1)
      else some (.again, { s with nextId := requestId s }, (deliver actor x (batch cap 0 (src x.pos))).2.1) := by
  obtain ⟨hsent, halloc, hrecv⟩ := hsrv n (requestId s) x.pos
  have hlen := encodeAll_batch_length cap 0 (src x.pos) (Nat.zero_le _)
  obtain ⟨hf, herr, hid, hdlen, hdata⟩ := replyBytes_fields (requestId s) (Nat.mod_lt _ (by decide))
    (encodeAll (batch cap 0 (src x.pos))) (by omega)
  have hcall : ufsCall s (srv n (requestId s) x.pos) 1 =
      some ⟨0, replyBytes 0 (requestId s) (encodeAll (batch cap 0 (src x.pos))), { s with nextId := requestId s }⟩ := by
    have hans : answerOf { s with nextId := requestId s }
        (.msg (replyBytes 0 (requestId s) (encodeAll (batch cap 0 (src x.pos))))) = some ⟨0,
          replyBytes 0 (requestId s) (encodeAll (batch cap 0 (src x.pos))), { s with nextId := requestId s }⟩ := by
      simp [answerOf, hf, hid, herr, MAX_ERRNO]
    unfold ufsCall
    rw [if_neg hs, if_neg (by simp [hsent]), ← requestId, recvLoop, hrecv, hans, some_or]
  unfold iteratePass
  rw [hcall]
  dsimp only
  rw [if_neg (by simp), hdlen, hdata, records_encodeAll]
  by_cases hempty : encodeAll (batch cap 0 (src x.pos)) = []
  · rw [if_pos hempty, if_pos (by rw [hempty]; rfl)]
  · rw [if_neg hempty, if_neg (by simpa using hempty), if_neg (by simp [halloc])]

theorem ufsIterate_delivers {src : Nat → List Rec} (hres : Resumes src) {cap : Nat} {srv : Server}
    (hsrv : Answers src cap srv) (hcap : cap ≤ UFS_MAX_IO) (actor : Actor) (rs : List Rec)
    (hfit : ∀ r ∈ rs, r.size ≤ cap) (fuel n : Nat) (hfuel : rs.length < fuel) {s : Sb}
    (hs : ¬ (s.chan = none ∨ s.dead = true)) (x : Ctx) (hx : src x.pos = rs) :
    ∃ s', ¬ (s'.chan = none ∨ s'.dead = true) ∧
      iterateFrom actor srv 1 fuel n s x = some (0, s', (deliver actor x rs).2.1) := by
  induction fuel generalizing rs n s x with
  | zero => omega
  | succ fuel ih =>
  have hs' : ¬ (({ s with nextId := requestId s } : Sb).chan = none ∨
      ({ s with nextId := requestId s } : Sb).dead = true) := hs
  unfold iterateFrom
  rw [← requestId, iteratePass_batch hsrv hcap actor hs, hx]
  cases rs with
  | nil => exact ⟨_, hs', rfl⟩
  | cons r rs =>
  obtain ⟨rest, hrest⟩ := batch_rest cap 0 (r :: rs)
  -- the first record fits, so that the batch is not empty
  obtain ⟨b, hb⟩ : ∃ b, batch cap 0 (r :: rs) = r :: b := by
    unfold batch
    rw [if_neg (by have := hfit r mem_cons_self; omega)]
    exact ⟨_, rfl⟩
  have hne : encodeAll (batch cap 0 (r :: rs)) ≠ [] := by
    rw [hb]
    intro h
    have hlen := congrArg List.length h
    simp only [encodeAll, flatMap_cons, length_append, r.encode_length, length_nil] at hlen
    have := r.size_bounds
    omega
  have hsplit := deliver_append actor x (batch cap 0 (r :: rs)) rest
  rw [← hrest] at hsplit
  rw [if_neg hne]
  by_cases hfull : (deliver actor x (batch cap 0 (r :: rs))).1 = true
  · rw [if_pos hfull] at hsplit ⊢
    exact ⟨_, hs', by rw [hsplit]⟩
  rw [if_neg hfull] at hsplit ⊢
  rw [hsplit]
  have hpos := hres.deliver actor _ _ (hx.trans hrest)
  rw [deliver_rest actor x _ (by simpa using hfull), nil_append] at hpos
  have hlen := congrArg List.length hrest
  rw [hb] at hlen
  simp only [length_append, length_cons] at hlen hfuel
  refine ih rest (fun r' hr' => hfit r' ?_) (n + 1) (by omega) hs' _ hpos
  rw [hrest]
  exact mem_append_right _ hr'

def Reads (actor : Actor) (rs : List Rec) (given : List Entry) (rest : List Rec) : Prop :=
  rs.map Rec.entry = given ++ rest.map Rec.entry ∧ (∀ pre e post, given = pre ++ e :: post → actor pre e = true) ∧
    ∀ r ∈ rest.head?, actor given r.entry = false

theorem deliver_reads (actor : Actor) (rs : List Rec) (x : Ctx)
    (hx : ∀ pre e post, x.given = pre ++ e :: post → actor pre e = true) :
    ∃ given, (deliver actor x rs).2.1.given = x.given ++ given ∧
      rs.map Rec.entry = given ++ (deliver actor x rs).2.2.map Rec.entry ∧
      (∀ pre e post, x.given ++ given = pre ++ e :: post → actor pre e = true) ∧
      ∀ r ∈ (deliver actor x rs).2.2.head?, actor (x.given ++ given) r.entry = false := by
  induction rs generalizing x with
  | nil => exact ⟨[], by simp [deliver], rfl, by simpa using hx, fun r hr => by cases hr⟩
  | cons r rs ih =>
  unfold deliver
  split
  · rename_i ha
    refine ⟨[], by simp, rfl, by simpa using hx, fun r' hr' => ?_⟩
    obtain rfl := some.inj hr'
    simpa using ha
  rename_i ha
  have ha : actor x.given r.entry = true := by simpa using ha
  -- the entry that has just been taken is the last so far
  obtain ⟨given, hgiven, hmap, hall, hstop⟩ := ih ⟨r.next % 2 ^ 64, x.given ++ [r.entry]⟩ (by
    intro pre e post h
    rcases eq_nil_or_concat post with rfl | ⟨post', e', rfl⟩
    · obtain ⟨rfl, he⟩ := append_inj' h rfl
      cases he
      exact ha
    refine hx pre e post' ?_
    rw [concat_eq_append, ← cons_append, ← append_assoc] at h
    exact (append_inj' h rfl).1)
  refine ⟨r.entry :: given, by rw [hgiven]; simp, by rw [map_cons, hmap]; rfl, ?_, ?_⟩
  · simpa using hall
  · simpa using hstop

def readCalls (fuel : Nat) : List (Actor × Server) → Sb → Nat → Option (List (List Entry) × Sb × Nat)
  | [], s, pos => some ([], s, pos)
  | (actor, srv) :: calls, s, pos =>
    match ufsIterate actor srv 1 fuel s ⟨pos, []⟩ with
    | some (0, s, x) => (readCalls fuel calls s x.pos).map fun r => (x.given :: r.1, r.2)
    | _ => none

def SharedOut : List (Actor × Server) → List Rec → List (List Entry) → List Rec → Prop
  | [], rs, [], rest => rs = rest
  | (actor, _) :: calls, rs, given :: more, rest =>
    ∃ mid, Reads actor rs given mid ∧ SharedOut calls mid more rest
  | _, _, _, _ => False

theorem SharedOut.flatten {calls : List (Actor × Server)} {given : List (List Entry)}
    (h : SharedOut calls rs given rest) : given.flatten ++ rest.map Rec.entry = rs.map Rec.entry := by
  induction calls generalizing rs given with
  | nil =>
    cases given with
    | nil => rw [show rs = rest from h]; rfl
    | cons _ _ => exact h.elim
  | cons c calls ih =>
  cases given with
  | nil => exact h.elim
  | cons a more =>
    obtain ⟨mid, hread, hmore⟩ := h
    rw [hread.1, ← ih hmore, flatten_cons, append_assoc]

theorem Reads.length {actor : Actor} (hfirst : ∀ e, actor [] e = true) {given : List Entry}
    (h : Reads actor rs given rest) : rest.length ≤ rs.length - 1 ∧ (rs = [] → given = []) := by
  obtain ⟨heq, -, hrefused⟩ := h
  have hlen := congrArg List.length heq
  rw [length_map, length_append, length_map] at hlen
  refine ⟨?_, fun hnil => ?_⟩
  · cases given with
    | cons e given =>
      rw [length_cons] at hlen
      omega
    | nil =>
    cases rest with
    | nil => exact Nat.zero_le _
    | cons r rest =>
      have := hrefused r rfl
      rw [hfirst] at this
      cases this
  · rw [hnil] at hlen
    exact eq_nil_of_length_eq_zero (by simp only [length_nil] at hlen; omega)

theorem SharedOut.ends {calls : List (Actor × Server)} (hfirst : ∀ c ∈ calls, ∀ e, c.1 [] e = true)
    {given : List (List Entry)} (hlen : rs.length < calls.length)
    (h : SharedOut calls rs given rest) : rest = [] ∧ given.getLast? = some [] := by
  induction calls generalizing rs given with
  | nil => exact absurd hlen (Nat.not_lt_zero _)
  | cons c calls ih =>
  obtain ⟨actor, srv⟩ := c
  cases given with
  | nil => exact h.elim
  | cons e given =>
  obtain ⟨mid, hreads, hrest⟩ := h
  obtain ⟨hmid, hnil⟩ := hreads.length (hfirst _ mem_cons_self)
  rw [length_cons] at hlen
  cases calls with
  | nil =>
    have hrs : rs = [] := eq_nil_of_length_eq_zero (by simp only [length_nil] at hlen; omega)
    have hm : mid = [] := eq_nil_of_length_eq_zero (by rw [hrs, length_nil] at hmid; omega)
    cases given with
    | nil => exact ⟨(show mid = rest from hrest) ▸ hm, by rw [hnil hrs]; rfl⟩
    | cons _ _ => exact hrest.elim
  | cons c' calls =>
  have hlt : mid.length < (c' :: calls).length := by
    rw [length_cons] at hlen ⊢
    omega
  obtain ⟨h1, h2⟩ := ih (fun c hc => hfirst c (mem_cons_of_mem _ hc)) hlt hrest
  cases given with
  | nil => exact hrest.elim
  | cons e' given => exact ⟨h1, h2⟩

theorem readCalls_shared {src : Nat → List Rec} (hres : Resumes src) {cap : Nat} (hcap : cap ≤ UFS_MAX_IO)
    (calls : List (Actor × Server)) (hsrv : ∀ c ∈ calls, Answers src cap c.2) (fuel : Nat) {s : Sb}
    (hs : ¬ (s.chan = none ∨ s.dead = true)) (pos : Nat) (hfit : ∀ r ∈ src pos, r.size ≤ cap)
    (hfuel : (src pos).length < fuel) :
    ∃ given s' pos', readCalls fuel calls s pos = some (given, s', pos') ∧
      SharedOut calls (src pos) given (src pos') := by
  induction calls generalizing s pos with
  | nil => exact ⟨[], s, pos, rfl, rfl⟩
  | cons c calls ih =>
  obtain ⟨actor, srv⟩ := c
  obtain ⟨s', hs', hrun⟩ := ufsIterate_delivers hres (hsrv _ mem_cons_self) hcap actor (src pos) hfit fuel 0
    hfuel hs ⟨pos, []⟩ rfl
  obtain ⟨given, hgiven, hmap, hall, hstop⟩ := deliver_reads actor (src pos) ⟨pos, []⟩ (by simp)
  simp only [nil_append] at hgiven hall hstop
  have hpos := hres.deliver actor (x := ⟨pos, []⟩) (src pos) [] (append_nil _).symm
  rw [append_nil] at hpos
  have hsub : ∀ r ∈ (deliver actor ⟨pos, []⟩ (src pos)).2.2, r.size ≤ cap :=
    fun r hr => hfit r ((deliver_suffix actor _ _).mem hr)
  generalize deliver actor ⟨pos, []⟩ (src pos) = r at hrun hgiven hmap hstop hpos hsub
  obtain ⟨full, x, mid⟩ := r
  dsimp only at *
  have hlen := congrArg List.length hmap
  simp only [length_map, length_append] at hlen
  obtain ⟨more, s'', pos'', hmore, hshare⟩ := ih (fun c hc => hsrv c (mem_cons_of_mem _ hc)) hs' x.pos
    (by rw [hpos]; exact hsub) (by rw [hpos]; omega)
  refine ⟨given :: more, s'', pos'', ?_, mid, ⟨hmap, hall, hstop⟩, hpos ▸ hshare⟩
  unfold readCalls ufsIterate
  rw [hrun]
  simp only [hmore, hgiven, map_some]

end Olux.Userfs
