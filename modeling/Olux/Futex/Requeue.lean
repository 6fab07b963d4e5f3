import Olux.Futex.Theorems

namespace Olux.Futex

open Function List

-- The loop of futex_requeue: `pre` has been passed, `rest` is still to be seen, and `bk2` is the other
-- bucket, if there are two. A waiter that goes to the end of the list that is walked is seen
-- again, unless it was the last: its successor was saved before.
def requeueLoop (key key2 : Key) (n : Int) (call : Nat → Call) (bk2 pre rest : List Nat) (moved : Int) :
    (Nat → Call) × List Nat × List Nat × Int :=
  match rest with
  | [] => (call, pre, bk2, moved)
  | id :: rest =>
    if moved ≥ n then (call, pre ++ id :: rest, bk2, moved)
    else if (call id).key ≠ key then requeueLoop key key2 n call bk2 (pre ++ [id]) rest moved
    else
      let call := update call id { call id with key := key2 }
      if hash key2 ≠ hash key then requeueLoop key key2 n call (bk2 ++ [id]) pre rest (moved + 1)
      else if rest = [] then (call, pre ++ [id], bk2, moved + 1)
      else requeueLoop key key2 n call bk2 pre (rest ++ [id]) (moved + 1)
termination_by ((n - moved).toNat, rest.length)
decreasing_by
  · exact .right _ (by simp)
  · exact .left _ _ (by omega)
  · exact .left _ _ (by omega)

def FUTEX_BITSET_MATCH_ANY : BitVec 32 := 0xffffffff

def futexRequeue (s : State) (p p2 : Place) (nwake nrequeue : Int) (cmp : Option (BitVec 32)) : State × Int :=
  match makeKey p, makeKey p2 with
  | .error e, _ => (s, e)
  | .ok _, .error e => (s, e)
  | .ok key, .ok key2 =>
    if cmp ≠ none ∧ s.mem p.mm p.uaddr = none then (s, - EFAULT)
    else if cmp ≠ none ∧ s.mem p.mm p.uaddr ≠ cmp then (s, - EAGAIN)
    else
      let (s, woken) := wakeKey s key nwake FUTEX_BITSET_MATCH_ANY
      let (call, bk, bk2, moved) := requeueLoop key key2 nrequeue s.call (s.bucket (hash key2)) [] (s.bucket (hash key)) 0
      let bucket := if hash key2 = hash key then s.bucket else update s.bucket (hash key2) bk2
      ({ s with call, bucket := update bucket (hash key) bk }, woken + moved)

variable {key key2 : Key} {n : Int} {call : Nat → Call} {bk2 pre l t : List Nat} {moved : Int}

-- The calls after those of `m` have been given another key.
def rekey (key2 : Key) (m : List Nat) (call : Nat → Call) (id : Nat) : Call :=
  if id ∈ m then { call id with key := key2 } else call id

def onKey (call : Nat → Call) (key : Key) (id : Nat) : Bool := (call id).key == key

@[simp] theorem rekey_nil (key2 : Key) (call : Nat → Call) : rekey key2 [] call = call := by
  funext j
  simp [rekey]

theorem rekey_cons (key2 : Key) (id : Nat) (m : List Nat) (call : Nat → Call) :
    rekey key2 m (update call id { call id with key := key2 }) = rekey key2 (id :: m) call := by
  funext j
  by_cases hj : j = id
  · subst hj
    simp [rekey]
  · simp [rekey, hj]

theorem filter_onKey_update {id : Nat} (c : Call) (hid : id ∉ l) :
    l.filter (onKey (update call id c) key) = l.filter (onKey call key) := by
  refine filter_congr fun j hj => ?_
  rw [onKey, onKey, update_of_ne (ne_of_mem_of_not_mem hj hid)]

-- What is left of a list when the first `k` waiters of the key have gone, step by step.
theorem filter_not_mem_cons {id : Nat} {m : List Nat} (hid : id ∉ l) :
    (id :: l).filter (fun j => j ∉ id :: m) = l.filter fun j => j ∉ m := by
  rw [filter_cons_of_neg (by simp)]
  refine filter_congr fun j hj => ?_
  have hne : j ≠ id := ne_of_mem_of_not_mem hj hid
  simp [hne]

theorem requeueLoop_skip (h : (∀ j ∈ t, (call j).key ≠ key) ∨ n ≤ moved) :
    requeueLoop key key2 n call bk2 pre t moved = (call, pre ++ t, bk2, moved) := by
  induction t generalizing pre with
  | nil => simp [requeueLoop]
  | cons id t ih =>
  rw [requeueLoop]
  split
  · rfl
  rename_i hn
  have hall := forall_mem_cons.mp (h.resolve_right hn)
  rw [if_pos hall.1, ih (.inl hall.2), append_assoc, singleton_append]

-- The waiters in `t` have been moved to the end of the list. They are not moved again if they have another key
-- now, or if there are enough others.
theorem requeueLoop_eq (n : Int) (call : Nat → Call) (bk2 pre : List Nat) (moved : Int) (hl : (l ++ t).Nodup)
    (ht : hash key2 ≠ hash key → t = [])
    (hseen : (∀ j ∈ t, (call j).key ≠ key) ∧ key2 ≠ key ∨ (n - moved).toNat ≤ (l.filter (onKey call key)).length) :
    let m := (l.filter (onKey call key)).take (n - moved).toNat
    requeueLoop key key2 n call bk2 pre (l ++ t) moved =
      (rekey key2 m call, pre ++ (l.filter (fun j => j ∉ m) ++ (t ++ if hash key2 = hash key then m else [])),
        if hash key2 = hash key then bk2 else bk2 ++ m, moved + m.length) := by
  induction l generalizing call bk2 pre moved t with
  | nil =>
    rw [nil_append, requeueLoop_skip (hseen.imp And.left fun h => by simp at h; omega)]
    simp
  | cons id l ih =>
  obtain ⟨hid, hl⟩ := nodup_cons.mp hl
  obtain ⟨hidl, hidt⟩ := not_or.mp (mem_append.not.mp hid)
  intro m
  rw [cons_append, requeueLoop]
  split
  · rename_i hn
    have hm : m = [] := by simp [m, Int.toNat_eq_zero.mpr (by omega : n - moved ≤ 0)]
    simp [hm]
  rename_i hn
  split
  · rename_i hkey
    have hfilter : (id :: l).filter (onKey call key) = l.filter (onKey call key) := by simp [onKey, hkey]
    have hm : m = (l.filter (onKey call key)).take (n - moved).toNat := by rw [← hfilter]
    have hnot : id ∉ m := fun h => hidl (mem_of_mem_filter (mem_of_mem_take (hm ▸ h)))
    rw [ih _ _ _ _ hl ht (hfilter ▸ hseen), ← hm, filter_cons_of_pos (by simpa using hnot)]
    simp
  rename_i hkey
  have hfilter : (id :: l).filter (onKey call key) = id :: l.filter (onKey call key) :=
    filter_cons_of_pos (by simpa [onKey] using hkey)
  have hm : m = id :: (l.filter (onKey call key)).take (n - (moved + 1)).toNat := by
    simp only [m, hfilter, show (n - moved).toNat = (n - (moved + 1)).toNat + 1 by omega, take_succ_cons]
  have hleft : (id :: l).filter (fun j => j ∉ m) =
      l.filter fun j => j ∉ (l.filter (onKey call key)).take (n - (moved + 1)).toNat := by
    rw [hm, filter_not_mem_cons hidl]
  dsimp only
  by_cases heq : hash key2 = hash key
  · rw [if_neg (not_not_intro heq)]
    split
    · rename_i hnil
      obtain ⟨rfl, rfl⟩ := append_eq_nil_iff.mp hnil
      simp [hm, ← rekey_cons]
    rw [append_assoc, ih _ _ _ _ (t := t ++ [id]), filter_onKey_update _ hidl, rekey_cons, ← hm, hleft, hm]
    · simp [heq]
      omega
    · rw [← append_assoc]
      exact nodup_append.mpr ⟨hl, nodup_singleton id, by simpa using fun j hj (hji : j = id) => hid (hji ▸ mem_append.mpr hj)⟩
    · exact fun hne => absurd heq hne
    rcases hseen with ⟨hall, hne⟩ | hk
    · refine .inl ⟨fun j hj => ?_, hne⟩
      rcases mem_append.mp hj with hj | hj
      · rw [update_of_ne (ne_of_mem_of_not_mem hj hidt)]
        exact hall j hj
      · rw [mem_singleton.mp hj, update_self]
        exact hne
    rw [hfilter, length_cons] at hk
    rw [filter_onKey_update _ hidl]
    exact .inr (by omega)
  obtain rfl := ht heq
  rw [if_pos heq, ih _ _ _ _ hl ht (.inl ⟨nofun, fun h => heq (h ▸ rfl)⟩), filter_onKey_update _ hidl, rekey_cons, ← hm,
    hleft, hm]
  simp [heq]
  omega

-- Each waiter is in the bucket of its key, once, with a bit set.
structure Waiting (s : State) : Prop where
  nodup : ∀ b, (s.bucket b).Nodup
  place : ∀ b, ∀ id ∈ s.bucket b, hash (s.call id).key = b
  bitset : ∀ b, ∀ id ∈ s.bucket b, (s.call id).bitset ≠ 0

theorem filter_not_mem_take {q : List Nat} (hq : q.Nodup) (k : Nat) : q.filter (fun j => j ∉ q.take k) = q.drop k := by
  have hdis := (nodup_append.mp ((take_append_drop k q).symm ▸ hq)).2.2
  calc q.filter (fun j => j ∉ q.take k)
      = (q.take k ++ q.drop k).filter (fun j => j ∉ q.take k) := by rw [take_append_drop]
    _ = q.drop k := by
      rw [filter_append, filter_eq_nil_iff.mpr (by simp), nil_append, filter_eq_self]
      intro j hj
      simpa using fun hj' => hdis j hj' j hj rfl

theorem wakeKey_any (h : Waiting s) (key : Key) (n : Int) :
    let woken := ((s.bucket (hash key)).filter (onKey s.call key)).take n.toNat
    wakeLoop s.call key n FUTEX_BITSET_MATCH_ANY 0 (s.bucket (hash key)) =
      (woken, (s.bucket (hash key)).filter fun j => j ∉ woken) := by
  have hfst : (wakeLoop s.call key n FUTEX_BITSET_MATCH_ANY 0 (s.bucket (hash key))).1 =
      ((s.bucket (hash key)).filter (onKey s.call key)).take n.toNat := by
    rw [wakeLoop_fst, Int.sub_zero]
    congr 1
    refine filter_congr fun j hj => ?_
    have hbit : (s.call j).bitset &&& FUTEX_BITSET_MATCH_ANY ≠ 0 := by
      rw [show FUTEX_BITSET_MATCH_ANY = BitVec.allOnes 32 by decide, BitVec.and_allOnes]
      exact h.bitset _ j hj
    simpa [Call.hit, onKey] using fun _ => hbit
  exact Prod.ext hfst ((wakeLoop_snd 0 (h.nodup _)).trans (by rw [hfst]))

def waiters (s : State) (key : Key) : List Nat := (s.bucket (hash key)).filter (onKey s.call key)

-- The first waiters of the key are woken and the next ones moved, each once and in order, and the
-- others stay.
structure Conserved (s : State) (key key2 : Key) (woken moved : List Nat) (r : State × Int) : Prop where
  result : r.2 = woken.length + moved.length ∧ r.2 ≤ (waiters s key).length
  bucket : ∀ b, r.1.bucket b =
    (s.bucket b).filter (fun id => id ∉ woken ++ moved) ++ if b = hash key2 then moved else []
  call : ∀ id, r.1.call id =
    if id ∈ woken then { s.call id with woken := true, running := true }
    else if id ∈ moved then { s.call id with key := key2 } else s.call id

def wokenOf (s : State) (key : Key) (nwake : Int) : List Nat := (waiters s key).take nwake.toNat

def leftOf (s : State) (key : Key) (nwake : Int) : List Nat := (waiters s key).drop nwake.toNat

-- The bucket of the key behind the wake.
def bucketAfter (s : State) (key : Key) (nwake : Int) : List Nat :=
  (s.bucket (hash key)).filter fun id => id ∉ wokenOf s key nwake

def callAfter (s : State) (key : Key) (nwake : Int) (id : Nat) : Call :=
  if id ∈ wokenOf s key nwake then { s.call id with woken := true, running := true } else s.call id

section

variable {p p2 : Place} {nwake nrequeue : Int} {cmp : Option (BitVec 32)} (h : Waiting s)
  (hkey : makeKey p = .ok key) (hkey2 : makeKey p2 = .ok key2) (hcmp : cmp = none ∨ s.mem p.mm p.uaddr = cmp)
include h

theorem bucketAfter_onKey (key : Key) (nwake : Int) :
    (bucketAfter s key nwake).filter (onKey (callAfter s key nwake) key) = leftOf s key nwake := by
  have hon (l : List Nat) : l.filter (onKey (callAfter s key nwake) key) = l.filter (onKey s.call key) := by
    refine filter_congr fun j _ => ?_
    rw [onKey, onKey, callAfter]
    split <;> rfl
  rw [hon, bucketAfter, filter_comm]
  exact filter_not_mem_take ((h.nodup _).filter _) _

include hkey hkey2 hcmp

theorem futexRequeue_eq : futexRequeue s p p2 nwake nrequeue cmp =
    let r := requeueLoop key key2 nrequeue (callAfter s key nwake)
      (update s.bucket (hash key) (bucketAfter s key nwake) (hash key2)) [] (bucketAfter s key nwake) 0
    ({ s with
        call := r.1
        bucket := update (if hash key2 = hash key then update s.bucket (hash key) (bucketAfter s key nwake)
          else update (update s.bucket (hash key) (bucketAfter s key nwake)) (hash key2) r.2.2.1) (hash key) r.2.1
        dequeued := s.dequeued ++ wokenOf s key nwake },
      (wokenOf s key nwake).length + r.2.2.2) := by
  have hc1 : ¬ (cmp ≠ none ∧ s.mem p.mm p.uaddr = none) := fun h => h.1 ((hcmp.resolve_left h.1).symm.trans h.2)
  have hc2 : ¬ (cmp ≠ none ∧ s.mem p.mm p.uaddr ≠ cmp) := fun h => h.2 (hcmp.resolve_left h.1)
  simp only [futexRequeue, hkey, hkey2, if_neg hc1, if_neg hc2, wakeKey, wakeKey_any h key nwake, update_self]
  rfl

theorem futexRequeue_conserved (hn : key2 ≠ key ∨ nrequeue.toNat ≤ (leftOf s key nwake).length) :
    Conserved s key key2 (wokenOf s key nwake) ((leftOf s key nwake).take nrequeue.toNat)
      (futexRequeue s p p2 nwake nrequeue cmp) := by
  rw [futexRequeue_eq h hkey hkey2 hcmp]
  generalize hmoved : (leftOf s key nwake).take nrequeue.toNat = moved
  have hq : (waiters s key).Nodup := (h.nodup _).filter _
  have hrest := bucketAfter_onKey h key nwake
  have hnodup : (bucketAfter s key nwake).Nodup := (h.nodup _).filter _
  have hlen : ((wokenOf s key nwake).length + moved.length : Int) ≤ (waiters s key).length := by
    simp only [← hmoved, wokenOf, leftOf, length_take, length_drop]
    omega
  have hleft : (bucketAfter s key nwake).filter (fun j => j ∉ moved) =
      (s.bucket (hash key)).filter fun j => j ∉ wokenOf s key nwake ++ moved := by
    rw [bucketAfter, filter_filter]
    exact filter_congr fun j _ => by simp [Bool.and_comm]
  have hother (b : Nat) (hb : b ≠ hash key) :
      (s.bucket b).filter (fun j => j ∉ wokenOf s key nwake ++ moved) = s.bucket b := by
    refine filter_eq_self.mpr fun j hj => ?_
    rw [decide_eq_true_eq]
    intro hin
    have hjq : j ∈ waiters s key := by
      rcases mem_append.mp hin with hin | hin
      · exact mem_of_mem_take hin
      · exact mem_of_mem_drop (mem_of_mem_take (hmoved ▸ hin))
    exact hb ((h.place b j hj).symm.trans (h.place _ j (mem_of_mem_filter hjq)))
  have hcalls (id : Nat) : rekey key2 moved (callAfter s key nwake) id =
      if id ∈ wokenOf s key nwake then { s.call id with woken := true, running := true }
      else if id ∈ moved then { s.call id with key := key2 } else s.call id := by
    have hdis : id ∈ wokenOf s key nwake → id ∉ moved := fun h1 h2 =>
      (nodup_append.mp ((take_append_drop nwake.toNat (waiters s key)).symm ▸ hq)).2.2 id h1 id
        (mem_of_mem_take (hmoved ▸ h2)) rfl
    rw [rekey, callAfter]
    by_cases h1 : id ∈ wokenOf s key nwake
    · simp only [if_neg (hdis h1), if_pos h1]
    · simp only [if_neg h1]
  have hloop (bk2 : List Nat) := requeueLoop_eq nrequeue (callAfter s key nwake) bk2 [] 0 (t := [])
    (by rwa [append_nil]) (fun _ => rfl) (hn.imp (fun h => ⟨nofun, h⟩) fun h => by rwa [hrest, Int.sub_zero])
  simp only [hrest, Int.sub_zero, nil_append, append_nil, Int.zero_add, hmoved] at hloop
  rw [hloop]
  refine ⟨⟨rfl, hlen⟩, fun b => ?_, hcalls⟩
  dsimp only
  by_cases hb : b = hash key
  · rw [hb, update_self, hleft]
    exact congrArg _ (if_congr eq_comm rfl rfl)
  rw [update_of_ne hb, hother b hb]
  by_cases heq : hash key2 = hash key
  · rw [if_pos heq, update_of_ne hb, if_neg (fun h => hb (h.trans heq)), append_nil]
  rw [if_neg heq, if_neg heq, update_of_ne heq]
  by_cases hb2 : b = hash key2
  · rw [hb2, update_self, if_pos rfl]
  · rw [update_of_ne hb2, update_of_ne hb, if_neg hb2, append_nil]

end

section

variable {a b : List Nat} {id : Nat}

-- Two waiters of the key that is walked keep the loop going until it has made all its moves.
theorem requeueLoop_rounds (h2 : 2 ≤ (l.filter (onKey call key)).length) (hmoved : moved ≤ n) :
    (requeueLoop key key n call bk2 pre l moved).2.2.2 = n := by
  fun_induction requeueLoop key key n call bk2 pre l moved with
  | case1 => simp at h2
  | case2 call bk2 pre moved id rest hn => exact Int.le_antisymm hmoved hn
  | case3 call bk2 pre moved id rest hn hkey ih =>
    rw [filter_cons_of_neg (by simpa [onKey] using hkey)] at h2
    exact ih h2 hmoved
  | case4 call bk2 pre moved id rest hn hkey c hhash => exact absurd rfl hhash
  | case5 call bk2 pre moved id hn hkey c hhash => simp [onKey, not_not.mp hkey] at h2
  | case6 call bk2 pre moved id rest hn hkey c hhash hrest ih =>
  have hc : c = call := by
    have hid : (call id).key = key := not_not.mp hkey
    rw [show c = update call id { call id with key := key } from rfl, ← hid]
    exact update_eq_self id call
  rw [hc] at ih ⊢
  refine ih ?_ (by omega)
  rw [filter_append, length_append, Nat.add_comm, ← length_append, ← filter_append]
  exact h2

theorem requeueLoop_pass (ha : ∀ j ∈ a, (call j).key ≠ key) (hn : moved < n) :
    requeueLoop key key2 n call bk2 pre (a ++ l) moved = requeueLoop key key2 n call bk2 (pre ++ a) l moved := by
  induction a generalizing pre with
  | nil => rw [nil_append, append_nil]
  | cons j a ih =>
  obtain ⟨hj, ha⟩ := forall_mem_cons.mp ha
  rw [cons_append, requeueLoop, if_neg (by omega), if_pos hj, ih ha, append_assoc, singleton_append]

theorem requeueLoop_last (ha : ∀ j ∈ a, (call j).key ≠ key) (hid : (call id).key = key) (hn : moved < n) :
    requeueLoop key key n call bk2 pre (a ++ [id]) moved = (call, pre ++ a ++ [id], bk2, moved + 1) := by
  have hc : update call id { call id with key := key } = call := by
    rw [← hid]
    exact update_eq_self id call
  rw [requeueLoop_pass ha hn, requeueLoop, if_neg (by omega), if_neg (not_not.mpr hid), if_neg (not_not.mpr rfl),
    if_pos rfl, hc]

-- One that is not the last of its bucket is met a second time.
theorem requeueLoop_twice (ha : ∀ j ∈ a, (call j).key ≠ key) (hid : (call id).key = key)
    (hb : ∀ j ∈ b, (call j).key ≠ key) (hne : b ≠ []) (hn : moved + 1 < n) :
    (requeueLoop key key n call bk2 pre (a ++ id :: b) moved).2.2.2 = moved + 2 := by
  have hc : update call id { call id with key := key } = call := by
    rw [← hid]
    exact update_eq_self id call
  rw [requeueLoop_pass ha (by omega), requeueLoop, if_neg (by omega), if_neg (not_not.mpr hid), if_neg (not_not.mpr rfl),
    if_neg hne, hc, requeueLoop_last hb hid hn, Int.add_assoc]
  rfl

end

-- The waiters are conserved iff the keys differ, no more moves are asked for than there are waiters left
-- on the key, or the only one left, if any, is the last of its bucket. Otherwise the loop meets a waiter
-- again that it has moved to the end of the list that it walks.
theorem futexRequeue_conserves_iff {p p2 : Place} {nwake nrequeue : Int} {cmp : Option (BitVec 32)} (h : Waiting s)
    (hkey : makeKey p = .ok key) (hkey2 : makeKey p2 = .ok key2) (hcmp : cmp = none ∨ s.mem p.mm p.uaddr = cmp) :
    Conserved s key key2 (wokenOf s key nwake) ((leftOf s key nwake).take nrequeue.toNat)
        (futexRequeue s p p2 nwake nrequeue cmp) ↔
      key2 ≠ key ∨ nrequeue.toNat ≤ (leftOf s key nwake).length ∨
        leftOf s key nwake = [] ∨ ∃ id, leftOf s key nwake = [id] ∧ (bucketAfter s key nwake).getLast? = some id := by
  have hrest := bucketAfter_onKey h key nwake
  by_cases hn : key2 ≠ key ∨ nrequeue.toNat ≤ (leftOf s key nwake).length
  · refine iff_of_true (futexRequeue_conserved h hkey hkey2 hcmp hn) ?_
    tauto
  obtain ⟨heq, hmany⟩ := not_or.mp hn
  obtain rfl := not_not.mp heq
  have htake : (leftOf s key2 nwake).take nrequeue.toNat = leftOf s key2 nwake := take_of_length_le (by omega)
  simp only [ne_eq, not_true_eq_false, false_or, hmany]
  constructor
  · -- otherwise more moves are counted than there are waiters
    intro hcons
    by_contra hbad
    obtain ⟨hnil, hlast⟩ := not_or.mp hbad
    have hresult := hcons.result.1
    rw [futexRequeue_eq h hkey hkey2 hcmp, htake] at hresult
    dsimp only at hresult
    have hmoves : ((leftOf s key2 nwake).length : Int) < (requeueLoop key2 key2 nrequeue (callAfter s key2 nwake)
        (update s.bucket (hash key2) (bucketAfter s key2 nwake) (hash key2)) [] (bucketAfter s key2 nwake) 0).2.2.2 := by
      rcases Nat.lt_or_ge 1 (leftOf s key2 nwake).length with htwo | hone
      · rw [requeueLoop_rounds (by rw [hrest]; exact htwo) (by omega)]
        omega
      obtain ⟨id, hid⟩ := length_eq_one_iff.mp (Nat.le_antisymm hone (length_pos_iff.mpr hnil))
      rw [hid] at hrest hmany ⊢
      obtain ⟨a, b, hl, ha, hon, hb⟩ := filter_eq_cons_iff.mp hrest
      have hne : b ≠ [] := by
        rintro rfl
        exact hlast ⟨id, hid, by simp [hl]⟩
      rw [hl, requeueLoop_twice (by simpa [onKey] using ha) (by simpa [onKey] using hon)
        (by simpa [onKey] using filter_eq_nil_iff.mp hb) hne (by simp at hmany; omega)]
      simp
    omega
  -- as many moves as there are waiters do the same
  intro hfew
  have hsame : futexRequeue s p p2 nwake nrequeue cmp = futexRequeue s p p2 nwake (leftOf s key2 nwake).length cmp := by
    rw [futexRequeue_eq h hkey hkey2 hcmp, futexRequeue_eq h hkey hkey2 hcmp]
    rcases hfew with hnil | ⟨id, hid, hlast⟩
    · rw [hnil] at hrest ⊢
      have hoff : ∀ j ∈ bucketAfter s key2 nwake, (callAfter s key2 nwake j).key ≠ key2 := by
        simpa [onKey] using filter_eq_nil_iff.mp hrest
      rw [requeueLoop_skip (.inl hoff), requeueLoop_skip (.inl hoff)]
    rw [hid] at hrest hmany ⊢
    obtain ⟨a, b, hl, ha, hon, hb⟩ := filter_eq_cons_iff.mp hrest
    obtain rfl : b = [] := by
      by_contra hne
      rw [hl, append_cons, getLast?_append_of_ne_nil _ hne] at hlast
      exact filter_eq_nil_iff.mp hb id (mem_of_getLast? hlast) hon
    rw [hl, requeueLoop_last (by simpa [onKey] using ha) (by simpa [onKey] using hon) (by simp at hmany; omega),
      requeueLoop_last (by simpa [onKey] using ha) (by simpa [onKey] using hon) (by simp)]
  rw [hsame, htake]
  have hcons : Conserved s key2 key2 (wokenOf s key2 nwake)
      ((leftOf s key2 nwake).take (((leftOf s key2 nwake).length : Int).toNat))
      (futexRequeue s p p2 nwake (leftOf s key2 nwake).length cmp) :=
    futexRequeue_conserved h hkey hkey2 hcmp (.inr (Nat.le_of_eq (Int.toNat_natCast _)))
  rwa [Int.toNat_natCast, take_length] at hcons

def twoWaiters : State :=
  { boot (fun _ _ => none) with
    call := fun _ => { Call.blank with key := ⟨8, 16⟩, bitset := 1, pc := .asleep, running := false }
    bucket := fun b => if b = hash ⟨8, 16⟩ then [0, 1] else [] }

def place (uaddr : BitVec 64) : Place := ⟨8, uaddr, none, true⟩

theorem twoWaiters_waiting : Waiting twoWaiters := by
  refine ⟨fun b => ?_, fun b id hid => ?_, fun b id _ => by simp [twoWaiters]⟩ <;> dsimp only [twoWaiters] at *
  · split <;> decide
  split at hid
  · exact ‹b = _›.symm
  · cases hid

theorem futexRequeue_conserves_two : (futexRequeue twoWaiters (place 16) (place 32) 1 5 none).2 = 2 ∧
    (futexRequeue twoWaiters (place 16) (place 16) 1 5 none).2 = 2 :=
  ⟨((futexRequeue_conserves_iff twoWaiters_waiting (rfl : makeKey (place 16) = .ok ⟨8, 16⟩)
      (rfl : makeKey (place 32) = .ok ⟨8, 32⟩) (.inl rfl)).mpr (.inl (by decide))).result.1,
    ((futexRequeue_conserves_iff twoWaiters_waiting (rfl : makeKey (place 16) = .ok ⟨8, 16⟩)
      (rfl : makeKey (place 16) = .ok ⟨8, 16⟩) (.inl rfl)).mpr (.inr (.inr (.inr ⟨1, by decide, by decide⟩)))).result.1⟩

theorem requeue_to_itself : (futexRequeue twoWaiters (place 16) (place 16) 0 3 none).2 = 3 := by
  have hkey : makeKey (place 16) = .ok ⟨8, 16⟩ := rfl
  simp only [futexRequeue, hkey]
  simp [wakeKey, wakeLoop, requeueLoop, twoWaiters]

end Olux.Futex
