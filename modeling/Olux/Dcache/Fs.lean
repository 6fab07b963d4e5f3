import Olux.Dcache

namespace Olux.Dcache

open Function List Option

open Vfs (Name)

variable {fs : Fs} {e : Ent} {oname : Name}

def Linked (fs : Fs) (d : Nat) : Prop := d = 0 ∨ ∃ e ∈ fs.entries, e.ino = d

def refs (fs : Fs) (i : Nat) : Nat := fs.entries.countP fun e => e.ino = i

def subdirs (fs : Fs) (d : Nat) : Nat := fs.entries.countP fun e => e.dir = d ∧ (fs.node e.ino).dir

-- The names of one directory are distinct, a directory has one entry, in its parent, and the
-- link counts are right.
structure FsOk (fs : Fs) : Prop where
  keys : (fs.entries.map fun e => (e.dir, e.name)).Nodup
  bound : ∀ e ∈ fs.entries, e.ino < fs.next ∧ e.dir < fs.next ∧ (fs.node e.dir).dir = true
  root : 0 < fs.next ∧ ∀ e ∈ fs.entries, e.ino ≠ 0
  rootDir : (fs.node 0).dir = true
  once : ∀ e ∈ fs.entries, ∀ e' ∈ fs.entries, e.ino = e'.ino → (fs.node e.ino).dir = true → e = e'
  parent : ∀ e ∈ fs.entries, (fs.node e.ino).dir = true → (fs.node e.ino).parent = e.dir
  files : ∀ i < fs.next, (fs.node i).dir = false → (fs.node i).nlink = refs fs i
  dirs : ∀ d, (fs.node d).dir = true → Linked fs d → (fs.node d).nlink = 2 + subdirs fs d

theorem find?_perm {α : Type} {p : α → Bool} {l : List α} {x : α} (h : l.find? p = some x) : l.Perm (x :: l.eraseP p) := by
  induction l with
  | nil => cases h
  | cons y l ih =>
  by_cases hy : p y = true
  · rw [find?_cons_of_pos hy] at h
    rw [eraseP_cons_of_pos hy, some.inj h]
  rw [find?_cons_of_neg hy] at h
  rw [eraseP_cons_of_neg hy]
  exact ((ih h).cons y).trans (.swap x y _)

theorem FsOk.perm (h : FsOk fs) {l : List Ent} (hl : fs.entries.Perm l) : FsOk { fs with entries := l } where
  keys := (hl.map _).nodup_iff.mp h.keys
  bound := fun e he => h.bound e (hl.mem_iff.mpr he)
  root := ⟨h.root.1, fun e he => h.root.2 e (hl.mem_iff.mpr he)⟩
  rootDir := h.rootDir
  once := fun e he e' he' => h.once e (hl.mem_iff.mpr he) e' (hl.mem_iff.mpr he')
  parent := fun e he => h.parent e (hl.mem_iff.mpr he)
  files := by
    intro i hi hf
    rw [h.files i hi hf]
    exact congrArg Nat.cast (hl.countP_eq _)
  dirs := by
    intro d hd hlinked
    rw [h.dirs d hd (hlinked.imp_right fun ⟨e, he, hi⟩ => ⟨e, hl.mem_iff.mpr he, hi⟩)]
    exact congrArg (fun n : Nat => (2 : Int) + n) (hl.countP_eq _)

structure Added (fs fs' : Fs) (e : Ent) : Prop where
  entries : fs'.entries.Perm (e :: fs.entries)
  next : fs.next ≤ fs'.next
  fresh : ∀ e' ∈ fs.entries, ¬ (e'.dir = e.dir ∧ e'.name = e.name)
  bound : e.ino < fs'.next ∧ e.dir < fs.next ∧ (fs.node e.dir).dir = true ∧ e.ino ≠ 0
  dir : ∀ i < fs.next, (fs'.node i).dir = (fs.node i).dir
  parent : ∀ e' ∈ fs.entries, (fs'.node e'.ino).dir = true → (fs'.node e'.ino).parent = (fs.node e'.ino).parent
  once : (fs'.node e.ino).dir = true → (∀ e' ∈ fs.entries, e'.ino ≠ e.ino) ∧ (fs'.node e.ino).parent = e.dir
  files : ∀ i < fs'.next, (fs'.node i).dir = false → (fs'.node i).nlink = (refs fs i : Int) + if i = e.ino then 1 else 0
  dirs : ∀ d, (fs'.node d).dir = true → Linked fs d ∨ d = e.ino →
    (fs'.node d).nlink = 2 + (subdirs fs d : Int) + if e.dir = d ∧ (fs'.node e.ino).dir = true then 1 else 0

theorem Added.ok {fs' : Fs} (h : FsOk fs) (ha : Added fs fs' e) : FsOk fs' := by
  have hdir : ∀ e' ∈ fs.entries, (fs'.node e'.ino).dir = (fs.node e'.ino).dir := fun e' he' => ha.dir _ (h.bound e' he').1
  suffices hok : FsOk { fs' with entries := e :: fs.entries } from hok.perm ha.entries.symm
  have hcases : ∀ {P : Ent → Prop}, P e → (∀ e' ∈ fs.entries, P e') → ∀ e' ∈ e :: fs.entries, P e' := by
    intro P hP hall e' he'
    rcases mem_cons.mp he' with rfl | he'
    · exact hP
    · exact hall e' he'
  refine ⟨?_, ?_, ⟨Nat.lt_of_lt_of_le h.root.1 ha.next, hcases ha.bound.2.2.2 h.root.2⟩,
    (ha.dir 0 h.root.1).trans h.rootDir, ?_, ?_, ?_, ?_⟩
  · rw [map_cons, nodup_cons]
    refine ⟨fun hmem => ?_, h.keys⟩
    obtain ⟨e', he', heq⟩ := mem_map.mp hmem
    exact ha.fresh e' he' (Prod.mk.inj heq)
  · refine hcases ⟨ha.bound.1, Nat.lt_of_lt_of_le ha.bound.2.1 ha.next, ?_⟩ fun e' he' => ?_
    · exact (ha.dir _ ha.bound.2.1).trans ha.bound.2.2.1
    · obtain ⟨h1, h2, h3⟩ := h.bound e' he'
      exact ⟨Nat.lt_of_lt_of_le h1 ha.next, Nat.lt_of_lt_of_le h2 ha.next, (ha.dir _ h2).trans h3⟩
  · refine hcases (hcases (fun _ _ => rfl) fun e' he' heq hd => ?_) fun e' he' => hcases (fun heq hd => ?_)
      fun e'' he'' heq hd => ?_
    · exact absurd heq.symm ((ha.once hd).1 e' he')
    · rw [show e'.ino = e.ino from heq] at hd
      exact absurd heq ((ha.once hd).1 e' he')
    · exact h.once e' he' e'' he'' heq ((hdir e' he').symm.trans hd)
  · refine hcases (fun hd => (ha.once hd).2) fun e' he' hd => ?_
    exact (ha.parent e' he' hd).trans (h.parent e' he' ((hdir e' he').symm.trans hd))
  · intro i hi hf
    show _ = (((e :: fs.entries).countP fun e => decide (e.ino = i) : Nat) : Int)
    rw [ha.files i hi hf, countP_cons, Int.natCast_add]
    refine congrArg (((refs fs i : Nat) : Int) + ·) ?_
    by_cases heq : i = e.ino
    · rw [if_pos heq, if_pos (by simp [heq])]
      rfl
    · rw [if_neg heq, if_neg (by simpa using Ne.symm heq)]
      rfl
  intro d hd hlinked
  have hold : Linked fs d ∨ d = e.ino := by
    rcases hlinked with rfl | ⟨e', he', rfl⟩
    · exact .inl (.inl rfl)
    rcases mem_cons.mp he' with rfl | he'
    · exact .inr rfl
    · exact .inl (.inr ⟨e', he', rfl⟩)
  have hsub : (fs.entries.countP fun e => decide (e.dir = d ∧ (fs'.node e.ino).dir = true)) = subdirs fs d :=
    countP_congr fun e' he' => by simp [hdir e' he']
  show _ = 2 + (((e :: fs.entries).countP fun e => decide (e.dir = d ∧ (fs'.node e.ino).dir = true) : Nat) : Int)
  rw [ha.dirs d hd hold, countP_cons, hsub, Int.natCast_add, Int.add_assoc]
  refine congrArg (fun x : Int => 2 + ((subdirs fs d : Int) + x)) ?_
  by_cases heq : e.dir = d ∧ (fs'.node e.ino).dir = true
  · rw [if_pos heq, if_pos (decide_eq_true heq)]
    rfl
  · rw [if_neg heq, if_neg (by simpa using heq)]
    rfl

structure Removed (fs fs' : Fs) (e : Ent) : Prop where
  entries : fs.entries.Perm (e :: fs'.entries)
  next : fs'.next = fs.next
  dir : ∀ i, (fs'.node i).dir = (fs.node i).dir
  parent : ∀ i, (∃ e' ∈ fs'.entries, e'.ino = i) → (fs'.node i).parent = (fs.node i).parent
  files : ∀ i, (fs.node i).dir = false → (fs'.node i).nlink = (fs.node i).nlink - if i = e.ino then 1 else 0
  dirs : ∀ d, (fs.node d).dir = true → Linked fs' d →
    (fs'.node d).nlink = (fs.node d).nlink - if e.dir = d ∧ (fs.node e.ino).dir = true then 1 else 0

theorem Removed.ok {fs' : Fs} (h : FsOk fs) (hr : Removed fs fs' e) : FsOk fs' := by
  have h' := h.perm hr.entries
  have hmem : ∀ {e'}, e' ∈ fs'.entries → e' ∈ e :: fs'.entries := fun he' => mem_cons_of_mem _ he'
  refine ⟨(nodup_cons.mp h'.keys).2, ?_, ⟨by rw [hr.next]; exact h.root.1, fun e' he' => h'.root.2 e' (hmem he')⟩,
    (hr.dir 0).trans h.rootDir, ?_, ?_, ?_, ?_⟩
  · intro e' he'
    rw [hr.next, hr.dir]
    exact h'.bound e' (hmem he')
  · intro e' he' e'' he'' heq hd
    rw [hr.dir] at hd
    exact h'.once e' (hmem he') e'' (hmem he'') heq hd
  · intro e' he' hd
    rw [hr.dir] at hd
    rw [hr.parent _ ⟨e', he', rfl⟩]
    exact h'.parent e' (hmem he') hd
  · intro i hi hf
    rw [hr.dir] at hf
    rw [hr.next] at hi
    have hcount := h'.files i hi hf
    unfold refs at hcount ⊢
    dsimp only at hcount
    rw [countP_cons, Int.natCast_add] at hcount
    rw [hr.files i hf, hcount]
    by_cases heq : i = e.ino
    · rw [if_pos heq, if_pos (by simp [heq])]
      exact Int.add_sub_cancel _ _
    · rw [if_neg heq, if_neg (by simpa using Ne.symm heq)]
      simp
  intro d hd hlinked
  rw [hr.dir] at hd
  have hcount := h'.dirs d hd (hlinked.imp_right fun ⟨e', he', hi⟩ => ⟨e', hmem he', hi⟩)
  have hsub : subdirs fs' d = fs'.entries.countP fun e => decide (e.dir = d ∧ (fs.node e.ino).dir = true) :=
    countP_congr fun e' _ => by simp [hr.dir]
  unfold subdirs at hcount
  dsimp only at hcount
  rw [countP_cons, Int.natCast_add, ← hsub] at hcount
  rw [hr.dirs d hd hlinked, hcount]
  by_cases heq : e.dir = d ∧ (fs.node e.ino).dir = true
  · rw [if_pos heq, if_pos (decide_eq_true heq)]
    omega
  · rw [if_neg heq, if_neg (by simpa using heq)]
    omega

section ops

variable {d : Nat} {name : Name}

@[simp] theorem addLinks_dir (i : Nat) (k : Int) (j : Nat) : ((addLinks fs i k).node j).dir = (fs.node j).dir := by
  show (Function.update fs.node i _ j).dir = _
  rw [Function.update_apply]
  split
  · rename_i h
    rw [h]
  · rfl

@[simp] theorem addLinks_parent (i : Nat) (k : Int) (j : Nat) : ((addLinks fs i k).node j).parent = (fs.node j).parent := by
  show (Function.update fs.node i _ j).parent = _
  rw [Function.update_apply]
  split
  · rename_i h
    rw [h]
  · rfl

theorem addLinks_nlink (i : Nat) (k : Int) (j : Nat) :
    ((addLinks fs i k).node j).nlink = (fs.node j).nlink + if j = i then k else 0 := by
  show (update fs.node i _ j).nlink = _
  rw [update_apply]
  split
  · rename_i h
    rw [h]
  · exact (Int.add_zero _).symm

theorem setNode_node (i : Nat) (n : Node) (j : Nat) : (setNode fs i n).node j = if j = i then n else fs.node j :=
  update_apply ..

theorem dir_ne {i j : Nat} (hi : (fs.node i).dir = true) (hj : (fs.node j).dir = false) : i ≠ j := by
  rintro rfl
  rw [hi] at hj
  cases hj

theorem findEntry_none (h : findEntry fs d name = none) (e : Ent) (he : e ∈ fs.entries) :
    ¬ (e.dir = d ∧ e.name = name) := by
  have := find?_eq_none.mp h e he
  simpa [Ent.at] using this

theorem findEntry_some (h : findEntry fs d name = some e) :
    e ∈ fs.entries ∧ e.dir = d ∧ e.name = name ∧ fs.entries.Perm (e :: fs.entries.eraseP (Ent.at d name)) := by
  have hp := find?_some h
  simp only [Ent.at, decide_eq_true_eq] at hp
  exact ⟨mem_of_find?_eq_some h, hp.1, hp.2, find?_perm h⟩

theorem FsOk.findEntry (h : FsOk fs) (he : e ∈ fs.entries) : findEntry fs e.dir e.name = some e := by
  cases hf : Dcache.findEntry fs e.dir e.name with
  | none => exact absurd ⟨rfl, rfl⟩ (findEntry_none hf e he)
  | some e' =>
    obtain ⟨he', hd, hn, -⟩ := findEntry_some hf
    have := inj_on_of_nodup_map h.keys he' he (Prod.ext hd hn)
    rw [this]

theorem tmpfsCreate_ok (h : FsOk fs) (hd : (fs.node d).dir = true) (hlt : d < fs.next)
    (hnew : findEntry fs d name = none) : FsOk (tmpfsCreate fs d name) := by
  have hnode : ∀ i, (tmpfsCreate fs d name).node i = if i = fs.next then ⟨false, 1, 0⟩ else fs.node i :=
    fun i => setNode_node ..
  have hold : ∀ i < fs.next, (tmpfsCreate fs d name).node i = fs.node i := fun i hi => by
    rw [hnode, if_neg (by omega)]
  have hnone : ∀ e ∈ fs.entries, e.ino ≠ fs.next := fun e he => Nat.ne_of_lt (h.bound e he).1
  refine Added.ok (e := ⟨d, name, fs.next⟩) h ⟨perm_append_singleton _ _, Nat.le_succ _, findEntry_none hnew,
    ⟨Nat.lt_succ_self _, hlt, hd, Nat.ne_of_gt h.root.1⟩, ?_, ?_, ?_, ?_, ?_⟩
  · exact fun i hi => by rw [hold i hi]
  · exact fun e he _ => by rw [hold _ (h.bound e he).1]
  · intro hdir
    rw [hnode, if_pos rfl] at hdir
    cases hdir
  · intro i hi hf
    by_cases heq : i = fs.next
    · have hzero : refs fs i = 0 := countP_eq_zero.mpr fun e he => by simpa [heq] using hnone e he
      rw [hnode, if_pos heq, if_pos heq, hzero]
      rfl
    have hi : i < fs.next := by
      have : i < fs.next + 1 := hi
      omega
    rw [hold i hi] at hf ⊢
    rw [if_neg heq, h.files i hi hf, Int.add_zero]
  intro i hi hlinked
  have heq : i ≠ fs.next := by
    rintro rfl
    rw [hnode, if_pos rfl] at hi
    cases hi
  rw [hnode, if_neg heq] at hi ⊢
  rw [if_neg (by rw [hnode, if_pos rfl]; simp), h.dirs i hi (hlinked.resolve_right heq), Int.add_zero]

theorem tmpfsMkdir_ok (h : FsOk fs) (hd : (fs.node d).dir = true) (hlt : d < fs.next)
    (hnew : findEntry fs d name = none) : FsOk (tmpfsMkdir fs d name) := by
  have hdir : ∀ i, ((tmpfsMkdir fs d name).node i).dir = if i = fs.next then true else (fs.node i).dir := by
    intro i
    refine (addLinks_dir d 1 i).trans ?_
    show ((setNode fs fs.next ⟨true, 2, d⟩).node i).dir = _
    rw [setNode_node]
    split <;> rfl
  have hparent : ∀ i, ((tmpfsMkdir fs d name).node i).parent = if i = fs.next then d else (fs.node i).parent := by
    intro i
    refine (addLinks_parent d 1 i).trans ?_
    show ((setNode fs fs.next ⟨true, 2, d⟩).node i).parent = _
    rw [setNode_node]
    split <;> rfl
  have hnlink : ∀ i, ((tmpfsMkdir fs d name).node i).nlink =
      (if i = fs.next then 2 else (fs.node i).nlink) + if i = d then 1 else 0 := by
    intro i
    refine (addLinks_nlink d 1 i).trans (congrArg (· + _) ?_)
    show ((setNode fs fs.next ⟨true, 2, d⟩).node i).nlink = _
    rw [setNode_node]
    split <;> rfl
  have hnone : ∀ e ∈ fs.entries, e.ino ≠ fs.next := fun e he => Nat.ne_of_lt (h.bound e he).1
  refine Added.ok (e := ⟨d, name, fs.next⟩) h ⟨perm_append_singleton _ _, Nat.le_succ _, findEntry_none hnew,
    ⟨Nat.lt_succ_self _, hlt, hd, Nat.ne_of_gt h.root.1⟩, ?_, ?_, ?_, ?_, ?_⟩
  · exact fun i hi => by rw [hdir, if_neg (by omega)]
  · exact fun e he _ => by rw [hparent, if_neg (hnone e he)]
  · exact fun _ => ⟨hnone, by rw [hparent, if_pos rfl]⟩
  · intro i hi hf
    have heq : i ≠ fs.next := by
      rintro rfl
      rw [hdir, if_pos rfl] at hf
      cases hf
    rw [hdir, if_neg heq] at hf
    have hne : i ≠ d := (dir_ne hd hf).symm
    have hi : i < fs.next := by
      have : i < fs.next + 1 := hi
      omega
    rw [hnlink, if_neg heq, if_neg hne, if_neg heq, h.files i hi hf]
  intro i hi hl
  have hnew' : ((tmpfsMkdir fs d name).node fs.next).dir = true := by rw [hdir, if_pos rfl]
  by_cases heq : i = fs.next
  · -- nothing is in the new directory
    have hzero : subdirs fs i = 0 := countP_eq_zero.mpr fun e he => by
      have := (h.bound e he).2.1
      simp only [decide_eq_true_eq, not_and]
      omega
    rw [hnlink, if_pos heq, if_neg (by omega), if_neg fun hc => absurd (show d = i from hc.1) (by omega), hzero]
    rfl
  rw [hdir, if_neg heq] at hi
  rw [hnlink, if_neg heq, h.dirs i hi (hl.resolve_right heq)]
  by_cases hid : i = d
  · rw [if_pos hid, if_pos ⟨hid.symm, hnew'⟩]
  · rw [if_neg hid, if_neg fun hc => hid hc.1.symm]

theorem tmpfsLink_ok (h : FsOk fs) (hd : (fs.node d).dir = true) (hlt : d < fs.next) {target : Nat}
    (htarget : (fs.node target).dir = false) (hbound : target < fs.next)
    (hnew : findEntry fs d name = none) : FsOk (tmpfsLink fs d name target) := by
  have hzero : target ≠ 0 := (dir_ne h.rootDir htarget).symm
  have hdir : ∀ i, ((tmpfsLink fs d name target).node i).dir = (fs.node i).dir := fun i => addLinks_dir ..
  refine Added.ok (e := ⟨d, name, target⟩) h ⟨perm_append_singleton _ _, Nat.le_refl _, findEntry_none hnew,
    ⟨hbound, hlt, hd, hzero⟩, fun i _ => hdir i, ?_, ?_, ?_, ?_⟩
  · exact fun e _ _ => addLinks_parent ..
  · intro hc
    rw [hdir, htarget] at hc
    cases hc
  · intro i hi hf
    rw [hdir] at hf
    exact (addLinks_nlink ..).trans (by rw [← h.files i hi hf]; rfl)
  intro i hi hl
  rw [hdir] at hi
  have hne : i ≠ target := dir_ne hi htarget
  have hn : ((tmpfsLink fs d name target).node i).nlink = (fs.node i).nlink :=
    (addLinks_nlink ..).trans (by rw [if_neg hne]; exact Int.add_zero _)
  rw [hn, if_neg (by rw [hdir, htarget]; simp), h.dirs i hi (hl.resolve_right hne), Int.add_zero]

theorem FsOk.gone (h : FsOk fs) (he : Dcache.findEntry fs d name = some e) (hdir : (fs.node e.ino).dir = true) :
    ∀ e' ∈ fs.entries.eraseP (Ent.at d name), e'.ino ≠ e.ino := by
  obtain ⟨hmem, -, -, hperm⟩ := findEntry_some he
  intro e' he' heq
  have hsame := h.once e' (hperm.mem_iff.mpr (mem_cons_of_mem _ he')) e hmem heq (heq ▸ hdir)
  have hnodup := (hperm.map fun e => (e.dir, e.name)).nodup_iff.mp h.keys
  rw [map_cons, nodup_cons] at hnodup
  exact hnodup.1 (mem_map.mpr ⟨e', he', by rw [hsame]⟩)

theorem removeFile_ok (h : FsOk fs) (he : findEntry fs d name = some e) (hf : (fs.node e.ino).dir = false) :
    FsOk (removeEntry (addLinks fs e.ino (-1)) d name) := by
  obtain ⟨-, -, -, hperm⟩ := findEntry_some he
  refine Removed.ok h ⟨hperm, rfl, fun i => addLinks_dir .., fun i _ => addLinks_parent .., fun i _ => ?_, fun i hi _ => ?_⟩
  · refine (addLinks_nlink ..).trans ?_
    split <;> omega
  have hne : i ≠ e.ino := dir_ne hi hf
  refine (addLinks_nlink ..).trans ?_
  rw [if_neg hne, if_neg (by rw [hf]; simp)]
  omega

theorem detachDir_node (victim i : Nat) : ((detachDir fs d name victim).node i).dir = (fs.node i).dir ∧
    ((detachDir fs d name victim).node i).parent = (fs.node i).parent ∧
    ((detachDir fs d name victim).node i).nlink =
      (if i = victim then 0 else (fs.node i).nlink) - if i = d then 1 else 0 := by
  refine ⟨(addLinks_dir ..).trans ?_, (addLinks_parent ..).trans ?_, (addLinks_nlink ..).trans ?_⟩ <;> rw [setNode_node]
  · split
    · rename_i hi
      rw [hi]
    · rfl
  · split
    · rename_i hi
      rw [hi]
    · rfl
  split
  · show (0 : Int) + _ = _
    split <;> omega
  · split <;> omega

theorem detachDir_ok (h : FsOk fs) (he : findEntry fs d name = some e) (hdir : (fs.node e.ino).dir = true) :
    FsOk (detachDir fs d name e.ino) := by
  obtain ⟨hmem, hed, -, hperm⟩ := findEntry_some he
  have hgone := h.gone he hdir
  refine Removed.ok h ⟨hperm, rfl, fun i => (detachDir_node ..).1, fun i _ => (detachDir_node ..).2.1, fun i hi => ?_,
    fun i hi hl => ?_⟩
  · have hne : i ≠ e.ino := (dir_ne hdir hi).symm
    have hnd : i ≠ d := hed ▸ (dir_ne (h.bound e hmem).2.2 hi).symm
    rw [(detachDir_node ..).2.2, if_neg hne, if_neg hnd, if_neg hne]
  have hne : i ≠ e.ino := by
    rintro rfl
    rcases hl with h0 | ⟨e', he', heq⟩
    · exact h.root.2 e hmem h0
    · exact hgone e' he' heq
  rw [(detachDir_node ..).2.2, if_neg hne]
  by_cases hid : i = d
  · rw [if_pos hid, if_pos ⟨hed.trans hid.symm, hdir⟩]
  · rw [if_neg hid, if_neg fun hc => hid (hc.1.symm.trans hed)]

theorem moveEntry_node (fs : Fs) (od : Nat) (oname : Name) (nd : Nat) (nname : Name) (victim i : Nat) :
    ((moveEntry fs od oname nd nname victim).node i).dir = (fs.node i).dir ∧
    ((moveEntry fs od oname nd nname victim).node i).nlink = (fs.node i).nlink +
      (if (fs.node victim).dir = true ∧ od ≠ nd then (if i = od then -1 else 0) + if i = nd then 1 else 0 else 0) ∧
    ((moveEntry fs od oname nd nname victim).node i).parent =
      if i = victim ∧ (fs.node victim).dir = true ∧ od ≠ nd then nd else (fs.node i).parent := by
  show (((if (fs.node victim).dir = true ∧ od ≠ nd then _ else _ : Fs).node i).dir = _) ∧
    (((if (fs.node victim).dir = true ∧ od ≠ nd then _ else _ : Fs).node i).nlink = _) ∧
    (((if (fs.node victim).dir = true ∧ od ≠ nd then _ else _ : Fs).node i).parent = _)
  by_cases hc : (fs.node victim).dir = true ∧ od ≠ nd
  · rw [if_pos hc, if_pos hc, setNode_node]
    have hnlink : ((addLinks (addLinks (addEntry fs nd nname victim) od (-1)) nd 1).node i).nlink =
        (fs.node i).nlink + ((if i = od then -1 else 0) + if i = nd then 1 else 0) := by
      rw [addLinks_nlink, addLinks_nlink, Int.add_assoc]
      rfl
    by_cases hi : i = victim
    · subst hi
      rw [if_pos rfl]
      refine ⟨(addLinks_dir ..).trans (addLinks_dir ..), hnlink, ?_⟩
      rw [if_pos ⟨rfl, hc⟩]
    rw [if_neg hi]
    refine ⟨(addLinks_dir ..).trans (addLinks_dir ..), hnlink, ?_⟩
    rw [if_neg fun h => hi h.1]
    exact (addLinks_parent ..).trans (addLinks_parent ..)
  rw [if_neg hc, if_neg hc]
  refine ⟨rfl, (Int.add_zero _).symm, ?_⟩
  rw [if_neg fun h => hc h.2]
  rfl

theorem moveEntry_next (fs : Fs) (od : Nat) (oname : Name) (nd : Nat) (nname : Name) (victim : Nat) :
    (moveEntry fs od oname nd nname victim).next = fs.next := by
  show (if (fs.node victim).dir = true ∧ od ≠ nd then _ else _ : Fs).next = _
  split
  · rfl
  · rfl

theorem moveEntry_entries {od : Nat} (he : findEntry fs od oname = some e) (nd : Nat) (nname : Name)
    (victim : Nat) : (moveEntry fs od oname nd nname victim).entries =
      fs.entries.eraseP (Ent.at od oname) ++ [⟨nd, nname, victim⟩] := by
  have hentries : (moveEntry fs od oname nd nname victim).entries =
      (fs.entries ++ [Ent.mk nd nname victim]).eraseP (Ent.at od oname) := by
    show ((if (fs.node victim).dir = true ∧ od ≠ nd then _ else _ : Fs).entries).eraseP _ = _
    split
    · rfl
    · rfl
  rw [hentries]
  exact eraseP_append_left (find?_some he) _ (mem_of_find?_eq_some he)

theorem withoutEntry_ok (h : FsOk fs) {od : Nat} (he : findEntry fs od oname = some e) :
    FsOk (removeEntry (addLinks fs (if (fs.node e.ino).dir then od else e.ino) (-1)) od oname) := by
  obtain ⟨hmem, hed, -, hperm⟩ := findEntry_some he
  have hod := (h.bound e hmem).2.2
  rw [hed] at hod
  refine Removed.ok h ⟨hperm, rfl, fun i => addLinks_dir .., fun i _ => addLinks_parent .., fun i hi => ?_, fun i hi _ => ?_⟩
  · have hne : i ≠ od := (dir_ne hod hi).symm
    refine (addLinks_nlink ..).trans ?_
    by_cases hdir : (fs.node e.ino).dir = true
    · have hne' : i ≠ e.ino := (dir_ne hdir hi).symm
      rw [if_pos hdir, if_neg hne, if_neg hne']
      omega
    · rw [if_neg hdir]
      split <;> omega
  refine (addLinks_nlink ..).trans ?_
  by_cases hdir : (fs.node e.ino).dir = true
  · rw [if_pos hdir]
    by_cases hid : i = od
    · rw [if_pos hid, if_pos ⟨hed.trans hid.symm, hdir⟩]
      omega
    · rw [if_neg hid, if_neg fun hc => hid (hc.1.symm.trans hed)]
      omega
  have hne : i ≠ e.ino := by
    rintro rfl
    exact hdir hi
  rw [if_neg hdir, if_neg hne, if_neg fun hc => hdir hc.2]
  omega

theorem subdirs_removeEntry {od : Nat} (he : findEntry fs od oname = some e) (k i : Nat) :
    (subdirs fs i : Int) = subdirs (removeEntry (addLinks fs k (-1)) od oname) i +
      if od = i ∧ (fs.node e.ino).dir = true then 1 else 0 := by
  obtain ⟨-, hed, -, hperm⟩ := findEntry_some he
  have hcount : subdirs fs i = (e :: fs.entries.eraseP (Ent.at od oname)).countP
      (fun e => decide (e.dir = i ∧ (fs.node e.ino).dir = true)) := hperm.countP_eq _
  have hrest : subdirs (removeEntry (addLinks fs k (-1)) od oname) i = (fs.entries.eraseP (Ent.at od oname)).countP
      (fun e => decide (e.dir = i ∧ (fs.node e.ino).dir = true)) :=
    countP_congr fun e' _ => by
      rw [show ((removeEntry (addLinks fs k (-1)) od oname).node e'.ino).dir = _ from addLinks_dir ..]
  rw [hcount, countP_cons, hrest, Int.natCast_add]
  simp only [hed, decide_eq_true_eq]
  split <;> rfl

theorem moveEntry_ok (h : FsOk fs) {od nd : Nat} {nname : Name} (he : findEntry fs od oname = some e)
    (hnew : findEntry fs nd nname = none) (hnd : (fs.node nd).dir = true) (hlt : nd < fs.next) :
    FsOk (moveEntry fs od oname nd nname e.ino) := by
  obtain ⟨hmem, hed, -, hperm⟩ := findEntry_some he
  have hnode := fun i => moveEntry_node fs od oname nd nname e.ino i
  have hod := (h.bound e hmem).2.2
  rw [hed] at hod
  have hmid := withoutEntry_ok h he
  generalize hk : (if (fs.node e.ino).dir then od else e.ino) = k at hmid
  have hmdir : ∀ i, ((removeEntry (addLinks fs k (-1)) od oname).node i).dir = (fs.node i).dir := fun i => addLinks_dir ..
  have hold : ∀ e' ∈ (removeEntry (addLinks fs k (-1)) od oname).entries, e' ∈ fs.entries := fun e' he' =>
    hperm.mem_iff.mpr (mem_cons_of_mem _ he')
  refine Added.ok (e := ⟨nd, nname, e.ino⟩) hmid ⟨?_, ?_, fun e' he' => findEntry_none hnew e' (hold e' he'),
    ⟨?_, hlt, (hmdir nd).trans hnd, h.root.2 e hmem⟩, ?_, ?_, ?_, ?_, ?_⟩
  · rw [moveEntry_entries he]
    exact perm_append_singleton _ _
  · rw [moveEntry_next]
    exact Nat.le_refl fs.next
  · rw [moveEntry_next]
    exact (h.bound e hmem).1
  · exact fun i _ => (hnode i).1.trans (hmdir i).symm
  · intro e' he' hd
    rw [(hnode _).1] at hd
    have hne : ¬ (e'.ino = e.ino ∧ (fs.node e.ino).dir = true ∧ od ≠ nd) := fun hc => h.gone he hc.2.1 e' he' hc.1
    rw [(hnode _).2.2, if_neg hne]
    exact (addLinks_parent ..).symm
  · intro hd
    rw [(hnode _).1] at hd
    have hd : (fs.node e.ino).dir = true := hd
    refine ⟨fun e' he' => h.gone he hd e' he', ?_⟩
    rw [(hnode _).2.2]
    split
    · rfl
    rename_i hc
    have hsame : od = nd := by
      by_contra hne
      exact hc ⟨rfl, hd, hne⟩
    rw [h.parent e hmem hd, hed, hsame]
  · intro i hi hf
    rw [moveEntry_next] at hi
    rw [(hnode i).1] at hf
    have hio : i ≠ od := (dir_ne hod hf).symm
    have hin : i ≠ nd := (dir_ne hnd hf).symm
    have hmfile := hmid.files i hi ((hmdir i).trans hf)
    have hmnlink : ((removeEntry (addLinks fs k (-1)) od oname).node i).nlink = (fs.node i).nlink + if i = k then -1 else 0 :=
      addLinks_nlink ..
    rw [(hnode i).2.1, if_neg hio, if_neg hin, ← hmfile, hmnlink]
    by_cases hdir : (fs.node e.ino).dir = true
    · have hne : i ≠ e.ino := (dir_ne hdir hf).symm
      rw [if_pos hdir] at hk
      have hik : i ≠ k := by rwa [← hk]
      rw [if_neg hik, if_neg hne]
      split <;> omega
    rw [if_neg hdir] at hk
    rw [if_neg fun hc => hdir hc.1, ← hk]
    split <;> omega
  intro i hi hl
  rw [(hnode i).1] at hi
  have hlinked : Linked fs i := by
    rcases hl with (h0 | ⟨e', he', heq⟩) | heq
    · exact .inl h0
    · exact .inr ⟨e', hold e' he', heq⟩
    · exact .inr ⟨e, hmem, heq.symm⟩
  rw [(hnode i).2.1, h.dirs i hi hlinked, subdirs_removeEntry he k, (hnode e.ino).1]
  by_cases hdir : (fs.node e.ino).dir = true
  · simp only [hdir, and_true, true_and, eq_comm (a := i)]
    split <;> split <;> split <;> omega
  · simp only [hdir, and_false, false_and, if_false, Bool.false_eq_true]
    omega

end ops

end Olux.Dcache
