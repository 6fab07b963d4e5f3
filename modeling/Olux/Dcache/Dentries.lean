import Olux.Dcache.Fs

namespace Olux.Dcache

open Function List

open Vfs (Name)

variable {fs : Fs} {dc dc' : Dc} {held : List Nat} {d : Nat}

def Dc.parents (dc : Dc) : List Nat := dc.alive.filterMap fun c => (dc.dent c).parent

def total (held : List Nat) (dc : Dc) (d : Nat) : Nat := held.count d + dc.parents.count d + if d = 0 then 1 else 0

structure Counted (held : List Nat) (dc : Dc) : Prop where
  ref : ∀ d ∈ dc.alive, (dc.dent d).ref = total held dc d
  alive : ∀ d, d ∈ dc.alive ↔ 0 < total held dc d
  nodup : dc.alive.Nodup
  bound : ∀ d ∈ dc.alive, d < dc.next

structure DcOk (fs : Fs) (dc : Dc) : Prop where
  shown : ∀ c ∈ dc.alive, (dc.dent c).linked = true →
    ∃ p, (dc.dent c).parent = some p ∧ ⟨(dc.dent p).ino, (dc.dent c).name, (dc.dent c).ino⟩ ∈ fs.entries
  single : ∀ c ∈ dc.alive, ∀ c' ∈ dc.alive, (dc.dent c).linked = true → (dc.dent c').linked = true →
    (dc.dent c).parent = (dc.dent c').parent → (dc.dent c).name = (dc.dent c').name → c = c'
  dirs : ∀ c ∈ dc.alive, ∀ c' ∈ dc.alive, (dc.dent c).ino = (dc.dent c').ino →
    (fs.node (dc.dent c).ino).dir = true → c = c'
  dropped : ∀ c ∈ dc.alive, (dc.dent c).linked = false → (fs.node (dc.dent c).ino).dir = true →
    ∀ e ∈ fs.entries, e.ino ≠ (dc.dent c).ino
  bound : ∀ c ∈ dc.alive, (dc.dent c).ino < fs.next

structure Frame (dc dc' : Dc) : Prop where
  alive : ∀ c ∈ dc'.alive, c ∈ dc.alive
  dent : ∀ c, dc'.dent c = { dc.dent c with ref := (dc'.dent c).ref }

theorem Frame.trans {dc'' : Dc} (h : Frame dc dc') (h' : Frame dc' dc'') : Frame dc dc'' :=
  ⟨fun c hc => h.alive c (h'.alive c hc), fun c => by rw [h'.dent c, h.dent c]⟩

theorem Frame.fields (h : Frame dc dc') (c : Nat) : (dc'.dent c).name = (dc.dent c).name ∧
    (dc'.dent c).ino = (dc.dent c).ino ∧ (dc'.dent c).parent = (dc.dent c).parent ∧
    (dc'.dent c).linked = (dc.dent c).linked := by
  rw [h.dent c]
  exact ⟨rfl, rfl, rfl, rfl⟩

theorem DcOk.frame (h : DcOk fs dc) (hf : Frame dc dc') : DcOk fs dc' where
  shown := by
    intro c hc
    obtain ⟨hn, hi, hp, hl⟩ := hf.fields c
    rw [hn, hi, hp, hl]
    intro hlinked
    obtain ⟨p, hpar, hmem⟩ := h.shown c (hf.alive c hc) hlinked
    exact ⟨p, hpar, by rw [(hf.fields p).2.1]; exact hmem⟩
  single := by
    intro c hc c' hc'
    obtain ⟨hn, -, hp, hl⟩ := hf.fields c
    obtain ⟨hn', -, hp', hl'⟩ := hf.fields c'
    rw [hn, hp, hl, hn', hp', hl']
    exact h.single c (hf.alive c hc) c' (hf.alive c' hc')
  dirs := by
    intro c hc c' hc'
    rw [(hf.fields c).2.1, (hf.fields c').2.1]
    exact h.dirs c (hf.alive c hc) c' (hf.alive c' hc')
  dropped := by
    intro c hc
    rw [(hf.fields c).2.1, (hf.fields c).2.2.2]
    exact h.dropped c (hf.alive c hc)
  bound := by
    intro c hc
    rw [(hf.fields c).2.1]
    exact h.bound c (hf.alive c hc)

theorem Counted.held_alive (h : Counted held dc) (hd : d ∈ held) : d ∈ dc.alive := by
  refine (h.alive d).mpr ?_
  have := count_pos_iff.mpr hd
  unfold total
  omega

theorem Counted.parent_alive (h : Counted held dc) {c p : Nat} (hc : c ∈ dc.alive) (hp : (dc.dent c).parent = some p) :
    p ∈ dc.alive := by
  refine (h.alive p).mpr ?_
  have : p ∈ dc.parents := mem_filterMap.mpr ⟨c, hc, hp⟩
  have := count_pos_iff.mpr this
  unfold total
  omega

theorem set_dent (d : Nat) (x : Dentry) (c : Nat) : (dc.set d x).dent c = if c = d then x else dc.dent c :=
  update_apply ..

theorem setRef_frame (d : Nat) (n : Nat) : Frame dc (dc.set d { dc.dent d with ref := n }) := by
  refine ⟨fun _ hc => hc, fun c => ?_⟩
  rw [set_dent]
  split
  · rename_i heq
    rw [heq]
  · rfl

theorem setRef_parents (d : Nat) (n : Nat) : (dc.set d { dc.dent d with ref := n }).parents = dc.parents := by
  unfold Dc.parents
  refine filterMap_congr fun c _ => ?_
  exact ((setRef_frame d n).fields c).2.2.1

theorem total_cons (held : List Nat) (dc : Dc) (d x : Nat) :
    total (d :: held) dc x = total held dc x + if d = x then 1 else 0 := by
  unfold total
  rw [count_cons]
  simp only [beq_iff_eq]
  omega

theorem total_setRef (held : List Nat) (dc : Dc) (d n x : Nat) :
    total held (dc.set d { dc.dent d with ref := n }) x = total held dc x := by
  unfold total
  rw [setRef_parents]

theorem dGet_counted (h : Counted held dc) (hd : d ∈ dc.alive) : Counted (d :: held) (dGet d dc) := by
  have htotal : ∀ x, total (d :: held) (dGet d dc) x = total held dc x + if d = x then 1 else 0 := by
    intro x
    unfold dGet
    rw [total_cons, total_setRef]
  refine ⟨fun x hx => ?_, fun x => ?_, h.nodup, h.bound⟩
  · have hx : x ∈ dc.alive := hx
    rw [htotal]
    unfold dGet
    rw [set_dent]
    split
    · rename_i heq
      rw [heq, if_pos rfl, ← h.ref d hd]
    rename_i hne
    rw [if_neg (Ne.symm hne), h.ref x hx]
    rfl
  rw [htotal]
  show x ∈ dc.alive ↔ _
  rw [h.alive x]
  split
  · rename_i heq
    subst heq
    have := (h.alive d).mp hd
    omega
  · omega

theorem Counted.lower (h : Counted (d :: held) dc) (hmore : (dc.dent d).ref - 1 ≠ 0) :
    Counted held (dc.set d { dc.dent d with ref := (dc.dent d).ref - 1 }) := by
  have href := h.ref d (h.held_alive mem_cons_self)
  refine ⟨fun x hx => ?_, fun x => ?_, h.nodup, h.bound⟩
  · have hx' := h.ref x hx
    rw [total_cons] at hx'
    rw [total_setRef, set_dent]
    split
    · rename_i heq
      subst heq
      rw [if_pos rfl] at hx'
      show (dc.dent x).ref - 1 = _
      omega
    rename_i hne
    rw [if_neg (Ne.symm hne)] at hx'
    exact hx'
  show x ∈ dc.alive ↔ _
  rw [h.alive x, total_cons, total_setRef]
  by_cases hx : d = x
  · subst hx
    rw [total_cons, if_pos rfl] at href
    rw [if_pos rfl]
    omega
  · rw [if_neg hx]
    omega

theorem total_erase (held : List Nat) (hd : d ∈ dc.alive) (x : Nat) :
    total ((dc.dent d).parent.toList ++ held) { dc with alive := dc.alive.erase d } x = total held dc x := by
  have hperm : dc.parents.Perm ((dc.dent d).parent.toList ++ ({ dc with alive := dc.alive.erase d } : Dc).parents) := by
    have hcons := (perm_cons_erase hd).filterMap fun c => (dc.dent c).parent
    rw [filterMap_cons] at hcons
    cases hp : (dc.dent d).parent with
    | none =>
      rw [hp] at hcons
      exact hcons
    | some p =>
      rw [hp] at hcons
      exact hcons
  unfold total
  rw [hperm.count_eq, count_append, count_append]
  omega

theorem Counted.erase (h : Counted (d :: held) dc) (hlast : (dc.dent d).ref - 1 = 0) :
    Counted ((dc.dent d).parent.toList ++ held) { dc with alive := dc.alive.erase d } := by
  have hd := h.held_alive mem_cons_self
  have hzero : total held dc d = 0 := by
    have href := h.ref d hd
    rw [total_cons, if_pos rfl] at href
    omega
  refine ⟨fun x hx => ?_, fun x => ?_, h.nodup.erase d, fun x hx => h.bound x (mem_of_mem_erase hx)⟩
  · have hne := (h.nodup.mem_erase_iff.mp hx).1
    have hx' := h.ref x (mem_of_mem_erase hx)
    rw [total_cons, if_neg (Ne.symm hne)] at hx'
    rw [total_erase held hd]
    exact hx'
  rw [total_erase held hd, h.nodup.mem_erase_iff, h.alive x, total_cons]
  by_cases hx : d = x
  · subst hx
    simp [hzero]
  · rw [if_neg hx]
    exact ⟨fun hc => by omega, fun hc => ⟨Ne.symm hx, by omega⟩⟩

theorem dPut_counted (fuel : Nat) (h : Counted (d :: held) dc) (hfuel : dc.alive.length ≤ fuel) :
    Counted held (dPut fuel d dc) ∧ Frame dc (dPut fuel d dc) := by
  induction fuel generalizing d dc with
  | zero =>
    have hd := h.held_alive mem_cons_self
    rw [eq_nil_of_length_eq_zero (Nat.le_zero.mp hfuel)] at hd
    cases hd
  | succ fuel ih =>
  have hd := h.held_alive mem_cons_self
  unfold dPut
  split
  · rename_i hlast
    have hnext := h.erase hlast
    have hframe : Frame dc { dc with alive := dc.alive.erase d } := ⟨fun c hc => mem_of_mem_erase hc, fun _ => rfl⟩
    have hlen : (dc.alive.erase d).length ≤ fuel := by
      rw [length_erase_of_mem hd]
      omega
    cases hp : (dc.dent d).parent with
    | none =>
      rw [hp] at hnext
      exact ⟨hnext, hframe⟩
    | some p =>
      rw [hp] at hnext
      obtain ⟨hc, hf⟩ := ih hnext hlen
      exact ⟨hc, hframe.trans hf⟩
  · rename_i hmore
    exact ⟨h.lower hmore, setRef_frame d _⟩

end Olux.Dcache
