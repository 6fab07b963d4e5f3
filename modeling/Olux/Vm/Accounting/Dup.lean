import Olux.Vm.Accounting.Mmap

namespace Olux.Vm

open Olux.Lib List

variable {ext : Nat → Nat} {l : List Vma} {s t : Space} {mm : Mm} {x : Slot}

def Spares (ext : Nat → Nat) (s t : Space) : Prop :=
  ∀ p, 0 < ext p → (s.frame p).refcount = 1 → (t.frame p).refcount = 1

theorem Spares.refl (ext : Nat → Nat) (s : Space) : Spares ext s s := fun _ _ h => h

theorem Spares.trans {u : Space} (h : Spares ext s t) (h' : Spares ext t u) : Spares ext s u :=
  fun p hp hs => h' p hp (h p hp hs)

theorem SameMem.spares (h : SameMem s t) : Spares ext s t := by
  intro p _ hp
  rw [h.frame]
  exact hp

theorem Kept.spares (h : Kept ext s t) : Spares ext s t := by
  intro p hp hs
  have h1 := h.gentle p
  have h2 := h.inv.refcount p
  omega

structure DupInv (ext : Nat → Nat) (l : List Vma) (parent : Mm) (s : Space) : Prop where
  vmas : VmasOk 0 l
  refcount : ∀ p, (s.frame p).refcount = refs parent p + refs s.mm p + ext p
  free : ∀ p, (s.frame p).free = true ↔ (s.frame p).refcount = 0
  rss : parent.rssPages = mapped parent
  childRss : s.mm.rssPages = mapped s.mm
  placed : ∀ x, (parent.pgd.entry x).valid = true → ∃ v ∈ l, v.Contains x.addr ∧ Fine s.frame v (parent.pgd.entry x)
  copied : ∀ x, (s.mm.pgd.entry x).valid = true → s.mm.pgd.entry x = parent.pgd.entry x
  calm : s.panicked = false

theorem SameMem.dup {parent : Mm} (h : SameMem s t) (hi : DupInv ext l parent s) : DupInv ext l parent t := by
  refine ⟨hi.vmas, fun p => ?_, ?_, hi.rss, ?_, ?_, fun x hx => ?_, h.panicked.trans hi.calm⟩
  · rw [h.frame, refs_congr h.entry]
    exact hi.refcount p
  · rw [h.frame]
    exact hi.free
  · rw [h.rss, mapped_congr h.entry]
    exact hi.childRss
  · rw [h.frame]
    exact hi.placed
  · rw [h.entry] at hx ⊢
    exact hi.copied x hx

theorem two_le_refs {y : Slot} {p : Nat} (hxy : x ≠ y) (hx : (mm.pgd.entry x).owns p = true)
    (hy : (mm.pgd.entry y).owns p = true) : 2 ≤ refs mm p :=
  Finset.one_lt_card.mpr ⟨x, by simpa using hx, y, by simpa using hy, hxy⟩

theorem DupInv.device {parent : Mm} (h : DupInv ext l parent s) (hinvalid : (s.mm.pgd.entry x).valid = false)
    (hdev : (parent.pgd.entry x).owned = false)
    (hentry : ∀ y, t.mm.pgd.entry y = if y = x then parent.pgd.entry x else s.mm.pgd.entry y)
    (hframe : t.frame = s.frame) (hrss : t.mm.rssPages = s.mm.rssPages) (hcalm : t.panicked = s.panicked) :
    DupInv ext l parent t := by
  have hold : (s.mm.pgd.entry x).owned = false := by simp [Pte.owned, hinvalid]
  refine ⟨h.vmas, fun p => ?_, ?_, h.rss, ?_, ?_, fun y hy => ?_, hcalm.trans h.calm⟩
  · have h1 := refs_change hentry p
    rw [owns_of_not_owned hold, owns_of_not_owned hdev] at h1
    have h2 := h.refcount p
    simp only [bit_false] at h1
    rw [hframe]
    omega
  · rw [hframe]
    exact h.free
  · have h1 := mapped_change hentry
    rw [hold, hdev] at h1
    have h2 := h.childRss
    simp only [bit_false] at h1
    omega
  · rw [hframe]
    exact h.placed
  have hey := hentry y
  by_cases hyx : y = x
  · rw [if_pos hyx] at hey
    rw [hey, hyx]
  rw [if_neg hyx] at hey
  rw [hey] at hy ⊢
  exact h.copied y hy

theorem DupInv.share {parent parent' : Mm} (h : DupInv ext l parent s) {e : Pte}
    (hinvalid : (s.mm.pgd.entry x).valid = false) (hown : (parent.pgd.entry x).owned = true)
    (howned : e.owned = true) (hsame : e.frame = (parent.pgd.entry x).frame)
    (hparent : ∀ y, parent'.pgd.entry y = if y = x then e else parent.pgd.entry y)
    (hchild : ∀ y, t.mm.pgd.entry y = if y = x then e else s.mm.pgd.entry y)
    (hcount : ∀ p, (t.frame p).refcount = (s.frame p).refcount + if p = e.frame then 1 else 0)
    (hfree : ∀ p, (t.frame p).free = (s.frame p).free) (hrss : parent'.rssPages = parent.rssPages)
    (hchildRss : t.mm.rssPages = s.mm.rssPages + 1) (hcalm : t.panicked = s.panicked)
    (hfine : ∃ v ∈ l, v.Contains x.addr ∧ (v.Private → e.rdonly = true)) : DupInv ext l parent' t ∧ Spares ext s t := by
  have hold : (s.mm.pgd.entry x).owned = false := by simp [Pte.owned, hinvalid]
  have hpos : 0 < refs parent e.frame := by
    rw [hsame]
    exact refs_pos (Pte.owns_frame hown)
  have hrefs : ∀ p, refs parent' p = refs parent p := by
    intro p
    have h1 := refs_change hparent p
    rw [bit_owns hown, bit_owns howned, hsame] at h1
    omega
  refine ⟨⟨h.vmas, fun p => ?_, fun p => ?_, ?_, ?_, fun y hy => ?_, fun y hy => ?_, hcalm.trans h.calm⟩, ?_⟩
  · have h1 := refs_change hchild p
    rw [owns_of_not_owned hold, bit_owns howned] at h1
    have h2 := h.refcount p
    have h3 := hcount p
    have h4 := hrefs p
    simp only [bit_false] at h1
    omega
  · rw [hfree, h.free]
    have h1 := hcount p
    have h2 := h.refcount p
    by_cases hp : p = e.frame
    · rw [hp] at h1 h2 ⊢
      omega
    · rw [if_neg hp] at h1
      omega
  · have h1 := mapped_change hparent
    rw [hown, howned] at h1
    have h2 := h.rss
    omega
  · have h1 := mapped_change hchild
    rw [hold, howned] at h1
    have h2 := h.childRss
    simp only [bit_true, bit_false] at h1
    omega
  · have hey := hparent y
    by_cases hyx : y = x
    · rw [if_pos hyx] at hey
      obtain ⟨v, hv, hc, hro⟩ := hfine
      rw [hey, hyx]
      simp only [Pte.owned, Bool.and_eq_true, Bool.not_eq_eq_eq_not, Bool.not_true] at howned
      refine ⟨v, hv, hc, fun hs => ?_, fun hp hr => ?_⟩
      · rw [howned.2] at hs
        cases hs
      · rw [hro hp] at hr
        cases hr
    rw [if_neg hyx] at hey
    rw [hey] at hy ⊢
    obtain ⟨v, hv, hc, hf⟩ := h.placed y hy
    refine ⟨v, hv, hc, hf.io, fun hp hr => ?_⟩
    have hone := hf.sole hp hr
    -- the page of another entry with the only reference is not this one
    have hne : (parent.pgd.entry y).frame ≠ e.frame := by
      intro heq
      have hoy := Pte.owns_frame (hf.owned hp hy)
      have hox := Pte.owns_frame hown
      rw [← hsame, ← heq] at hox
      have h1 := two_le_refs hyx hoy hox
      have h2 := h.refcount (parent.pgd.entry y).frame
      omega
    rw [hcount, if_neg hne]
    exact hone
  · have hey := hchild y
    rw [hparent]
    by_cases hyx : y = x
    · rw [if_pos hyx] at hey ⊢
      exact hey
    rw [if_neg hyx] at hey ⊢
    rw [hey] at hy ⊢
    exact h.copied y hy
  intro p hp hone
  have h1 := hcount p
  have h2 := h.refcount p
  by_cases hpe : p = e.frame
  · rw [hpe] at h2 hone hp
    omega
  · rw [if_neg hpe] at h1
    omega

structure Copied (ext : Nat → Nat) (l : List Vma) (parent : Mm) (s : Space) (parent' : Mm) (t : Space)
    (pages : List Nat) : Prop where
  inv : DupInv ext l parent' t
  spares : Spares ext s t
  filled : ∀ x, (t.mm.pgd.entry x).valid = true → (s.mm.pgd.entry x).valid = true ∨ x ∈ pages.map slot
  parentBare : parent'.bare = parent.bare
  bare : t.mm.bare = s.mm.bare

theorem SameMem.copied {parent : Mm} (h : SameMem s t) (hi : DupInv ext l parent s) (hb : t.mm.bare = s.mm.bare)
    (pages : List Nat) : Copied ext l parent s parent t pages :=
  ⟨h.dup hi, h.spares, fun x hx => .inl (by rwa [h.entry] at hx), rfl, hb⟩

theorem Copied.trans {parent parent' parent'' : Mm} {u : Space} {pages pages' : List Nat}
    (h : Copied ext l parent s parent' t pages) (h' : Copied ext l parent' t parent'' u pages') :
    Copied ext l parent s parent'' u (pages ++ pages') := by
  refine ⟨h'.inv, h.spares.trans h'.spares, fun x hx => ?_, h'.parentBare.trans h.parentBare, h'.bare.trans h.bare⟩
  rw [map_append, mem_append]
  rcases h'.filled x hx with hx | hx
  · exact (h.filled x hx).imp_right .inl
  · exact .inr (.inr hx)

theorem pageGet_count (s : Space) (p q : Nat) :
    ((pageGet s p).frame q).refcount = (s.frame q).refcount + (if q = p then 1 else 0) ∧
      ((pageGet s p).frame q).free = (s.frame q).free := by
  by_cases h : q = p <;> simp [pageGet, Space.setFrame, h]

theorem filled_of_store {e : Pte} (h : ∀ y, t.mm.pgd.entry y = if y = x then e else s.mm.pgd.entry y) (y : Slot)
    (hy : (t.mm.pgd.entry y).valid = true) : (s.mm.pgd.entry y).valid = true ∨ y = x := by
  by_cases hyx : y = x
  · exact .inr hyx
  · rw [h, if_neg hyx] at hy
    exact .inl hy

theorem dupPte_copied {v : Vma} {va : Nat} {parent parent' : Mm} {b : Bool} (hi : DupInv ext l parent s)
    (hcov : Covers l v va) (hempty : (s.mm.pgd.entry (slot va)).valid = false)
    (heq : dupPte v va parent s = (b, parent', t)) : Copied ext l parent s parent' t [va] := by
  simp only [dupPte] at heq
  split at heq
  · cases heq
    exact (SameMem.refl s).copied hi rfl _
  rename_i hpv
  have hvalid : (parent.pte va).valid = true := by simpa using hpv
  have hb := userPte_bare s va
  split at heq
  · rename_i u hu
    rw [hu] at hb
    cases heq
    exact (userPte_spec hu).1.copied hi hb _
  rename_i u hu
  rw [hu] at hb
  obtain ⟨hsame, htab⟩ := userPte_spec hu
  have hiu := hsame.dup hi
  have hempty' : (u.mm.pgd.entry (slot va)).valid = false := by
    rw [hsame.entry]
    exact hempty
  have hcopied : ∀ {e parent' t}, (∀ y, t.mm.pgd.entry y = if y = slot va then e else u.mm.pgd.entry y) →
      DupInv ext l parent' t ∧ Spares ext u t → parent'.bare = parent.bare → t.mm.bare = u.mm.bare →
      Copied ext l parent s parent' t [va] := by
    intro e parent' t hentry hinv hpb htb
    refine ⟨hinv.1, hsame.spares.trans hinv.2, fun y hy => ?_, hpb, htb.trans hb⟩
    have h := filled_of_store hentry y hy
    rw [hsame.entry] at h
    simpa using h
  have hstore : ∀ (w : Space) (e : Pte), w.mm.pgd = u.mm.pgd → ∀ y, (w.setPte va e).mm.pgd.entry y =
      if y = slot va then e else u.mm.pgd.entry y := by
    intro w e hw y
    simp only [Space.setPte, Mm.setPte, hw]
    exact entry_store (htab rfl) e y
  split at heq
  · rename_i hdev
    cases heq
    have hnot : (parent.pte va).owned = false := by simp [Pte.owned, hdev]
    have hentry := hstore u (parent.pte va) rfl
    exact hcopied hentry ⟨hiu.device hempty' hnot hentry rfl rfl rfl, fun _ _ h => h⟩ rfl rfl
  rename_i hdev
  have hown : (parent.pte va).owned = true := by simp [Pte.owned, hvalid, hdev]
  have hcount := pageGet_count u (parent.pte va).frame
  split at heq
  · rename_i hshared
    cases heq
    have hentry := hstore (pageGet u (parent.pte va).frame).addRss (parent.pte va) rfl
    refine hcopied hentry (hiu.share (e := parent.pte va) hempty' hown hown rfl ?_ hentry (fun p => (hcount p).1)
      (fun p => (hcount p).2) rfl rfl rfl ⟨v, hcov.mem, hcov.addr, fun hp => ?_⟩) rfl rfl
    · intro y
      split
      · rename_i hy
        rw [hy]
        rfl
      · rfl
    · rw [hp.1] at hshared
      cases hshared
  cases heq
  have hentry := hstore (pageGet u (parent.pte va).frame).addRss
    { parent.pte va with rdonly := true, swCow := true } rfl
  exact hcopied hentry (hiu.share (e := { parent.pte va with rdonly := true, swCow := true }) hempty' hown hown rfl
    (entry_store (hasTable_of_valid hvalid) _) hentry (fun p => (hcount p).1) (fun p => (hcount p).2) rfl rfl rfl
    ⟨v, hcov.mem, hcov.addr, fun _ => rfl⟩) rfl rfl

theorem dupPages_copied {v : Vma} (pages : List Nat) (hnodup : (pages.map slot).Nodup)
    (hcov : ∀ va ∈ pages, Covers l v va) {parent parent' : Mm} {b : Bool} (hi : DupInv ext l parent s)
    (hempty : ∀ va ∈ pages, (s.mm.pgd.entry (slot va)).valid = false)
    (heq : dupPages v pages parent s = (b, parent', t)) :
    Copied ext l parent s parent' t pages := by
  induction pages generalizing parent s with
  | nil =>
    cases heq
    exact (SameMem.refl _).copied hi rfl _
  | cons va rest ih =>
  simp only [map_cons, nodup_cons] at hnodup
  simp only [forall_mem_cons] at hcov hempty
  simp only [dupPages] at heq
  split at heq
  · rename_i hone
    cases heq
    have h := dupPte_copied hi hcov.1 hempty.1 hone
    exact { h with filled := fun x hx => (h.filled x hx).imp_right fun hx => by simp_all }
  rename_i u w hone
  have h := dupPte_copied hi hcov.1 hempty.1 hone
  refine h.trans (ih hnodup.2 hcov.2 h.inv (fun a ha => ?_) heq)
  by_contra hc
  rcases h.filled (slot a) (by simpa using hc) with hx | hx
  · rw [hempty.2 a ha] at hx
    cases hx
  · simp only [map_cons, map_nil, mem_singleton] at hx
    exact hnodup.1 (hx ▸ mem_map_of_mem ha)

theorem nodup_pagesFrom_slot {v : Vma} (hl : VmasOk 0 l) (hv : v ∈ l) :
    ((pagesFrom v.start v.stop).map slot).Nodup := by
  refine List.Nodup.map_on (fun a ha b hb hab => ?_) (nodup_pagesFrom v.start v.stop)
  have h1 := covers_of_mem_pagesFrom hl hv ha
  have h2 := covers_of_mem_pagesFrom hl hv hb
  exact slot_inj h1.dvd h1.lt h2.dvd h2.lt hab

theorem dupVmas_spec (rest : List Vma) {pre : List Vma} {parent parent' : Mm} {b : Bool}
    (hi : DupInv ext (pre ++ rest) parent s) (hvmas : s.mm.vmas = pre)
    (hempty : ∀ v ∈ rest, ∀ x : Slot, v.Contains x.addr → (s.mm.pgd.entry x).valid = false)
    (heq : dupVmas rest parent s = (b, parent', t)) :
    DupInv ext (pre ++ rest) parent' t ∧ Spares ext s t ∧ parent'.bare = parent.bare ∧ t.mm.fixed = s.mm.fixed ∧
      (b = true → t.mm.vmas = pre ++ rest) := by
  induction rest generalizing pre parent s with
  | nil =>
    cases heq
    exact ⟨hi, .refl _ _, rfl, rfl, fun _ => by simpa using hvmas⟩
  | cons v rest ih =>
  have hk := kmalloc_sameMem s
  have hkb := kmalloc_bare s
  simp only [dupVmas] at heq
  split at heq
  · rename_i u hu
    rw [hu] at hk hkb
    cases heq
    exact ⟨hk.dup hi, hk.spares, rfl, fixed_of_bare hkb, by simp⟩
  rename_i u hu
  rw [hu] at hk hkb
  have hset := hk.trans (setVmas_sameMem u (u.mm.vmas ++ [v]))
  have hmem : v ∈ pre ++ v :: rest := by simp
  have hcov : ∀ va ∈ pagesFrom v.start v.stop, Covers (pre ++ v :: rest) v va :=
    fun _ => covers_of_mem_pagesFrom hi.vmas hmem
  have hpages : ∀ {b p w}, dupPages v (pagesFrom v.start v.stop) parent (u.setVmas (u.mm.vmas ++ [v])) = (b, p, w) →
      Copied ext (pre ++ v :: rest) parent (u.setVmas (u.mm.vmas ++ [v])) p w (pagesFrom v.start v.stop) := by
    intro b p w h
    refine dupPages_copied _ (nodup_pagesFrom_slot hi.vmas hmem) hcov (hset.dup hi) (fun va hva => ?_) h
    rw [hset.entry]
    exact hempty v mem_cons_self _ (hcov va hva).addr
  have hfixed : ∀ {w : Space}, w.mm.bare = (u.setVmas (u.mm.vmas ++ [v])).mm.bare → w.mm.fixed = s.mm.fixed :=
    fun hw => (fixed_of_bare hw).trans ((setVmas_fixed u _).trans (fixed_of_bare hkb))
  split at heq
  · rename_i p w hone
    cases heq
    have h := hpages hone
    exact ⟨h.inv, hset.spares.trans h.spares, h.parentBare, hfixed h.bare, by simp⟩
  rename_i p w hone
  have h := hpages hone
  have hv : w.mm.vmas = pre ++ [v] := by
    rw [vmas_of_bare h.bare]
    exact congrArg (· ++ [v]) ((vmas_of_bare hkb).trans hvmas)
  have hinv : DupInv ext ((pre ++ [v]) ++ rest) p w := by simpa using h.inv
  have hrest := ih hinv hv (fun a ha x hx => ?_) heq
  · refine ⟨by simpa using hrest.1, (hset.spares.trans h.spares).trans hrest.2.1, hrest.2.2.1.trans h.parentBare,
      hrest.2.2.2.1.trans (hfixed h.bare), by simpa using hrest.2.2.2.2⟩
  by_contra hc
  rcases h.filled x (by simpa using hc) with hy | hy
  · rw [hset.entry, hempty a (mem_cons_of_mem v ha) x hx] at hy
    cases hy
  -- the page is in two areas
  obtain ⟨va, hva, rfl⟩ := mem_map.mp hy
  have heq := hi.vmas.eq_of_contains hmem (by simp [ha]) (hcov va hva).addr hx
  have hle := hi.vmas.around.2 a ha
  have hlt := (hi.vmas.each v hmem).lt
  rw [heq] at hle hlt
  omega

theorem mmCreate_spec {u u' : Supply} (h : mmCreate u = (some mm, u')) :
    mm.refcount = 1 ∧ mm.pgd = (fun _ => none) ∧ mm.vmas = [] ∧ mm.rssPages = 0 ∧ MmOk 0 mm := by
  unfold mmCreate at h
  split at h
  · cases h
  split at h
  · cases h
  split at h
  · cases h
  simp only at h
  cases h
  refine ⟨rfl, rfl, rfl, rfl, .nil 0, le_rfl, le_rfl, ?_, ?_, ?_, ?_, ?_⟩ <;>
    simp only [PAGE_SIZE, USER_STACK_TOP_BASE, USER_STACK_MAX, USER_MMAP_GAP, USER_MIN_ADDR, USER_VA_END] <;> omega

theorem refs_of_empty (h : mm.pgd = fun _ => none) (p : Nat) : refs mm p = 0 := by
  simp [refs, Pgd.entry, h, Pte.owns]

theorem mapped_of_empty (h : mm.pgd = fun _ => none) : mapped mm = 0 := by
  simp [mapped, Pgd.entry, h]

theorem DupInv.child {parent : Mm} (h : DupInv ext l parent s) : Inv (fun p => refs parent p + ext p) l s := by
  refine ⟨h.vmas, fun p => ?_, h.free, h.childRss, fun x hx => ?_, h.calm⟩
  · have := h.refcount p
    omega
  have heq := h.copied x hx
  rw [heq] at hx ⊢
  exact h.placed x hx

theorem DupInv.parent {parent : Mm} (h : DupInv ext l parent s) :
    Inv (fun p => refs s.mm p + ext p) l { s with mm := parent } :=
  ⟨h.vmas, fun p => (h.refcount p).trans (Nat.add_assoc _ _ _), h.free, h.rss, h.placed, h.calm⟩

theorem DupInv.abandon {parent : Mm} (h : DupInv ext l parent s) (ht : freeTables s = t) :
    Inv ext l { t with mm := parent } ∧ Spares ext s { t with mm := parent } := by
  obtain ⟨hcalm, hcount, hfree⟩ := freeTables_spec h.child
  rw [ht] at hcalm hcount hfree
  refine ⟨⟨h.vmas, hcount, hfree, h.rss, fun x hx => ?_, hcalm⟩, fun p hp hone => ?_⟩
  · obtain ⟨v, hv, hc, hf⟩ := h.placed x hx
    refine ⟨v, hv, hc, hf.io, fun hp hr => ?_⟩
    have h1 := hf.sole hp hr
    have h2 := h.refcount (parent.pgd.entry x).frame
    have h3 := refs_pos (Pte.owns_frame (hf.owned hp hx))
    have h4 := hcount (parent.pgd.entry x).frame
    simp only
    omega
  have h1 := h.refcount p
  have h2 := hcount p
  simp only
  omega

theorem bare_of_fixed {mm' : Mm} (h : mm'.fixed = mm.fixed) : mm'.bare = { mm.bare with vmas := mm'.vmas } := by
  cases mm
  cases mm'
  simpa [Mm.fixed, Mm.bare] using h

theorem mmDup_spec {r : Option Mm} (hok : MmOk 0 s.mm) (hi : Inv ext s.mm.vmas s) (heq : mmDup s = (r, t)) :
    Spares ext s t ∧ t.mm.bare = s.mm.bare ∧ match r with
      | none => Inv ext t.mm.vmas t
      | some child => MmOk 0 child ∧ Inv (fun p => refs child p + ext p) t.mm.vmas t ∧
          Inv (fun p => refs t.mm p + ext p) child.vmas { t with mm := child } := by
  simp only [mmDup] at heq
  split at heq
  · cases heq
    exact ⟨fun _ _ h => h, rfl, hi.same (fun _ => rfl) (fun _ => rfl) (fun _ => rfl) rfl rfl⟩
  rename_i mm u hcreate
  obtain ⟨href, hpgd, hvmas, hrss, _⟩ := mmCreate_spec hcreate
  generalize hchild : ({ mm with
    brkStart := s.mm.brkStart, brk := s.mm.brk, mmapBase := s.mm.mmapBase, stackTop := s.mm.stackTop } : Mm) = child at heq
  have hempty : child.pgd = fun _ => none := by
    subst hchild
    exact hpgd
  have hchildOk : MmOk 0 child := by
    subst hchild
    exact ⟨hvmas ▸ .nil 0, hok.le_brkStart, hok.brkStart_le, hok.brk_lt, hok.mmapBase_dvd, hok.mmapBase_le,
      hok.le_stackTop, hok.stackTop_lt⟩
  have hstart : DupInv ext ([] ++ s.mm.vmas) s.mm { s with mm := child, supply := u } := by
    refine ⟨hi.vmas, fun p => ?_, hi.free, hi.rss, ?_, hi.placed, fun x hx => ?_, hi.calm⟩
    · simp only [refs_of_empty hempty, Nat.add_zero]
      exact hi.refcount p
    · simp only [mapped_of_empty hempty]
      subst hchild
      exact hrss
    · simp only [hempty, Pgd.entry] at hx
      cases hx
  generalize hdup : dupVmas s.mm.vmas s.mm { s with mm := child, supply := u } = res at heq
  obtain ⟨b, parent, w⟩ := res
  obtain ⟨hinv, hspares, hbare, hfixed, hdone⟩ := dupVmas_spec s.mm.vmas hstart (by subst hchild; exact hvmas)
    (fun v _ x _ => by simp only [hempty, Pgd.entry]; rfl) hdup
  simp only [nil_append] at hinv hdone
  have hpv := vmas_of_bare hbare
  cases b with
  | true =>
    cases heq
    have hwv := hdone rfl
    refine ⟨hspares, hbare, hchildOk.setVmas (hwv ▸ hinv.vmas) (bare_of_fixed hfixed), ?_, ?_⟩
    · rw [hpv]
      exact hinv.parent
    · rw [hwv]
      exact hinv.child
  | false =>
  have hone : w.mm.refcount = 1 := by
    have h : w.mm.refcount = child.refcount := by simpa [Mm.fixed, Mm.bare] using congrArg Mm.refcount hfixed
    rw [h]
    subst hchild
    exact href
  simp only [mmPut, hone, Nat.lt_irrefl, if_false] at heq
  generalize hfree : freeTables w = f at heq
  cases heq
  obtain ⟨hinv', hspares'⟩ := hinv.abandon hfree
  refine ⟨hspares.trans hspares', hbare, ?_⟩
  rw [hpv]
  exact hinv'

end Olux.Vm
