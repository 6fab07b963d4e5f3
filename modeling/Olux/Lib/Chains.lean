import Olux.Lib.Linked

namespace Olux.Lib

open List

variable {α β ι : Type*}

-- How the rows of an allocation table are read: a row names the next element of a chain, or
-- marks the end of one, or is free, or is out of use.
structure Rows (α β : Type*) where
  valid : α → Prop
  next : β → Option α
  ends : β → Prop
  free : β
  bad : β
  next_free : next free = none
  ends_free : ¬ends free
  valid_next : ∀ {v c}, next v = some c → valid c

variable (R : Rows α β)

namespace Rows

def link (get : α → β) (c : α) : Option α := R.next (get c)

def Chain (get : α → β) : List α → Prop
  | [] => True
  | a :: l => R.valid a ∧ Linked (R.link get) (fun c => R.ends (get c)) a l

structure Swap (get get' : α → β) (l l' : List α) : Prop where
  chain : R.Chain get' l'
  same : ∀ c, c ∉ l → c ∉ l' → get' c = get c
  freed : ∀ c ∈ l, c ∉ l' → get' c = R.free
  fresh : ∀ c ∈ l', c ∉ l → get c = R.free

structure Books (get : α → β) (own : ι → List α) : Prop where
  chain : ∀ o, R.Chain get (own o)
  disjoint : ∀ {o o' c}, c ∈ own o → c ∈ own o' → o = o'
  covered : ∀ c, R.valid c → get c ≠ R.free → get c ≠ R.bad → ∃ o, c ∈ own o

variable {R} {get get' get'' : α → β} {l l' l'' : List α}

theorem Chain.tail {a : α} (h : R.Chain get (a :: l)) : R.Chain get l := by
  cases l with
  | nil => trivial
  | cons b l => exact ⟨R.valid_next h.2.1, h.2.2⟩

theorem Chain.valid (h : R.Chain get l) {c : α} (hc : c ∈ l) : R.valid c := by
  induction l with
  | nil => exact absurd hc (by simp)
  | cons a l ih =>
    rcases mem_cons.mp hc with rfl | hc
    · exact h.1
    · exact ih h.tail hc

theorem Chain.nodup (h : R.Chain get l) : l.Nodup := by
  cases l with
  | nil => exact nodup_nil
  | cons a l => exact h.2.nodup

theorem Chain.congr (h : R.Chain get l) (hget : ∀ c ∈ l, get' c = get c) : R.Chain get' l := by
  cases l with
  | nil => trivial
  | cons a l =>
    refine ⟨h.1, h.2.congr (fun c hc => ?_) (fun c hc hend => ?_)⟩
    · rw [link, link, hget c hc]
    · rw [hget c hc]
      exact hend

theorem Chain.ne_free (h : R.Chain get l) {c : α} (hc : c ∈ l) : get c ≠ R.free := by
  intro hfree
  cases l with
  | nil => exact absurd hc (by simp)
  | cons a l =>
  obtain ⟨pre, post, _, hpost⟩ := h.2.suffix hc
  cases post with
  | nil =>
    have hends : R.ends (get c) := hpost.2
    rw [hfree] at hends
    exact R.ends_free hends
  | cons b post =>
    have hnext := hpost.1
    rw [link, hfree, R.next_free] at hnext
    exact absurd hnext (by simp)

theorem Chain.link_of_pre (h : R.Chain get l) (h' : R.Chain get' l') (hpre : l <+: l') {c : α} (hc : c ∈ l) :
    (∃ d, R.next (get c) = some d ∧ R.next (get' c) = some d) ∨ R.ends (get c) := by
  induction l generalizing l' with
  | nil => exact absurd hc (by simp)
  | cons a l ih =>
  obtain ⟨m, rfl⟩ := hpre
  rcases mem_cons.mp hc with rfl | hc
  · cases l with
    | nil => exact .inr h.2.2
    | cons b l => exact .inl ⟨b, h.2.1, h'.2.1⟩
  · exact ih h.tail h'.tail (prefix_append l m) hc

theorem Chain.last_ends (h : R.Chain get l) {c : α} (hc : l.getLast? = some c) : R.ends (get c) := by
  rcases h.link_of_pre h (prefix_refl l) (mem_of_getLast? hc) with ⟨d, hd, _⟩ | hends
  · cases l with
    | nil => cases hc
    | cons a l =>
      have hnone : R.next (get c) = none := h.2.last hc
      rw [hnone] at hd
      cases hd
  · exact hends

theorem Swap.snoc (h : R.Chain get l) {c : α} (hc : R.valid c) (hfree : get c = R.free)
    (hend : R.next (get' c) = none ∧ R.ends (get' c)) (hlast : ∀ b, l.getLast? = some b → R.next (get' b) = some c)
    (hsame : ∀ d, d ≠ c → l.getLast? ≠ some d → get' d = get d) : R.Swap get get' l (l ++ [c]) := by
  have hnot : c ∉ l := fun hmem => h.ne_free hmem hfree
  refine ⟨?_, fun d hd hd' => ?_, fun d hd hd' => ?_, fun d hd hd' => ?_⟩
  · cases l with
    | nil => exact ⟨hc, hend⟩
    | cons a l =>
    refine ⟨h.1, h.2.snoc hlast (fun d hd hnext => ?_) hend.1 hend.2⟩
    have hlast' : (a :: l).getLast? ≠ some d := fun hl => hnext (h.2.last hl)
    have hdc : d ≠ c := by
      rintro rfl
      exact hnot hd
    rw [link, link, hsame d hdc hlast']
  · have hdc : d ≠ c := by
      rintro rfl
      exact hd' (by simp)
    exact hsame d hdc fun hl => hd (mem_of_getLast? hl)
  · exact absurd (mem_append_left _ hd) hd'
  rcases mem_append.mp hd with hd | hd
  · exact absurd hd hd'
  · obtain rfl := mem_singleton.mp hd
    exact hfree

variable {own : ι → List α}

end Rows

end Olux.Lib
