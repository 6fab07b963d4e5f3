import Mathlib

namespace Olux.Lib

-- What holds in every state of a run, event by event.

variable {σ ε : Type} {f : σ → ε → σ} {s : σ} {evs : List ε} {k : Nat} {ev : ε}

theorem foldl_take_succ (h : evs[k]? = some ev) : (evs.take (k + 1)).foldl f s = f ((evs.take k).foldl f s) ev := by
  obtain ⟨hlt, heq⟩ := List.getElem?_eq_some_iff.mp h
  rw [List.take_succ_eq_append_getElem hlt, heq, List.foldl_append]
  rfl

theorem foldl_take_end (h : evs[k]? = none) : (evs.take (k + 1)).foldl f s = (evs.take k).foldl f s := by
  have hle := List.getElem?_eq_none_iff.mp h
  rw [List.take_of_length_le hle, List.take_of_length_le (by omega)]

theorem prefixes_of_steps {I : σ → Prop} (hs : I s)
    (h : ∀ k ev, evs[k]? = some ev → I ((evs.take k).foldl f s) → I (f ((evs.take k).foldl f s) ev)) (k : Nat) :
    I ((evs.take k).foldl f s) := by
  induction k with
  | zero => exact hs
  | succ k ih =>
    cases hev : evs[k]? with
    | none => exact foldl_take_end (f := f) hev ▸ ih
    | some ev => exact foldl_take_succ (f := f) hev ▸ h k ev hev ih

theorem prefixes {I : σ → Prop} {bad : σ → ε → Bool} (hs : I s) (hstep : ∀ s ev, I s → bad s ev = false → I (f s ev))
    (h : ∀ k ev, evs[k]? = some ev → bad ((evs.take k).foldl f s) ev = false) (k : Nat) : I ((evs.take k).foldl f s) :=
  prefixes_of_steps hs (fun k ev hev hI => hstep _ ev hI (h k ev hev)) k

-- If a bad step ends what `I` implies, then this holds in all states of a run iff the run has no
-- bad step.
theorem prefixes_iff {I P : σ → Prop} {bad : σ → ε → Bool} (hs : I s)
    (hstep : ∀ s ev, I s → bad s ev = false → I (f s ev)) (hP : ∀ s, I s → P s)
    (hbad : ∀ s ev, I s → bad s ev = true → ¬ P (f s ev)) :
    (∀ k, P ((evs.take k).foldl f s)) ↔ ∀ k ev, evs[k]? = some ev → bad ((evs.take k).foldl f s) ev = false := by
  refine ⟨fun h k ev hev => ?_, fun h k => hP _ (prefixes hs hstep h k)⟩
  have hgood : ∀ k ev, evs[k]? = some ev → I ((evs.take k).foldl f s) → bad ((evs.take k).foldl f s) ev = false := by
    intro k ev hev hI
    refine eq_false_of_ne_true fun hb => hbad _ ev hI hb ?_
    exact foldl_take_succ (f := f) hev ▸ h (k + 1)
  exact hgood k ev hev (prefixes_of_steps hs (fun k ev hev hI => hstep _ ev hI (hgood k ev hev hI)) k)

end Olux.Lib
