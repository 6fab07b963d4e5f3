import Olux.Fat.Entry.Lemmas
import Olux.Fat.Volume

namespace Olux.Fat

open Olux.Lib List Option

variable {D : Dir} {e : De} {i j : Nat}

def Long (e : De) : Prop := e.attr = A_LFN ∧ lead e.name ≠ 0 ∧ lead e.name ≠ 0xE5

def Pending (D : Dir) (i : Nat) (lfn : Lfn) : Prop :=
  lfn.expect ≠ 0 → lfn.first ≤ i ∧ ∀ j, lfn.first ≤ j → j < i → ∃ e, D.e[j]? = some e ∧ Long e

theorem Pending.drop (lfn : Lfn) : Pending D i { lfn with expect := 0 } := fun h => absurd rfl h

theorem Pending.step {lfn : Lfn} (h : Pending D i lfn) (he : D.e[i]? = some e) (hlong : Long e) :
    Pending D (i + 1) (lfnStep i e lfn) := by
  unfold lfnStep
  dsimp only
  split
  · split
    · exact .drop _
    · refine fun _ => ⟨Nat.le_succ i, fun j hj hlt => ?_⟩
      obtain rfl : j = i := Nat.le_antisymm (Nat.le_of_lt_succ hlt) hj
      exact ⟨e, he, hlong⟩
  split
  · exact .drop _
  rename_i hexpect
  obtain ⟨hfirst, hall⟩ := h fun hz => hexpect (.inl hz)
  refine fun _ => ⟨Nat.le_succ_of_le hfirst, fun j hj hlt => ?_⟩
  rcases Nat.lt_or_eq_of_le (Nat.le_of_lt_succ hlt) with hlt | rfl
  · exact hall j hj hlt
  · exact ⟨e, he, hlong⟩

def Lists (D : Dir) (a : Ent) : Prop :=
  a.first ≤ a.idx ∧ ∃ e, D.e[a.idx]? = some e ∧ live e = true ∧
    ∀ j, a.first ≤ j → j < a.idx → ∃ f, D.e[j]? = some f ∧ Long f

theorem dirNextFrom_found {es : List De} {lfn : Lfn} {a : Ent} (h : dirNextFrom es i lfn = some a) (hes : es = D.e.drop i)
    (hp : Pending D i lfn) : Lists D a := by
  induction es generalizing i lfn with
  | nil => cases h
  | cons e es ih =>
  obtain ⟨hat, hrest⟩ := cons_eq_drop hes
  rw [dirNextFrom] at h
  split at h
  · cases h
  rename_i hz
  split at h
  · exact ih h hrest (.drop _)
  rename_i hdel
  split at h
  · rename_i hattr
    exact ih h hrest (hp.step hat ⟨hattr, hz, hdel⟩)
  split at h
  · exact ih h hrest (.drop _)
  rename_i hlive
  have hlive : live e = true := by simpa using hlive
  split at h
  · rename_i hname
    obtain rfl := some.inj h
    obtain ⟨hfirst, hall⟩ := hp (by rw [hname.1]; decide)
    exact ⟨hfirst, e, hat, hlive, hall⟩
  · obtain rfl := some.inj h
    exact ⟨Nat.le_refl i, e, hat, hlive, fun j hj hlt => absurd hlt (Nat.not_lt.mpr hj)⟩

theorem dirFind_found {name : List UInt8} {a : Ent} (h : dirFind D name = some a) : Lists D a := by
  unfold dirFind at h
  generalize D.e.length + 1 = k at h
  generalize 0 = pos at h
  induction k generalizing pos with
  | zero => cases h
  | succ k ih =>
  rw [dirFindLoop] at h
  cases hn : dirNext D pos with
  | none =>
    rw [hn] at h
    cases h
  | some b =>
  have hb : Lists D b := dirNextFrom_found hn rfl (.drop ⟨fun _ => 0, 0, 0, 0, 0⟩)
  rw [hn] at h
  dsimp only at h
  split at h
  · obtain rfl := some.inj h
    exact hb
  split at h
  · obtain rfl := some.inj h
    exact hb
  · exact ih _ h

theorem Long.not_live (h : Long e) : live e = false := by simp [live, h.1]

def Free (e : De) : Prop := lead e.name = 0 ∨ lead e.name = 0xE5

theorem Free.not_live (h : Free e) : live e = false := by
  rcases h with h | h <;> simp [live, h]

theorem Long.not_free (h : Long e) : ¬Free e := fun hf => hf.elim h.2.1 h.2.2

theorem not_free_of_live (h : live e = true) : ¬Free e := fun hf => by
  rw [hf.not_live] at h
  cases h

def deleted (e : De) : De := { e with name := setLead e.name 0xE5 }

theorem deleted_free (e : De) : Free (deleted e) := .inr (by simp [deleted])

theorem markDeleted_get (es : List De) (first idx j : Nat) : (markDeleted es first idx)[j]? =
    if first ≤ j ∧ j ≤ idx then es[j]?.map deleted else es[j]? := by
  rw [markDeleted, getElem?_mapIdx]
  cases es[j]? with
  | none => simp
  | some e =>
    by_cases h : first ≤ j ∧ j ≤ idx
    · rw [if_pos h, map_some, if_pos h]
      rfl
    · rw [if_neg h, map_some, if_neg h]

@[simp] theorem markDeleted_length (es : List De) (first idx : Nat) : (markDeleted es first idx).length = es.length := by
  simp [markDeleted]

end Olux.Fat
