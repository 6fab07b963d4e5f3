import Olux.Fat.Move.Moved
import Olux.Fat.Tower

namespace Olux.Fat

open Olux.Lib Relation List Option

variable {g : Geom} {s t u : St} {own : Owner → List Nat} {l l' m freed : List Nat} {d x j i y : Nat} {o : Owner}
  {e f : De} {D : Dir} {a : Ent} {es : List De} {p : Loc}

namespace Moved

variable {r : Renamed} {e e' : De} (h : Consistent g (vol g s) own) (hm : Moved g s t own r e e')
include h hm

omit h in
theorem same : e'.isDir = e.isDir ∧ e'.attr = e.attr ∧ e'.size = e.size ∧ deStart g e' = deStart g e := by
  obtain ⟨sn, ntres, rfl⟩ := hm.like
  exact ⟨rfl, rfl, rfl, rfl⟩

end Moved

end Olux.Fat
