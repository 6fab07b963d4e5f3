import Mathlib

namespace Olux.Lib

open Relation

variable {α : Type*} {r r' : α → α → Prop} {root : α}

end Olux.Lib
